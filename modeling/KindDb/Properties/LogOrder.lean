import KindDb.Server.Pool
import KindDb.Server.Versions
import KindDb.SerdeJson

/-! # Log order against tree order

Concurrent calls take their ids, their places in the log and their places in
the tree in separate steps.  The ids in the log ascend as long as no call
appends while another one holds a smaller id that it has not appended yet.  The
log replays to the tree as long as the calls that log a key write it in the
order in which they have logged it, and no delete removes it from the tree
meanwhile, or has removed it and has still to log that. -/
set_option autoImplicit false

namespace KindDb.LogOrder

open KindDb.Lib KindDb.Lib.Overlay KindDb.Lib.Pending KindDb.Lib.Runs KindDb.KindServerImpl

/-! ## Taking a version and appending -/

def appends : Action → Bool
  | .append _ => true
  | _ => false

/-- The call has taken its id and has still to append it. -/
def Waiting (thread : Option Thread) (version : Nat) : Prop :=
  ∃ todo, thread = some (.running version todo) ∧ (∃ a ∈ todo, appends a = true) ∧
    ∀ a ∈ todo, a.takesVersion = false

/-- No version is taken and nothing appended after the append. -/
def Sequenced : List Action → Prop
  | [] => True
  | action :: rest =>
      (appends action = true → ∀ a ∈ rest, a.takesVersion = false ∧ appends a = false) ∧
        Sequenced rest

theorem sequenced_append {first second : List Action}
    (silent : ∀ a ∈ first, appends a = false) (sequenced : Sequenced second) :
    Sequenced (first ++ second) := by
  induction first with
  | nil => exact sequenced
  | cons action rest ih =>
      refine ⟨fun isAppend => ?_, ih fun a member => silent a (List.mem_cons_of_mem _ member)⟩
      rw [silent action List.mem_cons_self] at isAppend
      cases isAppend

theorem silent_applies (entries : List (String × Option DbRecord)) {a : Action}
    (member : a ∈ commitApplies entries) : a.takesVersion = false ∧ appends a = false := by
  obtain ⟨entry, _, listed⟩ := List.mem_flatMap.mp member
  simp only [List.mem_cons, List.not_mem_nil, or_false] at listed
  rcases listed with rfl | rfl <;> exact ⟨rfl, rfl⟩

/-- A call that is to append takes a version first. -/
theorem sequenced_program (now : UInt64) (call : Call) :
    Sequenced (program false now call) ∧
      ((∃ a ∈ program false now call, appends a = true) →
        ∃ a ∈ program false now call, a.takesVersion = true) := by
  cases call with
  | commit tx =>
      refine ⟨⟨by simp [appends], sequenced_append (fun a member => ?_)
        ⟨by simp [appends], fun _ a member => ?_, ?_⟩⟩,
        fun _ => ⟨.commitFetchAdd, by simp [program, commitProgram], rfl⟩⟩
      · obtain ⟨entry, _, rfl⟩ := List.mem_map.mp member
        rfl
      · rcases List.mem_cons.mp member with rfl | later
        · exact ⟨rfl, rfl⟩
        · rcases List.mem_append.mp later with applied | last
          · exact silent_applies _ applied
          · simp only [List.mem_cons, List.not_mem_nil, or_false] at last
            rcases last with rfl | rfl <;> exact ⟨rfl, rfl⟩
      · refine ⟨by simp [appends],
          sequenced_append (fun a member => (silent_applies _ member).2) ?_⟩
        simp [Sequenced, appends]
  | _ =>
      simp [program, putProgram, deleteProgram, casProgram, Sequenced, appends,
        Action.takesVersion]

theorem not_appends_early {now : UInt64} {s : KindServerImpl} {action : Action}
    {ending : List Action} (ends : action.endsEarly now s = some ending) :
    ∀ a ∈ ending, appends a = false := by
  rcases Action.endsEarly_cases ends with rfl | rfl | rfl <;>
    simp [deleteMissed, casFailed, commitFailed, appends]

/-- A key is written before it is logged only to remove it, and a version is
taken before the keys that are to be written are logged. -/
def Forward : List Action → Prop
  | [] => True
  | action :: rest =>
      (∀ u ∈ action.written, u.1 ∈ touched (pending Action.logged rest) → u.2 = none) ∧
        (action.takesVersion = true → ∀ key ∈ touched (pending Action.written rest),
          key ∈ touched (pending Action.logged rest)) ∧ Forward rest

theorem forward_silent {todo : List Action}
    (silent : ∀ a ∈ todo, a.logged = [] ∧ a.takesVersion = false) : Forward todo := by
  induction todo with
  | nil => trivial
  | cons action rest ih =>
      have later := fun a member => silent a (List.mem_cons_of_mem action member)
      have nothing : pending Action.logged rest = [] :=
        List.flatMap_eq_nil_iff.mpr fun a member => (later a member).1
      refine ⟨fun u _ named => ?_, fun takes => ?_, ih later⟩
      · rw [nothing] at named
        cases named
      · rw [(silent action List.mem_cons_self).2] at takes
        cases takes

theorem forward_append {first second : List Action}
    (quiet : ∀ a ∈ first, a.written = [] ∧ a.takesVersion = false) (forward : Forward second) :
    Forward (first ++ second) := by
  induction first with
  | nil => exact forward
  | cons action rest ih =>
      obtain ⟨written, taken⟩ := quiet action List.mem_cons_self
      refine ⟨fun u member => ?_, fun takes => ?_,
        ih fun a member => quiet a (List.mem_cons_of_mem _ member)⟩
      · rw [written] at member
        cases member
      · rw [taken] at takes
        cases takes

theorem forward_program (now : UInt64) (call : Call) : Forward (program false now call) := by
  cases call with
  | commit tx =>
      obtain ⟨logged, _, written⟩ := pending_applies tx.writeSet.entries
      have checks : ∀ a ∈ Action.lock :: commitChecks tx, a.written = [] ∧
          a.takesVersion = false := by
        intro a member
        rcases List.mem_cons.mp member with rfl | check
        · exact ⟨rfl, rfl⟩
        · obtain ⟨entry, _, rfl⟩ := List.mem_map.mp check
          exact ⟨rfl, rfl⟩
      refine forward_append checks ⟨fun u member => (by cases member), fun _ key named => ?_,
        fun u member => (by cases member), fun takes => (by cases takes), forward_silent ?_⟩
      · simpa [Action.logged, Action.written, logged, written, updates_commitCommand]
          using named
      · intro a member
        rcases List.mem_cons.mp member with rfl | later
        · exact ⟨rfl, rfl⟩
        · rcases List.mem_append.mp later with applied | last
          · obtain ⟨entry, _, listed⟩ := List.mem_flatMap.mp applied
            simp only [List.mem_cons, List.not_mem_nil, or_false] at listed
            rcases listed with rfl | rfl <;> exact ⟨rfl, rfl⟩
          · simp only [List.mem_cons, List.not_mem_nil, or_false] at last
            rcases last with rfl | rfl <;> exact ⟨rfl, rfl⟩
  | _ =>
      simp [program, putProgram, deleteProgram, casProgram, Forward, Action.takesVersion,
        Action.written, Action.logged, WalCommand.updates, touched]

section Steps
variable [Serde] {Holder : Type} {me : Holder} {now : UInt64} {sh sh' : Shared Holder}
  {version : Nat} {action : Action} {rest : List Action} {thread : Thread}

/-- Where the id of a waiting call comes from. -/
theorem waiting_after (effect : action.Effect me now sh version rest sh' thread)
    (sequenced : Sequenced (action :: rest)) {v : Nat} (waiting : Waiting (some thread) v) :
    (action.takesVersion = true ∧ v = sh.server.globalVersion + 1) ∨
      (action.takesVersion = false ∧ appends action = false ∧
        Waiting (some (.running version (action :: rest))) v) := by
  obtain ⟨todo, same, ⟨a, member, isAppend⟩, taken⟩ := waiting
  have became := effect.thread
  have running : thread = .running
      (if action.takesVersion then sh.server.globalVersion + 1 else version)
      ((action.endsEarly now sh.server).getD rest) := by
    cases action with
    | reply r =>
        rw [show thread = .done r from became] at same
        cases same
    | load =>
        rw [show thread = .done (.handle sh.server.beginTransaction) from became] at same
        cases same
    | _ => exact became
  rw [running, Option.some.injEq, Thread.running.injEq] at same
  obtain ⟨sameVersion, sameTodo⟩ := same
  subst sameTodo
  have onward : (action.endsEarly now sh.server).getD rest = rest := by
    cases ends : action.endsEarly now sh.server with
    | none => rfl
    | some ending =>
        rw [ends] at member
        rw [not_appends_early ends a member] at isAppend
        cases isAppend
  rw [onward] at member taken
  cases takes : action.takesVersion with
  | true =>
      rw [takes, if_pos rfl] at sameVersion
      exact Or.inl ⟨rfl, sameVersion.symm⟩
  | false =>
      rw [takes, if_neg Bool.false_ne_true] at sameVersion
      refine Or.inr ⟨rfl, ?_, action :: rest, by rw [sameVersion],
        ⟨a, List.mem_cons_of_mem _ member, isAppend⟩, fun b listed => ?_⟩
      · rw [← Bool.not_eq_true]
        intro appended
        rw [(sequenced.1 appended a member).2] at isAppend
        cases isAppend
      · rcases List.mem_cons.mp listed with rfl | later
        · exact takes
        · exact taken b later

theorem sequenced_after (effect : action.Effect me now sh version rest sh' thread)
    (sequenced : Sequenced (action :: rest)) : Sequenced (Thread.todo (some thread)) := by
  have became := effect.thread
  have onward : Sequenced ((action.endsEarly now sh.server).getD rest) := by
    cases ends : action.endsEarly now sh.server with
    | none => exact sequenced.2
    | some ending =>
        have silent := @sequenced_append ending [] (not_appends_early ends) trivial
        rwa [List.append_nil] at silent
  cases action with
  | reply r =>
      rw [show thread = .done r from became]
      trivial
  | load =>
      rw [show thread = .done (.handle sh.server.beginTransaction) from became]
      trivial
  | _ =>
      rw [became]
      exact onward

theorem forward_after (effect : action.Effect me now sh version rest sh' thread)
    (forward : Forward (action :: rest)) : Forward (Thread.todo (some thread)) := by
  have became := effect.thread
  have onward : Forward ((action.endsEarly now sh.server).getD rest) := by
    cases ends : action.endsEarly now sh.server with
    | none => exact forward.2.2
    | some ending =>
        refine forward_silent fun a member => ?_
        rcases Action.endsEarly_cases ends with rfl | rfl | rfl <;>
          simp only [Option.getD_some, deleteMissed, casFailed, commitFailed, List.mem_cons,
            List.not_mem_nil, or_false] at member
        · exact member ▸ ⟨rfl, rfl⟩
        · rcases member with rfl | rfl <;> exact ⟨rfl, rfl⟩
        · rcases member with rfl | rfl <;> exact ⟨rfl, rfl⟩
  cases action with
  | reply r =>
      rw [show thread = .done r from became]
      trivial
  | load =>
      rw [show thread = .done (.handle sh.server.beginTransaction) from became]
      trivial
  | _ =>
      rw [became]
      exact onward

theorem logged_after (effect : action.Effect me now sh version rest sh' thread)
    (wal : ∃ file, sh.server.wal = some file ∧ (Wal.readAllCommands file).isSome = true) :
    ∃ new, sh'.server.logged = sh.server.logged ++ new ∧ (∀ l ∈ new, l.1 = version) ∧
      new.length ≤ 1 ∧ (appends action = false → new = []) ∧
      new.flatMap (fun l => l.2.updates) = action.logged := by
  obtain ⟨file, held, readable⟩ := wal
  have moved := effect.wal
  cases action with
  | append command =>
      obtain ⟨commands, found⟩ := Option.isSome_iff_exists.mp readable
      refine ⟨[(version, command)], ?_, by simp, le_rfl, by simp [appends],
        by simp [Action.logged]⟩
      simp only [KindServerImpl.logged, moved, held, Option.map_some, Option.getD_some,
        Wal.readAllCommands_append, found]
  | _ =>
      exact ⟨[], by simp [KindServerImpl.logged, moved], by simp, by simp, fun _ => rfl, rfl⟩

end Steps

/-! ## One key -/

/-- How far a call is with a key: `toSecond` once it has logged it and has still
to write it to the tree, `toFirst` the other way about. -/
def stageOf (key : String) : Option Thread → Stage Content
  | some (.running version todo) =>
      match (pending Action.logged todo).lookup key, (pending Action.written todo).lookup key with
      | none, some value => .toSecond version value
      | some value, none => .toFirst value
      | _, _ => .level
  | _ => .level

/-- A call with as much to log as to write is level. -/
theorem stage_level (version : Nat) {todo : List Action}
    (even : pending Action.logged todo = pending Action.written todo) (key : String) :
    stageOf key (some (.running version todo)) = .level := by
  simp only [stageOf, even]
  cases (pending Action.written todo).lookup key <;> rfl

theorem lookup_of_mem {updates : List (Update String Content)} (distinct : (touched updates).Nodup)
    {key : String} {value : Option Content} (member : (key, value) ∈ updates) :
    updates.lookup key = some value := by
  cases found : updates.lookup key with
  | none => exact absurd (List.lookup_eq_none_iff.mp found _ member) (by simp)
  | some held =>
      obtain ⟨before, later, split, _⟩ := List.lookup_eq_some_iff.mp found
      have inUpdates : (key, held) ∈ updates :=
        split ▸ List.mem_append_right before List.mem_cons_self
      have same := List.inj_on_of_nodup_map distinct member inUpdates rfl
      exact congrArg some (congrArg Prod.snd same).symm

theorem lookup_of_not_touched {updates : List (Update String Content)} {key : String}
    (absent : key ∉ touched updates) : updates.lookup key = none := by
  refine List.lookup_eq_none_iff.mpr fun update member => ?_
  have other : update.1 ≠ key := fun same => absent (same ▸ List.mem_map_of_mem member)
  simpa using other.symm

theorem touched_of_lookup {updates : List (Update String Content)} {key : String}
    {value : Option Content} (found : updates.lookup key = some value) :
    (key, value) ∈ updates ∧ key ∈ touched updates := by
  obtain ⟨before, later, split, _⟩ := List.lookup_eq_some_iff.mp found
  have member : (key, value) ∈ updates := split ▸ List.mem_append_right before List.mem_cons_self
  exact ⟨member, List.mem_map_of_mem member⟩

/-- What an action is for a key. -/
inductive Turn (key : String) (version : Nat) (action : Action) (rest : List Action)
    (before after : Stage Content) : Prop
  | stays (same : after = before) (unlogged : key ∉ touched action.logged)
      (unwritten : key ∉ touched action.written)
  | logs {value : Option Content} (level : before = .level)
      (half : after = .toSecond version value) (appending : appends action = true)
      (unwritten : action.written = []) (named : (key, value) ∈ action.logged)
      (later : key ∈ touched (pending Action.written rest))
  | confirms {value : Option Content} (half : before = .toFirst value) (level : after = .level)
      (unwritten : action.written = []) (named : (key, value) ∈ action.logged)
  | writes {value : Option Content} (half : before = .toSecond version value)
      (level : after = .level) (unlogged : action.logged = [])
      (named : (key, value) ∈ action.written)
  | removes (level : before = .level) (half : after = .toFirst none)
      (unlogged : action.logged = []) (named : (key, none) ∈ action.written)
      (later : key ∈ touched (pending Action.logged rest))

/-- An action writes to the log or to the tree, not to both. -/
theorem onePart (action : Action) : action.logged = [] ∨ action.written = [] := by
  cases action <;> simp [Action.logged, Action.written]

theorem notAgain {updates arrived rest : List (Update String Content)} {key : String}
    (split : updates = arrived ++ rest) (distinct : (touched updates).Nodup)
    (named : key ∈ touched arrived) : key ∉ touched rest := by
  rw [split, touched_append] at distinct
  exact fun later => (List.nodup_append.mp distinct).2.2 key named key later rfl

section Turns
variable [Serde] {Holder : Type} {me : Holder} {now : UInt64} {sh sh' : Shared Holder}
  {version : Nat} {action : Action} {rest : List Action} {thread : Thread}

theorem stage_next (effect : action.Effect me now sh version rest sh' thread) (key : String) :
    stageOf key (some thread) = stageOf key (some (.running
      (if action.takesVersion then sh.server.globalVersion + 1 else version)
      (Thread.todo (some thread)))) := by
  have became := effect.thread
  cases action with
  | reply r =>
      rw [show thread = .done r from became]
      rfl
  | load =>
      rw [show thread = .done (.handle sh.server.beginTransaction) from became]
      rfl
  | _ =>
      rw [became]
      rfl

/-- An action that does not name the key leaves the call where it is with it: such
an action may take a version, but not between logging and writing the key. -/
theorem stage_unnamed (effect : action.Effect me now sh version rest sh' thread)
    (forward : Forward (action :: rest)) (goesOn : Thread.todo (some thread) = rest) {key : String}
    (unlogged : key ∉ touched action.logged) (unwritten : key ∉ touched action.written) :
    stageOf key (some thread) = stageOf key (some (.running version (action :: rest))) := by
  rw [stage_next effect key, goesOn]
  simp only [stageOf, pending_cons, List.lookup_append, lookup_of_not_touched unlogged,
    lookup_of_not_touched unwritten, Option.none_or]
  cases log : (pending Action.logged rest).lookup key with
  | some held => cases (pending Action.written rest).lookup key <;> rfl
  | none =>
      cases tree : (pending Action.written rest).lookup key with
      | none => rfl
      | some value =>
          cases takes : action.takesVersion with
          | false => rfl
          | true =>
              obtain ⟨held, later, isKey⟩ := List.mem_map.mp
                (forward.2.1 takes key (touched_of_lookup tree).2)
              exact absurd (List.lookup_eq_none_iff.mp log held later) (by simp [isKey])

theorem turn (effect : action.Effect me now sh version rest sh' thread)
    {updates : List (Update String Content)} (distinct : (touched updates).Nodup)
    (disciplined : Disciplined updates (action :: rest)) (forward : Forward (action :: rest))
    (key : String) :
    Turn key version action rest (stageOf key (some (.running version (action :: rest))))
      (stageOf key (some thread)) := by
  obtain ⟨finalLogged, _, finalWritten⟩ := disciplined.1
  have distinctLog : (touched (action.logged ++ pending Action.logged rest)).Nodup :=
    distinct.sublist (finalLogged.sublist.map _)
  have distinctTree : (touched (action.written ++ pending Action.written rest)).Nodup :=
    distinct.sublist (finalWritten.sublist.map _)
  have consistent : ∀ {held held'}, (key, held) ∈ action.logged ++ pending Action.logged rest →
      (key, held') ∈ action.written ++ pending Action.written rest → held = held' :=
    fun inLog inTree => congrArg Prod.snd (List.inj_on_of_nodup_map distinct
      (finalLogged.subset inLog) (finalWritten.subset inTree) rfl)
  rcases (effect.next disciplined).2 with goesOn | givesUp
  · have onward : stageOf key (some thread) = stageOf key (some (.running
        (if action.takesVersion then sh.server.globalVersion + 1 else version) rest)) :=
      goesOn ▸ stage_next effect key
    rcases onePart action with unlogged | unwritten
    · have logSame : pending Action.logged (action :: rest) = pending Action.logged rest := by
        rw [pending_cons, unlogged, List.nil_append]
      by_cases named : key ∈ touched action.written
      · obtain ⟨⟨k, value⟩, member, rfl⟩ := List.mem_map.mp named
        have treeBefore : (pending Action.written (action :: rest)).lookup k = some value :=
          lookup_of_mem distinctTree (List.mem_append_left _ member)
        have treeAfter : (pending Action.written rest).lookup k = none :=
          lookup_of_not_touched (notAgain rfl distinctTree named)
        cases log : (pending Action.logged rest).lookup k with
        | none =>
            refine .writes ?_ ?_ unlogged member
            · simp only [stageOf, logSame, log, treeBefore]
            · refine onward.trans ?_
              simp only [stageOf, log, treeAfter]
        | some held =>
            obtain ⟨inLog, later⟩ := touched_of_lookup log
            have isNone : value = none := forward.1 _ member later
            have same : held = value :=
              consistent (List.mem_append_right _ inLog) (List.mem_append_left _ member)
            subst isNone same
            refine .removes ?_ ?_ unlogged member later
            · simp only [stageOf, logSame, log, treeBefore]
            · refine onward.trans ?_
              simp only [stageOf, log, treeAfter]
      · have absent : key ∉ touched action.logged := by
          rw [unlogged]
          exact List.not_mem_nil
        exact .stays (stage_unnamed effect forward goesOn absent named) absent named
    · have treeSame : pending Action.written (action :: rest) = pending Action.written rest := by
        rw [pending_cons, unwritten, List.nil_append]
      by_cases named : key ∈ touched action.logged
      · obtain ⟨⟨k, value⟩, member, rfl⟩ := List.mem_map.mp named
        have appending : appends action = true := by
          cases action <;> first | rfl | cases member
        have noVersion : action.takesVersion = false := by
          cases action <;> first | rfl | cases appending
        have logBefore : (pending Action.logged (action :: rest)).lookup k = some value :=
          lookup_of_mem distinctLog (List.mem_append_left _ member)
        have logAfter : (pending Action.logged rest).lookup k = none :=
          lookup_of_not_touched (notAgain rfl distinctLog named)
        rw [noVersion, if_neg Bool.false_ne_true] at onward
        cases tree : (pending Action.written rest).lookup k with
        | none =>
            refine .confirms ?_ ?_ unwritten member
            · simp only [stageOf, treeSame, tree, logBefore]
            · refine onward.trans ?_
              simp only [stageOf, tree, logAfter]
        | some held =>
            obtain ⟨inTree, later⟩ := touched_of_lookup tree
            have same : value = held :=
              consistent (List.mem_append_left _ member) (List.mem_append_right _ inTree)
            subst same
            refine .logs ?_ ?_ appending unwritten member later
            · simp only [stageOf, treeSame, tree, logBefore]
            · refine onward.trans ?_
              simp only [stageOf, tree, logAfter]
      · have absent : key ∉ touched action.written := by
          rw [unwritten]
          exact List.not_mem_nil
        exact .stays (stage_unnamed effect forward goesOn named absent) named absent
  · obtain ⟨silentLog, _, silentTree⟩ := givesUp.silent
    have before := stage_level version
      (givesUp.undelivered.logged.trans givesUp.undelivered.written.symm) key
    have onward := (stage_next effect key).trans
      (stage_level _ (givesUp.nothing.logged.trans givesUp.nothing.written.symm) key)
    refine .stays (onward.trans before.symm) ?_ ?_
    · rw [silentLog]
      exact List.not_mem_nil
    · rw [silentTree]
      exact List.not_mem_nil

end Turns

/-! ## The pool -/

section Replays
variable [Serde]

/-- What replaying the log over an empty store gives. -/
def replayed (s : KindServerImpl) : String → Option Content :=
  overlay (fun _ => none) (s.logged.flatMap fun l => l.2.updates)

/-- The ids ascend, and a replay of the log at any time gives the tree. -/
def InOrder (s : KindServerImpl) : Prop :=
  (s.logged.map Prod.fst).Pairwise (· < ·) ∧
    ∀ t key, (Recovery.recover s.schemaRegistry t [] (s.wal.getD [])).contents key = s.contents key

theorem replayed_eq {s : KindServerImpl} (free : DeadlineFree (walUpdates (s.wal.getD [])))
    (t : UInt64) (key : String) :
    (Recovery.recover s.schemaRegistry t [] (s.wal.getD [])).contents key = replayed s key := by
  have view := Recovery.view_recover s.schemaRegistry t [] (s.wal.getD [])
  have files : fileUpdates [] (s.wal.getD []) = walUpdates (s.wal.getD []) := rfl
  rw [files, effectiveAt_of_deadlineFree free] at view
  exact congrFun ((congrArg Prod.fst view).trans (IndexReplay.replay_store ..)) key

end Replays

section Pools
variable [Serde] {κ : Type} [DecidableEq κ]

/-- Every call is the holder of the mutex under its own name. -/
def step (requests : κ → Request κ) (pool : Pool κ κ) (event : κ × UInt64) : Option (Pool κ κ) :=
  pool.step requests id event.1 event.2

def start (s : KindServerImpl) : Pool κ κ :=
  { shared := { server := s, walLock := none }, threads := fun _ => none }

def Returned (pool : Pool κ κ) : Prop :=
  ∀ i version todo, pool.threads i ≠ some (.running version todo)

/-- What a call may do while others are half through: append only if none of
them has still to append a smaller id; log a key only if none has removed it and
has still to log that, unless it is itself to remove it; remove a key only if
none has logged it and has still to write it; write a key that it has logged
only if none has still to write it under a smaller id. -/
def InTurn (pool : Pool κ κ) (event : κ × UInt64) : Prop :=
  ∀ version action rest, pool.threads event.1 = some (.running version (action :: rest)) →
    (appends action = true → ∀ j smaller, Waiting (pool.threads j) smaller → ¬ smaller < version) ∧
    (∀ key ∈ touched action.logged, key ∈ touched (pending Action.written rest) →
      ∀ j value, stageOf key (pool.threads j) ≠ .toFirst value) ∧
    ∀ key ∈ touched action.written, ∀ j number value,
      stageOf key (pool.threads j) = .toSecond number value →
        key ∉ touched (pending Action.logged rest) ∧ ¬ number < version

/-! ## The invariant -/

structure Ordered (pool : Pool κ κ) : Prop where
  leader : pool.shared.server.isReplica = false
  readable : ∃ file, pool.shared.server.wal = some file ∧ (Wal.readAllCommands file).isSome = true
  disk : DeadlineFree (walUpdates (pool.shared.server.wal.getD []))
  exclusive : pool.Exclusive
    (fun _ updates => (touched updates).Nodup ∧ DeadlineFree updates) fun i => i
  sequenced : ∀ i, Sequenced (Thread.todo (pool.threads i))
  forward : ∀ i, Forward (Thread.todo (pool.threads i))
  ids : (pool.shared.server.logged.map Prod.fst).Pairwise (· < ·)
  bounded : ∀ l ∈ pool.shared.server.logged, l.1 ≤ pool.shared.server.globalVersion
  waiting : ∀ i v, Waiting (pool.threads i) v → v ≤ pool.shared.server.globalVersion ∧
    ∀ l ∈ pool.shared.server.logged, l.1 < v
  distinct : ∀ i j v, Waiting (pool.threads i) v → Waiting (pool.threads j) v → i = j
  numbered : ∀ key i number value, stageOf key (pool.threads i) = .toSecond number value →
    ∃ l ∈ pool.shared.server.logged, l.1 = number
  inStep : ∀ key, InStep (replayed pool.shared.server key) (pool.shared.server.contents key)
    fun i => stageOf key (pool.threads i)

variable {pool : Pool κ κ} {requests : κ → Request κ} {i : κ} {now : UInt64}

/-- The pool after thread `i` has become `next`. -/
def after (pool : Pool κ κ) (i : κ) (shared : Shared κ) (next : Thread) : Pool κ κ :=
  ⟨shared, Function.update pool.threads i (some next)⟩

omit [Serde] in
theorem stage_after (pool : Pool κ κ) (i : κ) (shared : Shared κ) (next : Thread) (key : String) :
    (fun j => stageOf key ((after pool i shared next).threads j)) =
      Function.update (fun j => stageOf key (pool.threads j)) i (stageOf key (some next)) := by
  funext j
  by_cases same : j = i
  · subst same
    simp [after]
  · simp [after, Function.update_of_ne same]

theorem Ordered.start (ordered : Ordered pool) {call : Call} (ttlFree : (requests i).TtlFree)
    (idle : pool.threads i = none) (made : (requests i).toCall pool.threads = some call) :
    Ordered (after pool i pool.shared
      (.running 0 (program pool.shared.server.isReplica now call))) := by
  rw [ordered.leader]
  obtain ⟨undelivered, _⟩ := disciplined_program now call
  obtain ⟨sequenced, versioned⟩ := sequenced_program now call
  have others : ∀ {j v}, Waiting ((after pool i pool.shared
      (.running 0 (program false now call))).threads j) v → Waiting (pool.threads j) v := by
    intro j v waiting
    by_cases same : j = i
    · subst same
      obtain ⟨todo, running, isAppend, taken⟩ := waiting
      simp only [after, Function.update_self, Option.some.injEq, Thread.running.injEq] at running
      obtain ⟨_, rfl⟩ := running
      obtain ⟨a, member, takes⟩ := versioned isAppend
      rw [taken a member] at takes
      cases takes
    · simpa only [after, Function.update_of_ne same] using waiting
  -- neither before the call is made nor after it is it half through with a key
  have stages : ∀ key, (fun j => stageOf key ((after pool i pool.shared
      (.running 0 (program false now call))).threads j)) =
      fun j => stageOf key (pool.threads j) := by
    intro key
    rw [stage_after, stage_level _ (undelivered.logged.trans undelivered.written.symm) key]
    refine Function.update_eq_self_iff.mpr ?_
    rw [idle]
    rfl
  refine ⟨ordered.leader, ordered.readable, ordered.disk,
    ordered.exclusive.begins ⟨?_, ?_⟩ idle, fun j => ?_, fun j => ?_,
    ordered.ids, ordered.bounded, fun j v waiting => ordered.waiting j v (others waiting),
    fun j k v here there => ordered.distinct j k v (others here) (others there),
    fun key j number value here => ?_, fun key => ?_⟩
  · rw [call.touched_updates]
    exact call.keys_nodup
  · exact Call.deadlineFree_updates (Request.ttlFree_toCall made ttlFree) now
  · by_cases same : j = i
    · subst same
      simpa only [after, Function.update_self, Thread.todo_running] using sequenced
    · simpa only [after, Function.update_of_ne same] using ordered.sequenced j
  · by_cases same : j = i
    · subst same
      simpa only [after, Function.update_self, Thread.todo_running] using forward_program now call
    · simpa only [after, Function.update_of_ne same] using ordered.forward j
  · exact ordered.numbered key j number value ((congrFun (stages key) j).symm.trans here)
  · rw [stages]
    exact ordered.inStep key

section Acting
variable {version : Nat} {action : Action} {rest : List Action} {shared : Shared κ}
  {thread : Thread}

omit [Serde] [DecidableEq κ] in
theorem waiting_to_append (running : pool.threads i = some (.running version (action :: rest)))
    (sequenced : Sequenced (action :: rest)) (isAppend : appends action = true) :
    Waiting (pool.threads i) version := by
  refine ⟨action :: rest, running, ⟨action, List.mem_cons_self, isAppend⟩, fun a member => ?_⟩
  rcases List.mem_cons.mp member with rfl | later
  · cases a <;> first | rfl | cases isAppend
  · exact (sequenced.1 isAppend a later).1

/-- Who waits with an id after a step had it before or has just taken it. -/
theorem waiting_before (running : pool.threads i = some (.running version (action :: rest)))
    (effect : action.Effect i now pool.shared version rest shared thread)
    (sequenced : Sequenced (action :: rest)) {j : κ} {v : Nat}
    (waiting : Waiting ((after pool i shared thread).threads j) v) :
    (j = i ∧ action.takesVersion = true ∧ v = pool.shared.server.globalVersion + 1) ∨
      (Waiting (pool.threads j) v ∧ (j = i → appends action = false)) := by
  by_cases same : j = i
  · subst same
    simp only [after, Function.update_self] at waiting
    rcases waiting_after effect sequenced waiting with ⟨takes, taken⟩ | ⟨_, notAppend, held⟩
    · exact Or.inl ⟨rfl, takes, taken⟩
    · exact Or.inr ⟨running ▸ held, fun _ => notAppend⟩
  · simp only [after, Function.update_of_ne same] at waiting
    exact Or.inr ⟨waiting, fun mine => absurd mine same⟩

omit [DecidableEq κ] in
/-- The line of an action: under an id that its call has waited with. -/
theorem Ordered.new_line (ordered : Ordered pool)
    (running : pool.threads i = some (.running version (action :: rest)))
    (sequenced : Sequenced (action :: rest))
    (effect : action.Effect i now pool.shared version rest shared thread) :
    ∃ new, shared.server.logged = pool.shared.server.logged ++ new ∧ new.length ≤ 1 ∧
      (appends action = false → new = []) ∧ new.flatMap (fun l => l.2.updates) = action.logged ∧
      ∀ l ∈ new, l.1 = version ∧ appends action = true ∧ Waiting (pool.threads i) version := by
  obtain ⟨new, logged, versionOf, single, silent, sameLog⟩ := logged_after effect ordered.readable
  refine ⟨new, logged, single, silent, sameLog, fun l member => ?_⟩
  cases isAppend : appends action with
  | false =>
      rw [silent isAppend] at member
      cases member
  | true => exact ⟨versionOf l member, rfl, waiting_to_append running sequenced isAppend⟩

omit [DecidableEq κ] in
theorem Ordered.ids_after (ordered : Ordered pool)
    {new : List (Nat × WalCommand)} (single : new.length ≤ 1)
    (newest : ∀ l ∈ new, l.1 = version ∧ Waiting (pool.threads i) version) :
    ((pool.shared.server.logged ++ new).map Prod.fst).Pairwise (· < ·) ∧
      ∀ l ∈ pool.shared.server.logged ++ new, l.1 ≤ pool.shared.server.globalVersion := by
  rw [List.map_append]
  refine ⟨List.pairwise_append.mpr ⟨ordered.ids, ?_, ?_⟩, fun l member => ?_⟩
  · match new, single with
    | [], _ => exact List.Pairwise.nil
    | [_], _ => exact List.pairwise_singleton ..
  · intro a old b added
    obtain ⟨l, listed, rfl⟩ := List.mem_map.mp old
    obtain ⟨l', member, rfl⟩ := List.mem_map.mp added
    obtain ⟨same, waits⟩ := newest l' member
    rw [same]
    exact (ordered.waiting i version waits).2 l listed
  · rcases List.mem_append.mp member with old | added
    · exact ordered.bounded l old
    · obtain ⟨same, waits⟩ := newest l added
      exact same ▸ (ordered.waiting i version waits).1

/-- Whoever waits comes after the lines that are logged, the new one included. -/
theorem Ordered.waiting_act (ordered : Ordered pool)
    (running : pool.threads i = some (.running version (action :: rest)))
    (inTurn : InTurn pool (i, now)) (sequenced : Sequenced (action :: rest))
    (effect : action.Effect i now pool.shared version rest shared thread)
    {j : κ} {v : Nat} (waiting : Waiting ((after pool i shared thread).threads j) v) :
    v ≤ shared.server.globalVersion ∧ ∀ l ∈ shared.server.logged, l.1 < v := by
  obtain ⟨new, logged, _, silent, _, newest⟩ := ordered.new_line running sequenced effect
  rw [logged]
  rcases waiting_before running effect sequenced waiting with ⟨_, takes, rfl⟩ | ⟨held, notMine⟩
  · have notAppend : appends action = false := by
      cases action <;> first | rfl | cases takes
    rw [silent notAppend, List.append_nil, effect.globalVersion, if_pos takes]
    exact ⟨le_rfl, fun l member => Nat.lt_succ_of_le (ordered.bounded l member)⟩
  · refine ⟨(ordered.waiting j v held).1.trans effect.version_mono, fun l member => ?_⟩
    rcases List.mem_append.mp member with old | added
    · exact (ordered.waiting j v held).2 l old
    · obtain ⟨same, isAppend, waits⟩ := newest l added
      have notSmaller := (inTurn version action rest running).1 isAppend j v held
      have different : v ≠ version := by
        intro equal
        have mine := ordered.distinct j i v held (equal ▸ waits)
        rw [notMine mine] at isAppend
        cases isAppend
      omega

theorem Ordered.distinct_act (ordered : Ordered pool)
    (running : pool.threads i = some (.running version (action :: rest)))
    (sequenced : Sequenced (action :: rest))
    (effect : action.Effect i now pool.shared version rest shared thread) {j k : κ} {v : Nat}
    (here : Waiting ((after pool i shared thread).threads j) v)
    (there : Waiting ((after pool i shared thread).threads k) v) : j = k := by
  rcases waiting_before running effect sequenced here with ⟨mine, _, taken⟩ | ⟨held, _⟩
  · rcases waiting_before running effect sequenced there with ⟨mine', _⟩ | ⟨held', _⟩
    · rw [mine, mine']
    · have := (ordered.waiting k v held').1
      omega
  · rcases waiting_before running effect sequenced there with ⟨_, _, taken⟩ | ⟨held', _⟩
    · have := (ordered.waiting j v held).1
      omega
    · exact ordered.distinct j k v held held'

omit [DecidableEq κ] in
/-- What an action is for a key in the pool. -/
theorem Ordered.turn (ordered : Ordered pool)
    (running : pool.threads i = some (.running version (action :: rest)))
    (effect : action.Effect i now pool.shared version rest shared thread) (key : String) :
    Turn key version action rest (stageOf key (pool.threads i)) (stageOf key (some thread)) := by
  obtain ⟨updates, ⟨distinct, _⟩, disciplined⟩ := ordered.exclusive.disciplined i
  have forward := ordered.forward i
  rw [running, Thread.todo_running] at disciplined forward
  rw [running]
  exact LogOrder.turn effect distinct disciplined forward key

/-- What log and tree say of a key after an action. -/
structure Told (before after : KindServerImpl) (action : Action) (key : String) : Prop where
  log : replayed after key = overlay (replayed before) action.logged key
  tree : after.contents key = overlay before.contents action.written key
  logs : ∀ value, (key, value) ∈ action.logged → replayed after key = value
  writes : ∀ value, (key, value) ∈ action.written → after.contents key = value

omit [DecidableEq κ] in
theorem Ordered.told (ordered : Ordered pool)
    (running : pool.threads i = some (.running version (action :: rest)))
    (effect : action.Effect i now pool.shared version rest shared thread) (key : String) :
    Told pool.shared.server shared.server action key := by
  obtain ⟨updates, ⟨distinct, _⟩, disciplined⟩ := ordered.exclusive.disciplined i
  have sequenced := ordered.sequenced i
  rw [running, Thread.todo_running] at disciplined sequenced
  obtain ⟨finalLogged, _, finalWritten⟩ := disciplined.1
  obtain ⟨new, logged, _, _, sameLog, _⟩ := ordered.new_line running sequenced effect
  have log : replayed shared.server key =
      overlay (replayed pool.shared.server) action.logged key := by
    unfold replayed
    rw [logged, List.flatMap_append, sameLog, overlay_append]
  refine ⟨log, effect.contents key, fun value named => ?_, fun value named => ?_⟩
  · refine log.trans (overlay_of_mem ?_ named _)
    exact distinct.sublist (((List.prefix_append _ _).sublist.trans finalLogged.sublist).map _)
  · refine (effect.contents key).trans (overlay_of_mem ?_ named _)
    exact distinct.sublist (((List.prefix_append _ _).sublist.trans finalWritten.sublist).map _)

/-- A call that has a key to write has logged it: before the action, or by it. -/
theorem Ordered.numbered_act (ordered : Ordered pool)
    (running : pool.threads i = some (.running version (action :: rest)))
    (effect : action.Effect i now pool.shared version rest shared thread) (key : String)
    (j : κ) (number : Nat) (value : Option Content)
    (here : stageOf key ((after pool i shared thread).threads j) = .toSecond number value) :
    ∃ l ∈ shared.server.logged, l.1 = number := by
  have sequenced := ordered.sequenced i
  rw [running, Thread.todo_running] at sequenced
  obtain ⟨new, logged, _, _, sameLog, newest⟩ := ordered.new_line running sequenced effect
  have grown : ∀ j value, stageOf key (pool.threads j) = .toSecond number value →
      ∃ l ∈ shared.server.logged, l.1 = number := by
    intro j value was
    obtain ⟨l, member, same⟩ := ordered.numbered key j number value was
    exact ⟨l, logged ▸ List.mem_append_left new member, same⟩
  have stages := congrFun (stage_after pool i shared thread key) j
  rcases InStep.stage_moved (stages.symm.trans here) with ⟨rfl, mine⟩ | ⟨_, was⟩
  · cases ordered.turn running effect key with
    | stays same _ _ => exact grown j value (same.symm.trans mine)
    | logs _ half _ _ named _ =>
        rw [half] at mine
        injection mine with same
        obtain ⟨l, inNew, _⟩ := List.mem_flatMap.mp (sameLog.symm ▸ named)
        exact ⟨l, logged ▸ List.mem_append_right _ inNew, (newest l inNew).1.trans same⟩
    | confirms _ level _ _ =>
        rw [level] at mine
        cases mine
    | writes _ level _ _ =>
        rw [level] at mine
        cases mine
    | removes _ half _ _ _ =>
        rw [half] at mine
        cases mine
  · exact grown j value was

/-- An action in turn keeps log and tree in step. -/
theorem Ordered.inStep_act (ordered : Ordered pool)
    (running : pool.threads i = some (.running version (action :: rest)))
    (inTurn : InTurn pool (i, now))
    (effect : action.Effect i now pool.shared version rest shared thread) (key : String) :
    InStep (replayed shared.server key) (shared.server.contents key)
      fun j => stageOf key ((after pool i shared thread).threads j) := by
  have sequenced := ordered.sequenced i
  rw [running, Thread.todo_running] at sequenced
  have told := ordered.told running effect key
  have sameLog : action.logged = [] →
      replayed shared.server key = replayed pool.shared.server key := by
    intro unlogged
    rw [told.log, unlogged, overlay_nil]
  have sameTree : action.written = [] →
      shared.server.contents key = pool.shared.server.contents key := by
    intro unwritten
    rw [told.tree, unwritten, overlay_nil]
  have inStep := ordered.inStep key
  obtain ⟨_, logsInTurn, writesInTurn⟩ := inTurn version action rest running
  rw [stage_after]
  cases ordered.turn running effect key with
  | stays same unlogged unwritten =>
      rw [Function.update_eq_self_iff.mpr same, told.log, told.tree, overlay_untouched unlogged,
        overlay_untouched unwritten]
      exact inStep
  | logs _ half appending unwritten named later =>
      have waits := waiting_to_append running sequenced appending
      rw [half, told.logs _ named, sameTree unwritten]
      refine inStep.arrive (logsInTurn key (List.mem_map_of_mem named) later)
        fun j n w here => ?_
      obtain ⟨l, member, same⟩ := ordered.numbered key j n w here
      exact same ▸ (ordered.waiting i version waits).2 l member
  | confirms half level unwritten named =>
      rw [level, told.logs _ named, sameTree unwritten]
      exact inStep.confirm half
  | writes half level unlogged named =>
      rw [level, sameLog unlogged, told.writes _ named]
      exact inStep.follow half fun j n w here =>
        (writesInTurn key (List.mem_map_of_mem named) j n w here).2
  | removes _ half unlogged named later =>
      rw [half, sameLog unlogged, told.writes _ named]
      exact inStep.remove fun j n w here =>
        (writesInTurn key (List.mem_map_of_mem named) j n w here).1 later

theorem Ordered.act (ordered : Ordered pool)
    (running : pool.threads i = some (.running version (action :: rest)))
    (inTurn : InTurn pool (i, now))
    (effect : action.Effect i now pool.shared version rest shared thread) :
    Ordered (after pool i shared thread) := by
  obtain ⟨updates, ⟨_, free⟩, disciplined⟩ := ordered.exclusive.disciplined i
  have sequenced := ordered.sequenced i
  rw [running, Thread.todo_running] at disciplined sequenced
  obtain ⟨new, logged, single, _, sameLog, newest⟩ := ordered.new_line running sequenced effect
  obtain ⟨ids, bounded⟩ := ordered.ids_after single fun l member =>
    ⟨(newest l member).1, (newest l member).2.2⟩
  rw [← logged] at ids bounded
  have forward := ordered.forward i
  rw [running, Thread.todo_running] at forward
  refine ⟨effect.isReplica.trans ordered.leader, effect.readable ordered.readable, ?_,
    ordered.exclusive.acts Function.injective_id running effect, fun j => ?_, fun j => ?_, ids,
    fun l member => (bounded l member).trans effect.version_mono,
    fun j v => ordered.waiting_act running inTurn sequenced effect,
    fun j k v => ordered.distinct_act running sequenced effect,
    ordered.numbered_act running effect, ordered.inStep_act running inTurn effect⟩
  · intro u member
    have split : walUpdates (shared.server.wal.getD []) =
        walUpdates (pool.shared.server.wal.getD []) ++ action.logged := by
      change (shared.server.logged.flatMap fun l => l.2.updates) = _
      rw [logged, List.flatMap_append, sameLog]
      rfl
    change u ∈ walUpdates (shared.server.wal.getD []) at member
    rw [split] at member
    rcases List.mem_append.mp member with old | brought
    · exact ordered.disk u old
    · exact free u (disciplined.1.1.subset (List.mem_append_left _ brought))
  · by_cases same : j = i
    · subst same
      simp only [after, Function.update_self]
      exact sequenced_after effect sequenced
    · simp only [after, Function.update_of_ne same]
      exact ordered.sequenced j
  · by_cases same : j = i
    · subst same
      simp only [after, Function.update_self]
      exact forward_after effect forward
    · simp only [after, Function.update_of_ne same]
      exact ordered.forward j

end Acting

theorem Ordered.step (ttlFree : ∀ i, (requests i).TtlFree) (ordered : Ordered pool)
    {event : κ × UInt64} (inTurn : InTurn pool event) {pool' : Pool κ κ}
    (stepped : step requests pool event = some pool') : Ordered pool' := by
  obtain ⟨i, now⟩ := event
  rcases Pool.step_cases stepped with ⟨call, idle, made, rfl⟩ |
    ⟨version, action, rest, shared, next, running, effect, rfl⟩
  · exact ordered.start (ttlFree i) idle made
  · exact ordered.act running inTurn effect

omit [DecidableEq κ] in
theorem ordered_start {s : KindServerImpl} (leader : s.isReplica = false)
    {old : List (Nat × WalCommand)} (held : s.wal = some (Wal.written old))
    (free : DeadlineFree (old.flatMap fun l => l.2.updates))
    (bounded : ∀ l ∈ old, l.1 ≤ s.globalVersion) (inOrder : InOrder s) :
    Ordered (start (κ := κ) s) := by
  have read := Wal.readAllCommands_written old
  have logged : s.logged = old := by
    rw [KindServerImpl.logged, held, Option.getD_some, read]
    rfl
  have disk : walUpdates (s.wal.getD []) = old.flatMap fun l => l.2.updates := by
    rw [held, Option.getD_some, walUpdates, read]
    rfl
  have settled : ∀ key, replayed s key = s.contents key := fun key =>
    (replayed_eq (disk ▸ free) 0 key).symm.trans (inOrder.2 0 key)
  refine ⟨leader, ⟨_, held, by rw [read]; rfl⟩, disk ▸ free,
    Pool.exclusive_idle (fun i => ⟨[], List.nodup_nil, fun u member => (by cases member)⟩)
      (fun _ => rfl) rfl,
    fun i => trivial, fun i => trivial, inOrder.1, logged ▸ bounded, fun i v waiting => ?_,
    fun i j v waiting => ?_, fun key i number value here => (by cases here),
    fun key => inStep_level (settled key)⟩
  · obtain ⟨todo, running, _⟩ := waiting
    cases running
  · obtain ⟨todo, running, _⟩ := waiting
    cases running

/-- When every step of the run is in turn, the ids in the log ascend and the
log replays to the tree as soon as all calls have returned. -/
theorem log_keeps_order (requests : κ → Request κ) (ttlFree : ∀ i, (requests i).TtlFree)
    (s : KindServerImpl) (leader : s.isReplica = false) (old : List (Nat × WalCommand))
    (held : s.wal = some (Wal.written old)) (free : DeadlineFree (old.flatMap fun l => l.2.updates))
    (bounded : ∀ l ∈ old, l.1 ≤ s.globalVersion) (inOrder : InOrder s)
    (events : List (κ × UInt64)) (pool : Pool κ κ)
    (ran : runFrom (step requests) (start s) events = some pool)
    (inTurn : EachMeets (step requests) InTurn (start s) events) (returned : Returned pool) :
    InOrder pool.shared.server := by
  have ordered : Ordered pool :=
    runFrom_invariant (P := Ordered)
      (fun _ _ _ inTurn stepped ordered => ordered.step ttlFree inTurn stepped) events _ _ inTurn
      ran (ordered_start leader held free bounded inOrder)
  refine ⟨ordered.ids, fun t key => ?_⟩
  rw [replayed_eq ordered.disk]
  refine (ordered.inStep key).agree fun i => ?_
  cases thread : pool.threads i with
  | none => rfl
  | some thread' =>
      cases thread' with
      | done reply => rfl
      | running version todo => exact absurd thread (returned i version todo)

end Pools

/-! ## Two puts that overtake each other -/

open SerdeJson

def putOf (value : UInt8) : Request Bool :=
  .call (.put { key := "a", value := [value], ttlMs := none })

def twoPuts (second : Bool) : Request Bool := putOf (if second then 2 else 1)

def fresh : KindServerImpl := .fresh .new false true false

theorem inOrder_fresh (hasSnapshot : Bool) : InOrder (.fresh .new hasSnapshot true false) := by
  refine ⟨?_, fun t key => ?_⟩
  · cases hasSnapshot <;> exact List.Pairwise.nil
  · cases hasSnapshot <;> rfl

/-- The second put takes its id after the first and appends before it. -/
def overtaken : List (Bool × UInt64) :=
  List.replicate 3 (false, 0) ++ List.replicate 6 (true, 0) ++ List.replicate 7 (false, 0) ++
    List.replicate 4 (true, 0)

def isDone : Option Thread → Bool
  | some (.done _) => true
  | _ => false

theorem not_running {thread : Option Thread} (done : isDone thread = true) (version : Nat)
    (todo : List Action) : thread ≠ some (.running version todo) := by
  rintro rfl
  cases done

theorem puts_log_out_of_order :
    ¬ ∀ (requests : Bool → Request Bool), (∀ i, (requests i).TtlFree) →
      ∀ s : KindServerImpl, s.isReplica = false → ∀ old, s.wal = some (Wal.written old) →
      DeadlineFree (old.flatMap fun l => l.2.updates) → (∀ l ∈ old, l.1 ≤ s.globalVersion) →
      InOrder s → ∀ events pool, runFrom (step requests) (start s) events = some pool →
      Returned pool → InOrder pool.shared.server := by
  intro claim
  obtain ⟨pool, ran⟩ : ∃ pool, runFrom (step twoPuts) (start fresh) overtaken = some pool :=
    ⟨_, rfl⟩
  have wal : (runFrom (step twoPuts) (start fresh) overtaken).map
      (fun pool => pool.shared.server.wal) = some (some (Wal.append
        (Wal.append [] 2 (.put "a" [2] none)) 1 (.put "a" [1] none))) := rfl
  have done : (runFrom (step twoPuts) (start fresh) overtaken).map (fun pool =>
      isDone (pool.threads false) && isDone (pool.threads true)) = some true := rfl
  rw [ran, Option.map_some, Option.some.injEq] at wal done
  obtain ⟨first, second⟩ := Bool.and_eq_true_iff.mp done
  have inOrder := claim twoPuts (fun _ => rfl) fresh rfl [] rfl
    (fun u member => (by cases member)) (fun l member => (by cases member))
    (inOrder_fresh _) overtaken pool ran fun i => not_running (by cases i <;> assumption)
  have logged : pool.shared.server.logged =
      [(2, .put "a" [2] none), (1, .put "a" [1] none)] := by
    simp [KindServerImpl.logged, wal, Wal.readAllCommands_append]
  have ascending := inOrder.1
  rw [logged] at ascending
  exact absurd ascending (by decide)

/-! ## Two puts that overlap in turn -/

def waitingFor : Option Thread → Option Nat
  | some (.running version todo) =>
      if todo.any appends && todo.all (fun a => !a.takesVersion) then some version else none
  | _ => none

def isInTurn (pool : Pool Bool Bool) (event : Bool × UInt64) : Bool :=
  match pool.threads event.1 with
  | some (.running version (action :: rest)) => [true, false].all fun j =>
      (!appends action ||
          (waitingFor (pool.threads j)).all fun smaller => !decide (smaller < version)) &&
        (touched action.logged).all (fun key =>
          !decide (key ∈ touched (pending Action.written rest)) ||
            match stageOf key (pool.threads j) with
            | .toFirst _ => false
            | _ => true) &&
        (touched action.written).all fun key =>
          match stageOf key (pool.threads j) with
          | .toSecond number _ => !decide (key ∈ touched (pending Action.logged rest)) &&
              !decide (number < version)
          | _ => true
  | _ => true

theorem inTurn_of_isInTurn (pool : Pool Bool Bool) (event : Bool × UInt64)
    (passes : isInTurn pool event = true) : InTurn pool event := by
  intro version action rest running
  simp only [isInTurn, running] at passes
  have each := fun j : Bool => List.all_eq_true.mp passes j (by cases j <;> simp)
  simp only [Bool.and_eq_true, Bool.or_eq_true, Bool.not_eq_true', List.all_eq_true] at each
  refine ⟨fun appending j smaller waiting => ?_, fun key named later j value half => ?_,
    fun key named j number value half => ?_⟩
  · obtain ⟨todo, thread, ⟨a, member, isAppend⟩, taken⟩ := waiting
    have any : todo.any appends = true := List.any_eq_true.mpr ⟨a, member, isAppend⟩
    have all : (todo.all fun a => !a.takesVersion) = true :=
      List.all_eq_true.mpr fun b listed => by rw [taken b listed]; rfl
    have notSmaller := (each j).1.1
    rw [appending, thread, waitingFor, any, all] at notSmaller
    simpa using notSmaller
  · have noRemoval := (each j).1.2 key named
    rw [half] at noRemoval
    simp [later] at noRemoval
  · have inOrder := (each j).2 key named
    rw [half] at inOrder
    simpa using inOrder

/-- Both puts have logged the key before the first of them writes it. -/
def overlapping : List (Bool × UInt64) :=
  List.replicate 6 (false, 0) ++ List.replicate 6 (true, 0) ++ List.replicate 4 (false, 0) ++
    List.replicate 4 (true, 0)

theorem log_keeps_order_overlapping :
    ∃ pool, runFrom (step twoPuts) (start fresh) overlapping = some pool ∧
      InOrder pool.shared.server := by
  have done : (runFrom (step twoPuts) (start fresh) overlapping).map (fun pool =>
      isDone (pool.threads false) && isDone (pool.threads true)) = some true := by decide +kernel
  obtain ⟨pool, ran, finished⟩ := Option.map_eq_some_iff.mp done
  obtain ⟨first, second⟩ := Bool.and_eq_true_iff.mp finished
  exact ⟨pool, ran, log_keeps_order twoPuts (fun _ => rfl) fresh rfl [] rfl
    (fun u member => (by cases member)) (fun l member => (by cases member)) (inOrder_fresh _)
    overlapping pool ran (eachMeets_of_passes inTurn_of_isInTurn (by decide +kernel))
    fun i => not_running (by cases i <;> assumption)⟩

end KindDb.LogOrder
