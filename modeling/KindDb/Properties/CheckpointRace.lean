import KindDb.SerdeJson
import KindDb.Server.Checkpoint
import KindDb.Server.Pool

/-! # A checkpoint among concurrent calls

The checkpoint holds the WAL mutex, `put` and `delete` reach the tree without
it.  A `put` that has logged its record and not yet inserted it is in neither
place when the checkpoint passes its key and truncates the log; nothing else is
lost.  The invariant is that the files and the tree are two stores behind one
writer per key: `durable` is what the files will recover once the checkpoint is
through, and it is balanced with the tree by what the call still has to do. -/
set_option autoImplicit false

namespace KindDb.CheckpointRace

open KindDb.Lib KindDb.Lib.Overlay KindDb.Lib.Runs KindDb.Lib.Pending KindDb.Schema
open KindDb.Checkpoint

section Race
variable [Serde] {κ : Type} [DecidableEq κ]

/-- `save_snapshot_and_truncate_wal`, around the part under the mutex. -/
inductive Saving
  | waiting
  | saving (c : Checkpoint)
  | saved

structure System (κ : Type) where
  pool : Pool κ (Option κ)
  saving : Saving

namespace System

def server (sys : System κ) : KindServerImpl := sys.pool.shared.server

def todo (sys : System κ) (i : κ) : List Action := Thread.todo (sys.pool.threads i)

/-- Nothing has been called yet. -/
def start (s : KindServerImpl) : System κ :=
  { pool := { shared := { server := s, walLock := none }, threads := fun _ => none }
    saving := .waiting }

/-- All calls and the checkpoint have returned, as far as they were made. -/
def Returned (sys : System κ) : Prop :=
  (∀ i version todo, sys.pool.threads i ≠ some (.running version todo)) ∧
    ∀ c, sys.saving ≠ .saving c

end System

inductive Event (κ : Type)
  | call (i : κ)
  | checkpoint

/-- The holder of the mutex is a request, or the checkpoint. -/
def step (requests : κ → Request κ) (sys : System κ) (event : UInt64 × Event κ) :
    Option (System κ) :=
  let (now, event) := event
  match event with
  | .call i =>
      match sys.pool.step requests some i now with
      | some pool => some { sys with pool }
      | none => none
  | .checkpoint =>
      match sys.saving with
      | .waiting =>
          match sys.pool.shared.server.snapshotFile, sys.pool.shared.walLock with
          | none, _ => some { sys with saving := .saved }
          | some _, none =>
              let shared := { sys.pool.shared with walLock := some none }
              some { pool := { sys.pool with shared }, saving := .saving .start }
          | some _, some _ => none
      | .saving c =>
          match Checkpoint.step (sys.pool.shared.server, c) now with
          | some (server, c) =>
              let shared := { sys.pool.shared with server }
              some { pool := { sys.pool with shared }, saving := .saving c }
          | none =>
              let shared := { sys.pool.shared with walLock := none }
              some { pool := { sys.pool with shared }, saving := .saved }
      | .saved => none

/-! ## The condition -/

/-- The keys the next step of the checkpoint passes. -/
def Passes (sys : System κ) (key : String) : Prop :=
  match sys.saving with
  | .saving { stage := .writing cursor, writer := _ } =>
      SortedMap.above cursor key = true ∧
        ∀ next, SortedMap.nextAbove sys.server.tree cursor = some next →
          SortedMap.above (some next.1) key = false
  | _ => False

/-- The call has logged what it writes to the key and not written it yet, and
it is not what the tree holds anyway. -/
def Exposed (sys : System κ) (i : κ) (key : String) : Prop :=
  key ∉ touched (pending Action.logged (sys.todo i)) ∧
    overlay sys.server.contents (pending Action.written (sys.todo i)) key ≠ sys.server.contents key

def Safe (sys : System κ) (event : UInt64 × Event κ) : Prop :=
  match event.2 with
  | .call _ => True
  | .checkpoint => ∀ key, Passes sys key → ∀ i, ¬ Exposed sys i key

/-! ## What the files will recover -/

def recovered (s : KindServerImpl) : String → Option Content := overlay (fun _ => none) s.onDisk

/-- What the records a writer has taken say. -/
def captured (w : BufWriter Piece) : String → Option Content :=
  overlay (fun _ => none) ((records w.contents).map fun r => (r.key, some r.record.content))

def durableAt (s : KindServerImpl) (c : Checkpoint) (key : String) : Option Content :=
  match c.stage with
  | .writing cursor => if SortedMap.above cursor key then recovered s key else captured c.writer key
  | .renamed => captured c.writer key
  | .truncated => captured c.writer key
  | _ => recovered s key

def durable (sys : System κ) (key : String) : Option Content :=
  match sys.saving with
  | .saving c => durableAt sys.server c key
  | _ => recovered sys.server key

/-- The records taken so far have different keys, all of them passed, and no deadline. -/
structure Taken (passed : String → Prop) (w : BufWriter Piece) : Prop where
  distinct : ((records w.contents).map SnapshotRecord.key).Nodup
  passed : ∀ r ∈ records w.contents, passed r.key
  deadlineFree : ∀ r ∈ records w.contents, r.record.expiresAt = none

def Progress (s : KindServerImpl) (c : Checkpoint) : Prop :=
  match c.stage with
  | .writing cursor => Taken (fun key => SortedMap.above cursor key = false) c.writer
  | .renamed => Taken (fun _ => True) c.writer
  | .truncated => Taken (fun _ => True) c.writer ∧ walUpdates (s.wal.getD []) = []
  | _ => True

/-- What no step of anybody breaks. -/
structure Coherent (requests : κ → Request κ) (sys : System κ) : Prop where
  leader : sys.server.isReplica = false
  readable : ∃ file, sys.server.wal = some file ∧ (Wal.readAllCommands file).isSome = true
  tree : ∀ key held, sys.server.contents key = some held → held.2 = none
  disk : DeadlineFree sys.server.onDisk
  exclusive : sys.pool.Exclusive
    (fun i updates => touched updates = (requests i).keys ∧ DeadlineFree updates) some
  saving : sys.pool.shared.walLock = some none ↔ ∃ c, sys.saving = .saving c
  progress : ∀ c, sys.saving = .saving c → Progress sys.server c
  balanced : ∀ i, ∀ key ∈ (requests i).keys, Balanced (durable sys) sys.server.contents
    (pending Action.logged (sys.todo i)) (pending Action.written (sys.todo i)) key
  unowned : ∀ key, (∀ i, key ∉ (requests i).keys) → durable sys key = sys.server.contents key

/-! ## A step of a call -/

variable {requests : κ → Request κ} {sys : System κ} {i : κ}

/-- The system after a step of thread `i`. -/
def System.after (sys : System κ) (i : κ) (shared : Shared (Option κ)) (thread : Thread) :
    System κ :=
  { sys with pool := { shared, threads := Function.update sys.pool.threads i (some thread) } }

omit [Serde] in
theorem todo_self (shared : Shared (Option κ)) (thread : Thread) :
    (sys.after i shared thread).todo i = Thread.todo (some thread) := by
  simp [System.after, System.todo]

omit [Serde] in
theorem todo_other {j : κ} (other : j ≠ i) (shared : Shared (Option κ)) (thread : Thread) :
    (sys.after i shared thread).todo j = sys.todo j := by
  simp [System.after, System.todo, Function.update_of_ne other]

theorem Coherent.start (coherent : Coherent requests sys) {call : Call} {now : UInt64}
    (ttlFree : (requests i).TtlFree) (idle : sys.pool.threads i = none)
    (made : (requests i).toCall sys.pool.threads = some call) :
    Coherent requests
      (sys.after i sys.pool.shared (.running 0 (program sys.server.isReplica now call))) := by
  obtain ⟨undelivered, _⟩ := disciplined_program now call
  rw [coherent.leader]
  have nothing : sys.todo i = [] := by simp [System.todo, idle]
  refine ⟨coherent.leader, coherent.readable, coherent.tree, coherent.disk,
    coherent.exclusive.begins ⟨?_, ?_⟩ idle, coherent.saving, coherent.progress,
    fun j key owned => ?_, coherent.unowned⟩
  · simp [Request.keys_toCall made]
  · exact Call.deadlineFree_updates (Request.ttlFree_toCall made ttlFree) now
  · have before := coherent.balanced j key owned
    by_cases same : j = i
    · subst same
      rw [nothing] at before
      rw [todo_self, Thread.todo_running, undelivered.logged, undelivered.written]
      exact Balanced.start (balanced_nil_iff.mp before) (call.updates now)
    · rw [todo_other same]
      exact before

section Acting
variable {now : UInt64} {version : Nat} {action : Action} {rest : List Action}
  {shared : Shared (Option κ)} {thread : Thread}

omit [DecidableEq κ] in
/-- Nobody logs while the checkpoint has the mutex. -/
theorem Coherent.not_append (coherent : Coherent requests sys)
    (running : sys.todo i = action :: rest) {c : Checkpoint} (saving : sys.saving = .saving c)
    (command : WalCommand) : action ≠ .append command := by
  intro appends
  subst appends
  obtain ⟨updates, _, disciplined⟩ := coherent.exclusive.disciplined i
  rw [show Thread.todo (sys.pool.threads i) = _ from running] at disciplined
  have inside : inSection (sys.todo i) = true := by
    rw [running]
    exact disciplined.2.1
  have mine := (coherent.exclusive.mutex i).mpr inside
  rw [coherent.saving.mpr ⟨c, saving⟩] at mine
  cases mine

/-- What a thread logs reaches the files. -/
theorem Coherent.durable_after (coherent : Coherent requests sys)
    (running : sys.todo i = action :: rest)
    (effect : action.Effect (some i) now sys.pool.shared version rest shared thread)
    (key : String) :
    durable (sys.after i shared thread) key = overlay (durable sys) action.logged key := by
  have appended : recovered shared.server = overlay (recovered sys.server) action.logged := by
    rw [recovered, effect.onDisk coherent.readable, overlay_append]
    rfl
  have unsaved : (∀ c, sys.saving ≠ .saving c) →
      durable (sys.after i shared thread) key = overlay (durable sys) action.logged key := by
    intro idle
    have before : durable sys = recovered sys.server := by
      funext k
      unfold durable
      split
      · rename_i c saving
        exact absurd saving (idle c)
      · rfl
    have after : durable (sys.after i shared thread) = recovered shared.server := by
      funext k
      unfold durable
      split
      · rename_i c saving
        exact absurd saving (idle c)
      · rfl
    rw [before, after, appended]
  cases saving : sys.saving with
  | waiting => exact unsaved (by simp [saving])
  | saved => exact unsaved (by simp [saving])
  | saving c =>
      have silent : action.logged = [] := by
        have other := coherent.not_append running saving
        cases action with
        | append command => exact absurd rfl (other command)
        | _ => rfl
      rw [silent, overlay_nil] at appended
      simp only [durable, durableAt, System.after, saving, System.server, silent, overlay_nil,
        appended]

theorem Coherent.act (coherent : Coherent requests sys)
    (disjoint : ∀ i j, i ≠ j → (requests i).keys.Disjoint (requests j).keys)
    (thread_i : sys.pool.threads i = some (.running version (action :: rest)))
    (effect : action.Effect (some i) now sys.pool.shared version rest shared thread) :
    Coherent requests (sys.after i shared thread) := by
  have running : sys.todo i = action :: rest := by
    rw [System.todo, thread_i]
    rfl
  obtain ⟨updates, ⟨keys, free⟩, disciplined⟩ := coherent.exclusive.disciplined i
  rw [thread_i, Thread.todo_running] at disciplined
  obtain ⟨_, goesOn⟩ := effect.next disciplined
  obtain ⟨finalLogged, _, finalWritten⟩ := disciplined.1
  have distinct : (touched updates).Nodup := keys ▸ (requests i).keys_nodup
  have loggedIn : action.logged ⊆ updates := fun u member =>
    finalLogged.subset (List.mem_append_left _ member)
  have writtenIn : action.written ⊆ updates := fun u member =>
    finalWritten.subset (List.mem_append_left _ member)
  have untouched : ∀ key, key ∉ (requests i).keys →
      durable (sys.after i shared thread) key = durable sys key ∧
        shared.server.contents key = sys.server.contents key := by
    intro key foreign
    rw [coherent.durable_after running effect, effect.contents]
    constructor
    · exact overlay_untouched (fun named => foreign (keys ▸ List.map_subset _ loggedIn named)) _
    · exact overlay_untouched (fun named => foreign (keys ▸ List.map_subset _ writtenIn named)) _
  refine ⟨effect.isReplica.trans coherent.leader, effect.readable coherent.readable, ?_, ?_,
    coherent.exclusive.acts (Option.some_injective κ) thread_i effect,
    (coherent.exclusive.elsewhere thread_i effect (Option.some_ne_none i).symm).trans
      coherent.saving, ?_, fun j key owned => ?_, fun key foreign => ?_⟩
  · intro key held found
    rw [show (sys.after i shared thread).server = shared.server from rfl, effect.contents] at found
    exact overlay_deadlineFree coherent.tree (fun u member => free u (writtenIn member)) key held
      found
  · intro u member
    rw [show (sys.after i shared thread).server = shared.server from rfl,
      effect.onDisk coherent.readable] at member
    rcases List.mem_append.mp member with before | logged
    · exact coherent.disk u before
    · exact free u (loggedIn logged)
  · intro c saving
    have before := coherent.progress c saving
    have other := coherent.not_append running saving
    have sameWal : shared.server.wal = sys.server.wal := by
      have wal := effect.wal
      cases action with
      | append command => exact absurd rfl (other command)
      | _ => exact wal
    simpa only [Progress, System.after, System.server, sameWal] using before
  · have before := coherent.balanced j key owned
    by_cases same : j = i
    · subst same
      have after : ∀ {toFiles toTree : List (Update String Content)},
          Balanced (overlay (durable sys) action.logged)
            (overlay sys.server.contents action.written) toFiles toTree key →
          Balanced (durable (sys.after j shared thread)) shared.server.contents toFiles toTree
            key :=
        fun balanced => balanced.congr (coherent.durable_after running effect key)
          (effect.contents key)
      rw [todo_self]
      rw [running, pending_cons, pending_cons] at before
      rcases goesOn with same | givesUp
      · rw [same]
        refine after ((before.deliver ?_).deliverSecond ?_)
        · exact distinct.sublist (finalLogged.sublist.map _)
        · exact distinct.sublist (finalWritten.sublist.map _)
      · obtain ⟨silentLog, _, silentTree⟩ := givesUp.silent
        have inLog : key ∈ touched (action.logged ++ pending Action.logged rest) := by
          rw [← pending_cons, givesUp.undelivered.logged, keys]
          exact owned
        have inTree : key ∈ touched (action.written ++ pending Action.written rest) := by
          rw [← pending_cons, givesUp.undelivered.written, keys]
          exact owned
        rw [givesUp.nothing.logged, givesUp.nothing.written]
        refine after ?_
        rw [silentLog, silentTree]
        exact before.abandon inLog inTree
    · rw [todo_other same]
      have foreign : key ∉ (requests i).keys := fun mine => disjoint i j (Ne.symm same) mine owned
      exact before.congr (untouched key foreign).1 (untouched key foreign).2
  · obtain ⟨sameFiles, sameTree⟩ := untouched key (foreign i)
    exact sameFiles.trans ((coherent.unowned key foreign).trans sameTree.symm)

end Acting

/-! ## A step of the checkpoint -/

omit [Serde] in
theorem captured_absent {w : BufWriter Piece} {key : String}
    (absent : ∀ r ∈ records w.contents, r.key ≠ key) : captured w key = none := by
  apply overlay_untouched
  intro named
  obtain ⟨u, member, same⟩ := List.mem_map.mp named
  obtain ⟨r, taken, rfl⟩ := List.mem_map.mp member
  exact absent r taken same

theorem Taken.take {s : KindServerImpl} {w : BufWriter Piece} {cursor : Option String}
    {r : SnapshotRecord} (taken : Taken (fun key => SortedMap.above cursor key = false) w)
    (next : SortedMap.nextAbove s.tree cursor = some (r.key, r.record))
    (deadline : r.record.expiresAt = none) :
    Taken (fun key => SortedMap.above (some r.key) key = false) (writeln w r) ∧
      captured (writeln w r) = Function.update (captured w) r.key (some r.record.content) := by
  obtain ⟨_, isAbove, _⟩ := SortedMap.nextAbove_some next
  have perm := records_writeln w r
  have distinct : ((records w.contents ++ [r]).map SnapshotRecord.key).Nodup := by
    rw [List.map_append]
    refine List.nodup_append.mpr ⟨taken.distinct, List.nodup_singleton _, ?_⟩
    intro old member new isNew same
    obtain ⟨other, inWriter, rfl⟩ := List.mem_map.mp member
    rw [List.map_singleton, List.mem_singleton] at isNew
    have passed := taken.passed other inWriter
    rw [same, isNew, isAbove] at passed
    cases passed
  refine ⟨⟨(perm.map _).nodup_iff.mpr distinct, fun other member => ?_, fun other member => ?_⟩, ?_⟩
  · rcases List.mem_append.mp (perm.mem_iff.mp member) with old | new
    · by_contra ahead
      rw [Bool.not_eq_false] at ahead
      have passed := taken.passed other old
      rw [SortedMap.above_trans isAbove (by simpa [SortedMap.above] using ahead)] at passed
      cases passed
    · rw [List.mem_singleton.mp new]
      simp [SortedMap.above]
  · rcases List.mem_append.mp (perm.mem_iff.mp member) with old | new
    · exact taken.deadlineFree other old
    · rw [List.mem_singleton.mp new]
      exact deadline
  · funext key
    have sameKeys : touched ((records w.contents ++ [r]).map
        fun r => (r.key, some r.record.content)) =
          (records w.contents ++ [r]).map SnapshotRecord.key := by
      simp [touched]
    have inOrder := overlay_perm (sameKeys ▸ distinct) (perm.symm.map _) (fun _ => none) key
    rw [captured, ← inOrder, List.map_append, List.map_singleton, overlay_concat]
    rfl

omit [Serde] in
theorem Taken.deadlineFree_file {passed : String → Prop} {w : BufWriter Piece}
    (taken : Taken passed w) :
    DeadlineFree ((lines w.file).flatMap SnapshotLine.updates) := by
  rw [updates_lines]
  intro u member held content
  obtain ⟨r, inFile, rfl⟩ := List.mem_map.mp member
  cases Option.some.inj content
  refine taken.deadlineFree r ?_
  rw [BufWriter.contents, records_append]
  exact List.mem_append_left _ inFile

/-- A turn of the loop captures the tree for the keys it passes. -/
theorem Taken.passing {s : KindServerImpl} {w : BufWriter Piece} {cursor : Option String}
    {r : SnapshotRecord} (taken : Taken (fun key => SortedMap.above cursor key = false) w)
    (next : SortedMap.nextAbove s.tree cursor = some (r.key, r.record))
    (deadline : r.record.expiresAt = none) (key : String) :
    durableAt s { stage := .writing (some r.key), writer := writeln w r } key =
        durableAt s { stage := .writing cursor, writer := w } key ∨
      ((SortedMap.above cursor key = true ∧ SortedMap.above (some r.key) key = false) ∧
        durableAt s { stage := .writing (some r.key), writer := writeln w r } key =
          s.contents key) := by
  obtain ⟨held, isAbove, _⟩ := SortedMap.nextAbove_some next
  obtain ⟨_, writes⟩ := taken.take next deadline
  simp only [durableAt, writes]
  cases ahead : SortedMap.above cursor key with
  | false =>
      left
      have behind : SortedMap.above (some r.key) key = false := by
        by_contra still
        rw [Bool.not_eq_false] at still
        rw [SortedMap.above_trans isAbove (by simpa [SortedMap.above] using still)] at ahead
        cases ahead
      have other : key ≠ r.key := by
        rintro rfl
        rw [isAbove] at ahead
        cases ahead
      simp [behind, Function.update_of_ne other]
  | true =>
      cases stillAhead : SortedMap.above (some r.key) key with
      | true => exact Or.inl rfl
      | false =>
          right
          refine ⟨⟨rfl, rfl⟩, ?_⟩
          rw [if_neg (by simp), Function.update_apply, KindServerImpl.contents]
          split
          · rename_i same
            rw [same, held, Option.map_some]
          · rename_i other
            have free : s.tree[key]? = none := by
              by_contra present
              obtain ⟨v, found⟩ := Option.ne_none_iff_exists'.mp present
              rcases (SortedMap.nextAbove_passed next found).mp stillAhead with behind | same
              · rw [ahead] at behind
                cases behind
              · exact other same
            rw [free, Option.map_none]
            refine captured_absent fun r inWriter same => ?_
            have passed := taken.passed r inWriter
            rw [same, ahead] at passed
            cases passed

/-- At the end of the loop the keys that are left have no record. -/
theorem Taken.ending {s : KindServerImpl} {w : BufWriter Piece} {cursor : Option String}
    (taken : Taken (fun key => SortedMap.above cursor key = false) w)
    (finished : SortedMap.nextAbove s.tree cursor = none) (key : String) :
    captured w key = durableAt s { stage := .writing cursor, writer := w } key ∨
      (SortedMap.above cursor key = true ∧ captured w key = s.contents key) := by
  cases ahead : SortedMap.above cursor key with
  | false =>
      left
      simp [durableAt, ahead]
  | true =>
      refine Or.inr ⟨rfl, ?_⟩
      rw [KindServerImpl.contents, SortedMap.nextAbove_none finished key ahead]
      refine captured_absent fun r inWriter same => ?_
      have passed := taken.passed r inWriter
      rw [same, ahead] at passed
      cases passed

omit [DecidableEq κ] in
/-- A step that leaves tree and threads alone, and changes what the files will
recover only for keys it passes, and these to what the tree holds. -/
theorem Coherent.resave (coherent : Coherent requests sys) {shared : Shared (Option κ)}
    {saving : Saving} {now : UInt64} (safe : Safe sys (now, .checkpoint))
    (tree : shared.server.tree = sys.server.tree)
    (isReplica : shared.server.isReplica = sys.server.isReplica)
    (readable : ∃ file, shared.server.wal = some file ∧
      (Wal.readAllCommands file).isSome = true)
    (disk : DeadlineFree shared.server.onDisk)
    (mutex : ∀ i, shared.walLock = some (some i) ↔ sys.pool.shared.walLock = some (some i))
    (holds : shared.walLock = some none ↔ ∃ c, saving = .saving c)
    (progress : ∀ c, saving = .saving c → Progress shared.server c)
    (recovers : ∀ key, durable ({ pool := { sys.pool with shared }, saving } : System κ) key =
      durable sys key ∨ (Passes sys key ∧
        durable ({ pool := { sys.pool with shared }, saving } : System κ) key =
          sys.server.contents key)) :
    Coherent requests { pool := { sys.pool with shared }, saving } := by
  have sameTree : shared.server.contents = sys.server.contents := by
    funext key
    rw [KindServerImpl.contents, tree]
    rfl
  refine ⟨isReplica.trans coherent.leader, readable, ?_, disk,
    ⟨coherent.exclusive.disciplined, fun i => (mutex i).trans (coherent.exclusive.mutex i)⟩,
    holds, progress, fun i key owned => ?_, fun key foreign => ?_⟩
  · intro key held found
    exact coherent.tree key held (sameTree ▸ found)
  · have before := coherent.balanced i key owned
    rcases recovers key with same | ⟨passes, same⟩
    · exact before.congr same (congrFun sameTree key)
    · refine (before.capture fun logged => ?_).congr same (congrFun sameTree key)
      by_contra differs
      exact safe key passes i ⟨logged, differs⟩
  · have same : shared.server.contents key = sys.server.contents key := congrFun sameTree key
    rcases recovers key with kept | ⟨_, passed⟩
    · exact kept.trans ((coherent.unowned key foreign).trans same.symm)
    · exact passed.trans same.symm

omit [DecidableEq κ] in
/-- The steps under the mutex. -/
theorem Coherent.write (coherent : Coherent requests sys) {c c' : Checkpoint}
    {server : KindServerImpl} {now : UInt64} (safe : Safe sys (now, .checkpoint))
    (saving : sys.saving = .saving c)
    (stepped : Checkpoint.step (sys.server, c) now = some (server, c')) :
    Coherent requests
      { pool := { sys.pool with shared := { sys.pool.shared with server } },
        saving := .saving c' } := by
  have progress := coherent.progress c saving
  have holds : sys.pool.shared.walLock = some none ↔ ∃ d, Saving.saving c' = .saving d :=
    iff_of_true (coherent.saving.mpr ⟨c, saving⟩) ⟨c', rfl⟩
  obtain ⟨stage, w⟩ := c
  cases stage with
  | begin =>
      simp only [Checkpoint.step] at stepped
      split at stepped
      · cases Option.some.inj stepped
        refine coherent.resave safe rfl rfl coherent.readable coherent.disk (fun _ => Iff.rfl)
          holds (fun c' same => ?_) (fun key => Or.inl ?_)
        · cases same
          exact ⟨List.nodup_nil, by simp [records], by simp [records]⟩
        · simp [durable, durableAt, saving, SortedMap.above, System.server]
      · cases Option.some.inj stepped
        refine coherent.resave safe rfl rfl coherent.readable coherent.disk (fun _ => Iff.rfl)
          holds (fun c' same => ?_) (fun key => Or.inl ?_)
        · cases same
          trivial
        · simp [durable, durableAt, saving, System.server]
  | writing cursor =>
      have taken : Taken (fun key => SortedMap.above cursor key = false) w := progress
      simp only [Checkpoint.step] at stepped
      cases next : SortedMap.nextAbove sys.server.tree cursor with
      | some entry =>
          obtain ⟨key, record⟩ := entry
          obtain ⟨held, isAbove, between⟩ := SortedMap.nextAbove_some next
          have deadline : record.expiresAt = none :=
            coherent.tree key record.content (by simp [KindServerImpl.contents, held])
          simp only [next, deadline, isExpired_none, Bool.false_eq_true, if_false] at stepped
          cases Option.some.inj stepped
          obtain ⟨takenNext, writes⟩ := taken.take (r := ⟨key, record⟩) next deadline
          refine coherent.resave safe rfl rfl coherent.readable coherent.disk (fun _ => Iff.rfl)
            holds (fun c' same => ?_) (fun k => ?_)
          · cases same
            exact takenNext
          · rcases taken.passing (r := ⟨key, record⟩) next deadline k with kept | ⟨passes, same⟩
            · left
              simpa only [durable, saving, System.server] using kept
            · refine Or.inr ⟨?_, same⟩
              simp only [Passes, saving, next]
              refine ⟨passes.1, fun entry same => ?_⟩
              cases Option.some.inj same
              exact passes.2
      | none =>
          simp only [next] at stepped
          cases Option.some.inj stepped
          refine coherent.resave safe rfl rfl coherent.readable ?_ (fun _ => Iff.rfl) holds
            (fun c' same => ?_) (fun k => ?_)
          · intro u member
            rcases List.mem_append.mp member with inFile | logged
            · exact taken.deadlineFree_file u inFile
            · exact coherent.disk u (List.mem_append_right _ logged)
          · cases same
            exact ⟨taken.distinct, fun _ _ => trivial, taken.deadlineFree⟩
          · rcases taken.ending next k with kept | ⟨ahead, same⟩
            · left
              simp only [durable, saving]
              exact kept
            · refine Or.inr ⟨?_, same⟩
              simp only [Passes, saving, next]
              exact ⟨ahead, fun entry same => by cases same⟩
  | renamed =>
      have taken : Taken (fun _ => True) w := progress
      obtain ⟨file, held, _⟩ := coherent.readable
      cases Option.some.inj stepped
      have emptied : sys.server.wal.map Wal.truncate = some [] := by rw [held]; rfl
      refine coherent.resave safe rfl rfl ⟨[], emptied, rfl⟩ ?_ (fun _ => Iff.rfl) holds
        (fun c' same => ?_) (fun k => Or.inl ?_)
      · intro u member
        simp only [KindServerImpl.onDisk, fileUpdates, emptied] at member
        rcases List.mem_append.mp member with inFile | logged
        · exact coherent.disk u (List.mem_append_left _ inFile)
        · cases logged
      · cases same
        exact ⟨taken, by rw [emptied]; rfl⟩
      · simp [durable, durableAt, saving]
  | truncated =>
      obtain ⟨taken, emptied⟩ : Taken (fun _ => True) w ∧
        walUpdates (sys.server.wal.getD []) = [] := progress
      cases Option.some.inj stepped
      have disk : KindServerImpl.onDisk
          { sys.server with snapshotFile := some (lines w.flushBuf.file) } =
            (records w.contents).map fun r => (r.key, some r.record.content) := by
        rw [KindServerImpl.onDisk, fileUpdates, emptied, Option.getD_some, updates_lines,
          List.append_nil, BufWriter.file_flushBuf]
      refine coherent.resave safe rfl rfl coherent.readable ?_ (fun _ => Iff.rfl) holds
        (fun c' same => ?_) (fun k => Or.inl ?_)
      · rw [disk]
        intro u member held content
        obtain ⟨r, inWriter, rfl⟩ := List.mem_map.mp member
        cases Option.some.inj content
        exact taken.deadlineFree r inWriter
      · cases same
        trivial
      · simp only [durable, durableAt, saving, System.server, recovered]
        exact congrArg (fun updates => overlay (fun _ => none) updates k) disk
  | finished => cases stepped

theorem Coherent.checkpoint (coherent : Coherent requests sys) {sys' : System κ} {now : UInt64}
    (safe : Safe sys (now, .checkpoint))
    (stepped : step requests sys (now, .checkpoint) = some sys') : Coherent requests sys' := by
  simp only [step] at stepped
  cases saving : sys.saving with
  | waiting =>
      have idle : ¬ sys.pool.shared.walLock = some none := fun held => by
        obtain ⟨c, same⟩ := coherent.saving.mp held
        rw [saving] at same
        cases same
      simp only [saving] at stepped
      split at stepped
      · cases Option.some.inj stepped
        refine coherent.resave safe rfl rfl coherent.readable coherent.disk (fun _ => Iff.rfl)
          (iff_of_false idle (by simp)) (by simp) (fun key => Or.inl ?_)
        simp [durable, saving, System.server]
      · rename_i free
        cases Option.some.inj stepped
        refine coherent.resave safe rfl rfl coherent.readable coherent.disk (fun i => ?_)
          (iff_of_true rfl ⟨_, rfl⟩) (fun c same => ?_) (fun key => Or.inl ?_)
        · simp [free]
        · cases same
          trivial
        · simp [durable, durableAt, Checkpoint.start, saving, System.server]
      · cases stepped
  | saved =>
      simp only [saving] at stepped
      cases stepped
  | saving c =>
      simp only [saving] at stepped
      split at stepped
      · rename_i server c' taken
        cases Option.some.inj stepped
        exact coherent.write safe saving taken
      · rename_i ended
        cases Option.some.inj stepped
        have held := coherent.saving.mpr ⟨c, saving⟩
        refine coherent.resave safe rfl rfl coherent.readable coherent.disk (fun i => ?_)
          (iff_of_false (by simp) (by simp)) (by simp) (fun key => Or.inl ?_)
        · simp [held]
        · have finished : c.stage = .finished := Checkpoint.finished_of_step ended
          simp [durable, durableAt, saving, finished, System.server]

/-! ## Runs -/

theorem Coherent.step (disjoint : ∀ i j, i ≠ j → (requests i).keys.Disjoint (requests j).keys)
    (ttlFree : ∀ i, (requests i).TtlFree) (coherent : Coherent requests sys) {sys' : System κ}
    {event : UInt64 × Event κ} (safe : Safe sys event)
    (stepped : step requests sys event = some sys') : Coherent requests sys' := by
  obtain ⟨now, event⟩ := event
  cases event with
  | checkpoint => exact coherent.checkpoint safe stepped
  | call i =>
      simp only [CheckpointRace.step] at stepped
      split at stepped
      · rename_i pool taken
        cases Option.some.inj stepped
        rcases Pool.step_cases taken with ⟨call, idle, made, rfl⟩ |
          ⟨version, action, rest, shared, next, running, effect, rfl⟩
        · exact coherent.start (ttlFree i) idle made
        · exact coherent.act disjoint running effect
      · cases stepped

omit [DecidableEq κ] in
theorem coherent_start (requests : κ → Request κ) {s : KindServerImpl}
    (leader : s.isReplica = false)
    (readable : ∃ file, s.wal = some file ∧ (Wal.readAllCommands file).isSome = true)
    (ttlFree : TtlFree s) (recovers : ∀ t, Recovers s t s.contents) :
    Coherent requests (System.start s) := by
  have same : ∀ key, recovered s key = s.contents key := by
    intro key
    rw [← recovers 0 key, KindServerImpl.contents_restart, effectiveAt_of_deadlineFree ttlFree.disk]
    rfl
  refine ⟨leader, readable, fun key held found => ?_, ttlFree.disk,
    Pool.exclusive_idle (fun i => ?_) (fun _ => rfl) rfl, ?_, fun c saving => (nomatch saving), fun i key _ => balanced_nil_iff.mpr (same key),
    fun key _ => same key⟩
  · obtain ⟨r, inTree, rfl⟩ := Option.map_eq_some_iff.mp found
    exact ttlFree.tree key r inTree
  · refine ⟨(requests i).keys.map fun key => (key, none), ?_, ?_⟩
    · rw [touched, List.map_map]
      exact List.map_id _
    · intro u member held content
      obtain ⟨key, _, rfl⟩ := List.mem_map.mp member
      cases content
  · simp [System.start]

/-- When no step of the checkpoint passes a key that a call has logged and not
written, the files recover the tree as soon as everything has returned. -/
theorem files_recover_tree (requests : κ → Request κ)
    (disjoint : ∀ i j, i ≠ j → (requests i).keys.Disjoint (requests j).keys)
    (ttlFreeCalls : ∀ i, (requests i).TtlFree) (s : KindServerImpl) (leader : s.isReplica = false)
    (readable : ∃ file, s.wal = some file ∧ (Wal.readAllCommands file).isSome = true)
    (ttlFree : TtlFree s) (recovers : ∀ t, Recovers s t s.contents)
    (events : List (UInt64 × Event κ)) (sys : System κ)
    (ran : runFrom (CheckpointRace.step requests) (System.start s) events = some sys)
    (safe : EachMeets (CheckpointRace.step requests) Safe (System.start s) events)
    (returned : sys.Returned) (t : UInt64) : Recovers sys.server t sys.server.contents := by
  have coherent : Coherent requests sys :=
    runFrom_invariant (P := Coherent requests)
      (fun _ _ _ safe stepped coherent => coherent.step disjoint ttlFreeCalls safe stepped)
      events _ _ safe ran (coherent_start requests leader readable ttlFree recovers)
  have idle : ∀ i, sys.todo i = [] := by
    intro i
    unfold System.todo
    cases held : sys.pool.threads i with
    | none => rfl
    | some thread =>
        cases thread with
        | done reply => rfl
        | running version todo => exact absurd held (returned.1 i version todo)
  have through : durable sys = recovered sys.server := by
    funext key
    unfold durable
    split
    · rename_i c saving
      exact absurd saving (returned.2 c)
    · rfl
  intro key
  rw [KindServerImpl.contents_restart, effectiveAt_of_deadlineFree coherent.disk]
  change recovered sys.server key = _
  rw [← through]
  by_cases owned : ∃ i, key ∈ (requests i).keys
  · obtain ⟨i, owns⟩ := owned
    have balanced := coherent.balanced i key owns
    rw [idle i] at balanced
    exact balanced_nil_iff.mp balanced
  · exact coherent.unowned key fun i owns => owned ⟨i, owns⟩

end Race

/-! ## A put caught in between -/

open SerdeJson

def putA : Unit → Request Unit :=
  fun _ => .call (.put { key := "a", value := [1], ttlMs := none })

def fresh : KindServerImpl := .fresh .new true true false

theorem ttlFree_fresh : TtlFree fresh := by
  refine ⟨fun key r held => ?_, fun u member => ?_⟩
  · simp [fresh, KindServerImpl.fresh, KindServerImpl.new, Recovery.recover, Recovery.empty] at held
  · cases member

theorem recovers_fresh (t : UInt64) : Recovers fresh t fresh.contents := by
  intro key
  simp [fresh, KindServerImpl.fresh, KindServerImpl.restart, KindServerImpl.new,
    Recovery.recover, Recovery.empty]

/-- The put logs, the checkpoint runs from the mutex to the return, the put goes on. -/
def caught : List (UInt64 × Event Unit) :=
  List.replicate 6 (0, .call ()) ++ List.replicate 6 (0, .checkpoint) ++
    List.replicate 4 (0, .call ())

def isDone : Option Thread → Bool
  | some (.done _) => true
  | _ => false

def isSaved : Saving → Bool
  | .saved => true
  | _ => false

theorem returned_of {κ : Type} {sys : System κ}
    (done : ∀ i, isDone (sys.pool.threads i) = true) (saved : isSaved sys.saving = true) :
    sys.Returned := by
  refine ⟨fun i version todo running => ?_, fun c saving => ?_⟩
  · have finished := done i
    rw [running] at finished
    cases finished
  · rw [saving] at saved
    cases saved

theorem put_lost_to_checkpoint :
    ¬ ∀ (requests : Unit → Request Unit),
      (∀ i j, i ≠ j → (requests i).keys.Disjoint (requests j).keys) →
      (∀ i, (requests i).TtlFree) → ∀ s : KindServerImpl, s.isReplica = false →
      (∃ file, s.wal = some file ∧ (Wal.readAllCommands file).isSome = true) → TtlFree s →
      (∀ t, Recovers s t s.contents) → ∀ events sys,
      runFrom (step requests) (System.start s) events = some sys → sys.Returned →
      ∀ t, Recovers sys.server t sys.server.contents := by
  intro claim
  have evaluated : (runFrom (step putA) (System.start fresh) caught).map (fun sys =>
      (isDone (sys.pool.threads ()), isSaved sys.saving,
        ((sys.server.restart 0).contents "a").isSome, (sys.server.contents "a").isSome)) =
      some (true, true, false, true) := by
    decide
  obtain ⟨sys, ran, facts⟩ := Option.map_eq_some_iff.mp evaluated
  simp only [Prod.mk.injEq] at facts
  obtain ⟨done, saved, lost, held⟩ := facts
  have recovered := claim putA (fun _ _ different => absurd rfl different) (fun _ => rfl) fresh rfl
    ⟨[], rfl, rfl⟩ ttlFree_fresh recovers_fresh caught sys ran
    (returned_of (fun _ => done) saved) 0 "a"
  rw [recovered, held] at lost
  cases lost

/-! ## Two puts that overlap the checkpoint -/

def twoPuts (second : Bool) : Request Bool :=
  .call (.put { key := if second then "b" else "a", value := [1], ttlMs := none })

theorem disjoint_twoPuts : ∀ i j, i ≠ j → (twoPuts i).keys.Disjoint (twoPuts j).keys := by
  intro i j different
  cases i <;> cases j <;>
    first
    | exact absurd rfl different
    | simp [twoPuts, Request.keys, Call.keys]

/-- The first put has logged its key and inserts it before the checkpoint comes
to it; the second has its id and waits for the mutex meanwhile. -/
def overlapping : List (UInt64 × Event Bool) :=
  List.replicate 6 (0, .call false) ++ List.replicate 3 (0, .call true) ++
    List.replicate 2 (0, .checkpoint) ++ List.replicate 2 (0, .call false) ++
    List.replicate 5 (0, .checkpoint) ++ List.replicate 2 (0, .call false) ++
    List.replicate 7 (0, .call true)

def isSafe (sys : System Bool) (event : UInt64 × Event Bool) : Bool :=
  match event.2, sys.saving with
  | .checkpoint, .saving { stage := .writing _, writer := _ } => [true, false].all fun i =>
      (touched (pending Action.written (sys.todo i))).all fun key =>
        decide (key ∈ touched (pending Action.logged (sys.todo i)))
  | _, _ => true

theorem safe_of_isSafe (sys : System Bool) (event : UInt64 × Event Bool)
    (passes : isSafe sys event = true) : Safe sys event := by
  obtain ⟨now, event⟩ := event
  cases event with
  | call i => trivial
  | checkpoint =>
      intro key passed i exposed
      cases saving : sys.saving with
      | waiting => simp [Passes, saving] at passed
      | saved => simp [Passes, saving] at passed
      | saving c =>
          obtain ⟨stage, writer⟩ := c
          cases stage with
          | writing cursor =>
              simp only [isSafe, saving] at passes
              have mine := List.all_eq_true.mp passes i (by cases i <;> simp)
              refine exposed.2 (overlay_untouched (fun named => exposed.1 ?_) _)
              exact of_decide_eq_true (List.all_eq_true.mp mine key named)
          | _ => simp [Passes, saving] at passed

theorem files_recover_overlapping : ∃ sys,
    runFrom (step twoPuts) (System.start fresh) overlapping = some sys ∧
      ∀ t, Recovers sys.server t sys.server.contents := by
  have evaluated : (runFrom (step twoPuts) (System.start fresh) overlapping).map (fun sys =>
      (isDone (sys.pool.threads false), isDone (sys.pool.threads true), isSaved sys.saving)) =
      some (true, true, true) := by
    decide +kernel
  obtain ⟨sys, ran, facts⟩ := Option.map_eq_some_iff.mp evaluated
  simp only [Prod.mk.injEq] at facts
  obtain ⟨first, second, saved⟩ := facts
  exact ⟨sys, ran, files_recover_tree twoPuts disjoint_twoPuts (fun i => by cases i <;> rfl) fresh rfl
    ⟨[], rfl, rfl⟩ ttlFree_fresh recovers_fresh overlapping sys ran
    (eachMeets_of_passes safe_of_isSafe (by decide +kernel))
    (returned_of (fun i => by cases i <;> assumption) saved)⟩

end KindDb.CheckpointRace
