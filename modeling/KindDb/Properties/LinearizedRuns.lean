import KindDb.Properties.Linearizability

/-! # Runs that are linearizable

The simulation behind the linearizability of a run.  `Related` ties a pool to a
sequential server that has carried out the calls in the order in which they
took effect; every undisturbed step keeps it, and appends the call to the order
if the call takes effect with the step. -/
set_option autoImplicit false

namespace KindDb.Linearizability

open KindDb.Lib KindDb.Lib.Overlay KindDb.Lib.Runs KindDb.Lib.Linearization
open KindDb.KindServerImpl
open KindDb.LogOrder (step start Returned after)

/-! ## The step of one thread -/

section Thread
variable [Serde] {κ : Type} {i : κ} {now : UInt64} {sh sh' : Shared κ} {version : Nat}
  {action : Action} {rest : List Action} {next : Thread} {call : Call}

/-- A step with which the call does not take effect, before or after it does. -/
structure Passes (version : Nat) (action : Action) (rest : List Action) (next : Thread) : Prop where
  ahead : isAhead (some next) = awaits (action :: rest)
  owed : action.treeUpdates version ++ Thread.owedRecords (some next) =
    Thread.owedRecords (some (.running version (action :: rest)))
  answers : awaits (action :: rest) = false → due (some next) = answer (action :: rest)
  handle : ∀ tx, next ≠ .done (.handle tx)

omit [Serde] in
theorem owedRecords_awaiting {todo : List Action} (waits : awaits todo = true) (version : Nat) :
    Thread.owedRecords (some (.running version todo)) = [] := by
  rw [Thread.owedRecords, owedBy, if_pos waits]
  rfl

omit [Serde] in
theorem owedRecords_effective {todo : List Action} (effective : awaits todo = false)
    (version : Nat) : Thread.owedRecords (some (.running version todo)) =
      records version (pending Action.written todo) := by
  rw [Thread.owedRecords, owedBy, if_neg (by simp [effective])]

omit [Serde] in
theorem passes_effective {version' : Nat} (before : awaits (action :: rest) = false)
    (later : awaits rest = false) (answers : answer (action :: rest) = answer rest)
    (same : version' = version ∨ pending Action.written rest = []) :
    Passes version action rest (.running version' rest) := by
  refine ⟨later.trans before.symm, ?_, fun _ => answers.symm, nofun⟩
  rw [owedRecords_effective later, owedRecords_effective before, Action.treeUpdates_eq,
    pending_cons, records_append]
  rcases same with rfl | nothing
  · rfl
  · rw [nothing]
    rfl

omit [Serde] in
theorem passes_awaiting {version' : Nat} (before : awaits (action :: rest) = true)
    (later : awaits rest = true) (unwritten : action.written = []) :
    Passes version action rest (.running version' rest) := by
  refine ⟨later.trans before.symm, ?_, fun effective => ?_, nofun⟩
  · rw [owedRecords_awaiting later, owedRecords_awaiting before, Action.treeUpdates_eq, unwritten]
    rfl
  · rw [before] at effective
    cases effective

/-- Once a call has taken effect it goes on to its end. -/
theorem passes_of_effective (plan : Plan call (action :: rest))
    (effective : awaits (action :: rest) = false)
    (effect : action.Effect i now sh version rest sh' next) :
    Passes version action rest next := by
  obtain ⟨serves, later⟩ := plan
  have became := effect.thread
  have onward : awaits rest = false → answer (action :: rest) = answer rest →
      next = .running version rest → Passes version action rest next := by
    intro settled answers same
    rw [same]
    exact passes_effective effective settled answers (Or.inl rfl)
  cases action with
  | treeRemove | load | commitFetchAdd => cases effective
  | deleteLookup key => exact absurd (effective.symm.trans serves.2) Bool.false_ne_true
  | compare req => exact absurd (effective.symm.trans serves.2.2) Bool.false_ne_true
  | check key snapshotVersion =>
      obtain ⟨_, _, _, _, _, waits⟩ := serves
      exact absurd (effective.symm.trans waits) Bool.false_ne_true
  | fetchAdd =>
      obtain ⟨outside, settled⟩ := Bool.or_eq_false_iff.mp effective
      have nothing : pending Action.written rest = [] := by
        by_contra owes
        have guarded := later.guarded (by rw [owedBy, if_neg (by simp [settled])]; exact owes)
        exact absurd (outside.symm.trans guarded) Bool.false_ne_true
      rw [show next = .running (sh.server.globalVersion + 1) rest from became]
      exact passes_effective effective settled rfl (Or.inr nothing)
  | insert key value expiresAt =>
      exact onward (Bool.or_eq_false_iff.mp effective).2 rfl became
  | reply r =>
      obtain ⟨rfl, noHandle⟩ := serves
      rw [show next = .done r from became]
      exact ⟨rfl, rfl, fun _ => rfl, fun tx same => noHandle tx (Thread.done.inj same)⟩
  | _ => exact onward effective rfl became

end Thread

/-! ## The simulation -/

section Simulation
variable [Serde] {κ : Type} [DecidableEq κ] {requests : κ → Request κ} {clock : κ → UInt64}
  {pool : Pool κ κ} {seq : Sequential κ} {order : List κ}

structure Related (requests : κ → Request κ) (pool : Pool κ κ) (seq : Sequential κ)
    (order : List κ) : Prop where
  serving : Serving requests pool
  alike : Matches requests pool seq
  accounted : Accounted pool seq order

/-- The sequential server carries out more calls and is related again. -/
def Follows (requests : κ → Request κ) (clock : κ → UInt64) (pool' : Pool κ κ)
    (seq : Sequential κ) (order : List κ) : Prop :=
  ∃ more seq', runFrom (perform requests clock) seq more = some seq' ∧
    Related requests pool' seq' (order ++ more)

theorem Related.follows {pool' : Pool κ κ} (related : Related requests pool' seq order) :
    Follows requests clock pool' seq order :=
  ⟨[], seq, rfl, by rwa [List.append_nil]⟩

omit [Serde] [DecidableEq κ] in
theorem running_ne_done {version : Nat} {todo : List Action} (tx : TxHandle) :
    Thread.running version todo ≠ .done (.handle tx) := by
  intro same
  cases same

omit [Serde] in
/-- A step of `i` that returns no handle. -/
theorem same_handles {i : κ} {shared : Shared κ} {next : Thread}
    (unfinished : ∀ tx, pool.threads i ≠ some (.done (.handle tx)))
    (noHandle : ∀ tx, next ≠ .done (.handle tx)) (b : κ) (tx : TxHandle) :
    pool.threads b = some (.done (.handle tx)) ↔
      (after pool i shared next).threads b = some (.done (.handle tx)) := by
  refine ⟨kept_handles unfinished b tx, fun finished => ?_⟩
  by_cases mine : b = i
  · subst mine
    simp only [after, Function.update_self, Option.some.injEq] at finished
    exact absurd finished (noHandle tx)
  · simpa only [after, Function.update_of_ne mine] using finished

omit [Serde] in
theorem fewer_ahead {i : κ} {shared : Shared κ} {next : Thread}
    (mine : isAhead (some next) = true → isAhead (pool.threads i) = true) (j : κ)
    (isAhead' : isAhead ((after pool i shared next).threads j) = true) :
    isAhead (pool.threads j) = true := by
  by_cases same : j = i
  · subst same
    simp only [after, Function.update_self] at isAhead'
    exact mine isAhead'
  · simpa only [after, Function.update_of_ne same] using isAhead'

omit [Serde] in
theorem ahead_begin (serving : Serving requests pool) {i : κ} (idle : pool.threads i = none)
    (next : Thread) : (after pool i pool.shared next).ahead = pool.ahead := by
  unfold Pool.ahead Pool.owed after
  cases holder : pool.shared.walLock with
  | none => rfl
  | some j =>
      have other : j ≠ i := by
        rintro rfl
        have inside := (serving.exclusive.mutex j).mp holder
        rw [idle] at inside
        cases inside
      simp only [Function.update_of_ne other]

omit [Serde] in
theorem Related.begin (related : Related requests pool seq order)
    (ttlFree : ∀ i, (requests i).TtlFree) {i : κ} {now : UInt64} {call : Call}
    (idle : pool.threads i = none) (made : (requests i).toCall pool.threads = some call) :
    Related requests (after pool i pool.shared
      (.running 0 (program pool.shared.server.isReplica now call))) seq order := by
  have waits : isAhead (some (.running 0 (program pool.shared.server.isReplica now call))) =
      true := by
    rw [related.serving.leader]
    exact (plan_program (Request.ttlFree_toCall made (ttlFree i)) now).2
  have wasAhead : isAhead (pool.threads i) = true := by
    rw [idle]
    rfl
  have unfinished : ∀ tx, pool.threads i ≠ some (.done (.handle tx)) := by
    simp [idle]
  refine ⟨related.serving.begin ttlFree idle made, ?_, ?_⟩
  · apply related.alike.unchanged
    · exact congrFun (ahead_begin related.serving idle _)
    · exact le_rfl
    · exact same_handles unfinished running_ne_done
    · exact fewer_ahead fun _ => wasAhead
    · rfl
    · exact fun _ _ => id
  · apply related.accounted.onward (waits.trans wasAhead.symm)
    intro effective
    rw [wasAhead] at effective
    cases effective

section Acting
variable {i : κ} {now : UInt64} {version : Nat} {action : Action} {rest : List Action}
  {shared : Shared κ} {next : Thread} {call : Call}

theorem Related.pass (related : Related requests pool seq order)
    (running : pool.threads i = some (.running version (action :: rest)))
    (effect : action.Effect i now pool.shared version rest shared next)
    (passes : Passes version action rest next) :
    Related requests (after pool i shared next) seq order := by
  obtain ⟨others, aheadBy, later⟩ := related.serving.ahead_act running effect
  have sameAhead : isAhead (some next) = isAhead (pool.threads i) := by
    rw [running]
    exact passes.ahead
  refine ⟨related.serving.act running effect, ?_, ?_⟩
  · apply related.alike.unchanged
    · intro key
      rw [later, ← overlay_append _ (action.treeUpdates version), passes.owed, aheadBy.ahead, running]
    · exact effect.version_mono
    · exact same_handles (by simp [running]) passes.handle
    · exact fewer_ahead fun isAhead => sameAhead ▸ isAhead
    · rfl
    · exact fun _ _ => id
  · apply related.accounted.onward sameAhead
    intro effective
    rw [running] at effective ⊢
    exact passes.answers effective

/-! ## Taking effect -/

theorem Serving.ahead_takesEffect (serving : Serving requests pool)
    (running : pool.threads i = some (.running version (action :: rest)))
    (effect : action.Effect i now pool.shared version rest shared next)
    (waits : awaits (action :: rest) = true)
    (apart : inSection (action :: rest) = true ∨
      ∀ key ∈ touched (action.treeUpdates version ++ Thread.owedRecords (some next)),
        Free pool key) (key : String) : (after pool i shared next).ahead key =
      overlay pool.ahead (action.treeUpdates version ++ Thread.owedRecords (some next)) key := by
  obtain ⟨others, aheadBy, later⟩ := serving.ahead_act running effect
  have before : pool.ahead = overlay (fun k => pool.shared.server.tree[k]?) others := by
    funext k
    rw [aheadBy.ahead, running, owedRecords_awaiting waits, overlay_nil]
  rw [later, before, ← overlay_append _ (action.treeUpdates version), overlay_comm]
  intro named
  rcases apart with inside | free
  · rw [aheadBy.alone (by rw [running, Thread.todo_running]; exact inside)]
    exact List.not_mem_nil
  · exact aheadBy.owed key (free key named)

omit [Serde] [DecidableEq κ] in
theorem isAhead_running (running : pool.threads i = some (.running version (action :: rest)))
    (waits : awaits (action :: rest) = true) : isAhead (pool.threads i) = true := by
  rw [running]
  exact waits

omit [Serde] [DecidableEq κ] in
theorem Related.begun (related : Related requests pool seq order) {j : κ} {tx : TxHandle}
    (made : (requests j).toCall pool.threads = some (.commit tx))
    (waits : isAhead (pool.threads j) = true) :
    tx.snapshotVersion ≤ pool.shared.server.globalVersion := by
  obtain ⟨_, _, view⟩ := related.alike.commits j tx made waits
  exact view.begun.1

omit [Serde] [DecidableEq κ] in
/-- Before it takes effect, the holder of the mutex finds all in the tree. -/
theorem Serving.ahead_inside (serving : Serving requests pool)
    (running : pool.threads i = some (.running version (action :: rest)))
    (waits : awaits (action :: rest) = true) (inside : inSection (action :: rest) = true)
    (key : String) : pool.ahead key = pool.shared.server.tree[key]? := by
  obtain ⟨others, aheadBy, _⟩ := serving.aheadBy i
  rw [aheadBy.ahead, aheadBy.alone (by rw [running, Thread.todo_running]; exact inside), running,
    owedRecords_awaiting waits, overlay_nil, overlay_nil]

omit [Serde] [DecidableEq κ] in
/-- Before it takes effect, a call finds in the tree what nobody else owes. -/
theorem Serving.ahead_free (serving : Serving requests pool)
    (running : pool.threads i = some (.running version (action :: rest)))
    (waits : awaits (action :: rest) = true) {key : String} (free : Free pool key) :
    pool.ahead key = pool.shared.server.tree[key]? := by
  obtain ⟨others, aheadBy, _⟩ := serving.aheadBy i
  rw [aheadBy.ahead, overlay_untouched (aheadBy.owed key free), running,
    owedRecords_awaiting waits, overlay_nil]

omit [Serde] [DecidableEq κ] in
theorem Related.fresh (related : Related requests pool seq order)
    (waits : isAhead (pool.threads i) = true) : seq.replies i = none := by
  apply related.accounted.fresh
  rw [related.accounted.listed, waits]
  exact Bool.true_eq_false.mp

omit [Serde] in
theorem kept_replies (fresh : seq.replies i = none) (server : KindServerImpl) (reply : Reply)
    (b : κ) (tx : TxHandle) (finished : seq.threads b = some (.done (.handle tx))) :
    (Sequential.mk server (Function.update seq.replies i (some reply))).threads b =
      some (.done (.handle tx)) := by
  change (Function.update seq.replies i (some reply) b).map Thread.done = _
  rw [Function.update_of_ne]
  · exact finished
  · rintro rfl
    rw [Sequential.threads, fresh] at finished
    cases finished

/-- The sequential server after the call. -/
def carried (clock : κ → UInt64) (seq : Sequential κ) (i : κ) (call : Call) : Sequential κ where
  server := (carryOut (clock i) seq.server call).2
  replies := Function.update seq.replies i (some (carryOut (clock i) seq.server call).1)

theorem Related.takesEffect (related : Related requests pool seq order)
    (running : pool.threads i = some (.running version (action :: rest)))
    (effect : action.Effect i now pool.shared version rest shared next)
    (waits : awaits (action :: rest) = true) (later : isAhead (some next) = false)
    {reply : Reply} (answers : due (some next) = some reply)
    (made : (requests i).toCall seq.threads = some call)
    (same : SameAnswer reply (carryOut (clock i) seq.server call).1)
    (alike : Matches requests (after pool i shared next) (carried clock seq i call)) :
    Follows requests clock (after pool i shared next) seq order := by
  have before : isAhead (pool.threads i) = true := isAhead_running running waits
  refine ⟨[i], carried clock seq i call, ?_, related.serving.act running effect, alike,
    related.accounted.takesEffect before later answers same _⟩
  rw [runFrom, perform, made]
  rfl

/-- A call that fails takes effect when it finds out. -/
theorem Related.fails (related : Related requests pool seq order)
    (running : pool.threads i = some (.running version (action :: rest)))
    (effect : action.Effect i now pool.shared version rest shared next)
    (waits : awaits (action :: rest) = true)
    {ending : List Action} (ends : action.endsEarly now pool.shared.server = some ending)
    {reply reply' : Reply} (answers : answer ending = some reply)
    (made : (requests i).toCall seq.threads = some call)
    (unchanged : carryOut (clock i) seq.server call = (reply', seq.server))
    (same : SameAnswer reply reply') :
    Follows requests clock (after pool i shared next) seq order := by
  obtain ⟨_, settled, nothing⟩ := @plan_ending call _ _ _ _ ends
  have became : next = .running version ending := by
    have thread := effect.thread
    cases action with
    | deleteLookup | compare | check =>
        rw [ends] at thread
        exact thread
    | _ => cases ends
  have unwritten : action.treeUpdates version = [] := by
    cases action with
    | deleteLookup | compare | check => rfl
    | _ => cases ends
  subst became
  have owesNothing : Thread.owedRecords (some (.running version ending)) = [] := by
    rw [owedRecords_effective settled, nothing]
    rfl
  have before : isAhead (pool.threads i) = true := isAhead_running running waits
  apply related.takesEffect running effect waits settled answers made
  · rw [unchanged]
    exact same
  · apply related.alike.unchanged
    · intro key
      rw [related.serving.ahead_takesEffect running effect waits
        (Or.inr (by simp [unwritten, owesNothing, touched])), unwritten, owesNothing]
      rfl
    · exact effect.version_mono
    · exact same_handles (by simp [running]) running_ne_done
    · exact fewer_ahead fun _ => before
    · rw [carried, unchanged]
    · exact kept_replies (related.fresh before) _ _

/-- A call that succeeds takes effect with all its updates at once. -/
theorem Related.logs (related : Related requests pool seq order)
    (running : pool.threads i = some (.running version (action :: rest)))
    (effect : action.Effect i now pool.shared version rest shared next)
    (waits : awaits (action :: rest) = true) {version' : Nat} {todo : List Action}
    (became : next = .running version' todo) (below : version' ≤ shared.server.globalVersion)
    {updates : List (Update String Content)} {reply : Reply} (settles : Settles updates reply todo)
    (made : (requests i).toCall seq.threads = some call) {command : WalCommand}
    (logged : Logged seq.server (carryOut (clock i) seq.server call).2 command)
    (same : SameAnswer reply (carryOut (clock i) seq.server call).1)
    (written : action.treeUpdates version ++ records version' updates =
      records version' command.updates) (free : DeadlineFree command.updates)
    (apart : inSection (action :: rest) = true ∨ ∀ key ∈ command.keys, Free pool key)
    (newer : ∀ j tx, (requests j).toCall pool.threads = some (.commit tx) →
      isAhead (pool.threads j) = true → ∀ key ∈ tx.writeSet.keys,
        ∀ content, (key, some content) ∈ command.updates → tx.snapshotVersion < version') :
    Follows requests clock (after pool i shared next) seq order := by
  subst became
  have owes : Thread.owedRecords (some (.running version' todo)) = records version' updates := by
    rw [owedRecords_effective settles.effective, settles.written]
  have before : isAhead (pool.threads i) = true := isAhead_running running waits
  have fewer : ∀ j, isAhead ((after pool i shared (.running version' todo)).threads j) = true →
      isAhead (pool.threads j) = true := fewer_ahead fun _ => before
  have ahead : ∀ key, (after pool i shared (.running version' todo)).ahead key =
      overlay pool.ahead (records version' command.updates) key := by
    intro key
    rw [← written, ← owes]
    apply related.serving.ahead_takesEffect running effect waits
    rw [owes, written]
    exact apart.imp_right fun free key named => free key (by simpa [WalCommand.keys] using named)
  apply related.takesEffect running effect waits settles.effective settles.answer made same
  apply related.alike.effective logged free ahead
  · exact effect.version_mono
  · exact below
  · exact same_handles (by simp [running]) running_ne_done
  · exact fewer
  · exact kept_replies (related.fresh before) _ _
  · exact fun j tx made isAhead => newer j tx made (fewer j isAhead)

end Acting

/-! ## The calls -/

section Calls
variable {i : κ} {now : UInt64} {version : Nat} {rest : List Action} {shared : Shared κ}
  {next : Thread}

omit [Serde] [DecidableEq κ] in
theorem deadlineFree_put (key : String) (value : Bytes) :
    DeadlineFree (WalCommand.put key value none).updates := by
  intro update member held content
  cases List.mem_singleton.mp member
  exact (congrArg Prod.snd (Option.some.inj content)).symm

omit [Serde] [DecidableEq κ] in
theorem casMatches_eq {s : KindServerImpl} {req : CasRequest}
    (lasting : ∀ r, s.tree[req.key]? = some r → r.expiresAt = none) :
    s.casMatches req now = decide ((s.contents req.key).elim [] Prod.fst = req.expectedValue) := by
  unfold casMatches KindServerImpl.contents
  cases held : s.tree[req.key]? with
  | none => simp [eq_comm]
  | some r => simp [lasting r held, isExpired, DbRecord.content]

omit [Serde] [DecidableEq κ] in
theorem Related.casMatches (related : Related requests pool seq order)
    (inside : ∀ key, pool.ahead key = pool.shared.server.tree[key]?) (req : CasRequest) :
    seq.server.casMatches req (clock i) = pool.shared.server.casMatches req now := by
  have same : pool.shared.server.contents req.key = seq.server.contents req.key := by
    rw [← related.alike.contents, inside]
    rfl
  rw [casMatches_eq fun r held => ?_, casMatches_eq fun r held => ?_, same]
  · exact related.alike.deadlines req.key r ((inside req.key).trans held)
  · obtain ⟨r', held', equal⟩ := Option.map_eq_some_iff.mp
      ((related.alike.contents req.key).trans (congrArg (Option.map DbRecord.content) held))
    exact (congrArg Prod.snd equal).symm.trans (related.alike.deadlines req.key r' held')

omit [Serde] [DecidableEq κ] in
theorem SameView.conflicts {tx tx' : TxHandle} (view : SameView pool seq tx tx')
    (inside : ∀ key, pool.ahead key = pool.shared.server.tree[key]?) :
    tx'.conflicts seq.server = tx.conflicts pool.shared.server := by
  rw [Bool.eq_iff_iff, TxHandle.conflicts_iff, TxHandle.conflicts_iff, view.writeSet]
  apply exists_congr
  intro key
  apply and_congr_right
  intro listed
  have newer := view.newer key listed
  rw [inside] at newer
  exact newer.symm

theorem Related.put_takesEffect (related : Related requests pool seq order) {key : String}
    {value : Bytes} {expiresAt : Option UInt64}
    (running : pool.threads i = some (.running version (.insert key value expiresAt :: rest)))
    (effect : (Action.insert key value expiresAt).Effect i now pool.shared version rest shared next)
    (outside : inSection rest = false) (free : Free pool key)
    (newer : ∀ j tx, (requests j).toCall pool.threads = some (.commit tx) →
      key ∈ tx.writeSet.keys → isAhead (pool.threads j) = true → tx.snapshotVersion < version) :
    Follows requests clock (after pool i shared next) seq order := by
  obtain ⟨bounded, call, made, ttlFree, ⟨⟨_, serves⟩, _⟩⟩ :=
    related.serving.calls i version _ running
  obtain ⟨req, rfl, rfl, rfl, rfl, settles⟩ := serves outside
  have made' : (requests i).toCall seq.threads = some (.put req) := toCall_literal made nofun
  have lasting : deadline (clock i) req.ttlMs = none := congrArg (deadline (clock i)) ttlFree
  have leader := related.alike.leader
  have logged : Logged seq.server (seq.server.put req (clock i)).2 (.put req.key req.value none) :=
    lasting ▸ put_logged leader req
  apply related.logs running effect (by simp [awaits, outside]) effect.thread _ settles made' logged
  · rw [carryOut, put_eq _ leader]
    rfl
  · rfl
  · exact deadlineFree_put req.key _
  · right
    intro key named
    rw [List.mem_singleton.mp named]
    exact free
  · intro j tx made isAhead key listed content update
    cases congrArg Prod.fst (List.mem_singleton.mp update)
    exact newer j tx made listed isAhead
  · exact bounded.trans effect.globalVersion.ge

theorem Related.delete_takesEffect (related : Related requests pool seq order) {key : String}
    (running : pool.threads i = some (.running version (.treeRemove key :: rest)))
    (effect : (Action.treeRemove key).Effect i now pool.shared version rest shared next)
    (free : Free pool key) (held : (pool.shared.server.tree[key]?).isSome = true) :
    Follows requests clock (after pool i shared next) seq order := by
  obtain ⟨bounded, call, made, _, ⟨⟨rfl, settles⟩, _⟩⟩ :=
    related.serving.calls i version _ running
  have made' : (requests i).toCall seq.threads = some (.delete key) := toCall_literal made nofun
  have held' : (seq.server.tree[key]?).isSome = true := by
    have alike := related.alike.contents key
    rw [related.serving.ahead_free running rfl free] at alike
    obtain ⟨r, found⟩ := Option.isSome_iff_exists.mp held
    rw [found, Option.map_some, eq_comm] at alike
    obtain ⟨r', found', _⟩ := Option.map_eq_some_iff.mp alike
    rw [found', Option.isSome_some]
  have leader := related.alike.leader
  obtain ⟨old, found⟩ := Option.isSome_iff_exists.mp held'
  apply related.logs running effect rfl effect.thread _ settles made' (delete_logged leader held')
  · rw [carryOut, delete_present _ leader found]
    rfl
  · rfl
  · intro update member held content
    cases List.mem_singleton.mp member
    cases content
  · right
    intro key' named
    rw [List.mem_singleton.mp named]
    exact free
  · intro j tx made isAhead key' listed content update
    cases List.mem_singleton.mp update
  · exact bounded.trans effect.globalVersion.ge

theorem Related.delete_misses (related : Related requests pool seq order) {key : String}
    (running : pool.threads i = some (.running version (.deleteLookup key :: rest)))
    (effect : (Action.deleteLookup key).Effect i now pool.shared version rest shared next)
    (missing : pool.shared.server.tree[key]? = none) (free : Free pool key) :
    Follows requests clock (after pool i shared next) seq order := by
  obtain ⟨_, call, made, _, ⟨⟨rfl, waits⟩, _⟩⟩ := related.serving.calls i version _ running
  have made' : (requests i).toCall seq.threads = some (.delete key) := toCall_literal made nofun
  have missing' : seq.server.tree[key]? = none := by
    have alike := related.alike.contents key
    rw [related.serving.ahead_free running waits free, missing] at alike
    exact Option.map_eq_none_iff.mp alike.symm
  apply related.fails running effect waits (if_pos (by rw [missing]; rfl)) rfl made'
  · rw [carryOut, delete_absent _ related.alike.leader missing']
  · rfl

theorem Related.cas_takesEffect (related : Related requests pool seq order)
    (running : pool.threads i = some (.running version (.fetchAdd :: rest)))
    (effect : Action.fetchAdd.Effect i now pool.shared version rest shared next)
    (locked : inSection rest = true) (holds : ∀ req, requests i = .call (.cas req) →
      pool.shared.server.casMatches req now = true) :
    Follows requests clock (after pool i shared next) seq order := by
  obtain ⟨bounded, call, made, ttlFree, ⟨serves, _⟩⟩ :=
    related.serving.calls i version _ running
  obtain ⟨req, rfl, settles⟩ := serves locked
  have asked := toCall_call made nofun
  have made' : (requests i).toCall seq.threads = some (.cas req) := toCall_literal made nofun
  have waits : awaits (.fetchAdd :: rest) = true := by simp [awaits, locked]
  have holds' : seq.server.casMatches req (clock i) = true :=
    (related.casMatches (related.serving.ahead_inside running waits locked) req).trans
      (holds req asked)
  have lasting : deadline (clock i) req.ttlMs = none := congrArg (deadline (clock i)) ttlFree
  have leader := related.alike.leader
  have logged : Logged seq.server (seq.server.cas req (clock i)).2
      (.put req.key req.newValue none) := lasting ▸ cas_logged leader holds'
  have grown : shared.server.globalVersion = pool.shared.server.globalVersion + 1 :=
    effect.globalVersion
  apply related.logs running effect waits effect.thread _ settles made' logged
  · rw [carryOut, cas_eq _ leader, if_pos holds']
    rfl
  · rfl
  · exact deadlineFree_put req.key _
  · exact Or.inl locked
  · intro j tx made isAhead _ _ _ _
    exact Nat.lt_succ_of_le (related.begun made isAhead)
  · exact grown.ge

theorem Related.cas_fails (related : Related requests pool seq order) {req : CasRequest}
    (running : pool.threads i = some (.running version (.compare req :: rest)))
    (effect : (Action.compare req).Effect i now pool.shared version rest shared next)
    (differs : pool.shared.server.casMatches req now = false) :
    Follows requests clock (after pool i shared next) seq order := by
  obtain ⟨_, call, made, _, ⟨⟨rfl, locked, waits⟩, _⟩⟩ :=
    related.serving.calls i version _ running
  have made' : (requests i).toCall seq.threads = some (.cas req) := toCall_literal made nofun
  have differs' : seq.server.casMatches req (clock i) = false :=
    (related.casMatches (related.serving.ahead_inside running waits locked) req).trans differs
  apply related.fails running effect waits (if_neg (by simp [differs])) rfl made'
  · rw [carryOut, cas_eq _ related.alike.leader, if_neg (by simp [differs'])]
  · rfl

theorem Related.commit_takesEffect (related : Related requests pool seq order)
    (running : pool.threads i = some (.running version (.commitFetchAdd :: rest)))
    (effect : Action.commitFetchAdd.Effect i now pool.shared version rest shared next)
    (clear : ∀ tx, (requests i).toCall pool.threads = some (.commit tx) →
      tx.conflicts pool.shared.server = false) :
    Follows requests clock (after pool i shared next) seq order := by
  obtain ⟨bounded, call, made, ttlFree, ⟨⟨tx, rfl, locked, settles⟩, _⟩⟩ :=
    related.serving.calls i version _ running
  obtain ⟨tx', made', view⟩ := related.alike.commits i tx made (isAhead_running running rfl)
  have clear' : tx'.conflicts seq.server = false :=
    (view.conflicts (related.serving.ahead_inside running rfl locked)).trans (clear tx made)
  have leader := related.alike.leader
  have updates : (commitCommand tx').updates = (Call.commit tx).updates 0 := by
    rw [updates_commitCommand, view.writeSet]
    rfl
  have grown : shared.server.globalVersion = pool.shared.server.globalVersion + 1 :=
    effect.globalVersion
  apply related.logs running effect rfl effect.thread _ settles made' (commit_logged leader clear')
  · rw [carryOut, TxHandle.commit_ok leader clear']
    rfl
  · exact congrArg (records _) updates.symm
  · change DeadlineFree (commitCommand tx').updates
    rw [updates]
    exact Call.deadlineFree_updates ttlFree 0
  · exact Or.inl locked
  · intro j tx made isAhead _ _ _ _
    exact Nat.lt_succ_of_le (related.begun made isAhead)
  · exact grown.ge

theorem Related.commit_fails (related : Related requests pool seq order) {key : String}
    {snapshotVersion : Nat}
    (running : pool.threads i = some (.running version (.check key snapshotVersion :: rest)))
    (effect : (Action.check key snapshotVersion).Effect i now pool.shared version rest shared next)
    (newer : (pool.shared.server.tree[key]?).any (·.version > snapshotVersion) = true) :
    Follows requests clock (after pool i shared next) seq order := by
  obtain ⟨_, call, made, _, ⟨⟨tx, rfl, listed, rfl, locked, waits⟩, _⟩⟩ :=
    related.serving.calls i version _ running
  have before : isAhead (pool.threads i) = true := isAhead_running running waits
  obtain ⟨tx', made', view⟩ := related.alike.commits i tx made before
  have conflict : tx.conflicts pool.shared.server = true := by
    obtain ⟨r, held, later⟩ := (Option.any_eq_true ..).mp newer
    exact (tx.conflicts_iff _).mpr ⟨key, listed, r, held, of_decide_eq_true later⟩
  have conflict' : tx'.conflicts seq.server = true :=
    (view.conflicts (related.serving.ahead_inside running waits locked)).trans conflict
  apply related.fails running effect waits (if_pos newer) rfl made'
  · rw [carryOut, TxHandle.commit_conflict related.alike.leader conflict']
  · rfl

theorem Related.begins (related : Related requests pool seq order)
    (running : pool.threads i = some (.running version (.load :: rest)))
    (effect : Action.load.Effect i now pool.shared version rest shared next) :
    Follows requests clock (after pool i shared next) seq order := by
  obtain ⟨_, call, made, _, ⟨rfl, _⟩⟩ := related.serving.calls i version _ running
  have made' : (requests i).toCall seq.threads = some .beginTransaction := toCall_literal made nofun
  have before : isAhead (pool.threads i) = true := isAhead_running running rfl
  have became : next = .done (.handle pool.shared.server.beginTransaction) := effect.thread
  subst became
  apply related.takesEffect running effect rfl rfl rfl made' trivial
  apply related.alike.load effect.globalVersion
  · intro key
    exact related.serving.ahead_takesEffect running effect rfl (Or.inr nofun) key
  · simp [running]
  · exact related.fresh before

/-- Every undisturbed action passes or makes its call take effect. -/
theorem Related.act (related : Related requests pool seq order) {action : Action}
    (running : pool.threads i = some (.running version (action :: rest)))
    (undisturbed : Undisturbed requests pool (i, now))
    (effect : action.Effect i now pool.shared version rest shared next) :
    Follows requests clock (after pool i shared next) seq order := by
  obtain ⟨_, call, _, _, plan⟩ := related.serving.calls i version _ running
  have holds := undisturbed version action rest running
  have became := effect.thread
  cases waits : awaits (action :: rest) with
  | false => exact (related.pass running effect (passes_of_effective plan waits effect)).follows
  | true =>
      have onward : ∀ version', next = .running version' rest → awaits rest = true →
          action.written = [] → Follows requests clock (after pool i shared next) seq order := by
        intro version' same later unwritten
        subst same
        exact (related.pass running effect (passes_awaiting waits later unwritten)).follows
      cases action with
      | deleteLookup key =>
          cases found : pool.shared.server.tree[key]? with
          | none => exact related.delete_misses running effect found (holds found)
          | some old =>
              refine onward version ?_ plan.1.2 rfl
              rw [became, Action.endsEarly, found]
              rfl
      | treeRemove key => exact related.delete_takesEffect running effect holds.1 holds.2
      | compare req =>
          cases same : pool.shared.server.casMatches req now with
          | false => exact related.cas_fails running effect same
          | true =>
              refine onward version ?_ plan.1.2.2 rfl
              rw [became, Action.endsEarly, same]
              rfl
      | check key snapshotVersion =>
          cases newer : (pool.shared.server.tree[key]?).any (·.version > snapshotVersion) with
          | true => exact related.commit_fails running effect newer
          | false =>
              obtain ⟨_, _, _, _, _, later⟩ := plan.1
              refine onward version ?_ later rfl
              rw [became, Action.endsEarly, newer]
              rfl
      | load => exact related.begins running effect
      | fetchAdd =>
          cases locked : inSection rest with
          | true => exact related.cas_takesEffect running effect locked holds
          | false => exact onward _ became (by simpa [awaits, locked] using waits) rfl
      | commitFetchAdd => exact related.commit_takesEffect running effect holds
      | insert key value expiresAt =>
          cases inside : inSection rest with
          | false =>
              obtain ⟨free, newer⟩ := holds inside
              exact related.put_takesEffect running effect inside free newer
          | true =>
              have settled := plan.1.1 inside
              simp [awaits, inside, settled] at waits
      | applyWrite key rec => exact absurd (waits.symm.trans plan.1.2) Bool.true_eq_false.mp
      | reply r =>
          rw [plan.1.1] at waits
          cases waits
      | _ => exact onward version became waits rfl

end Calls

theorem Related.step (related : Related requests pool seq order)
    (ttlFree : ∀ i, (requests i).TtlFree) {event : κ × UInt64}
    (undisturbed : Undisturbed requests pool event) {pool' : Pool κ κ}
    (stepped : step requests pool event = some pool') :
    Follows requests clock pool' seq order := by
  obtain ⟨i, now⟩ := event
  rcases Pool.step_cases stepped with ⟨call, idle, made, rfl⟩ |
    ⟨version, action, rest, shared, next, running, effect, rfl⟩
  · exact (related.begin ttlFree idle made).follows
  · exact related.act running undisturbed effect

/-! ## Whole runs -/

omit [Serde] [DecidableEq κ] in
theorem related_start {s : KindServerImpl} (leader : s.isReplica = false)
    (lasting : ∀ (key : String) r, s.tree[key]? = some r → r.expiresAt = none) (bounded : s.VersionsBounded)
    (begun : ∀ i tx, requests i = .call (.commit tx) → tx.snapshotVersion ≤ s.globalVersion) :
    Related requests (start s) ⟨s, fun _ => none⟩ [] := by
  refine ⟨⟨leader, Pool.exclusive_idle (fun _ => ⟨[], trivial⟩) (fun _ => rfl) rfl, nofun⟩,
    ⟨leader, fun key => rfl, lasting, bounded, bounded, fun j tx made _ => ?_⟩,
    ⟨List.nodup_nil, fun i => ?_, fun _ _ => rfl, nofun⟩⟩
  · rcases toCall_commit made with literal | ⟨_, _, _, _, finished, _⟩
    · refine ⟨tx, ?_, rfl, ⟨begun j tx literal, begun j tx literal⟩, fun _ _ => Iff.rfl⟩
      rw [literal]
      rfl
    · cases finished
  · simp [start, isAhead]

def Started (pool : Pool κ κ) (i : κ) : Prop := pool.threads i ≠ none

def HasReturned (pool : Pool κ κ) (i : κ) : Prop := ∃ reply, pool.threads i = some (.done reply)

omit [Serde] [DecidableEq κ] in
theorem points_related :
    Points (Started (κ := κ)) HasReturned (Related requests) where
  once related := related.accounted.once
  returned_mem related returned := by
    obtain ⟨reply, finished⟩ := returned
    rw [related.accounted.listed, finished]
    rfl
  started_of_mem related member := by
    intro idle
    rw [related.accounted.listed, idle] at member
    cases member

/-- The calls in this order, one after the other, cannot be told from the run. -/
structure Explains (requests : κ → Request κ) (clock : κ → UInt64) (s : KindServerImpl)
    (events : List (κ × UInt64)) (pool : Pool κ κ) (order : List κ) (seq : Sequential κ) :
    Prop where
  linearizes : Linearizes (step requests) Started HasReturned (perform requests clock) (start s)
    events ⟨s, fun _ => none⟩ order seq
  complete : ∀ i, i ∈ order ↔ Started pool i
  answers : ∀ i reply, pool.threads i = some (.done reply) →
    ∃ reply', seq.replies i = some reply' ∧ SameAnswer reply reply'
  contents : ∀ key, seq.server.contents key = pool.shared.server.contents key

omit [Serde] [DecidableEq κ] in
/-- When all calls have returned, nothing is owed to the tree. -/
theorem Serving.ahead_returned (serving : Serving requests pool) (returned : Returned pool)
    (key : String) : pool.ahead key = pool.shared.server.tree[key]? := by
  unfold Pool.ahead Pool.owed
  cases holder : pool.shared.walLock with
  | none => rfl
  | some i =>
      have inside := (serving.exclusive.mutex i).mp holder
      match thread : pool.threads i with
      | none => simp [thread, inSection] at inside
      | some (.done reply) => simp [thread, inSection] at inside
      | some (.running version todo) => exact absurd thread (returned i version todo)

theorem undisturbed_linearizes (requests : κ → Request κ) (ttlFree : ∀ i, (requests i).TtlFree)
    (s : KindServerImpl) (leader : s.isReplica = false)
    (lasting : ∀ (key : String) r, s.tree[key]? = some r → r.expiresAt = none)
    (bounded : s.VersionsBounded)
    (begun : ∀ i tx, requests i = .call (.commit tx) → tx.snapshotVersion ≤ s.globalVersion)
    (events : List (κ × UInt64)) (pool : Pool κ κ)
    (ran : runFrom (step requests) (start s) events = some pool)
    (undisturbed : EachMeets (step requests) (Undisturbed requests) (start s) events)
    (returned : Returned pool) (clock : κ → UInt64) :
    ∃ order seq, Explains requests clock s events pool order seq := by
  obtain ⟨order, seq, linearizes, related⟩ : ∃ order seq,
      Linearizes (step requests) Started HasReturned (perform requests clock) (start s) events
        ⟨s, fun _ => none⟩ order seq ∧ Related requests pool seq order :=
    linearizes_of_points points_related
      (fun undisturbed stepped related => related.step ttlFree undisturbed stepped) undisturbed ran
      (related_start leader lasting bounded begun)
  refine ⟨order, seq, linearizes, fun i => ?_, fun i reply finished => ?_, fun key => ?_⟩
  · rw [related.accounted.listed]
    match thread : pool.threads i with
    | none => simp [Started, thread, isAhead]
    | some (.done reply) => simp [Started, thread, isAhead]
    | some (.running version todo) => exact absurd thread (returned i version todo)
  · obtain ⟨reply', reply'', answers, performed, same⟩ :=
      related.accounted.answers i (by rw [finished]; rfl)
    rw [finished] at answers
    cases Option.some.inj answers
    exact ⟨reply'', performed, same⟩
  · rw [← related.alike.contents, related.serving.ahead_returned returned]
    rfl

end Simulation

/-! ## A put between the comparison and the write -/

open SerdeJson

def casAndPut : Bool → Request Bool
  | false => .call (.cas { key := "a", expectedValue := [1], newValue := [2], ttlMs := none })
  | true => .call (.put { key := "a", value := [3], ttlMs := none })

/-- A leader that holds `[1]` under `"a"`. -/
def stored : KindServerImpl := (LogOrder.fresh.put { key := "a", value := [1], ttlMs := none } 0).2

/-- The put inserts when the cas has compared and has its version. -/
def crossed : List (Bool × UInt64) :=
  List.replicate 7 (true, 0) ++ List.replicate 6 (false, 0) ++ List.replicate 3 (true, 0) ++
    List.replicate 4 (false, 0)

def acked : Option Thread → Bool
  | some (.done (.write (.ok true))) => true
  | _ => false

theorem done_of_acked {thread : Option Thread} (success : acked thread = true) :
    thread = some (.done (.write (.ok true))) := by
  unfold acked at success
  split at success
  · rfl
  · cases success

theorem two_orders {order : List Bool} (once : order.Nodup) (complete : ∀ i, i ∈ order) :
    order = [false, true] ∨ order = [true, false] := by
  apply List.perm_pair.mp
  apply (List.perm_ext_iff_of_nodup once (by decide)).mpr
  intro i
  simp [complete i]

theorem lookup_stored (key : String) : stored.tree[key]? =
    if "a" = key then some { value := [1], expiresAt := none, version := 1 } else none :=
  SortedMap.lookup_insert LogOrder.fresh.tree "a" key _

theorem lasting_stored (key : String) (r : DbRecord) (held : stored.tree[key]? = some r) :
    r.expiresAt = none := by
  rw [lookup_stored] at held
  cases (Option.ite_none_right_eq_some.mp held).2
  rfl

theorem bounded_stored : stored.VersionsBounded := by
  intro key r held
  rw [lookup_stored] at held
  cases (Option.ite_none_right_eq_some.mp held).2
  exact le_rfl

theorem begun_casAndPut (i : Bool) (tx : TxHandle) : casAndPut i ≠ .call (.commit tx) := by
  cases i <;> exact nofun

/-- The cas and the put both succeed and the value of the cas stays: in no
order would the one that comes second leave it. -/
theorem crossed_not_linearizable :
    ¬ ∀ (requests : Bool → Request Bool), (∀ i, (requests i).TtlFree) →
      ∀ s : KindServerImpl, s.isReplica = false →
      (∀ (key : String) r, s.tree[key]? = some r → r.expiresAt = none) → s.VersionsBounded →
      (∀ i tx, requests i = .call (.commit tx) → tx.snapshotVersion ≤ s.globalVersion) →
      ∀ events pool, runFrom (step requests) (start s) events = some pool → Returned pool →
      ∃ clock order seq, Explains requests clock s events pool order seq := by
  intro claim
  have ended : (runFrom (step casAndPut) (start stored) crossed).map (fun pool =>
      (acked (pool.threads false), acked (pool.threads true),
        pool.shared.server.contents "a")) = some (true, true, some ([2], none)) := by decide
  obtain ⟨pool, ran, outcome⟩ := Option.map_eq_some_iff.mp ended
  simp only [Prod.mk.injEq] at outcome
  obtain ⟨first, second, kept⟩ := outcome
  have finished : ∀ i, pool.threads i = some (.done (.write (.ok true))) := by
    intro i
    cases i with
    | false => exact done_of_acked first
    | true => exact done_of_acked second
  obtain ⟨clock, order, seq, explains⟩ := claim casAndPut (by rintro ⟨⟩ <;> rfl) stored rfl
    lasting_stored bounded_stored (fun i tx literal => absurd literal (begun_casAndPut i tx))
    crossed pool ran (fun i version todo running => nomatch (finished i).symm.trans running)
  have performed := explains.linearizes.performed
  have complete : ∀ i, i ∈ order := by
    intro i
    rw [explains.complete, Started, finished]
    exact nofun
  rcases two_orders explains.linearizes.once complete with rfl | rfl
  · have last : (runFrom (perform casAndPut clock) ⟨stored, fun _ => none⟩ [false, true]).map
        (fun seq => seq.server.contents "a") = some (some ([3], none)) := rfl
    rw [performed, Option.map_some, explains.contents, kept] at last
    cases last
  · have refused : (runFrom (perform casAndPut clock) ⟨stored, fun _ => none⟩ [true, false]).map
        (fun seq => seq.replies false) = some (some (.write (.ok false))) := rfl
    rw [performed, Option.map_some, Option.some.injEq] at refused
    obtain ⟨reply', answered, same⟩ := explains.answers false _ (finished false)
    rw [refused] at answered
    cases Option.some.inj answered
    cases same

/-! ## A put that lets the cas finish -/

/-- The put inserts when the cas has returned. -/
def yielding : List (Bool × UInt64) :=
  List.replicate 7 (true, 0) ++ List.replicate 10 (false, 0) ++ List.replicate 3 (true, 0)

def isUndisturbed (pool : Pool Bool Bool) (event : Bool × UInt64) : Bool :=
  match pool.threads event.1 with
  | some (.running _ (action :: rest)) =>
      match action with
      | .insert key _ _ => inSection rest ||
          !(touched (owes pool false) ++ touched (owes pool true)).contains key
      | .fetchAdd => match casAndPut event.1 with
          | .call (.cas req) => pool.shared.server.casMatches req event.2
          | _ => true
      | .treeRemove _ => false
      | .deleteLookup _ => false
      | .commitFetchAdd => false
      | _ => true
  | _ => true

theorem undisturbed_of_isUndisturbed (pool : Pool Bool Bool) (event : Bool × UInt64)
    (passes : isUndisturbed pool event = true) : Undisturbed casAndPut pool event := by
  intro version action rest running
  simp only [isUndisturbed, running] at passes
  cases action with
  | insert key value expiresAt =>
      intro outside
      refine ⟨fun i named => ?_, fun j tx made => ?_⟩
      · obtain ⟨first, second⟩ : key ∉ touched (owes pool false) ∧
            key ∉ touched (owes pool true) := by simpa [outside] using passes
        cases i with
        | false => exact first named
        | true => exact second named
      · cases j <;> cases made
  | fetchAdd =>
      intro req asked
      simpa only [asked] using passes
  | treeRemove | deleteLookup | commitFetchAdd => cases passes
  | _ => trivial

theorem yielding_linearizes : ∃ pool, runFrom (step casAndPut) (start stored) yielding = some pool ∧
    ∃ order seq, Explains casAndPut (fun _ => 0) stored yielding pool order seq := by
  have ended : (runFrom (step casAndPut) (start stored) yielding).map (fun pool =>
      (acked (pool.threads false), acked (pool.threads true))) = some (true, true) := by decide
  obtain ⟨pool, ran, outcome⟩ := Option.map_eq_some_iff.mp ended
  simp only [Prod.mk.injEq] at outcome
  refine ⟨pool, ran, undisturbed_linearizes casAndPut (by rintro ⟨⟩ <;> rfl) stored rfl
    lasting_stored bounded_stored (fun i tx literal => absurd literal (begun_casAndPut i tx))
    yielding pool ran (eachMeets_of_passes undisturbed_of_isUndisturbed ?_) ?_ _⟩
  · decide
  · rintro ⟨⟩ version todo running
    · exact nomatch (done_of_acked outcome.1).symm.trans running
    · exact nomatch (done_of_acked outcome.2).symm.trans running

end KindDb.Linearizability
