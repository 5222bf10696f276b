import KindDb.Lib.Linearization
import KindDb.Properties.LogOrder
import KindDb.Server.Moments
import KindDb.Server.Serial

/-! # Linearizability

Concurrent calls against the same calls carried out as a whole, one after the
other.  `cas` and `commit` read, compare and write under the WAL mutex, but
`put` and `delete` change the tree outside it.  A run is linearizable as long
as they keep away from the keys which a `cas` or a `commit` has still to write,
what was compared or checked still holds when the version is taken, a `delete`
finds the record it has seen, and no `put` inserts under a version that a
transaction has in its snapshot already. -/
set_option autoImplicit false

namespace KindDb.Linearizability

open KindDb.Lib KindDb.Lib.Overlay KindDb.Lib.Runs KindDb.Lib.Linearization
open KindDb.KindServerImpl
open KindDb.LogOrder (step start Returned after)

/-! ## Calls one after the other -/

section Spec
variable [Serde] {κ : Type} [DecidableEq κ]

/-- A call as a whole. -/
def carryOut (now : UInt64) (s : KindServerImpl) : Call → Reply × KindServerImpl
  | .put req => (.write (s.put req now).1, (s.put req now).2)
  | .delete key => (.write (s.delete key).1, (s.delete key).2)
  | .cas req => (.write (s.cas req now).1, (s.cas req now).2)
  | .beginTransaction => (.handle s.beginTransaction, s)
  | .commit tx => (.commit (tx.commit s).1, (tx.commit s).2)

structure Sequential (κ : Type) where
  server : KindServerImpl
  replies : κ → Option Reply

omit [Serde] [DecidableEq κ] in
/-- The calls that have been carried out, as a pool sees them. -/
def Sequential.threads (seq : Sequential κ) (i : κ) : Option Thread :=
  (seq.replies i).map Thread.done

def perform (requests : κ → Request κ) (clock : κ → UInt64) (seq : Sequential κ) (i : κ) :
    Option (Sequential κ) :=
  ((requests i).toCall seq.threads).map fun call =>
    { server := (carryOut (clock i) seq.server call).2
      replies := Function.update seq.replies i (some (carryOut (clock i) seq.server call).1) }

/-- The same flag, or the same outcome of a commit. -/
def SameAnswer : Reply → Reply → Prop
  | .write response, .write response' => response' = response
  | .commit result, .commit result' => result' = result
  | .handle _, .handle _ => True
  | _, _ => False

end Spec

/-! ## The condition -/

section Condition
variable {κ : Type}

/-- The call has not started or has still to take effect. -/
def isAhead : Option Thread → Bool
  | none => true
  | some (.running _ todo) => awaits todo
  | some (.done _) => false

def owes (pool : Pool κ κ) (i : κ) : List (Update String Content) :=
  owedBy (Thread.todo (pool.threads i))

/-- No call that has taken effect has the key still to write. -/
def Free (pool : Pool κ κ) (key : String) : Prop := ∀ i, key ∉ touched (owes pool i)

/-- What a step that takes effect relies on. -/
def Undisturbed (requests : κ → Request κ) (pool : Pool κ κ) (event : κ × UInt64) : Prop :=
  ∀ version action rest, pool.threads event.1 = some (.running version (action :: rest)) →
    match action with
    | .insert key _ _ => inSection rest = false → Free pool key ∧
        ∀ j tx, (requests j).toCall pool.threads = some (.commit tx) → key ∈ tx.writeSet.keys →
          isAhead (pool.threads j) = true → tx.snapshotVersion < version
    | .treeRemove key => Free pool key ∧ (pool.shared.server.tree[key]?).isSome = true
    | .deleteLookup key => pool.shared.server.tree[key]? = none → Free pool key
    | .fetchAdd => ∀ req, requests event.1 = .call (.cas req) →
        pool.shared.server.casMatches req event.2 = true
    | .commitFetchAdd => ∀ tx, (requests event.1).toCall pool.threads = some (.commit tx) →
        tx.conflicts pool.shared.server = false
    | _ => True

end Condition

/-! ## Handles -/

section Handles
variable {κ : Type} {threads threads' : κ → Option Thread} {request : Request κ}

theorem toCall_mono (kept : ∀ b tx, threads b = some (.done (.handle tx)) →
      threads' b = some (.done (.handle tx))) {call : Call}
    (made : request.toCall threads = some call) : request.toCall threads' = some call := by
  cases request with
  | call c => exact made
  | commitOf begun writeSet =>
      simp only [Request.toCall] at made
      split at made
      · rename_i tx finished
        simp only [Request.toCall, kept begun tx finished]
        exact made
      · cases made

theorem toCall_commit {tx : TxHandle} (made : request.toCall threads = some (.commit tx)) :
    request = .call (.commit tx) ∨ ∃ begun writeSet tx₀, request = .commitOf begun writeSet ∧
      threads begun = some (.done (.handle tx₀)) ∧ tx = { tx₀ with writeSet } := by
  cases request with
  | call c =>
      cases Option.some.inj made
      exact Or.inl rfl
  | commitOf begun writeSet =>
      simp only [Request.toCall] at made
      split at made
      · rename_i tx₀ finished
        cases Option.some.inj made
        exact Or.inr ⟨begun, writeSet, tx₀, rfl, finished, rfl⟩
      · cases made

theorem toCall_call {call : Call} (made : request.toCall threads = some call)
    (other : ∀ tx, call ≠ .commit tx) : request = .call call := by
  cases request with
  | call c =>
      cases Option.some.inj made
      rfl
  | commitOf begun writeSet =>
      simp only [Request.toCall] at made
      split at made
      · cases Option.some.inj made
        exact absurd rfl (other _)
      · cases made

/-- Only a commit looks at the handles. -/
theorem toCall_literal {call : Call} (made : request.toCall threads = some call)
    (other : ∀ tx, call ≠ .commit tx) : request.toCall threads' = some call := by
  rw [toCall_call made other]
  rfl

end Handles

/-! ## The pool on its own -/

section Pools
variable [Serde] {κ : Type} [DecidableEq κ] {requests : κ → Request κ} {pool pool' : Pool κ κ}

/-- Every running call keeps to its plan and holds the mutex while it is in its
section. -/
structure Serving (requests : κ → Request κ) (pool : Pool κ κ) : Prop where
  leader : pool.shared.server.isReplica = false
  exclusive : pool.Exclusive (fun _ _ => True) fun i => i
  calls : ∀ i version todo, pool.threads i = some (.running version todo) →
    version ≤ pool.shared.server.globalVersion ∧
      ∃ call, (requests i).toCall pool.threads = some call ∧ call.TtlFree ∧ Plan call todo

omit [Serde] [DecidableEq κ] in
theorem Serving.outside (serving : Serving requests pool) {i : κ}
    (outside : inSection (Thread.todo (pool.threads i)) = false) :
    Thread.owedRecords (pool.threads i) = [] := by
  match running : pool.threads i with
  | none => rfl
  | some (.done _) => rfl
  | some (.running version todo) =>
      obtain ⟨_, call, _, _, plan⟩ := serving.calls i version todo running
      rw [running] at outside
      have settled : owedBy todo = [] := by
        by_contra owes
        rw [Thread.todo_running, plan.guarded owes] at outside
        cases outside
      rw [Thread.owedRecords, settled, records_nil]

omit [Serde] in
/-- Handles that have been returned stay. -/
theorem kept_handles {threads : κ → Option Thread} {i : κ} {next : Option Thread}
    (unfinished : ∀ tx, threads i ≠ some (.done (.handle tx))) (b : κ) (tx : TxHandle)
    (finished : threads b = some (.done (.handle tx))) :
    Function.update threads i next b = some (.done (.handle tx)) := by
  rw [Function.update_of_ne, finished]
  rintro rfl
  exact unfinished tx finished

omit [Serde] in
theorem Serving.begin (serving : Serving requests pool) (ttlFree : ∀ i, (requests i).TtlFree)
    {i : κ} {now : UInt64} {call : Call} (idle : pool.threads i = none)
    (made : (requests i).toCall pool.threads = some call) :
    Serving requests (after pool i pool.shared
      (.running 0 (program pool.shared.server.isReplica now call))) := by
  have kept : ∀ next b tx, pool.threads b = some (.done (.handle tx)) →
      Function.update pool.threads i next b = some (.done (.handle tx)) :=
    fun next => kept_handles (by simp [idle])
  rw [serving.leader]
  refine ⟨serving.leader, serving.exclusive.begins trivial idle,
    fun j version todo running => ?_⟩
  by_cases same : j = i
  · subst same
    simp only [after, Function.update_self, Option.some.injEq, Thread.running.injEq] at running
    obtain ⟨rfl, rfl⟩ := running
    have free := Request.ttlFree_toCall made (ttlFree j)
    exact ⟨Nat.zero_le _, call, toCall_mono (kept _) made, free, (plan_program free now).1⟩
  · simp only [after, Function.update_of_ne same] at running
    obtain ⟨bounded, call', made', rest⟩ := serving.calls j version todo running
    exact ⟨bounded, call', toCall_mono (kept _) made', rest⟩

theorem Serving.act (serving : Serving requests pool) {i : κ} {now : UInt64} {version : Nat}
    {action : Action} {rest : List Action} {shared : Shared κ} {next : Thread}
    (running : pool.threads i = some (.running version (action :: rest)))
    (effect : action.Effect i now pool.shared version rest shared next) :
    Serving requests (after pool i shared next) := by
  obtain ⟨bounded, call, made, free, plan⟩ := serving.calls i version _ running
  obtain ⟨updates, _, disciplined⟩ := serving.exclusive.disciplined i
  rw [running, Thread.todo_running] at disciplined
  have kept : ∀ b tx, pool.threads b = some (.done (.handle tx)) →
      Function.update pool.threads i (some next) b = some (.done (.handle tx)) :=
    kept_handles (by simp [running])
  refine ⟨effect.isReplica.trans serving.leader,
    serving.exclusive.acts Function.injective_id running effect, fun j v todo running' => ?_⟩
  by_cases same : j = i
  · subst same
    simp only [after, Function.update_self, Option.some.injEq] at running'
    subst running'
    have became := effect.todo_next disciplined
    rw [Thread.todo_running] at became
    refine ⟨?_, call, toCall_mono kept made, free, ?_⟩
    · rw [effect.version_next, after, effect.globalVersion]
      split <;> omega
    · rw [became]
      cases ends : action.endsEarly now pool.shared.server with
      | none => exact plan.2
      | some ending => exact (plan_ending ends).1
  · simp only [after, Function.update_of_ne same] at running'
    obtain ⟨bounded', call', made', others'⟩ := serving.calls j v todo running'
    exact ⟨bounded'.trans effect.version_mono, call', toCall_mono kept made', others'⟩

/-- What is ahead of the tree, by what the calls other than `i` owe. -/
structure AheadBy (pool : Pool κ κ) (i : κ) (others : List (Update String DbRecord)) : Prop where
  ahead : ∀ key, pool.ahead key = overlay (overlay (fun k => pool.shared.server.tree[k]?)
    (Thread.owedRecords (pool.threads i))) others key
  owed : ∀ key, Free pool key → key ∉ touched others
  alone : inSection (Thread.todo (pool.threads i)) = true → others = []

omit [Serde] [DecidableEq κ] in
/-- The holder of the mutex is `i`, another call, or nobody. -/
theorem Serving.aheadBy (serving : Serving requests pool) (i : κ) :
    ∃ others, AheadBy pool i others ∧
      (pool.shared.walLock = none ∨ pool.shared.walLock = some i → others = []) ∧
      ∀ j, pool.shared.walLock = some j → j ≠ i → others = Thread.owedRecords (pool.threads j) := by
  cases holder : pool.shared.walLock with
  | none =>
      have outside : inSection (Thread.todo (pool.threads i)) = false := by
        rw [← Bool.not_eq_true, ← serving.exclusive.mutex i, holder]
        simp
      refine ⟨[], ⟨fun key => ?_, fun _ _ => by simp [touched], fun _ => rfl⟩, fun _ => rfl, by simp⟩
      rw [serving.outside outside, Pool.ahead, Pool.owed, holder]
      rfl
  | some j =>
      by_cases same : j = i
      · subst same
        refine ⟨[], ⟨fun key => ?_, fun _ _ => by simp [touched], fun _ => rfl⟩, fun _ => rfl, ?_⟩
        · rw [Pool.ahead, Pool.owed, holder]
          rfl
        · intro k held other
          exact absurd (Option.some.inj held).symm other
      · have outside : inSection (Thread.todo (pool.threads i)) = false := by
          rw [← Bool.not_eq_true, ← serving.exclusive.mutex i, holder]
          simpa using same
        refine ⟨Thread.owedRecords (pool.threads j), ⟨fun key => ?_, fun key free => ?_, ?_⟩, ?_, ?_⟩
        · rw [serving.outside outside, Pool.ahead, Pool.owed, holder]
          rfl
        · rw [Thread.touched_owedRecords]
          exact free j
        · intro inside
          rw [outside] at inside
          cases inside
        · rintro (nobody | mine)
          · cases nobody
          · exact absurd (Option.some.inj mine) same
        · intro k held _
          rw [Option.some.inj held]

/-- What is ahead of the tree after an action, by the debts of the others. -/
theorem Serving.ahead_act (serving : Serving requests pool) {i : κ} {now : UInt64} {version : Nat}
    {action : Action} {rest : List Action} {shared : Shared κ} {next : Thread}
    (running : pool.threads i = some (.running version (action :: rest)))
    (effect : action.Effect i now pool.shared version rest shared next) :
    ∃ others, AheadBy pool i others ∧ ∀ key, (after pool i shared next).ahead key =
      overlay (overlay (overlay (fun k => pool.shared.server.tree[k]?)
        (action.treeUpdates version)) (Thread.owedRecords (some next))) others key := by
  obtain ⟨others, aheadBy, mineOrNone, theirs⟩ := serving.aheadBy i
  have served : Serving requests (after pool i shared next) := serving.act running effect
  obtain ⟨others', aheadBy', mineOrNone', theirs'⟩ := served.aheadBy i
  have elsewhere : ∀ j, j ≠ i → (shared.walLock = some j ↔ pool.shared.walLock = some j) :=
    fun j other => serving.exclusive.elsewhere running effect other
  have same : others' = others := by
    by_cases another : ∃ j, j ≠ i ∧ pool.shared.walLock = some j
    · obtain ⟨j, other, holder⟩ := another
      rw [theirs j holder other, theirs' j ((elsewhere j other).mpr holder) other]
      simp only [after, Function.update_of_ne other]
    · have nobodyElse : ∀ lock : Option κ, (∀ j, j ≠ i → lock ≠ some j) →
          lock = none ∨ lock = some i := by
        intro lock free
        cases lock with
        | none => exact Or.inl rfl
        | some j => exact Or.inr (by_contra fun different =>
            free j (fun equal => different (congrArg some equal)) rfl)
      have before := mineOrNone (nobodyElse _ fun j other holder => another ⟨j, other, holder⟩)
      have later := mineOrNone' (nobodyElse _ fun j other holder =>
        another ⟨j, other, (elsewhere j other).mp holder⟩)
      rw [before, later]
  refine ⟨others, aheadBy, fun key => ?_⟩
  rw [aheadBy'.ahead key, same]
  simp only [after, Function.update_self]
  refine overlay_congr _ (overlay_congr _ ?_)
  exact effect.tree key

/-! ## The pool against the sequential calls -/

omit [Serde] [DecidableEq κ] in
theorem toCall_congr {threads threads' : κ → Option Thread}
    (same : ∀ b tx, threads b = some (.done (.handle tx)) ↔
      threads' b = some (.done (.handle tx))) (request : Request κ) :
    request.toCall threads = request.toCall threads' :=
  Option.ext fun _ => ⟨toCall_mono fun b tx => (same b tx).mp,
    toCall_mono fun b tx => (same b tx).mpr⟩

/-- The record makes a commit with this snapshot conflict. -/
def Newer (held : Option DbRecord) (snapshotVersion : Nat) : Prop :=
  ∃ r, held = some r ∧ snapshotVersion < r.version

structure SameView (pool : Pool κ κ) (seq : Sequential κ) (tx tx' : TxHandle) : Prop where
  writeSet : tx'.writeSet = tx.writeSet
  begun : tx.snapshotVersion ≤ pool.shared.server.globalVersion ∧
    tx'.snapshotVersion ≤ seq.server.globalVersion
  newer : ∀ key ∈ tx.writeSet.keys, Newer (pool.ahead key) tx.snapshotVersion ↔
    Newer seq.server.tree[key]? tx'.snapshotVersion

/-- The sequential server holds what is ahead of the tree, and the commits that
have still to take effect see the same of both. -/
structure Matches (requests : κ → Request κ) (pool : Pool κ κ) (seq : Sequential κ) : Prop where
  leader : seq.server.isReplica = false
  contents : ∀ key, (pool.ahead key).map DbRecord.content = seq.server.contents key
  deadlines : ∀ key r, pool.ahead key = some r → r.expiresAt = none
  bounded : ∀ key r, pool.ahead key = some r → r.version ≤ pool.shared.server.globalVersion
  seqBounded : seq.server.VersionsBounded
  commits : ∀ j tx, (requests j).toCall pool.threads = some (.commit tx) →
    isAhead (pool.threads j) = true →
    ∃ tx', (requests j).toCall seq.threads = some (.commit tx') ∧ SameView pool seq tx tx'

variable {seq seq' : Sequential κ}

omit [Serde] [DecidableEq κ] in
/-- A step that changes nothing visible, of a call that takes effect or not. -/
theorem Matches.unchanged (same : Matches requests pool seq)
    (ahead : ∀ key, pool'.ahead key = pool.ahead key)
    (grows : pool.shared.server.globalVersion ≤ pool'.shared.server.globalVersion)
    (handles : ∀ b tx, pool.threads b = some (.done (.handle tx)) ↔
      pool'.threads b = some (.done (.handle tx)))
    (fewer : ∀ j, isAhead (pool'.threads j) = true → isAhead (pool.threads j) = true)
    (server : seq'.server = seq.server)
    (kept : ∀ b tx, seq.threads b = some (.done (.handle tx)) →
      seq'.threads b = some (.done (.handle tx))) : Matches requests pool' seq' := by
  have aheadEq : pool'.ahead = pool.ahead := funext ahead
  refine ⟨server ▸ same.leader, ?_, ?_, ?_, server ▸ same.seqBounded, fun j tx made isAhead => ?_⟩
  · rw [aheadEq, server]
    exact same.contents
  · rw [aheadEq]
    exact same.deadlines
  · rw [aheadEq]
    exact fun key r held => (same.bounded key r held).trans grows
  · rw [← toCall_congr handles] at made
    obtain ⟨tx', made', view⟩ := same.commits j tx made (fewer j isAhead)
    refine ⟨tx', toCall_mono kept made', view.writeSet, ⟨view.begun.1.trans grows, ?_⟩, ?_⟩
    · rw [server]
      exact view.begun.2
    · rw [aheadEq, server]
      exact view.newer

section Logging
variable {command : WalCommand} {version : Nat}

omit [DecidableEq κ] in
/-- A command that is logged leaves a commit its view, if what it writes is
newer than the snapshot. -/
theorem SameView.effective {tx tx' : TxHandle} (view : SameView pool seq tx tx')
    (logged : Logged seq.server seq'.server command)
    (ahead : ∀ key, pool'.ahead key = overlay pool.ahead (records version command.updates) key)
    (contents : ∀ key, (pool'.ahead key).map DbRecord.content = seq'.server.contents key)
    (grows : pool.shared.server.globalVersion ≤ pool'.shared.server.globalVersion)
    (later : ∀ key ∈ tx.writeSet.keys, ∀ content, (key, some content) ∈ command.updates →
      tx.snapshotVersion < version) : SameView pool' seq' tx tx' := by
  have begun' : tx'.snapshotVersion < seq'.server.globalVersion := by
    rw [logged.globalVersion]
    exact Nat.lt_succ_of_le view.begun.2
  refine ⟨view.writeSet, ⟨view.begun.1.trans grows, begun'.le⟩, fun key listed => ?_⟩
  by_cases named : key ∈ command.keys
  · have pair := contents key
    unfold KindServerImpl.contents at pair
    cases held : pool'.ahead key with
    | none =>
        rw [held] at pair
        simp [Newer, Option.map_eq_none_iff.mp pair.symm]
    | some r =>
        rw [held] at pair
        obtain ⟨r', held', _⟩ := Option.map_eq_some_iff.mp pair.symm
        obtain ⟨current, update⟩ := of_overlay_records named ((ahead key).symm.trans held)
        refine iff_of_true ⟨r, rfl, ?_⟩ ⟨r', held', ?_⟩
        · rw [current]
          exact later key listed _ update
        · rw [logged.version_written named held']
          exact begun'
  · have before := view.newer key listed
    rw [ahead, overlay_untouched (by simpa [WalCommand.keys] using named), logged.unwritten named]
    exact before

omit [DecidableEq κ] in
/-- A step with which a call takes effect that logs a command. -/
theorem Matches.effective (same : Matches requests pool seq)
    (logged : Logged seq.server seq'.server command) (free : DeadlineFree command.updates)
    (ahead : ∀ key, pool'.ahead key = overlay pool.ahead (records version command.updates) key)
    (grows : pool.shared.server.globalVersion ≤ pool'.shared.server.globalVersion)
    (below : version ≤ pool'.shared.server.globalVersion)
    (handles : ∀ b tx, pool.threads b = some (.done (.handle tx)) ↔
      pool'.threads b = some (.done (.handle tx)))
    (fewer : ∀ j, isAhead (pool'.threads j) = true → isAhead (pool.threads j) = true)
    (kept : ∀ b tx, seq.threads b = some (.done (.handle tx)) →
      seq'.threads b = some (.done (.handle tx)))
    (later : ∀ j tx, (requests j).toCall pool.threads = some (.commit tx) →
      isAhead (pool'.threads j) = true → ∀ key ∈ tx.writeSet.keys,
        ∀ content, (key, some content) ∈ command.updates → tx.snapshotVersion < version) :
    Matches requests pool' seq' := by
  have contents : ∀ key, (pool'.ahead key).map DbRecord.content = seq'.server.contents key := by
    intro key
    rw [ahead, overlay_map, content_records, logged.contents]
    exact overlay_congr _ (same.contents key)
  have others : ∀ key, key ∉ command.keys → pool'.ahead key = pool.ahead key := by
    intro key absent
    rw [ahead, overlay_untouched (by simpa [WalCommand.keys] using absent)]
  refine ⟨logged.isReplica.trans same.leader, contents, fun key r held => ?_, fun key r held => ?_,
    fun key r held => ?_, fun j tx made isAhead => ?_⟩
  · by_cases named : key ∈ command.keys
    · obtain ⟨_, update⟩ := of_overlay_records named ((ahead key).symm.trans held)
      exact free _ update _ rfl
    · exact same.deadlines key r ((others key named).symm.trans held)
  · by_cases named : key ∈ command.keys
    · exact (of_overlay_records named ((ahead key).symm.trans held)).1.le.trans below
    · exact (same.bounded key r ((others key named).symm.trans held)).trans grows
  · by_cases named : key ∈ command.keys
    · exact (logged.version_written named held).le
    · have := same.seqBounded key r ((logged.unwritten named) ▸ held)
      rw [logged.globalVersion]
      omega
  · rw [← toCall_congr handles] at made
    obtain ⟨tx', made', view⟩ := same.commits j tx made (fewer j isAhead)
    exact ⟨tx', toCall_mono kept made',
      view.effective logged ahead contents grows (later j tx made isAhead)⟩

end Logging

omit [Serde] in
/-- The step of a `begin_transaction`. -/
theorem Matches.load (same : Matches requests pool seq) {i : κ} {shared : Shared κ}
    (version : shared.server.globalVersion = pool.shared.server.globalVersion)
    (ahead : ∀ key, (after pool i shared
      (.done (.handle pool.shared.server.beginTransaction))).ahead key = pool.ahead key)
    (unfinished : ∀ tx, pool.threads i ≠ some (.done (.handle tx)))
    (fresh : seq.replies i = none) :
    Matches requests (after pool i shared (.done (.handle pool.shared.server.beginTransaction)))
      { seq with replies := Function.update seq.replies i
                   (some (.handle seq.server.beginTransaction)) } := by
  have aheadEq := funext ahead
  refine ⟨same.leader, ?_, ?_, ?_, same.seqBounded, fun j tx made isAhead => ?_⟩
  · rw [aheadEq]
    exact same.contents
  · rw [aheadEq]
    exact same.deadlines
  · rw [aheadEq, after, version]
    exact same.bounded
  · have fewer : Linearizability.isAhead (pool.threads j) = true := by
      by_cases mine : j = i
      · subst mine
        simp [after, Linearizability.isAhead] at isAhead
      · simpa only [after, Function.update_of_ne mine] using isAhead
    have keptSeq : ∀ b tx, seq.threads b = some (.done (.handle tx)) →
        (Function.update seq.replies i (some (.handle seq.server.beginTransaction)) b).map
          Thread.done = some (.done (.handle tx)) := by
      intro b tx finished
      rw [Function.update_of_ne]
      · exact finished
      · rintro rfl
        rw [Sequential.threads, fresh] at finished
        cases finished
    cases before : (requests j).toCall pool.threads with
    | some call =>
        cases Option.some.inj ((toCall_mono (kept_handles unfinished) before).symm.trans made)
        obtain ⟨tx', made', view⟩ := same.commits j tx before fewer
        refine ⟨tx', toCall_mono keptSeq made', view.writeSet, ?_, ?_⟩
        · rw [after, version]
          exact view.begun
        · rw [aheadEq]
          exact view.newer
    | none =>
        rcases toCall_commit made with literal | ⟨begun, writeSet, tx₀, isCommit, finished, rfl⟩
        · rw [literal] at before
          cases before
        · have mine : begun = i := by
            by_contra other
            simp only [after, Function.update_of_ne other] at finished
            simp [isCommit, Request.toCall, finished] at before
          subst mine
          simp only [after, Function.update_self, Option.some.injEq, Thread.done.injEq,
            Reply.handle.injEq] at finished
          subst finished
          refine ⟨{ seq.server.beginTransaction with writeSet }, ?_, rfl, ⟨?_, le_rfl⟩,
            fun key _ => ?_⟩
          · simp [isCommit, Request.toCall, Sequential.threads]
          · rw [after, version]
            exact le_rfl
          · rw [aheadEq]
            refine iff_of_false ?_ ?_
            · rintro ⟨r, held, newer⟩
              exact absurd (same.bounded key r held) (Nat.not_le.mpr newer)
            · rintro ⟨r, held, newer⟩
              exact absurd (same.seqBounded key r held) (Nat.not_le.mpr newer)

/-! ## The order -/

/-- What a call has returned or is going to return. -/
def due : Option Thread → Option Reply
  | none => none
  | some (.running _ todo) => answer todo
  | some (.done reply) => some reply

structure Accounted (pool : Pool κ κ) (seq : Sequential κ) (order : List κ) : Prop where
  once : order.Nodup
  listed : ∀ i, i ∈ order ↔ isAhead (pool.threads i) = false
  fresh : ∀ i, i ∉ order → seq.replies i = none
  answers : ∀ i, isAhead (pool.threads i) = false → ∃ reply reply',
    due (pool.threads i) = some reply ∧ seq.replies i = some reply' ∧ SameAnswer reply reply'

variable {order : List κ} {i : κ} {shared : Shared κ} {next : Thread}

omit [Serde] in
/-- A step with which no call takes effect. -/
theorem Accounted.onward (accounted : Accounted pool seq order)
    (same : isAhead (some next) = isAhead (pool.threads i))
    (answers : isAhead (pool.threads i) = false → due (some next) = due (pool.threads i)) :
    Accounted (after pool i shared next) seq order := by
  refine ⟨accounted.once, fun j => ?_, accounted.fresh, fun j effective => ?_⟩
  · by_cases mine : j = i
    · subst mine
      simp only [after, Function.update_self, same]
      exact accounted.listed j
    · simp only [after, Function.update_of_ne mine]
      exact accounted.listed j
  · by_cases mine : j = i
    · subst mine
      simp only [after, Function.update_self, same] at effective ⊢
      rw [answers effective]
      exact accounted.answers j effective
    · simp only [after, Function.update_of_ne mine] at effective ⊢
      exact accounted.answers j effective

omit [Serde] in
/-- The step with which a call takes effect. -/
theorem Accounted.takesEffect (accounted : Accounted pool seq order)
    (before : isAhead (pool.threads i) = true) (later : isAhead (some next) = false)
    {reply reply' : Reply} (answers : due (some next) = some reply)
    (same : SameAnswer reply reply') (server : KindServerImpl) :
    Accounted (after pool i shared next)
      ⟨server, Function.update seq.replies i (some reply')⟩ (order ++ [i]) := by
  have unlisted : i ∉ order := by
    rw [accounted.listed, before]
    exact Bool.true_eq_false.mp
  refine ⟨?_, fun j => ?_, fun j absent => ?_, fun j effective => ?_⟩
  · exact List.nodup_append.mpr ⟨accounted.once, List.nodup_singleton i, by
      rintro j listed k single rfl
      rw [List.mem_singleton.mp single] at listed
      exact unlisted listed⟩
  · by_cases mine : j = i
    · subst mine
      simp [after, later]
    · simp only [after, Function.update_of_ne mine, List.mem_append, List.mem_singleton, mine,
        or_false]
      exact accounted.listed j
  · simp only [List.mem_append, List.mem_singleton, not_or] at absent
    simp only [Function.update_of_ne absent.2]
    exact accounted.fresh j absent.1
  · by_cases mine : j = i
    · subst mine
      simp only [after, Function.update_self]
      exact ⟨reply, reply', answers, rfl, same⟩
    · simp only [after, Function.update_of_ne mine] at effective ⊢
      exact accounted.answers j effective

end Pools

end KindDb.Linearizability
