import KindDb.SerdeJson
import KindDb.Server.Effects

/-! # First committer wins

`commit` looks only at the records the tree holds now.  Between
`begin_transaction` and `commit` such a record is newer than the snapshot
exactly if its key was mutated (`newer_iff`), but a mutation that left no
record, a deletion or a record evicted since, goes unseen. -/
set_option autoImplicit false

namespace KindDb.FirstCommitter

open KindDb.Lib KindDb.Lib.Overlay KindDb.Lib.Runs KindDb.Cache KindDb.Schema

section Runs
variable [Serde]

/-- The keys an operation wrote or deleted, going by its response. -/
def mutated (s : KindServerImpl) (now : UInt64) : Op → List String
  | .put req => match (s.put req now).1 with
    | .ok true => [req.key]
    | _ => []
  | .delete key => match (s.delete key).1 with
    | .ok true => [key]
    | _ => []
  | .cas req => match (s.cas req now).1 with
    | .ok true => [req.key]
    | _ => []
  | .commit tx => match (tx.commit s).1 with
    | .ok () => tx.writeSet.keys
    | _ => []
  | .get _ => []
  | .sweep => []
  | .checkpoint => []

def mutatedBy : KindServerImpl → List (UInt64 × Op) → List String
  | _, [] => []
  | s, event :: rest => mutated s event.1 event.2 ++ mutatedBy (serverStep s event) rest

/-- The records newer than `base` are those whose keys are among `keys`. -/
structure NewerThan (base : Nat) (s : KindServerImpl) (keys : List String) : Prop where
  base_le : base ≤ s.globalVersion
  newer_iff : ∀ (key : String) r, s.tree[key]? = some r → (base < r.version ↔ key ∈ keys)

variable {s : KindServerImpl} {base : Nat} {keys : List String}

theorem mutated_eq (leader : s.isReplica = false) (now : UInt64) (op : Op) :
    mutated s now op = ((op.command s now).map WalCommand.keys).getD [] := by
  cases op with
  | get key => rfl
  | sweep => rfl
  | checkpoint => rfl
  | put req =>
      simp only [mutated, KindServerImpl.put_eq s leader]
      rfl
  | delete key =>
      cases held : s.tree[key]? with
      | none => simp [mutated, KindServerImpl.delete_absent s leader held, Op.command, held]
      | some old =>
          simp only [mutated, KindServerImpl.delete_present s leader held, Op.command, held]
          rfl
  | cas req =>
      by_cases holds : s.casMatches req now = true
      · simp only [mutated, KindServerImpl.cas_eq s leader, if_pos holds, Op.command]
        rfl
      · simp [mutated, KindServerImpl.cas_eq s leader, if_neg holds, Op.command]
  | commit tx =>
      cases clear : tx.conflicts s with
      | true => simp [mutated, TxHandle.commit_conflict leader clear, Op.command, clear]
      | false =>
          simp [mutated, TxHandle.commit_ok leader clear, Op.command, clear,
            TxHandle.keys_pending, WriteSet.keys]

theorem NewerThan.step (newer : NewerThan base s keys) (leader : s.isReplica = false)
    (event : UInt64 × Op) :
    NewerThan base (serverStep s event) (keys ++ mutated s event.1 event.2) := by
  obtain ⟨base_le, newer_iff⟩ := newer
  rw [mutated_eq leader]
  rcases @KindServerImpl.exec_cases _ _ event.1 leader event.2 with
    ⟨c, logs, logged⟩ | ⟨quiet, version, fewer⟩
  · have counted := logged.globalVersion
    rw [logs, Option.map_some, Option.getD_some]
    refine ⟨by simp only [serverStep]; omega, fun key r held => ?_⟩
    by_cases written : key ∈ c.keys
    · have := logged.version_written written held
      exact iff_of_true (by omega) (List.mem_append_right _ written)
    · rw [newer_iff key r (logged.unwritten written ▸ held), List.mem_append, or_iff_left written]
  · rw [quiet, Option.map_none, Option.getD_none, List.append_nil]
    exact ⟨by simp only [serverStep]; omega,
      fun key r held => newer_iff key r (fewer key r held)⟩

theorem NewerThan.run (events : List (UInt64 × Op)) :
    ∀ {s : KindServerImpl} {keys : List String}, NewerThan base s keys → s.isReplica = false →
      NewerThan base (run serverStep s events) (keys ++ mutatedBy s events) := by
  induction events with
  | nil =>
      intro s keys newer _
      rw [mutatedBy, List.append_nil]
      exact newer
  | cons event rest ih =>
      intro s keys newer leader
      rw [mutatedBy, ← List.append_assoc]
      exact ih (newer.step leader event) (KindServerImpl.leader_step leader event)

theorem conflict_iff (leader : s.isReplica = false) (tx : TxHandle) :
    (tx.commit s).1 = .error .conflict ↔
      ∃ key ∈ tx.writeSet.keys, ∃ r, s.tree[key]? = some r ∧ tx.snapshotVersion < r.version := by
  rw [← tx.conflicts_iff]
  cases conflict : tx.conflicts s with
  | true => simp [TxHandle.commit_conflict leader conflict]
  | false => simp [TxHandle.commit_ok leader conflict]

/-- `commit` is right about its transaction exactly if, whenever keys of the
write set were mutated since the begin, one of them still has a record. -/
theorem conflict_iff_mutated_iff (reg : SchemaRegistry) (hasSnapshot hasWal : Bool)
    (before between : List (UInt64 × Op)) (writeSet : WriteSet) :
    let s := run serverStep (.fresh reg hasSnapshot hasWal false) before
    let s' := run serverStep s between
    let tx := { s.beginTransaction with writeSet }
    (((tx.commit s').1 = .error .conflict ↔ ∃ key ∈ writeSet.keys, key ∈ mutatedBy s between) ↔
      ((∃ key ∈ writeSet.keys, key ∈ mutatedBy s between) →
        ∃ key ∈ writeSet.keys, key ∈ mutatedBy s between ∧ (s'.tree[key]?).isSome = true)) := by
  intro s s' tx
  have leader : s.isReplica = false := KindServerImpl.leader_run rfl before
  have bounded : s.VersionsBounded :=
    KindServerImpl.versionsBounded_run
      (KindServerImpl.versionsBounded_fresh reg hasSnapshot hasWal false) rfl before
  have atBegin : NewerThan s.globalVersion s [] :=
    ⟨le_rfl, fun key r held => by simpa using bounded key r held⟩
  have atCommit : NewerThan s.globalVersion s' (mutatedBy s between) := atBegin.run between leader
  have detected : (tx.commit s').1 = .error .conflict ↔
      ∃ key ∈ writeSet.keys, key ∈ mutatedBy s between ∧ (s'.tree[key]?).isSome = true := by
    rw [conflict_iff (KindServerImpl.leader_run leader between)]
    refine exists_congr fun key => and_congr_right fun _ => ?_
    constructor
    · intro ⟨r, held, newer⟩
      exact ⟨(atCommit.newer_iff key r held).mp newer, Option.isSome_iff_exists.mpr ⟨r, held⟩⟩
    · intro ⟨mutatedKey, present⟩
      obtain ⟨r, held⟩ := Option.isSome_iff_exists.mp present
      exact ⟨r, held, (atCommit.newer_iff key r held).mpr mutatedKey⟩
  rw [detected]
  constructor
  · exact fun exact => exact.mpr
  · intro visible
    exact ⟨fun ⟨key, member, mutatedKey, _⟩ => ⟨key, member, mutatedKey⟩, visible⟩

end Runs

/-! ## A deletion goes unseen -/

def putA : List (UInt64 × Op) := [(0, .put { key := "a", value := [1], ttlMs := none })]

def deleteA : List (UInt64 × Op) := [(0, .delete "a")]

theorem delete_raises_no_conflict :
    ¬ ∀ [Serde] (reg : SchemaRegistry) (hasSnapshot hasWal : Bool)
      (before between : List (UInt64 × Op)) (writeSet : WriteSet),
      let s := run serverStep (.fresh reg hasSnapshot hasWal false) before
      let s' := run serverStep s between
      let tx := { s.beginTransaction with writeSet }
      ((tx.commit s').1 = .error .conflict ↔
        ∃ key ∈ writeSet.keys, key ∈ mutatedBy s between) := by
  intro claim
  let _ : Serde := SerdeJson.instSerde
  let writeSet := WriteSet.empty.insert "a" (some { value := [2], expiresAt := none, version := 0 })
  have exact := claim .new false false putA deleteA writeSet
  let s := run serverStep (.fresh .new false false false) putA
  let tx := { s.beginTransaction with writeSet }
  have deleted : "a" ∈ mutatedBy s deleteA := by decide
  have conflict := exact.mpr ⟨"a", by decide, deleted⟩
  have clear : tx.conflicts (run serverStep s deleteA) = false := by decide
  have leader : (run serverStep s deleteA).isReplica = false := by decide
  have committed := TxHandle.commit_ok leader clear
  rw [congrArg Prod.fst committed] at conflict
  cases conflict

end KindDb.FirstCommitter
