import KindDb.Properties.IndexExactness

/-! # The secondary indexes after a recovery

Recovery files the keys of every value it inserts and unfiles them only on a
`Delete`, so a value overwritten during the replay stays filed.  The recovered
indexes are exact exactly if the files clobber no index key. -/
set_option autoImplicit false

namespace KindDb.RecoveredIndex

open KindDb.Lib KindDb.Lib.Overlay KindDb.Lib.IndexReplay KindDb.Schema

variable [Serde]

theorem exact_contents_iff (s : KindServerImpl) :
    PostingIndex.Exact (Recovery.termsOf s.schemaRegistry) s.contents s.indexes ↔
      ∀ ik key : String, PostingIndex.Indexed s.indexes ik key ↔
        ∃ r, s.tree[key]? = some r ∧ ik ∈ extractIndexKeys s.schemaRegistry key r.value := by
  unfold PostingIndex.Exact KindServerImpl.contents Recovery.termsOf
  refine forall_congr' fun ik => forall_congr' fun key => iff_congr Iff.rfl ?_
  cases s.tree[key]? with
  | none => simp
  | some r => simp [DbRecord.content]

/-- The files, read at `now`, overwrite no value that has an index key which
the later values of the same record all lack. -/
def NothingClobbered (reg : SchemaRegistry) (snapshotFile : Option (List SnapshotLine))
    (wal : Option WalFile) (now : UInt64) : Prop :=
  ∀ key ik, ¬ Clobbers (Recovery.termsOf reg)
    (effectiveAt now (fileUpdates (snapshotFile.getD []) (wal.getD []))) key ik

theorem exact_new_iff (snapshotFile : Option (List SnapshotLine)) (reg : SchemaRegistry)
    (wal : Option WalFile) (isReplica : Bool) (now : UInt64) :
    PostingIndex.Exact (Recovery.termsOf reg)
        (KindServerImpl.new snapshotFile reg wal isReplica now).contents
        (KindServerImpl.new snapshotFile reg wal isReplica now).indexes ↔
      NothingClobbered reg snapshotFile wal now := by
  have built : (KindServerImpl.new snapshotFile reg wal isReplica now).contents =
        (replay (Recovery.termsOf reg) start
          (effectiveAt now (fileUpdates (snapshotFile.getD []) (wal.getD [])))).1 ∧
      (KindServerImpl.new snapshotFile reg wal isReplica now).indexes =
        (replay (Recovery.termsOf reg) start
          (effectiveAt now (fileUpdates (snapshotFile.getD []) (wal.getD [])))).2 := by
    rw [← Recovery.view_recover]
    exact ⟨rfl, rfl⟩
  rw [built.1, built.2]
  exact exact_replay_iff

theorem recovered_indexes_exact_iff (snapshotFile : Option (List SnapshotLine))
    (reg : SchemaRegistry) (wal : Option WalFile) (isReplica : Bool) (now : UInt64) :
    (let s := KindServerImpl.new snapshotFile reg wal isReplica now
     ∀ ik key : String, PostingIndex.Indexed s.indexes ik key ↔
      ∃ r, s.tree[key]? = some r ∧ ik ∈ extractIndexKeys reg key r.value) ↔
      NothingClobbered reg snapshotFile wal now := by
  have stated := exact_contents_iff (KindServerImpl.new snapshotFile reg wal isReplica now)
  exact stated.symm.trans (exact_new_iff snapshotFile reg wal isReplica now)

def snapshotKeys (lines : List SnapshotLine) : List String :=
  touched (lines.flatMap SnapshotLine.updates)

/-- A record of city "a" is overwritten by one of city "b". -/
def moved : List (Nat × WalCommand) :=
  [(1, .put "user:1" (IndexExactness.cityJson "a") none),
   (2, .put "user:1" (IndexExactness.cityJson "b") none)]

theorem moved_logged : ∃ wal, Wal.readAllCommands wal = some moved := by
  refine ⟨Wal.append (Wal.append [] 1 (.put "user:1" (IndexExactness.cityJson "a") none))
    2 (.put "user:1" (IndexExactness.cityJson "b") none), ?_⟩
  rw [Wal.readAllCommands_append, Wal.readAllCommands_append]
  rfl

omit [Serde] in
theorem replayed_overwrite_leaves_entries :
    ¬ ∀ [Serde] (lines : List SnapshotLine), (snapshotKeys lines).Nodup →
      ∀ (reg : SchemaRegistry) (wal : WalFile) (now : UInt64),
      let s := KindServerImpl.new (some lines) reg (some wal) false now
      ∀ ik key : String, PostingIndex.Indexed s.indexes ik key ↔
        ∃ r, s.tree[key]? = some r ∧ ik ∈ extractIndexKeys reg key r.value := by
  intro claim
  let _ : Serde := SerdeJson.instSerde
  obtain ⟨wal, readBack⟩ := moved_logged
  have exact := claim [] List.nodup_nil IndexExactness.userRegistry wal 0 "User:city:a" "user:1"
  let st := moved.foldl (Recovery.replayCommand IndexExactness.userRegistry 0) Recovery.empty
  have recovered : Recovery.recover IndexExactness.userRegistry 0 [] wal = st := by
    rw [Recovery.recover, readBack]
    rfl
  have exactHere : PostingIndex.Indexed st.indexes "User:city:a" "user:1" ↔
      ∃ r, st.tree["user:1"]? = some r ∧
        "User:city:a" ∈ extractIndexKeys IndexExactness.userRegistry "user:1" r.value := by
    rw [← recovered]
    exact exact
  refine IndexExactness.inexact_of_left ?_ ?_ exactHere
  · decide
  · decide

end KindDb.RecoveredIndex
