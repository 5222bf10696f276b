import KindDb.Properties.IndexExactness
import KindDb.Server.Replica

/-! # The indexes of a replica

A command from the log takes the old value out of the indexes before it puts
the new one in.  A snapshot chunk does not: it files its records over what is
there.  `replica_indexes_exact_iff` says when that leaves nothing behind. -/
set_option autoImplicit false

namespace KindDb.ReplicaIndex

open KindDb.Lib KindDb.Lib.Runs KindDb.Schema KindDb.IndexExactness KindDb.KindServerImpl

variable [Serde]

/-- One payload; at a `break` the replica reconnects with what it has. -/
def replicaStep (s : KindServerImpl) (payload : SyncPayload) : KindServerImpl :=
  (s.processPayload payload).getD s

/-- The last record of every key in a chunk has all the index keys of the
earlier records of the key and of the value that the tree holds for it. -/
def CoversReplaced (s : KindServerImpl) : SyncPayload → Prop
  | .snapshot chunk => ∀ earlier last later, chunk.records = earlier ++ last :: later →
      (∀ rec ∈ later, rec.key ≠ last.key) →
      ∀ ik, ((∃ old, s.tree[last.key]? = some old ∧
            ik ∈ s.extractIndexKeys last.key old.value) ∨
          ∃ rec ∈ earlier, rec.key = last.key ∧ ik ∈ s.extractIndexKeys last.key rec.value) →
        ik ∈ s.extractIndexKeys last.key last.value
  | .walRecord _ => True

/-! ## Commands -/

variable {s : KindServerImpl}

theorem exact_put (exact : IndexExact s) {s' : KindServerImpl} {key : String} {r : DbRecord}
    (tree : s'.tree = s.tree.insert key r) (indexes : s'.indexes =
      PostingIndex.fileAll (s.unindexOld key).indexes (s.extractIndexKeys key r.value) key)
    (registry : s'.schemaRegistry = s.schemaRegistry) : IndexExact s' := by
  unfold IndexExact KindServerImpl.extractIndexKeys
  rw [values_insert tree, indexes, registry]
  exact exact.replace key r.value

theorem exact_delete (exact : IndexExact s) {s' : KindServerImpl} {key : String}
    (tree : s'.tree = s.tree.erase key) (indexes : s'.indexes = (s.unindexOld key).indexes)
    (registry : s'.schemaRegistry = s.schemaRegistry) : IndexExact s' := by
  unfold IndexExact KindServerImpl.extractIndexKeys
  rw [values_erase tree, indexes, registry]
  exact exact.unindexOld key

theorem exact_applySubCommand (exact : IndexExact s) (txId : Nat) (cmd : WalCommand) :
    IndexExact (applySubCommand txId s cmd) := by
  cases cmd with
  | put key value expiresAt =>
      rw [applySubCommand, s.unindexOld_eq]
      exact exact_put exact (r := { value, expiresAt, version := txId }) rfl rfl rfl
  | delete key =>
      rw [applySubCommand, s.unindexOld_eq]
      exact exact_delete exact rfl rfl rfl
  | txCommit cmds => exact exact

theorem exact_applyCommand (exact : IndexExact s) (txId : Nat) (cmd : WalCommand) :
    IndexExact (s.applyCommand txId cmd) := by
  cases cmd with
  | put key value expiresAt =>
      unfold applyCommand
      dsimp only
      rw [s.unindexOld_eq]
      exact exact_put exact (r := { value, expiresAt, version := txId }) rfl rfl rfl
  | delete key =>
      unfold applyCommand
      dsimp only
      rw [s.unindexOld_eq]
      exact exact_delete exact rfl rfl rfl
  | txCommit cmds =>
      have applied : ∀ (cmds : List WalCommand) (s : KindServerImpl), IndexExact s →
          IndexExact (cmds.foldl (applySubCommand txId) s) := by
        intro cmds
        induction cmds with
        | nil => exact fun _ exact => exact
        | cons cmd rest ih => exact fun s exact => ih _ (exact_applySubCommand exact txId cmd)
      exact applied cmds _ exact

/-! ## Chunks -/

/-- What a chunk files, over what was filed. -/
theorem indexed_installRecords (maxTxId : Nat) (records : List Record) (s : KindServerImpl)
    (ik key : String) :
    PostingIndex.Indexed (records.foldl (installRecord maxTxId) s).indexes ik key ↔
      PostingIndex.Indexed s.indexes ik key ∨
        ∃ rec ∈ records, rec.key = key ∧ ik ∈ s.extractIndexKeys key rec.value := by
  induction records generalizing s with
  | nil => simp
  | cons rec rest ih =>
      have first : PostingIndex.Indexed (installRecord maxTxId s rec).indexes ik key ↔
          PostingIndex.Indexed s.indexes ik key ∨
            (rec.key = key ∧ ik ∈ s.extractIndexKeys rec.key rec.value) :=
        PostingIndex.indexed_fileAll _ _ _ _ _
      have sameKeys : (installRecord maxTxId s rec).extractIndexKeys = s.extractIndexKeys := rfl
      rw [List.foldl_cons, ih, first, sameKeys]
      simp only [List.exists_mem_cons_iff]
      constructor
      · rintro ((filed | ⟨rfl, carried⟩) | later)
        · exact Or.inl filed
        · exact Or.inr (Or.inl ⟨rfl, carried⟩)
        · exact Or.inr (Or.inr later)
      · rintro (filed | ⟨rfl, carried⟩ | later)
        · exact Or.inl (Or.inl filed)
        · exact Or.inl (Or.inr ⟨rfl, carried⟩)
        · exact Or.inr later

omit [Serde] in
theorem values_of_contents (s : KindServerImpl) (key : String) :
    values s key = (s.contents key).map Prod.fst := by
  unfold values contents
  rw [Option.map_map]
  rfl

theorem values_installRecords_absent {maxTxId : Nat} {records : List Record} {key : String}
    (absent : ∀ rec ∈ records, rec.key ≠ key) :
    values (records.foldl (installRecord maxTxId) s) key = values s key := by
  rw [values_of_contents, values_of_contents, contents_installRecords, Overlay.overlay_untouched]
  intro named
  rw [Overlay.touched, List.map_map] at named
  obtain ⟨rec, member, same⟩ := List.mem_map.mp named
  exact absent rec member same

theorem values_installRecords_last {maxTxId : Nat} {earlier later : List Record} {last : Record}
    (isLast : ∀ rec ∈ later, rec.key ≠ last.key) :
    values ((earlier ++ last :: later).foldl (installRecord maxTxId) s) last.key =
      some last.value := by
  rw [List.foldl_append, List.foldl_cons, values_installRecords_absent isLast]
  exact (congrFun (values_insert rfl) last.key).trans (Function.update_self ..)

omit [Serde] in
/-- Every key of a chunk has a last record. -/
theorem exists_last {records : List Record} {key : String} (named : ∃ rec ∈ records, rec.key = key) :
    ∃ earlier last later, records = earlier ++ last :: later ∧ last.key = key ∧
      ∀ rec ∈ later, rec.key ≠ key := by
  induction records with
  | nil => simp at named
  | cons rec rest ih =>
      by_cases again : ∃ rec ∈ rest, rec.key = key
      · obtain ⟨earlier, last, later, rfl, same, isLast⟩ := ih again
        exact ⟨rec :: earlier, last, later, rfl, same, isLast⟩
      · obtain ⟨first, member, same⟩ := named
        rcases List.mem_cons.mp member with rfl | later
        · exact ⟨[], first, rest, rfl, same, fun other listed equal => again ⟨other, listed, equal⟩⟩
        · exact absurd ⟨first, later, same⟩ again

theorem exact_installChunk_iff (exact : IndexExact s) (chunk : SnapshotChunk) :
    IndexExact (s.installChunk chunk) ↔ CoversReplaced s (.snapshot chunk) := by
  have filed := indexed_installRecords chunk.maxTxId chunk.records s
  have sameKeys : (s.installChunk chunk).extractIndexKeys = s.extractIndexKeys := by
    unfold KindServerImpl.extractIndexKeys
    rw [(sameFiles_installChunk s chunk).schemaRegistry]
  have isExact : IndexExact (s.installChunk chunk) ↔ ∀ ik key,
      (PostingIndex.Indexed s.indexes ik key ∨
          ∃ rec ∈ chunk.records, rec.key = key ∧ ik ∈ s.extractIndexKeys key rec.value) ↔
        ∃ value, values (chunk.records.foldl (installRecord chunk.maxTxId) s) key = some value ∧
          ik ∈ s.extractIndexKeys key value := by
    unfold IndexExact PostingIndex.Exact
    rw [sameKeys]
    exact forall_congr' fun ik => forall_congr' fun key => iff_congr (filed ik key) Iff.rfl
  rw [isExact]
  constructor
  · intro always earlier last later split isLast ik before
    have value : values (chunk.records.foldl (installRecord chunk.maxTxId) s) last.key =
        some last.value := by
      rw [split]
      exact values_installRecords_last isLast
    obtain ⟨value', held, carried⟩ := (always ik last.key).mp (by
      rcases before with ⟨old, held, carried⟩ | ⟨rec, listed, same, carried⟩
      · exact Or.inl (((indexExact_iff s).mp exact ik last.key).mpr ⟨old, held, carried⟩)
      · exact Or.inr ⟨rec, split ▸ List.mem_append_left _ listed, same, carried⟩)
    rw [value] at held
    cases held
    exact carried
  · intro covers ik key
    by_cases named : ∃ rec ∈ chunk.records, rec.key = key
    · obtain ⟨earlier, last, later, split, rfl, isLast⟩ := exists_last named
      have value : values (chunk.records.foldl (installRecord chunk.maxTxId) s) last.key =
          some last.value := by
        rw [split]
        exact values_installRecords_last isLast
      have covered := covers earlier last later split isLast ik
      rw [value]
      simp only [Option.some.injEq, exists_eq_left']
      constructor
      · rintro (filed | ⟨rec, listed, same, carried⟩)
        · exact covered (Or.inl (((indexExact_iff s).mp exact ik last.key).mp filed))
        · rw [split] at listed
          rcases List.mem_append.mp listed with before | rest
          · exact covered (Or.inr ⟨rec, before, same, carried⟩)
          · rcases List.mem_cons.mp rest with rfl | after
            · exact carried
            · exact absurd same (isLast rec after)
      · intro carried
        exact Or.inr ⟨last, split ▸ List.mem_append_right _ List.mem_cons_self, rfl, carried⟩
    · have absent : ∀ rec ∈ chunk.records, rec.key ≠ key := fun rec listed same =>
        named ⟨rec, listed, same⟩
      rw [values_installRecords_absent absent, ← exact ik key]
      refine or_iff_left ?_
      rintro ⟨rec, listed, same, _⟩
      exact absent rec listed same

/-! ## Runs -/

theorem exact_step_iff (exact : IndexExact s) (payload : SyncPayload) :
    IndexExact (replicaStep s payload) ↔ CoversReplaced s payload := by
  cases payload with
  | snapshot chunk => exact exact_installChunk_iff exact chunk
  | walRecord record =>
      refine iff_of_true ?_ trivial
      rw [replicaStep, processPayload]
      split_ifs
      · exact exact
      · exact exact
      · cases record.payload with
        | none => exact exact
        | some envelope => exact exact_applyCommand exact record.txId envelope.c

theorem registry_step (s : KindServerImpl) (payload : SyncPayload) :
    (replicaStep s payload).schemaRegistry = s.schemaRegistry := by
  cases payload with
  | snapshot chunk => exact (sameFiles_installChunk s chunk).schemaRegistry
  | walRecord record =>
      rw [replicaStep, processPayload]
      split_ifs
      · rfl
      · rfl
      · cases record.payload with
        | none => rfl
        | some envelope => exact (sameFiles_applyCommand s record.txId envelope.c).schemaRegistry

theorem exact_freshReplica (reg : SchemaRegistry) (hasSnapshot hasWal : Bool) :
    IndexExact (KindServerImpl.fresh reg hasSnapshot hasWal true) :=
  exact_fresh reg hasSnapshot hasWal

/-- The indexes of a replica are exact after every payload exactly if every
chunk it installs covers what it replaces. -/
theorem replica_indexes_exact_iff (reg : SchemaRegistry) (hasSnapshot hasWal : Bool)
    (payloads : List SyncPayload) :
    (∀ past, past <+: payloads →
      let s := run replicaStep (.fresh reg hasSnapshot hasWal true) past
      ∀ ik key : String, PostingIndex.Indexed s.indexes ik key ↔
        ∃ r, s.tree[key]? = some r ∧ ik ∈ extractIndexKeys reg key r.value) ↔
      StepsMeet replicaStep CoversReplaced (.fresh reg hasSnapshot hasWal true) payloads := by
  have step : ∀ s payload, True → IndexExact s →
      (IndexExact (replicaStep s payload) ↔ CoversReplaced s payload) :=
    fun s payload _ exact => exact_step_iff exact payload
  rw [← run_invariant_iff step payloads _ (stepsMeet_of_forall (fun _ _ => trivial) ..)
    (exact_freshReplica reg hasSnapshot hasWal)]
  refine forall_congr' fun past => forall_congr' fun _ => ?_
  have registry : (run replicaStep (.fresh reg hasSnapshot hasWal true) past).schemaRegistry = reg :=
    run_invariant_of_forall
      (fun s payload same => (registry_step s payload).trans same) past _ rfl
  have stated := indexExact_iff (run replicaStep (.fresh reg hasSnapshot hasWal true) past)
  unfold KindServerImpl.extractIndexKeys at stated
  rw [registry] at stated
  exact stated.symm

/-- Two syncs, between which the record was changed. -/
def movedCity : List SyncPayload :=
  [.snapshot { records := [{ key := "user:1", value := cityJson "a", expiresAt := none }]
               maxTxId := 1 },
   .snapshot { records := [{ key := "user:1", value := cityJson "b", expiresAt := none }]
               maxTxId := 2 }]

omit [Serde] in
theorem snapshot_leaves_entries :
    ¬ ∀ [Serde] (reg : SchemaRegistry) (hasSnapshot hasWal : Bool) (payloads : List SyncPayload),
      let s := run replicaStep (.fresh reg hasSnapshot hasWal true) payloads
      ∀ ik key : String, PostingIndex.Indexed s.indexes ik key ↔
        ∃ r, s.tree[key]? = some r ∧ ik ∈ extractIndexKeys reg key r.value := by
  intro claim
  let _ : Serde := SerdeJson.instSerde
  refine inexact_of_left ?_ ?_ (claim userRegistry false false movedCity "User:city:a" "user:1")
  · decide
  · decide

end KindDb.ReplicaIndex
