import KindDb.Server.Operations

/-! # Replication payloads and what a replica does with them

`SyncPayload` is the message of the protocol.  The payload text of a WAL record
is kept as the envelope it parses to, `none` if it does not parse.
`processPayload` is the body of the receive loop of `run_replica_loop`;
`none` is its `break`. -/
set_option autoImplicit false

namespace KindDb

open KindDb.Lib KindDb.Lib.Overlay KindDb.Cache

structure SnapshotChunk where
  records : List Record
  maxTxId : Nat
deriving Repr

structure WalRecord where
  txId : Nat
  payload : Option WalEnvelope
deriving Repr

inductive SyncPayload
  | snapshot (chunk : SnapshotChunk)
  | walRecord (record : WalRecord)
deriving Repr

def Record.update (rec : Record) : Update String Content :=
  (rec.key, some (rec.value, rec.expiresAt))

namespace KindServerImpl

variable [Serde]

def installRecord (maxTxId : Nat) (s : KindServerImpl) (rec : Record) : KindServerImpl :=
  let s := s.treeInsert rec.key
    { value := rec.value, expiresAt := rec.expiresAt, version := maxTxId }
  s.indexRecord rec.key rec.value

def installChunk (s : KindServerImpl) (chunk : SnapshotChunk) : KindServerImpl :=
  { chunk.records.foldl (installRecord chunk.maxTxId) s with globalVersion := chunk.maxTxId }

def applySubCommand (txId : Nat) (s : KindServerImpl) : WalCommand → KindServerImpl
  | .put key value expiresAt =>
      let s := s.unindexOld key
      let s := s.indexRecord key value
      let s := s.cacheInvalidate key
      s.treeInsert key { value, expiresAt, version := txId }
  | .delete key =>
      let s := s.unindexOld key
      let s := s.treeRemove key
      s.cacheInvalidate key
  | .txCommit _ => s

def applyCommand (s : KindServerImpl) (txId : Nat) (cmd : WalCommand) : KindServerImpl :=
  let s := match cmd with
    | .put key value expiresAt =>
        let s := s.unindexOld key
        let s := s.indexRecord key value
        let s := s.walAppend txId (.put key value expiresAt)
        let s := s.cacheInvalidate key
        s.treeInsert key { value, expiresAt, version := txId }
    | .delete key =>
        let s := s.unindexOld key
        let s := s.treeRemove key
        let s := s.cacheInvalidate key
        s.walAppend txId (.delete key)
    | .txCommit cmds => cmds.foldl (applySubCommand txId) (s.walAppend txId (.txCommit cmds))
  { s with globalVersion := txId }

def processPayload (s : KindServerImpl) : SyncPayload → Option KindServerImpl
  | .snapshot chunk => some (s.installChunk chunk)
  | .walRecord record =>
      if record.txId ≤ s.globalVersion then some s
      else if record.txId ≠ s.globalVersion + 1 ∧ s.globalVersion ≠ 0 then none
      else match record.payload with
        | some envelope => some (s.applyCommand record.txId envelope.c)
        | none => some s

/-- All the payloads of a stream in order, up to the first `break`. -/
def processStream (s : KindServerImpl) : List SyncPayload → KindServerImpl
  | [] => s
  | payload :: rest =>
      match s.processPayload payload with
      | some s' => s'.processStream rest
      | none => s

/-! ## What a reader of the replica sees -/

omit [Serde] in
theorem contents_treeInsert (s : KindServerImpl) (key : String) (record : DbRecord) :
    (s.treeInsert key record).contents =
      Function.update s.contents key (some record.content) := by
  funext k
  simp only [contents, treeInsert, SortedMap.lookup_insert, Function.update_apply,
    eq_comm (a := k)]
  split_ifs <;> rfl

omit [Serde] in
theorem contents_treeRemove (s : KindServerImpl) (key : String) :
    (s.treeRemove key).contents = Function.update s.contents key none := by
  funext k
  simp only [contents, treeRemove, SortedMap.lookup_erase, Function.update_apply,
    eq_comm (a := k)]
  split_ifs <;> rfl

@[simp] theorem contents_unindexOld (s : KindServerImpl) (key : String) :
    (s.unindexOld key).contents = s.contents := by
  rw [unindexOld_eq]
  rfl

/-- A key that is unindexed, with changes no reader sees, and then written. -/
theorem contents_overwritten {s t : KindServerImpl} {key : String}
    (same : t.contents = (s.unindexOld key).contents) (record : DbRecord) :
    (t.treeInsert key record).contents = Function.update s.contents key (some record.content) := by
  rw [contents_treeInsert, same, contents_unindexOld]

theorem contents_removed {s t : KindServerImpl} {key : String}
    (same : t.contents = (s.unindexOld key).contents) :
    (t.treeRemove key).contents = Function.update s.contents key none := by
  rw [contents_treeRemove, same, contents_unindexOld]

theorem contents_installRecords (maxTxId : Nat) (records : List Record) (s : KindServerImpl) :
    (records.foldl (installRecord maxTxId) s).contents =
      overlay s.contents (records.map Record.update) := by
  induction records generalizing s with
  | nil => rfl
  | cons rec rest ih =>
      rw [List.foldl_cons, ih, List.map_cons, overlay_cons]
      exact congrArg (overlay · _) (contents_treeInsert s rec.key _)

theorem contents_installChunk (s : KindServerImpl) (chunk : SnapshotChunk) :
    (s.installChunk chunk).contents = overlay s.contents (chunk.records.map Record.update) :=
  contents_installRecords chunk.maxTxId chunk.records s

theorem contents_applySubCommand (txId : Nat) (s : KindServerImpl) (cmd : WalCommand) :
    (applySubCommand txId s cmd).contents = overlay s.contents cmd.subUpdates := by
  cases cmd with
  | put key value expiresAt => exact contents_overwritten (s := s) rfl _
  | delete key => exact contents_removed (s := s) rfl
  | txCommit cmds => rfl

theorem contents_applySubCommands (txId : Nat) (cmds : List WalCommand) (s : KindServerImpl) :
    (cmds.foldl (applySubCommand txId) s).contents =
      overlay s.contents (cmds.flatMap WalCommand.subUpdates) := by
  induction cmds generalizing s with
  | nil => rfl
  | cons cmd rest ih =>
      rw [List.foldl_cons, ih, contents_applySubCommand, List.flatMap_cons, overlay_append]

theorem contents_applyCommand (s : KindServerImpl) (txId : Nat) (cmd : WalCommand) :
    (s.applyCommand txId cmd).contents = overlay s.contents cmd.updates := by
  cases cmd with
  | put key value expiresAt => exact contents_overwritten (s := s) rfl _
  | delete key => exact contents_removed (s := s) rfl
  | txCommit cmds => exact contents_applySubCommands txId cmds _

/-! ## What a restart of the replica finds -/

/-- The two servers would be restarted alike. -/
structure SameFiles (s s' : KindServerImpl) : Prop where
  snapshotFile : s'.snapshotFile = s.snapshotFile
  wal : s'.wal = s.wal
  schemaRegistry : s'.schemaRegistry = s.schemaRegistry
  isReplica : s'.isReplica = s.isReplica

omit [Serde] in
theorem SameFiles.refl (s : KindServerImpl) : SameFiles s s := ⟨rfl, rfl, rfl, rfl⟩

omit [Serde] in
theorem SameFiles.trans {s s' s'' : KindServerImpl} (first : SameFiles s s')
    (second : SameFiles s' s'') : SameFiles s s'' :=
  ⟨second.snapshotFile.trans first.snapshotFile, second.wal.trans first.wal,
    second.schemaRegistry.trans first.schemaRegistry, second.isReplica.trans first.isReplica⟩

theorem SameFiles.restart {s s' : KindServerImpl} (same : SameFiles s s') (now : UInt64) :
    s'.restart now = s.restart now := by
  unfold KindServerImpl.restart
  rw [same.snapshotFile, same.wal, same.schemaRegistry, same.isReplica]

theorem SameFiles.onDisk {s s' : KindServerImpl} (same : SameFiles s s') :
    s'.onDisk = s.onDisk := by
  unfold KindServerImpl.onDisk
  rw [same.snapshotFile, same.wal]

theorem sameFiles_installChunk (s : KindServerImpl) (chunk : SnapshotChunk) :
    SameFiles s (s.installChunk chunk) := by
  have installed : SameFiles s (chunk.records.foldl (installRecord chunk.maxTxId) s) := by
    induction chunk.records generalizing s with
    | nil => exact SameFiles.refl s
    | cons rec rest ih =>
        have first : SameFiles s (installRecord chunk.maxTxId s rec) := ⟨rfl, rfl, rfl, rfl⟩
        exact first.trans (ih _)
  exact installed.trans ⟨rfl, rfl, rfl, rfl⟩

theorem sameFiles_unindexOld (s : KindServerImpl) (key : String) :
    SameFiles s (s.unindexOld key) := by
  rw [unindexOld_eq]
  exact ⟨rfl, rfl, rfl, rfl⟩

theorem sameFiles_applySubCommand (txId : Nat) (s : KindServerImpl) (cmd : WalCommand) :
    SameFiles s (applySubCommand txId s cmd) := by
  cases cmd with
  | put key value expiresAt => exact (sameFiles_unindexOld s key).trans ⟨rfl, rfl, rfl, rfl⟩
  | delete key => exact (sameFiles_unindexOld s key).trans ⟨rfl, rfl, rfl, rfl⟩
  | txCommit cmds => exact SameFiles.refl s

/-- Of the files only the log changes. -/
theorem sameFiles_applyCommand (s : KindServerImpl) (txId : Nat) (cmd : WalCommand) :
    SameFiles (s.walAppend txId cmd) (s.applyCommand txId cmd) := by
  cases cmd with
  | put key value expiresAt =>
      have same := sameFiles_unindexOld s key
      exact ⟨same.snapshotFile, congrArg (Option.map fun file => Wal.append file txId _) same.wal,
        same.schemaRegistry, same.isReplica⟩
  | delete key =>
      have same := sameFiles_unindexOld s key
      exact ⟨same.snapshotFile, congrArg (Option.map fun file => Wal.append file txId _) same.wal,
        same.schemaRegistry, same.isReplica⟩
  | txCommit cmds =>
      have applied : ∀ (rest : List WalCommand) (s : KindServerImpl),
          SameFiles s (rest.foldl (applySubCommand txId) s) := by
        intro rest
        induction rest with
        | nil => exact SameFiles.refl
        | cons cmd rest ih => exact fun s => (sameFiles_applySubCommand txId s cmd).trans (ih _)
      exact (applied cmds _).trans ⟨rfl, rfl, rfl, rfl⟩

end KindServerImpl

end KindDb
