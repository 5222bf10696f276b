import KindDb.Server.Handlers
import KindDb.Server.Recovery

/-! # Sequential operations and what each of them does

`Op` is everything a running server does one at a time.  A mutating operation
logs one command; `Logged s s' c` says that `s'` is `s` with `c` carried out as
its next version, in the tree, in the log and on the sync channel alike.  The
other operations leave version, log and channel alone: they are quiet, evict
expired records, or rewrite the files. -/
set_option autoImplicit false

namespace KindDb

open KindDb.Lib KindDb.Lib.Overlay KindDb.Cache

namespace KindServerImpl

def snapshotLines (s : KindServerImpl) (now : UInt64) : List SnapshotLine :=
  (s.tree.toList.filter fun entry => !isExpired entry.2.expiresAt now).map fun entry =>
    .record { key := entry.1, record := entry.2 }

/-- The records that are live when the clock reads `clock key` at their key. -/
def liveUpdates (s : KindServerImpl) (clock : String → UInt64) : List (Update String Content) :=
  (s.tree.toList.filter fun entry => !isExpired entry.2.expiresAt (clock entry.1)).map
    fun entry => (entry.1, some entry.2.content)

theorem updates_snapshotLines (s : KindServerImpl) (now : UInt64) :
    (s.snapshotLines now).flatMap SnapshotLine.updates = s.liveUpdates fun _ => now := by
  rw [snapshotLines, List.flatMap_map]
  exact List.map_eq_flatMap.symm

theorem liveUpdates_distinct (s : KindServerImpl) (clock : String → UInt64) :
    (touched (s.liveUpdates clock)).Nodup := by
  rw [liveUpdates, touched, List.map_map]
  exact (SortedMap.nodup_keys_toList s.tree).sublist (List.filter_sublist.map _)

theorem mem_liveUpdates {s : KindServerImpl} {clock : String → UInt64} {key : String}
    {held : Option Content} :
    (key, held) ∈ s.liveUpdates clock ↔
      held.isSome = true ∧ liveAt (clock key) (s.contents key) = held := by
  have listed : (key, held) ∈ s.liveUpdates clock ↔ ∃ r, s.tree[key]? = some r ∧
      isExpired r.expiresAt (clock key) = false ∧ some r.content = held := by
    simp only [liveUpdates, List.mem_map, List.mem_filter, Prod.exists, Prod.mk.injEq,
      Std.ExtTreeMap.mem_toList_iff_getElem?_eq_some, Bool.not_eq_true']
    constructor
    · intro ⟨k, r, ⟨found, live⟩, same, content⟩
      subst same
      exact ⟨r, found, live, content⟩
    · intro ⟨r, found, live, content⟩
      exact ⟨key, r, ⟨found, live⟩, rfl, content⟩
  rw [listed, contents]
  cases found : s.tree[key]? with
  | none =>
      simp only [Option.map_none, liveAt_none]
      cases held <;> simp
  | some r =>
      cases expired : isExpired r.expiresAt (clock key) with
      | true => cases held <;> simp [liveAt_some, DbRecord.content, expired]
      | false => cases held <;> simp [liveAt_some, DbRecord.content, expired]

theorem untouched_liveUpdates {s : KindServerImpl} {clock : String → UInt64} {key : String}
    (dead : liveAt (clock key) (s.contents key) = none) : key ∉ touched (s.liveUpdates clock) := by
  intro named
  obtain ⟨⟨k, held⟩, member, same⟩ := List.mem_map.mp named
  subst same
  obtain ⟨isSome, equal⟩ := mem_liveUpdates.mp member
  rw [dead] at equal
  rw [← equal] at isSome
  cases isSome

theorem overlay_liveUpdates (s : KindServerImpl) (clock : String → UInt64)
    (store : String → Option Content) (key : String) :
    overlay store (s.liveUpdates clock) key =
      (liveAt (clock key) (s.contents key)).or (store key) := by
  cases live : liveAt (clock key) (s.contents key) with
  | none => exact overlay_untouched (untouched_liveUpdates live) store
  | some c =>
      exact overlay_of_mem (s.liveUpdates_distinct clock) (mem_liveUpdates.mpr ⟨rfl, live⟩) store

/-- A checkpoint that ran to its end with nothing else going on. -/
def saveSnapshotAndTruncateWal (s : KindServerImpl) (now : UInt64) : KindServerImpl :=
  match s.snapshotFile with
  | some _ => { s with snapshotFile := some (s.snapshotLines now), wal := s.wal.map Wal.truncate }
  | none => s

end KindServerImpl

inductive Op
  | get (key : String)
  | put (req : PutRequest)
  | delete (key : String)
  | cas (req : CasRequest)
  | commit (tx : TxHandle)
  | sweep
  | checkpoint

variable [Serde]

/-- One operation at one clock reading. -/
def Op.exec (s : KindServerImpl) (now : UInt64) : Op → KindServerImpl
  | .get key => (s.get key now).2
  | .put req => (s.put req now).2
  | .delete key => (s.delete key).2
  | .cas req => (s.cas req now).2
  | .commit tx => (tx.commit s).2
  | .sweep => s.sweep now
  | .checkpoint => s.saveSnapshotAndTruncateWal now

def serverStep (s : KindServerImpl) (event : UInt64 × Op) : KindServerImpl :=
  event.2.exec s event.1

/-! ## The effects -/

/-- Settings that no operation changes. -/
structure SameSettings (s s' : KindServerImpl) : Prop where
  schemaRegistry : s'.schemaRegistry = s.schemaRegistry
  isReplica : s'.isReplica = s.isReplica
  hasSnapshot : s'.snapshotFile.isSome = s.snapshotFile.isSome
  hasWal : s'.wal.isSome = s.wal.isSome

structure Logged (s s' : KindServerImpl) (c : WalCommand) : Prop extends SameSettings s s' where
  tree : ∀ k : String, s'.tree[k]? =
    overlay (fun k => s.tree[k]?) (c.recordUpdates (s.globalVersion + 1)) k
  globalVersion : s'.globalVersion = s.globalVersion + 1
  wal : s'.wal = s.wal.map fun file => Wal.append file (s.globalVersion + 1) c
  syncTx : s'.syncTx = s.syncTx ++ [(s.globalVersion + 1, c)]
  snapshotFile : s'.snapshotFile = s.snapshotFile

/-- Nothing durable or replicated happened; only expired records may be gone. -/
structure Unlogged (s s' : KindServerImpl) (now : UInt64) : Prop extends SameSettings s s' where
  tree : ∀ k : String, s'.tree[k]? = s.tree[k]? ∨
    (s'.tree[k]? = none ∧ ∃ r, s.tree[k]? = some r ∧ isExpired r.expiresAt now = true)
  globalVersion : s'.globalVersion = s.globalVersion
  wal : s'.wal = s.wal
  syncTx : s'.syncTx = s.syncTx
  snapshotFile : s'.snapshotFile = s.snapshotFile

omit [Serde] in
theorem SameSettings.refl (s : KindServerImpl) : SameSettings s s := ⟨rfl, rfl, rfl, rfl⟩

omit [Serde] in
theorem Unlogged.refl (s : KindServerImpl) (now : UInt64) : Unlogged s s now :=
  ⟨SameSettings.refl s, fun _ => Or.inl rfl, rfl, rfl, rfl, rfl⟩

theorem Logged.contents {s s' : KindServerImpl} {c : WalCommand} (logged : Logged s s' c)
    (key : String) : s'.contents key = overlay s.contents c.updates key := by
  unfold KindServerImpl.contents
  rw [logged.tree, overlay_map, WalCommand.content_recordUpdates]

theorem Logged.unwritten {s s' : KindServerImpl} {c : WalCommand} (logged : Logged s s' c)
    {key : String} (other : key ∉ c.keys) : s'.tree[key]? = s.tree[key]? := by
  rw [logged.tree, overlay_untouched (by simpa using other)]

theorem Logged.version_written {s s' : KindServerImpl} {c : WalCommand} (logged : Logged s s' c)
    {key : String} {r : DbRecord} (written : key ∈ c.keys) (held : s'.tree[key]? = some r) :
    r.version = s'.globalVersion := by
  rw [logged.tree] at held
  have member := mem_of_overlay (by simpa using written) held
  obtain ⟨update, _, same⟩ := List.mem_map.mp member
  obtain ⟨content, _, rfl⟩ := Option.map_eq_some_iff.mp (congrArg Prod.snd same)
  exact logged.globalVersion.symm

omit [Serde] in
/-- From now on nobody can tell that expired records are gone. -/
theorem Unlogged.liveAt {s s' : KindServerImpl} {now t : UInt64} (quiet : Unlogged s s' now)
    (later : now ≤ t) (key : String) : liveAt t (s'.contents key) = liveAt t (s.contents key) := by
  unfold KindServerImpl.contents
  rcases quiet.tree key with same | ⟨gone, r, held, expired⟩
  · rw [same]
  · rw [gone, held]
    have expiredThen := isExpired_later later expired
    simp [liveAt_some, DbRecord.content, expiredThen]

namespace KindServerImpl

variable (s : KindServerImpl)

theorem unindexOld_eq (key : String) :
    s.unindexOld key = { s with indexes := (s.unindexOld key).indexes } := by
  unfold unindexOld
  cases s.tree[key]? <;> rfl

theorem put_eq (leader : s.isReplica = false) (req : PutRequest) (now : UInt64) :
    s.put req now = (.ok true, { s with
      tree := s.tree.insert req.key
        { value := req.value, expiresAt := deadline now req.ttlMs, version := s.globalVersion + 1 }
      indexes := PostingIndex.fileAll (s.unindexOld req.key).indexes
        (s.extractIndexKeys req.key req.value) req.key
      cache := if (deadline now req.ttlMs).isNone then s.cache.put req.key req.value else s.cache
      wal := s.wal.map fun file => Wal.append file (s.globalVersion + 1)
        (.put req.key req.value (deadline now req.ttlMs))
      globalVersion := s.globalVersion + 1
      watchTx := s.watchTx ++
        [{ key := req.key, newValue := some req.value, operationType := "PUT" }]
      syncTx := s.syncTx ++
        [(s.globalVersion + 1, .put req.key req.value (deadline now req.ttlMs))] }) := by
  obtain ⟨key, value, ttlMs⟩ := req
  unfold put putLogging
  rw [if_neg (by simp [leader]), unindexOld_eq]
  cases ttlMs <;> rfl

theorem casWrite_eq (req : CasRequest) (expiresAt : Option UInt64) :
    s.casWrite req expiresAt = { s with
      tree := s.tree.insert req.key
        { value := req.newValue, expiresAt, version := s.globalVersion + 1 }
      indexes := PostingIndex.fileAll s.indexes (s.extractIndexKeys req.key req.newValue) req.key
      cache := s.cache.invalidate req.key
      wal := s.wal.map fun file => Wal.append file (s.globalVersion + 1)
        (.put req.key req.newValue expiresAt)
      globalVersion := s.globalVersion + 1
      watchTx := s.watchTx ++
        [{ key := req.key, newValue := some req.newValue, operationType := "PUT" }]
      syncTx := s.syncTx ++ [(s.globalVersion + 1, .put req.key req.newValue expiresAt)] } := rfl

theorem delete_present (leader : s.isReplica = false) {key : String} {old : DbRecord}
    (held : s.tree[key]? = some old) :
    s.delete key = (.ok true, { s with
      tree := s.tree.erase key
      indexes := PostingIndex.unfileAll s.indexes (s.extractIndexKeys key old.value) key
      cache := s.cache.invalidate key
      wal := s.wal.map fun file => Wal.append file (s.globalVersion + 1) (.delete key)
      globalVersion := s.globalVersion + 1
      watchTx := s.watchTx ++ [{ key, newValue := none, operationType := "DELETE" }]
      syncTx := s.syncTx ++ [(s.globalVersion + 1, .delete key)] }) := by
  unfold delete deleteLogging
  rw [if_neg (by simp [leader]), held]
  rfl

theorem delete_absent (leader : s.isReplica = false) {key : String} (free : s.tree[key]? = none) :
    s.delete key = (.ok false, s) := by
  unfold delete deleteLogging
  rw [if_neg (by simp [leader]), free]

/-- The comparison of `cas`: a live record with the expected value, or no live
record and nothing expected. -/
def casMatches (req : CasRequest) (now : UInt64) : Bool :=
  match s.tree[req.key]? with
  | some rec =>
      if isExpired rec.expiresAt now then req.expectedValue = [] else rec.value = req.expectedValue
  | none => req.expectedValue = []

/-- The state in which the succeeding `cas` writes: a live old value is unindexed. -/
def casUnindex (req : CasRequest) (now : UInt64) : KindServerImpl :=
  match s.tree[req.key]? with
  | some rec =>
      if isExpired rec.expiresAt now then s else s.removeRecordFromIndex req.key rec.value
  | none => s

theorem casUnindex_eq (req : CasRequest) (now : UInt64) :
    s.casUnindex req now = { s with indexes := (s.casUnindex req now).indexes } := by
  unfold casUnindex
  cases s.tree[req.key]? with
  | none => rfl
  | some rec =>
      by_cases expired : isExpired rec.expiresAt now = true
      · simp only [expired, if_true]
      · simp only [expired]
        rfl

theorem cas_eq (leader : s.isReplica = false) (req : CasRequest) (now : UInt64) :
    s.cas req now =
      if s.casMatches req now then
        (.ok true, (s.casUnindex req now).casWrite req (deadline now req.ttlMs))
      else (.ok false, s) := by
  unfold cas casLogging casMatches casUnindex casWrite
  rw [if_neg (by simp [leader])]
  cases s.tree[req.key]? with
  | none => by_cases nothing : req.expectedValue = [] <;> simp [nothing]
  | some rec =>
      by_cases expired : isExpired rec.expiresAt now = true
      · by_cases nothing : req.expectedValue = [] <;> simp [expired, nothing]
      · by_cases same : rec.value = req.expectedValue <;> simp [expired, same]

end KindServerImpl

end KindDb
