import KindDb.Lib.Runs
import KindDb.Server.Operations

/-! # One effect lemma for each operation

`Op.command` is the command an operation logs in a given state, if any;
`exec_logged` and `exec_unlogged` say once and for all what the operations do
to everything but index and cache. -/
set_option autoImplicit false

namespace KindDb

open KindDb.Lib KindDb.Lib.Overlay KindDb.Lib.Runs KindDb.Cache KindDb.Schema

variable [Serde]

def Op.command (s : KindServerImpl) (now : UInt64) : Op → Option WalCommand
  | .put req => some (.put req.key req.value (deadline now req.ttlMs))
  | .delete key => if (s.tree[key]?).isSome then some (.delete key) else none
  | .cas req =>
      if s.casMatches req now then some (.put req.key req.newValue (deadline now req.ttlMs))
      else none
  | .commit tx =>
      if tx.conflicts s then none
      else some (.txCommit (tx.writeSet.entries.map TxHandle.pendingCommand))
  | .get _ => none
  | .sweep => none
  | .checkpoint => none

/-! ## Transactions -/

namespace TxHandle

theorem applyEntry_eq (version : Nat) (s : KindServerImpl) (entry : String × Option DbRecord) :
    applyEntry version s entry = { s with
      tree := (applyEntry version s entry).tree
      indexes := (applyEntry version s entry).indexes
      cache := s.cache.invalidate entry.1
      watchTx := (applyEntry version s entry).watchTx } := by
  obtain ⟨key, rec⟩ := entry
  unfold applyEntry
  rw [s.unindexOld_eq]
  cases rec <;> rfl

theorem lookup_applyEntry (version : Nat) (s : KindServerImpl) (entry : String × Option DbRecord)
    (k : String) :
    (applyEntry version s entry).tree[k]? =
      Function.update (fun k => s.tree[k]?) entry.1 (entry.2.map ({ · with version })) k := by
  obtain ⟨key, rec⟩ := entry
  unfold applyEntry
  rw [s.unindexOld_eq]
  simp only [Function.update_apply, eq_comm (a := k)]
  cases rec with
  | none => exact SortedMap.lookup_erase s.tree key k
  | some rec => exact SortedMap.lookup_insert s.tree key k { rec with version }

def entryUpdates (version : Nat) (entries : List (String × Option DbRecord)) :
    List (Update String DbRecord) :=
  entries.map fun entry => (entry.1, entry.2.map ({ · with version }))

omit [Serde] in
theorem touched_entryUpdates (version : Nat) (entries : List (String × Option DbRecord)) :
    touched (entryUpdates version entries) = entries.map Prod.fst := by
  simp [touched, entryUpdates, Function.comp_def]

/-- What the apply loop touches, and what it leaves in the tree and the cache. -/
theorem applyEntries_spec (version : Nat) (entries : List (String × Option DbRecord))
    (s : KindServerImpl) :
    (∀ k : String, (entries.foldl (applyEntry version) s).tree[k]? =
      overlay (fun k => s.tree[k]?) (entryUpdates version entries) k) ∧
    (∀ k : String, (entries.foldl (applyEntry version) s).cache.peek k =
      if k ∈ entries.map Prod.fst then none else s.cache.peek k) ∧
    entries.foldl (applyEntry version) s = { s with
      tree := (entries.foldl (applyEntry version) s).tree
      indexes := (entries.foldl (applyEntry version) s).indexes
      cache := (entries.foldl (applyEntry version) s).cache
      watchTx := (entries.foldl (applyEntry version) s).watchTx } := by
  induction entries generalizing s with
  | nil => exact ⟨fun _ => rfl, fun _ => by simp, rfl⟩
  | cons entry rest ih =>
      obtain ⟨tree, cache, frame⟩ := ih (applyEntry version s entry)
      have stepped := applyEntry_eq version s entry
      refine ⟨fun k => ?_, fun k => ?_, ?_⟩
      · rw [List.foldl_cons, tree]
        refine overlay_congr _ ?_
        exact lookup_applyEntry version s entry k
      · rw [List.foldl_cons, cache, stepped, LruCache.peek_invalidate, List.map_cons]
        by_cases later : k ∈ rest.map Prod.fst
        · simp [later]
        · by_cases same : entry.1 = k
          · simp [same]
          · simp [later, same, Ne.symm same]
      · rw [List.foldl_cons, frame, stepped]

omit [Serde] in
theorem recordUpdates_pending (version : Nat) (entries : List (String × Option DbRecord)) :
    WalCommand.recordUpdates version (.txCommit (entries.map pendingCommand)) =
      entryUpdates version entries := by
  simp only [WalCommand.recordUpdates, WalCommand.updates, entryUpdates]
  induction entries with
  | nil => rfl
  | cons entry rest ih =>
      rw [List.map_cons, List.flatMap_cons, List.map_append, ih, List.map_cons]
      obtain ⟨key, rec⟩ := entry
      cases rec <;> rfl

omit [Serde] in
theorem keys_pending (entries : List (String × Option DbRecord)) :
    (WalCommand.txCommit (entries.map pendingCommand)).keys = entries.map Prod.fst := by
  rw [← WalCommand.touched_recordUpdates 0, recordUpdates_pending, touched_entryUpdates]

omit [Serde] in
theorem conflicts_iff (tx : TxHandle) (s : KindServerImpl) :
    tx.conflicts s = true ↔
      ∃ key ∈ tx.writeSet.keys, ∃ r, s.tree[key]? = some r ∧ tx.snapshotVersion < r.version := by
  unfold conflicts WriteSet.keys
  rw [List.any_eq_true]
  constructor
  · rintro ⟨entry, member, newer⟩
    cases held : s.tree[entry.1]? with
    | none => simp [held] at newer
    | some r => exact ⟨entry.1, List.mem_map_of_mem member, r, held, by simpa [held] using newer⟩
  · rintro ⟨key, listed, r, held, newer⟩
    obtain ⟨entry, member, rfl⟩ := List.mem_map.mp listed
    exact ⟨entry, member, by simpa [held] using newer⟩

theorem commit_conflict {tx : TxHandle} {s : KindServerImpl} (leader : s.isReplica = false)
    (conflict : tx.conflicts s = true) : tx.commit s = (.error .conflict, s) := by
  simp [commit, commitLogging, leader, conflict]

theorem commit_ok {tx : TxHandle} {s : KindServerImpl} (leader : s.isReplica = false)
    (clear : tx.conflicts s = false) :
    tx.commit s = (.ok (), tx.writeSet.entries.foldl (applyEntry (s.globalVersion + 1)) { s with
      wal := s.wal.map fun file => Wal.append file (s.globalVersion + 1)
        (.txCommit (tx.writeSet.entries.map pendingCommand))
      globalVersion := s.globalVersion + 1
      syncTx := s.syncTx ++
        [(s.globalVersion + 1, .txCommit (tx.writeSet.entries.map pendingCommand))] }) := by
  unfold commit commitLogging
  rw [if_neg (by simp [leader]), if_neg (by simp [clear])]
  rfl

end TxHandle

/-! ## Evictions -/

namespace KindServerImpl

def evict (s : KindServerImpl) (entry : String × DbRecord) : KindServerImpl :=
  (s.removeRecordFromIndex entry.1 entry.2.value).treeRemove entry.1

/-- Evicting entries that the tree holds, each once. -/
theorem evict_spec (entries : List (String × DbRecord)) (s : KindServerImpl) :
    (∀ k : String, (entries.foldl evict s).tree[k]? =
      if k ∈ entries.map Prod.fst then none else s.tree[k]?) ∧
    entries.foldl evict s = { s with
      tree := (entries.foldl evict s).tree
      indexes := (entries.foldl evict s).indexes } := by
  induction entries generalizing s with
  | nil => exact ⟨fun k => by simp, rfl⟩
  | cons entry rest ih =>
      obtain ⟨tree, frame⟩ := ih (s.evict entry)
      refine ⟨fun k => ?_, ?_⟩
      · rw [List.foldl_cons, tree]
        have stepped : (s.evict entry).tree[k]? = if entry.1 = k then none else s.tree[k]? :=
          SortedMap.lookup_erase s.tree entry.1 k
        rw [stepped, List.map_cons]
        by_cases later : k ∈ rest.map Prod.fst
        · simp [later]
        · by_cases same : entry.1 = k
          · simp [same]
          · simp [later, same, Ne.symm same]
      · rw [List.foldl_cons, frame]
        rfl

def expiredEntries (s : KindServerImpl) (now : UInt64) : List (String × DbRecord) :=
  s.tree.toList.filter fun entry => isExpired entry.2.expiresAt now

theorem sweep_eq (s : KindServerImpl) (now : UInt64) :
    s.sweep now = (s.expiredEntries now).foldl evict s := rfl

omit [Serde] in
theorem mem_expiredEntries {s : KindServerImpl} {now : UInt64} {k : String} {r : DbRecord} :
    (k, r) ∈ s.expiredEntries now ↔ s.tree[k]? = some r ∧ isExpired r.expiresAt now = true := by
  simp [expiredEntries]

theorem lookup_sweep (s : KindServerImpl) (now : UInt64) (k : String) :
    (s.sweep now).tree[k]? = (s.tree[k]?).filter fun r => !isExpired r.expiresAt now := by
  rw [sweep_eq, (evict_spec _ s).1 k]
  have member : k ∈ (s.expiredEntries now).map Prod.fst ↔
      ∃ r, s.tree[k]? = some r ∧ isExpired r.expiresAt now = true := by
    constructor
    · intro mem
      obtain ⟨⟨key, r⟩, inEntries, rfl⟩ := List.mem_map.mp mem
      exact ⟨r, mem_expiredEntries.mp inEntries⟩
    · rintro ⟨r, held⟩
      exact List.mem_map.mpr ⟨(k, r), mem_expiredEntries.mpr held, rfl⟩
  rw [if_congr member rfl rfl]
  cases held : s.tree[k]? with
  | none => simp
  | some r => cases expired : isExpired r.expiresAt now <;> simp [expired, Option.filter]

/-- A lookup that misses the cache and finds an expired record evicts it. -/
theorem get_state (s : KindServerImpl) (key : String) (now : UInt64) :
    (s.get key now).2 =
      match s.cache.peek key, s.tree[key]? with
      | none, some rec =>
          if isExpired rec.expiresAt now then
            evict { s with cache := (s.cache.get key).2 } (key, rec)
          else { s with cache := (s.cache.get key).2 }
      | _, _ => { s with cache := (s.cache.get key).2 } := by
  unfold get LruCache.peek
  obtain ⟨hit, cache⟩ := s.cache.get key
  cases hit with
  | some val => rfl
  | none =>
      dsimp only
      cases s.tree[key]? with
      | none => rfl
      | some rec => by_cases expired : isExpired rec.expiresAt now = true <;> simp [expired, evict]

theorem get_cache (s : KindServerImpl) (key : String) (now : UInt64) :
    (s.get key now).2.cache = (s.cache.get key).2 := by
  rw [get_state]
  split
  · split <;> rfl
  · rfl

/-! ## The inversion of a step -/

variable {s : KindServerImpl} {now : UInt64}

theorem put_logged (leader : s.isReplica = false) (req : PutRequest) :
    Logged s (s.put req now).2 (.put req.key req.value (deadline now req.ttlMs)) := by
  rw [put_eq s leader]
  refine ⟨⟨rfl, rfl, rfl, by simp⟩, fun k => ?_, rfl, rfl, rfl, rfl⟩
  simp only [SortedMap.lookup_insert, eq_comm (b := k)]
  exact (Function.update_apply ..).symm

theorem delete_logged (leader : s.isReplica = false) {key : String}
    (held : (s.tree[key]?).isSome = true) : Logged s (s.delete key).2 (.delete key) := by
  obtain ⟨old, found⟩ := Option.isSome_iff_exists.mp held
  rw [delete_present s leader found]
  refine ⟨⟨rfl, rfl, rfl, by simp⟩, fun k => ?_, rfl, rfl, rfl, rfl⟩
  simp only [SortedMap.lookup_erase, eq_comm (b := k)]
  exact (Function.update_apply ..).symm

theorem cas_logged (leader : s.isReplica = false) {req : CasRequest}
    (matches_ : s.casMatches req now = true) :
    Logged s (s.cas req now).2 (.put req.key req.newValue (deadline now req.ttlMs)) := by
  rw [cas_eq s leader, if_pos matches_, casUnindex_eq, casWrite_eq]
  refine ⟨⟨rfl, rfl, rfl, by simp⟩, fun k => ?_, rfl, rfl, rfl, rfl⟩
  simp only [SortedMap.lookup_insert, eq_comm (b := k)]
  exact (Function.update_apply ..).symm

theorem commit_logged (leader : s.isReplica = false) {tx : TxHandle}
    (clear : tx.conflicts s = false) :
    Logged s (tx.commit s).2 (.txCommit (tx.writeSet.entries.map TxHandle.pendingCommand)) := by
  rw [TxHandle.commit_ok leader clear]
  obtain ⟨tree, _, frame⟩ := TxHandle.applyEntries_spec (s.globalVersion + 1) tx.writeSet.entries
    { s with
      wal := s.wal.map fun file => Wal.append file (s.globalVersion + 1)
        (.txCommit (tx.writeSet.entries.map TxHandle.pendingCommand))
      globalVersion := s.globalVersion + 1
      syncTx := s.syncTx ++
        [(s.globalVersion + 1, .txCommit (tx.writeSet.entries.map TxHandle.pendingCommand))] }
  refine ⟨⟨?_, ?_, ?_, ?_⟩, fun k => ?_, ?_, ?_, ?_, ?_⟩
  case refine_5 => rw [TxHandle.recordUpdates_pending]; exact tree k
  all_goals rw [frame]
  simp

theorem exec_logged (leader : s.isReplica = false) {op : Op} {c : WalCommand}
    (logs : op.command s now = some c) : Logged s (op.exec s now) c := by
  cases op with
  | get key => cases logs
  | sweep => cases logs
  | checkpoint => cases logs
  | put req =>
      cases Option.some.inj logs
      exact put_logged leader req
  | delete key =>
      obtain ⟨held, same⟩ := Option.ite_none_right_eq_some.mp logs
      cases same
      exact delete_logged leader held
  | cas req =>
      obtain ⟨holds, same⟩ := Option.ite_none_right_eq_some.mp logs
      cases same
      exact cas_logged leader holds
  | commit tx =>
      obtain ⟨clear, same⟩ := Option.ite_none_left_eq_some.mp logs
      cases same
      exact commit_logged leader (by simpa using clear)

omit [Serde] in
/-- A logged command has at most one update for a key. -/
theorem command_keys_nodup {op : Op} {c : WalCommand} (logs : op.command s now = some c) :
    c.keys.Nodup := by
  cases op with
  | get key => cases logs
  | sweep => cases logs
  | checkpoint => cases logs
  | put req =>
      cases Option.some.inj logs
      exact List.nodup_singleton _
  | delete key =>
      cases (Option.ite_none_right_eq_some.mp logs).2
      exact List.nodup_singleton _
  | cas req =>
      cases (Option.ite_none_right_eq_some.mp logs).2
      exact List.nodup_singleton _
  | commit tx =>
      cases (Option.ite_none_left_eq_some.mp logs).2
      rw [TxHandle.keys_pending]
      exact tx.writeSet.distinct

theorem get_unlogged (s : KindServerImpl) (key : String) (now : UInt64) :
    Unlogged s (s.get key now).2 now := by
  rw [get_state]
  have quiet : Unlogged s { s with cache := (s.cache.get key).2 } now :=
    ⟨⟨rfl, rfl, rfl, rfl⟩, fun _ => Or.inl rfl, rfl, rfl, rfl, rfl⟩
  cases s.cache.peek key with
  | some val => exact quiet
  | none =>
      cases held : s.tree[key]? with
      | none => exact quiet
      | some rec =>
          by_cases expired : isExpired rec.expiresAt now = true
          · simp only [expired, if_true]
            refine ⟨⟨rfl, rfl, rfl, rfl⟩, fun k => ?_, rfl, rfl, rfl, rfl⟩
            have evicted := SortedMap.lookup_erase s.tree key k
            by_cases same : key = k
            · subst same
              exact Or.inr ⟨evicted.trans (if_pos rfl), rec, held, expired⟩
            · exact Or.inl (evicted.trans (if_neg same))
          · simp only [expired]
            exact quiet

theorem sweep_unlogged (s : KindServerImpl) (now : UInt64) : Unlogged s (s.sweep now) now := by
  have frame := (evict_spec (s.expiredEntries now) s).2
  rw [← sweep_eq] at frame
  refine ⟨⟨?_, ?_, ?_, ?_⟩, fun k => ?_, ?_, ?_, ?_, ?_⟩
  case refine_5 =>
    rw [lookup_sweep]
    cases held : s.tree[k]? with
    | none => exact Or.inl rfl
    | some r =>
        cases expired : isExpired r.expiresAt now with
        | false => exact Or.inl (by simp [Option.filter, expired])
        | true => exact Or.inr ⟨by simp [Option.filter, expired], r, rfl, expired⟩
  all_goals rw [frame]

theorem exec_unlogged (leader : s.isReplica = false) {op : Op} (running : op ≠ .checkpoint)
    (quiet : op.command s now = none) : Unlogged s (op.exec s now) now := by
  cases op with
  | get key => exact get_unlogged s key now
  | sweep => exact sweep_unlogged s now
  | checkpoint => exact absurd rfl running
  | put req => cases quiet
  | delete key =>
      have free : s.tree[key]? = none := by
        simpa [Op.command] using quiet
      simp only [Op.exec, delete_absent s leader free]
      exact Unlogged.refl s now
  | cas req =>
      have differs : s.casMatches req now ≠ true := by
        simpa [Op.command] using quiet
      simp only [Op.exec, cas_eq s leader, if_neg differs]
      exact Unlogged.refl s now
  | commit tx =>
      have conflict : tx.conflicts s = true := by
        simpa [Op.command] using quiet
      simp only [Op.exec, TxHandle.commit_conflict leader conflict]
      exact Unlogged.refl s now

theorem exec_settings (leader : s.isReplica = false) (op : Op) :
    SameSettings s (op.exec s now) := by
  by_cases running : op = .checkpoint
  · subst running
    simp only [Op.exec, saveSnapshotAndTruncateWal]
    cases found : s.snapshotFile with
    | none => exact SameSettings.refl s
    | some file => exact ⟨rfl, rfl, by simp [found], by simp⟩
  · cases logs : op.command s now with
    | none => exact (exec_unlogged leader running logs).toSameSettings
    | some c => exact (exec_logged leader logs).toSameSettings

/-- How an operation moves tree and version counter. -/
theorem exec_cases (leader : s.isReplica = false) (op : Op) :
    (∃ c, op.command s now = some c ∧ Logged s (op.exec s now) c) ∨
    (op.command s now = none ∧ (op.exec s now).globalVersion = s.globalVersion ∧
      ∀ (key : String) r, (op.exec s now).tree[key]? = some r → s.tree[key]? = some r) := by
  cases logs : op.command s now with
  | some c => exact Or.inl ⟨c, rfl, exec_logged leader logs⟩
  | none =>
      refine Or.inr ⟨rfl, ?_⟩
      by_cases running : op = .checkpoint
      · subst running
        simp only [Op.exec, saveSnapshotAndTruncateWal]
        cases s.snapshotFile <;> exact ⟨rfl, fun _ _ held => held⟩
      · have quiet := exec_unlogged leader running logs
        refine ⟨quiet.globalVersion, fun key r held => ?_⟩
        rcases quiet.tree key with same | ⟨gone, _⟩
        · exact same ▸ held
        · rw [gone] at held
          cases held

omit [Serde] in
def VersionsBounded (s : KindServerImpl) : Prop :=
  ∀ (key : String) r, s.tree[key]? = some r → r.version ≤ s.globalVersion

theorem VersionsBounded.step (bounded : VersionsBounded s) (leader : s.isReplica = false)
    (event : UInt64 × Op) : VersionsBounded (serverStep s event) := by
  intro key r held
  rcases @exec_cases _ _ event.1 leader event.2 with ⟨c, _, logged⟩ | ⟨_, version, fewer⟩
  · by_cases written : key ∈ c.keys
    · exact (logged.version_written written held).le
    · have := bounded key r ((logged.unwritten written) ▸ held)
      have := logged.globalVersion
      simp only [serverStep]
      omega
  · simp only [serverStep, version]
    exact bounded key r (fewer key r held)

theorem versionsBounded_run (bounded : VersionsBounded s) (leader : s.isReplica = false)
    (events : List (UInt64 × Op)) : VersionsBounded (run serverStep s events) :=
  (run_invariant_of_forall (P := fun s => VersionsBounded s ∧ s.isReplica = false)
    (fun _ event holds => ⟨holds.1.step holds.2 event,
      (exec_settings holds.2 event.2).isReplica.trans holds.2⟩) events s ⟨bounded, leader⟩).1

theorem versionsBounded_fresh (reg : SchemaRegistry) (hasSnapshot hasWal isReplica : Bool) :
    VersionsBounded (fresh reg hasSnapshot hasWal isReplica) := by
  intro key r held
  cases hasSnapshot <;> cases hasWal <;>
    simp [fresh, new, Recovery.recover, Recovery.empty] at held

theorem leader_step (leader : s.isReplica = false) (event : UInt64 × Op) :
    (serverStep s event).isReplica = false :=
  (exec_settings leader event.2).isReplica.trans leader

theorem leader_run (leader : s.isReplica = false) (events : List (UInt64 × Op)) :
    (run serverStep s events).isReplica = false :=
  run_invariant_of_forall (P := fun s => s.isReplica = false)
    (fun _ event leader => leader_step leader event) events s leader

end KindServerImpl

end KindDb
