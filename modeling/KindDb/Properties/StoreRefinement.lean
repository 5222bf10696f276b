import KindDb.Lib.Refinement
import KindDb.Lib.VersionedStore
import KindDb.Properties.QueryPaging
import KindDb.Properties.ReadCoherence
import KindDb.Properties.ReplicaRestart
import KindDb.Server.Scans

/-! # A leader is a versioned store

Cache, secondary indexes, log and files should not be seen by a client.  `view`
forgets them: what is left is a sorted map with versions.  A leader that is
given no deadlines answers lookups, writes, transactions, scans and queries as
that map does. -/
set_option autoImplicit false

namespace KindDb.StoreRefinement

open KindDb.Lib KindDb.Lib.Overlay KindDb.Lib.Runs KindDb.Lib.Refinement KindDb.Cache
open KindDb.Schema KindDb.KindServerImpl KindDb.ReadCoherence KindDb.IndexExactness
open KindDb.QueryPaging

/-! ## Requests and answers -/

inductive StoreRequest
  | exec (now : UInt64) (op : Op)
  | beginTransaction
  | rangeScan (req : RangeScanRequest) (clock : String → UInt64)
  | prefixScan (req : PrefixScanRequest) (clock : String → UInt64)
  | query (req : QueryRequest) (clock : String → UInt64)

inductive StoreAnswer
  | record (reply : Except Status Record)
  | write (reply : Except Status Bool)
  | commit (reply : Except DbError Unit)
  | begun (snapshotVersion : Nat)
  | records (found : List Record)
  | done

def StoreRequest.TtlFree : StoreRequest → Prop
  | .exec _ op => ReplicaRestart.Op.TtlFree op
  | _ => True

section Server
variable [Serde] [ParseF64]

def reply (s : KindServerImpl) (now : UInt64) : Op → StoreAnswer
  | .get key => .record (s.get key now).1
  | .put req => .write (s.put req now).1
  | .delete key => .write (s.delete key).1
  | .cas req => .write (s.cas req now).1
  | .commit tx => .commit (tx.commit s).1
  | .sweep => .done
  | .checkpoint => .done

def serve (s : KindServerImpl) : StoreRequest → StoreAnswer × KindServerImpl
  | .exec now op => (reply s now op, op.exec s now)
  | .beginTransaction => (.begun s.beginTransaction.snapshotVersion, s)
  | .rangeScan req clock => (.records (s.rangeScan req clock), s)
  | .prefixScan req clock => (.records (s.prefixScan req clock), s)
  | .query req clock => (.records (s.query req clock), s)

/-! ## The store -/

abbrev Store := VersionedStore String Bytes

def plainRecord (key : String) (value : Bytes) : Record := { key, value, expiresAt := none }

def lookup (o : Store) (key : String) : Except Status Record :=
  match o.read key with
  | some value => .ok (plainRecord key value)
  | none => .error (.notFound "Key not found")

def writesOf (tx : TxHandle) : List (Update String Bytes) :=
  tx.writeSet.entries.map fun entry => (entry.1, entry.2.map DbRecord.value)

def perform (o : Store) : Op → StoreAnswer × Store
  | .get key => (.record (lookup o key), o)
  | .put req => (.write (.ok true), o.apply [(req.key, some req.value)])
  | .delete key => (.write (.ok (o.delete key).1), (o.delete key).2)
  | .cas req =>
      let (swapped, o') := o.compareAndSwap [] req.key req.expectedValue req.newValue
      (.write (.ok swapped), o')
  | .commit tx =>
      let (committed, o') := o.commit tx.snapshotVersion (writesOf tx)
      (.commit (if committed then .ok () else .error .conflict), o')
  | .sweep => (.done, o)
  | .checkpoint => (.done, o)

def selected (o : Store) (test : String → Bytes → Bool) : List Record :=
  o.select fun key value => if test key value then some (plainRecord key value) else none

def answer (reg : SchemaRegistry) (o : Store) : StoreRequest → StoreAnswer × Store
  | .exec _ op => perform o op
  | .beginTransaction => (.begun o.version, o)
  | .rangeScan req _ => (.records (selected o fun key value =>
      decide (req.lo ≤ key) && decide (key ≤ req.hi) && matchesFilters value req.filters), o)
  | .prefixScan req _ => (.records (selected o fun key value =>
      key.startsWith req.keyPrefix && matchesFilters value req.filters), o)
  | .query req _ => (.records (((selected o fun key value =>
      decide (req.idxKey ∈ Schema.extractIndexKeys reg key value)).drop req.offsetOf).take
        req.limitOf), o)

/-! ## The view -/

def view (s : KindServerImpl) : Store where
  entries := s.tree.map fun _ r => (r.value, r.version)
  version := s.globalVersion

omit [Serde] [ParseF64] in
theorem lookup_view (s : KindServerImpl) (key : String) :
    (view s).entries[key]? = (s.tree[key]?).map fun r => (r.value, r.version) :=
  Std.ExtTreeMap.getElem?_map

omit [Serde] [ParseF64] in
theorem read_view (s : KindServerImpl) (key : String) :
    (view s).read key = (s.tree[key]?).map DbRecord.value := by
  unfold VersionedStore.read
  rw [lookup_view, Option.map_map]
  rfl

omit [Serde] [ParseF64] in
theorem selected_view (s : KindServerImpl) (test : String → Bytes → Bool) :
    selected (view s) test = s.tree.toList.filterMap fun entry =>
      if test entry.1 entry.2.value then some (plainRecord entry.1 entry.2.value) else none := by
  have listed : (view s).entries.toList =
      s.tree.toList.map fun entry => (entry.1, (entry.2.value, entry.2.version)) :=
    Std.ExtTreeMap.toList_map
  unfold selected VersionedStore.select
  rw [listed, List.filterMap_map]
  rfl

omit [ParseF64] in
/-- A logged command is a batch of the store. -/
theorem view_logged {s s' : KindServerImpl} {c : WalCommand} (logged : Logged s s' c) :
    view s' = (view s).apply (c.updates.map fun u => (u.1, u.2.map Prod.fst)) := by
  refine VersionedStore.ext_lookup (fun key => ?_) logged.globalVersion
  rw [lookup_view, logged.tree, overlay_map, VersionedStore.lookup_apply]
  simp only [lookup_view, WalCommand.recordUpdates, List.map_map]
  refine congrArg (overlay _ · key) (List.map_congr_left fun u _ => ?_)
  obtain ⟨written, held⟩ := u
  cases held <;> rfl

/-! ## Servers without deadlines -/

structure Sound (s : KindServerImpl) : Prop where
  lasting : ∀ key held, s.contents key = some held → held.2 = none
  current : CacheCurrent s
  exact : IndexExact s

variable {s : KindServerImpl}

omit [ParseF64] in
theorem Sound.expiresAt (sound : Sound s) {key : String} {r : DbRecord}
    (held : s.tree[key]? = some r) : r.expiresAt = none :=
  sound.lasting key r.content (by simp [KindServerImpl.contents, held])

omit [ParseF64] in
theorem Sound.listed (sound : Sound s) {entry : String × DbRecord} (member : entry ∈ s.tree.toList) :
    entry.2.expiresAt = none :=
  sound.expiresAt (Std.ExtTreeMap.mem_toList_iff_getElem?_eq_some.mp member)

omit [ParseF64] in
theorem Sound.get (sound : Sound s) (key : String) (now : UInt64) :
    (s.get key now).1 = lookup (view s) key := by
  unfold lookup
  rw [read_view]
  cases hit : s.cache.peek key with
  | some val =>
      have held := sound.current key val hit
      unfold KindServerImpl.contents at held
      obtain ⟨r, found, content⟩ := Option.map_eq_some_iff.mp held
      rw [get_hit hit, found]
      exact congrArg (fun c : Content => Except.ok (plainRecord key c.1)) content.symm
  | none =>
      unfold KindServerImpl.get
      unfold LruCache.peek at hit
      revert hit
      obtain ⟨held, cache⟩ := s.cache.get key
      rintro rfl
      dsimp only
      cases found : s.tree[key]? with
      | none => rfl
      | some r =>
          simp only [sound.expiresAt found, isExpired_none]
          rfl

theorem Sound.scanned (sound : Sound s) {entry : String × DbRecord}
    (member : entry ∈ s.tree.toList) (clock : String → UInt64) (filters : List ScanFilter) :
    scanned clock filters entry =
      if matchesFilters entry.2.value filters then some (plainRecord entry.1 entry.2.value)
      else none := by
  simp only [KindDb.scanned, sound.listed member, isExpired_none, Bool.not_false, Bool.true_and]
  rfl

theorem Sound.scan (sound : Sound s) (within : String → Bool) (clock : String → UInt64)
    (filters : List ScanFilter) :
    (s.tree.toList.filter fun entry => within entry.1).filterMap (KindDb.scanned clock filters) =
      selected (view s) fun key value => within key && matchesFilters value filters := by
  rw [selected_view, List.filterMap_filter]
  refine List.filterMap_congr fun entry member => ?_
  rw [sound.scanned member]
  cases within entry.1 <;> rfl

theorem Sound.rangeScan (sound : Sound s) (req : RangeScanRequest) (clock : String → UInt64) :
    s.rangeScan req clock = selected (view s) fun key value =>
      decide (req.lo ≤ key) && decide (key ≤ req.hi) && matchesFilters value req.filters := by
  rw [← sound.scan (fun key => decide (req.lo ≤ key) && decide (key ≤ req.hi)) clock req.filters]
  simp [KindServerImpl.rangeScan]

theorem Sound.prefixScan (sound : Sound s) (req : PrefixScanRequest) (clock : String → UInt64) :
    s.prefixScan req clock = selected (view s) fun key value =>
      key.startsWith req.keyPrefix && matchesFilters value req.filters := by
  rw [prefixScan_eq]
  exact sound.scan (fun key => key.startsWith req.keyPrefix) clock req.filters

omit [ParseF64] in
/-- Nothing expires, so that a page of the filed keys is a page of the answer. -/
theorem Sound.query (sound : Sound s) (req : QueryRequest) (clock : String → UInt64) :
    s.query req clock = ((selected (view s) fun key value =>
      decide (req.idxKey ∈ Schema.extractIndexKeys s.schemaRegistry key value)).drop
        req.offsetOf).take req.limitOf := by
  have live : ∀ key ∈ s.filed req.idxKey, isLive s clock key = true := by
    intro key member
    obtain ⟨r, held, _⟩ := ((indexExact_iff s).mp sound.exact _ _).mp (mem_filed.mp member)
    simp [isLive, held, sound.expiresAt held]
  have inPlace : InPlace s req clock :=
    Or.inl ⟨fun key member => live key (List.mem_of_mem_take member),
      Or.inl fun key member => live key (List.mem_of_mem_drop (List.mem_of_mem_take member))⟩
  have carried : matching s req.idxKey clock = selected (view s) fun key value =>
      decide (req.idxKey ∈ Schema.extractIndexKeys s.schemaRegistry key value) := by
    rw [selected_view, matching, ← List.filterMap_eq_map, List.filterMap_filter]
    refine List.filterMap_congr fun entry member => ?_
    simp only [sound.listed member, isExpired_none, Bool.not_false, Bool.and_true,
      Function.comp_apply]
    rfl
  rw [(query_page_iff sound.exact req clock).mpr inPlace, carried]

/-! ## Steps of a leader -/

omit [ParseF64] in
theorem Sound.step (sound : Sound s) (leader : s.isReplica = false) {now : UInt64} {op : Op}
    (ttlFree : ReplicaRestart.Op.TtlFree op) : Sound (op.exec s now) := by
  refine ⟨?_, (current_step_iff s (now, op) leader sound.current).mpr ?_,
    (exact_step_iff s (now, op) leader sound.exact).mpr ?_⟩
  · rcases @exec_cases _ s now leader op with ⟨c, logs, logged⟩ | ⟨_, _, fewer⟩
    · rw [funext logged.contents]
      exact overlay_deadlineFree sound.lasting (ReplicaRestart.deadlineFree_command ttlFree logs)
    · intro key held found
      obtain ⟨r, inTree, rfl⟩ := Option.map_eq_some_iff.mp found
      exact sound.expiresAt (fewer key r inTree)
  · cases op with
    | put req =>
        have plain : deadline now req.ttlMs = none := congrArg (deadline now) ttlFree
        intro timed
        rw [plain] at timed
        cases timed
    | _ => trivial
  · cases op with
    | cas req =>
        intro old held expired
        rw [sound.expiresAt held] at expired
        cases expired
    | _ => trivial

omit [ParseF64] in
theorem Sound.view_unlogged (sound : Sound s) {s' : KindServerImpl} {now : UInt64}
    (quiet : Unlogged s s' now) : view s' = view s := by
  refine VersionedStore.ext_lookup (fun key => ?_) quiet.globalVersion
  rw [lookup_view, lookup_view]
  rcases quiet.tree key with same | ⟨_, r, held, expired⟩
  · rw [same]
  · rw [sound.expiresAt held] at expired
    cases expired

omit [ParseF64] in
theorem Sound.casMatches (sound : Sound s) (req : CasRequest) (now : UInt64) :
    s.casMatches req now = decide (((view s).read req.key).getD [] = req.expectedValue) := by
  unfold KindServerImpl.casMatches
  rw [read_view]
  cases held : s.tree[req.key]? with
  | none => simp [eq_comm]
  | some r => simp [sound.expiresAt held]

omit [Serde] [ParseF64] in
theorem conflicts_view (tx : TxHandle) :
    tx.conflicts s = (view s).newer tx.snapshotVersion (touched (writesOf tx)) := by
  unfold TxHandle.conflicts VersionedStore.newer writesOf touched
  rw [List.map_map, List.any_map]
  refine congrArg _ (funext fun entry => ?_)
  simp only [Function.comp_apply, lookup_view]
  cases s.tree[entry.1]? <;> rfl

omit [Serde] [ParseF64] in
theorem updates_pending (entries : List (String × Option DbRecord)) :
    (WalCommand.txCommit (entries.map TxHandle.pendingCommand)).updates.map
        (fun u => (u.1, u.2.map Prod.fst)) =
      entries.map fun entry => (entry.1, entry.2.map DbRecord.value) := by
  simp only [WalCommand.updates]
  induction entries with
  | nil => rfl
  | cons entry rest ih =>
      rw [List.map_cons, List.flatMap_cons, List.map_append, ih, List.map_cons]
      obtain ⟨key, written⟩ := entry
      cases written <;> rfl

omit [ParseF64] in
/-- An operation answers and acts as the store does. -/
theorem Sound.perform (sound : Sound s) (leader : s.isReplica = false) (now : UInt64) (op : Op) :
    perform (view s) op = (reply s now op, view (op.exec s now)) := by
  have quiet : op ≠ .checkpoint → op.command s now = none → view (op.exec s now) = view s :=
    fun running silent => sound.view_unlogged (exec_unlogged leader running silent)
  cases op with
  | get key =>
      rw [quiet nofun rfl]
      exact congrArg (fun r => (StoreAnswer.record r, view s)) (sound.get key now).symm
  | sweep =>
      rw [quiet nofun rfl]
      rfl
  | checkpoint =>
      refine Prod.ext rfl ?_
      simp only [Op.exec, saveSnapshotAndTruncateWal]
      cases s.snapshotFile <;> rfl
  | put req =>
      refine Prod.ext ?_ (view_logged (put_logged leader req)).symm
      exact congrArg (fun p => StoreAnswer.write p.1) (put_eq s leader req now).symm
  | delete key =>
      have present := read_view s key
      simp only [StoreRefinement.perform, VersionedStore.delete, reply, Op.exec]
      cases held : s.tree[key]? with
      | none =>
          rw [held] at present
          rw [present, delete_absent s leader held]
          rfl
      | some old =>
          rw [held] at present
          have logged := delete_logged leader (Option.isSome_of_eq_some held)
          rw [present, view_logged logged, delete_present s leader held]
          rfl
  | cas req =>
      have decided := sound.casMatches req now
      simp only [StoreRefinement.perform, VersionedStore.compareAndSwap, reply, Op.exec]
      by_cases same : ((view s).read req.key).getD [] = req.expectedValue
      · rw [decide_eq_true same] at decided
        rw [if_pos same, view_logged (cas_logged leader decided), cas_eq s leader, if_pos decided]
        rfl
      · rw [decide_eq_false same] at decided
        rw [if_neg same, cas_eq s leader, if_neg (by simp [decided])]
  | commit tx =>
      have decided := conflicts_view (s := s) tx
      cases conflict : tx.conflicts s with
      | true =>
          have refused : (view s).commit tx.snapshotVersion (writesOf tx) = (false, view s) :=
            if_pos (decided.symm.trans conflict)
          simp only [StoreRefinement.perform, refused, reply, Op.exec,
            TxHandle.commit_conflict leader conflict]
          rfl
      | false =>
          have carriedOut : (view s).commit tx.snapshotVersion (writesOf tx) =
              (true, (view s).apply (writesOf tx)) :=
            if_neg (by rw [← decided, conflict]; exact Bool.false_ne_true)
          have batch := view_logged (commit_logged leader conflict)
          rw [updates_pending] at batch
          have answered := congrArg Prod.fst (TxHandle.commit_ok leader conflict)
          simp only [StoreRefinement.perform, carriedOut, reply, Op.exec, batch, answered]
          rfl

/-- The leader, and the store a client takes it for. -/
structure Shows (reg : SchemaRegistry) (s : KindServerImpl) (o : Store) : Prop where
  leader : s.isReplica = false
  registry : s.schemaRegistry = reg
  sound : Sound s
  shown : view s = o

theorem simulates (reg : SchemaRegistry) :
    Simulates serve (answer reg) StoreRequest.TtlFree (Shows reg) := by
  intro s o request ttlFree shows
  obtain ⟨leader, rfl, sound, rfl⟩ := shows
  have stays : Shows s.schemaRegistry s (view s) := ⟨leader, rfl, sound, rfl⟩
  cases request with
  | exec now op =>
      have performed := sound.perform leader now op
      have settings := @exec_settings _ s now leader op
      have shown : answer s.schemaRegistry (view s) (.exec now op) =
          (reply s now op, view (op.exec s now)) := performed
      rw [shown]
      exact ⟨rfl, settings.isReplica.trans leader, settings.schemaRegistry,
        sound.step leader ttlFree, rfl⟩
  | beginTransaction => exact ⟨rfl, stays⟩
  | rangeScan req clock =>
      exact ⟨congrArg StoreAnswer.records (sound.rangeScan req clock), stays⟩
  | prefixScan req clock =>
      exact ⟨congrArg StoreAnswer.records (sound.prefixScan req clock), stays⟩
  | query req clock => exact ⟨congrArg StoreAnswer.records (sound.query req clock), stays⟩

omit [ParseF64] in
theorem shows_fresh (reg : SchemaRegistry) (hasSnapshot hasWal : Bool) :
    Shows reg (.fresh reg hasSnapshot hasWal false) .empty := by
  refine ⟨rfl, rfl, ⟨?_, current_fresh reg hasSnapshot hasWal,
    exact_fresh reg hasSnapshot hasWal⟩, ?_⟩
  · intro key held found
    cases hasSnapshot <;> cases hasWal <;> cases found
  · cases hasSnapshot <;> cases hasWal <;> rfl

/-- A leader started empty answers every sequence of requests without deadlines
as an empty store does, and holds what the store holds in the end. -/
theorem leader_refines_store (reg : SchemaRegistry) (hasSnapshot hasWal : Bool)
    (requests : List StoreRequest) (ttlFree : ∀ request ∈ requests, request.TtlFree) :
    answers serve (.fresh reg hasSnapshot hasWal false) requests =
        answers (answer reg) .empty requests ∧
      view (after serve (.fresh reg hasSnapshot hasWal false) requests) =
        after (answer reg) .empty requests := by
  obtain ⟨same, shows⟩ :=
    (simulates reg).run requests ttlFree (shows_fresh reg hasSnapshot hasWal)
  exact ⟨same, shows.shown⟩

end Server

/-! ## A user who moves -/

open SerdeJson

/-- No filter is used below. -/
local instance unparsed : ParseF64 := ⟨fun _ => none⟩

def moves : List StoreRequest :=
  [.exec 0 (.put { key := "user:1", value := cityJson "a", ttlMs := none }),
   .exec 0 (.put { key := "user:2", value := cityJson "a", ttlMs := none }),
   .exec 1 (.cas { key := "user:1", expectedValue := cityJson "a", newValue := cityJson "b"
                   ttlMs := none }),
   .query firstInCity fun _ => 2]

theorem leader_refines_store_moves :
    answers serve (.fresh userRegistry true true false) moves =
        answers (answer userRegistry) .empty moves ∧
      view (after serve (.fresh userRegistry true true false) moves) =
        after (answer userRegistry) .empty moves :=
  leader_refines_store userRegistry true true moves
    (by simp [moves, StoreRequest.TtlFree, ReplicaRestart.Op.TtlFree])

end KindDb.StoreRefinement
