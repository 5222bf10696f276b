import KindDb.SerdeJson
import KindDb.Server.Effects

/-! # The secondary indexes of a running server

An operation that overwrites, removes or evicts a record takes the index keys
of the old value out and puts those of the new one in.  `cas` on an expired
record does not: it treats the record as absent and leaves its entries behind.
`exact_step_iff` says when that can be seen. -/
set_option autoImplicit false

namespace KindDb.IndexExactness

open KindDb.Lib KindDb.Lib.Overlay KindDb.Lib.Runs KindDb.Cache KindDb.Schema
open KindDb.KindServerImpl

variable [Serde]

def values (s : KindServerImpl) (key : String) : Option Bytes := (s.tree[key]?).map (·.value)

/-- The indexes hold exactly the index keys of the values in the tree. -/
def IndexExact (s : KindServerImpl) : Prop :=
  PostingIndex.Exact s.extractIndexKeys (values s) s.indexes

theorem indexExact_iff (s : KindServerImpl) :
    IndexExact s ↔ ∀ ik key : String, PostingIndex.Indexed s.indexes ik key ↔
      ∃ r, s.tree[key]? = some r ∧ ik ∈ s.extractIndexKeys key r.value := by
  unfold IndexExact PostingIndex.Exact values
  refine forall_congr' fun ik => forall_congr' fun key => iff_congr Iff.rfl ?_
  cases s.tree[key]? with
  | none => simp
  | some r => simp

/-- A `cas` that replaces an expired record writes a value that has all the
index keys of the expired one. -/
def CoversExpired (s : KindServerImpl) (event : UInt64 × Op) : Prop :=
  match event.2 with
  | .cas req => ∀ old, s.tree[req.key]? = some old → isExpired old.expiresAt event.1 = true →
      req.expectedValue = [] →
      ∀ ik ∈ s.extractIndexKeys req.key old.value, ik ∈ s.extractIndexKeys req.key req.newValue
  | _ => True

/-! ## The parts of an operation -/

omit [Serde] in
theorem values_insert {s s' : KindServerImpl} {key : String} {r : DbRecord}
    (tree : s'.tree = s.tree.insert key r) :
    values s' = Function.update (values s) key (some r.value) := by
  funext k
  simp only [values, tree, SortedMap.lookup_insert, Function.update_apply, eq_comm (a := k)]
  split_ifs <;> rfl

omit [Serde] in
theorem values_erase {s s' : KindServerImpl} {key : String} (tree : s'.tree = s.tree.erase key) :
    values s' = Function.update (values s) key none := by
  funext k
  simp only [values, tree, SortedMap.lookup_erase, Function.update_apply, eq_comm (a := k)]
  split_ifs <;> rfl

variable {s : KindServerImpl}

theorem IndexExact.unindexOld (exact : IndexExact s) (key : String) :
    PostingIndex.Exact s.extractIndexKeys (Function.update (values s) key none)
      (s.unindexOld key).indexes := by
  unfold KindServerImpl.unindexOld
  cases held : s.tree[key]? with
  | none =>
      have free : values s key = none := by simp [values, held]
      rw [← free, Function.update_eq_self]
      exact exact
  | some old => exact exact.unfile (by simp [values, held])

/-- Unindexing the old value and indexing the new one. -/
theorem IndexExact.replace (exact : IndexExact s) (key : String) (val : Bytes) :
    PostingIndex.Exact s.extractIndexKeys (Function.update (values s) key (some val))
      (PostingIndex.fileAll (s.unindexOld key).indexes (s.extractIndexKeys key val) key) := by
  have filed := (exact.unindexOld key).file (Function.update_self ..) val
  rwa [Function.update_idem] at filed

theorem IndexExact.put (exact : IndexExact s) (leader : s.isReplica = false) (req : PutRequest)
    (now : UInt64) : IndexExact (s.put req now).2 := by
  rw [put_eq s leader]
  unfold IndexExact
  rw [values_insert (s := s) rfl]
  exact exact.replace req.key req.value

theorem IndexExact.delete (exact : IndexExact s) (leader : s.isReplica = false) {key : String}
    {old : DbRecord} (held : s.tree[key]? = some old) : IndexExact (s.delete key).2 := by
  rw [delete_present s leader held]
  unfold IndexExact
  rw [values_erase (s := s) rfl]
  exact PostingIndex.Exact.unfile exact (by simp [values, held])

theorem IndexExact.evict (exact : IndexExact s) {entry : String × DbRecord}
    (held : s.tree[entry.1]? = some entry.2) : IndexExact (s.evict entry) := by
  unfold IndexExact
  rw [values_erase (s := s) rfl]
  exact PostingIndex.Exact.unfile exact (by simp [values, held])

theorem IndexExact.evictAll {entries : List (String × DbRecord)}
    (distinct : (entries.map Prod.fst).Nodup) (exact : IndexExact s)
    (held : ∀ entry ∈ entries, s.tree[entry.1]? = some entry.2) :
    IndexExact (entries.foldl KindServerImpl.evict s) := by
  induction entries generalizing s with
  | nil => exact exact
  | cons entry rest ih =>
      rw [List.map_cons, List.nodup_cons] at distinct
      apply ih distinct.2 (exact.evict (held entry (List.mem_cons_self ..)))
      intro later member
      have other : entry.1 ≠ later.1 := fun same =>
        distinct.1 (same ▸ List.mem_map_of_mem member)
      have lookup : (s.evict entry).tree[later.1]? =
          if entry.1 = later.1 then none else s.tree[later.1]? :=
        SortedMap.lookup_erase s.tree entry.1 later.1
      rw [lookup, if_neg other]
      exact held later (List.mem_cons_of_mem _ member)

theorem IndexExact.sweep (exact : IndexExact s) (now : UInt64) : IndexExact (s.sweep now) := by
  rw [sweep_eq]
  refine IndexExact.evictAll ?_ exact fun entry member => (mem_expiredEntries.mp member).1
  exact (SortedMap.nodup_keys_toList s.tree).sublist (List.filter_sublist.map _)

theorem IndexExact.get (exact : IndexExact s) (key : String) (now : UInt64) :
    IndexExact (s.get key now).2 := by
  rw [get_state]
  have touched : IndexExact { s with cache := (s.cache.get key).2 } := exact
  cases s.cache.peek key with
  | some val => exact touched
  | none =>
      cases held : s.tree[key]? with
      | none => exact touched
      | some r =>
          dsimp only
          split
          · exact touched.evict held
          · exact touched

theorem IndexExact.applyEntry (exact : IndexExact s) (version : Nat)
    (entry : String × Option DbRecord) : IndexExact (TxHandle.applyEntry version s entry) := by
  obtain ⟨key, written⟩ := entry
  cases written with
  | none =>
      have unindexed := exact.unindexOld key
      unfold TxHandle.applyEntry
      rw [s.unindexOld_eq]
      unfold IndexExact
      rw [values_erase (s := s) rfl]
      exact unindexed
  | some r =>
      have replaced := exact.replace key r.value
      unfold TxHandle.applyEntry
      rw [s.unindexOld_eq]
      unfold IndexExact
      rw [values_insert (s := s) (r := { r with version }) rfl]
      exact replaced

theorem IndexExact.commit (exact : IndexExact s) (leader : s.isReplica = false) {tx : TxHandle}
    (clear : tx.conflicts s = false) : IndexExact (tx.commit s).2 := by
  rw [TxHandle.commit_ok leader clear]
  have applied : ∀ (entries : List (String × Option DbRecord)) (s : KindServerImpl) (version : Nat),
      IndexExact s → IndexExact (entries.foldl (TxHandle.applyEntry version) s) := by
    intro entries
    induction entries with
    | nil => intro s version exact; exact exact
    | cons entry rest ih => intro s version exact; exact ih _ version (exact.applyEntry version entry)
  exact applied _ _ _ exact

/-- The one operation that can leave index entries behind. -/
theorem cas_exact_iff (exact : IndexExact s) (leader : s.isReplica = false) {req : CasRequest}
    {now : UInt64} (holds : s.casMatches req now = true) :
    IndexExact (s.cas req now).2 ↔ CoversExpired s (now, .cas req) := by
  have written : IndexExact (s.cas req now).2 ↔
      PostingIndex.Exact s.extractIndexKeys
        (Function.update (values s) req.key (some req.newValue))
        (PostingIndex.fileAll (s.casUnindex req now).indexes
          (s.extractIndexKeys req.key req.newValue) req.key) := by
    rw [cas_eq s leader, if_pos holds, casUnindex_eq, casWrite_eq]
    unfold IndexExact
    rw [values_insert (s := s) rfl]
    rfl
  rw [written]
  unfold CoversExpired
  cases held : s.tree[req.key]? with
  | none =>
      have same : s.casUnindex req now = s := by simp only [casUnindex, held]
      rw [same]
      refine iff_of_true (PostingIndex.Exact.file exact (by simp [values, held]) _) ?_
      intro old found
      rw [held] at found
      cases found
  | some old =>
      cases expired : isExpired old.expiresAt now with
      | true =>
          have nothingExpected : req.expectedValue = [] := by
            simpa [casMatches, held, expired] using holds
          have same : s.casUnindex req now = s := by simp [casUnindex, held, expired]
          have heldValue : values s req.key = some old.value := by simp [values, held]
          rw [same, PostingIndex.exact_overwrite_iff exact heldValue]
          simp [held, expired, nothingExpected]
      | false =>
          have same : s.casUnindex req now = s.unindexOld req.key := by
            simp [casUnindex, KindServerImpl.unindexOld, held, expired]
          rw [same]
          refine iff_of_true (exact.replace req.key req.newValue) ?_
          intro found same foundExpired
          rw [held] at same
          cases Option.some.inj same
          rw [expired] at foundExpired
          cases foundExpired

/-! ## Steps and runs -/

theorem exact_step_iff (s : KindServerImpl) (event : UInt64 × Op) (leader : s.isReplica = false)
    (exact : IndexExact s) : IndexExact (serverStep s event) ↔ CoversExpired s event := by
  obtain ⟨now, op⟩ := event
  cases op with
  | get key => exact iff_of_true (exact.get key now) trivial
  | put req => exact iff_of_true (exact.put leader req now) trivial
  | sweep => exact iff_of_true (exact.sweep now) trivial
  | checkpoint =>
      refine iff_of_true ?_ trivial
      simp only [serverStep, Op.exec, saveSnapshotAndTruncateWal]
      cases s.snapshotFile <;> exact exact
  | delete key =>
      refine iff_of_true ?_ trivial
      cases held : s.tree[key]? with
      | none => simpa only [serverStep, Op.exec, delete_absent s leader held] using exact
      | some old => exact exact.delete leader held
  | commit tx =>
      refine iff_of_true ?_ trivial
      cases clear : tx.conflicts s with
      | false => exact exact.commit leader clear
      | true => simpa only [serverStep, Op.exec, TxHandle.commit_conflict leader clear] using exact
  | cas req =>
      by_cases holds : s.casMatches req now = true
      · exact cas_exact_iff exact leader holds
      · refine iff_of_true ?_ ?_
        · simpa only [serverStep, Op.exec, cas_eq s leader, if_neg holds] using exact
        · intro old held expired nothingExpected
          exact absurd (by simp [casMatches, held, expired, nothingExpected]) holds

theorem exact_fresh (reg : SchemaRegistry) (hasSnapshot hasWal : Bool) :
    IndexExact (KindServerImpl.fresh reg hasSnapshot hasWal false) := by
  have noValues : values (KindServerImpl.fresh reg hasSnapshot hasWal false) = fun _ => none := by
    funext key
    cases hasSnapshot <;> cases hasWal <;>
      simp [values, KindServerImpl.fresh, KindServerImpl.new, Recovery.recover, Recovery.empty]
  have noEntries : (KindServerImpl.fresh reg hasSnapshot hasWal false).indexes = ∅ := by
    cases hasSnapshot <;> cases hasWal <;> rfl
  unfold IndexExact
  rw [noValues, noEntries]
  exact PostingIndex.exact_empty

/-- The indexes are exact after every step of a run exactly if every `cas` of
the run that finds an expired record covers its index keys. -/
theorem indexes_exact_iff (reg : SchemaRegistry) (hasSnapshot hasWal : Bool)
    (events : List (UInt64 × Op)) :
    (∀ past, past <+: events →
      let s := run serverStep (.fresh reg hasSnapshot hasWal false) past
      ∀ ik key : String, PostingIndex.Indexed s.indexes ik key ↔
        ∃ r, s.tree[key]? = some r ∧ ik ∈ extractIndexKeys reg key r.value) ↔
      StepsMeet serverStep CoversExpired (.fresh reg hasSnapshot hasWal false) events := by
  let Inv (s : KindServerImpl) : Prop :=
    (s.isReplica = false ∧ s.schemaRegistry = reg) ∧ IndexExact s
  have settled : ∀ s event, (s.isReplica = false ∧ s.schemaRegistry = reg) →
      ((serverStep s event).isReplica = false ∧ (serverStep s event).schemaRegistry = reg) := by
    intro s event ⟨leader, sameReg⟩
    have kept : SameSettings s (serverStep s event) := exec_settings leader event.2
    exact ⟨kept.isReplica.trans leader, kept.schemaRegistry.trans sameReg⟩
  have step : ∀ s event, True → Inv s → (Inv (serverStep s event) ↔ CoversExpired s event) := by
    intro s event _ holds
    rw [← exact_step_iff s event holds.1.1 holds.2]
    exact and_iff_right (settled s event holds.1)
  rw [← run_invariant_iff step events _ (stepsMeet_of_forall (fun _ _ => trivial) ..)
    ⟨⟨rfl, rfl⟩, exact_fresh reg hasSnapshot hasWal⟩]
  refine forall_congr' fun past => forall_congr' fun _ => ?_
  have settings := run_invariant_of_forall settled past
    (.fresh reg hasSnapshot hasWal false) ⟨rfl, rfl⟩
  have stated := indexExact_iff (run serverStep (.fresh reg hasSnapshot hasWal false) past)
  unfold KindServerImpl.extractIndexKeys at stated
  rw [settings.2] at stated
  rw [← stated]
  exact (and_iff_right settings).symm

/-- Records under `user:` are indexed by their field `city`. -/
def userRegistry : SchemaRegistry where
  types := (∅ : SortedMap String TypeDefinition).insert "User"
    { name := "User"
      fields := [{ name := "city", dataType := .string, isIndexed := true }]
      keyPrefix := some "user" }
  enums := ∅
  prefixMap := (∅ : SortedMap String String).insert "user" "User"

def cityJson (city : String) : Bytes :=
  ("\x7b\"city\":\"" ++ city ++ "\"\x7d").toUTF8.data.toList

omit [Serde] in
/-- An entry of the value before the one the tree holds. -/
theorem inexact_of_left {index : PostingIndex String String} {tree : Tree}
    (filed : ((index["User:city:a"]?).getD ∅).contains "user:1" = true)
    (held : (tree["user:1"]?).map DbRecord.value = some (cityJson "b")) :
    ¬ (PostingIndex.Indexed index "User:city:a" "user:1" ↔ ∃ r, tree["user:1"]? = some r ∧
      "User:city:a" ∈ @extractIndexKeys SerdeJson.instSerde userRegistry "user:1" r.value) := by
  let _ : Serde := SerdeJson.instSerde
  intro exact
  have keys : extractIndexKeys userRegistry "user:1" (cityJson "b") = ["User:city:b"] := by decide
  obtain ⟨r, same, carried⟩ := exact.mp (PostingIndex.indexed_of_contains filed)
  rw [same, Option.map_some, Option.some.injEq] at held
  rw [held, keys] at carried
  exact absurd carried (by decide)

/-- A record expires and is replaced by a `cas` that expects nothing. -/
def replaceExpired : List (UInt64 × Op) :=
  [(0, .put { key := "user:1", value := cityJson "a", ttlMs := some 5 }),
   (6, .cas { key := "user:1", expectedValue := [], newValue := cityJson "b", ttlMs := none })]

omit [Serde] in
theorem cas_on_expired_leaves_entries :
    ¬ ∀ [Serde] (reg : SchemaRegistry) (hasSnapshot hasWal : Bool) (events : List (UInt64 × Op)),
      events.Pairwise (fun e e' => e.1 ≤ e'.1) →
      let s := run serverStep (.fresh reg hasSnapshot hasWal false) events
      ∀ ik key : String, PostingIndex.Indexed s.indexes ik key ↔
        ∃ r, s.tree[key]? = some r ∧ ik ∈ extractIndexKeys reg key r.value := by
  intro claim
  let _ : Serde := SerdeJson.instSerde
  refine inexact_of_left ?_ ?_
    (claim userRegistry false false replaceExpired (by decide) "User:city:a" "user:1")
  · decide
  · decide

end KindDb.IndexExactness
