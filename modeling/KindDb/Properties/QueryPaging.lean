import KindDb.Properties.IndexExactness
import KindDb.Server.Query

/-! # Pages of a query

A query should return a page of the live records that match.  It takes the page
from the keys that are filed and drops the expired ones afterwards: an expired
record before the page shifts it, one on the page shortens it.
`query_page_iff` says when that cannot be seen. -/
set_option autoImplicit false

namespace KindDb.QueryPaging

open KindDb.Lib KindDb.Lib.Runs KindDb.Schema KindDb.IndexExactness KindDb.KindServerImpl

/-- The type is registered and the field is one of its indexed fields. -/
def Registered (reg : SchemaRegistry) (schemaType field : String) : Prop :=
  ∃ tDef, reg.types[schemaType]? = some tDef ∧
    ∃ fieldDef ∈ tDef.fields, fieldDef.name = field ∧ fieldDef.isIndexed = true

/-- No expired record is filed before the page, and none on it unless only
expired ones follow; or nothing on the page is live, and behind it there is
nothing for the expired ones before it to make room for. -/
def InPlace (s : KindServerImpl) (req : QueryRequest) (clock : String → UInt64) : Prop :=
  let before := (s.filed req.idxKey).take req.offsetOf
  let page := ((s.filed req.idxKey).drop req.offsetOf).take req.limitOf
  let behind := (s.filed req.idxKey).drop (req.offsetOf + req.limitOf)
  (∀ key ∈ before, isLive s clock key = true) ∧
      ((∀ key ∈ page, isLive s clock key = true) ∨ ∀ key ∈ behind, isLive s clock key = false) ∨
    (∀ key ∈ page, isLive s clock key = false) ∧
      (req.limitOf = 0 ∨
        behind.countP (isLive s clock) ≤ before.countP fun key => !isLive s clock key)

theorem inPlace_iff (s : KindServerImpl) (req : QueryRequest) (clock : String → UInt64) :
    InPlace s req clock ↔
      Paging.Undisturbed (s.queried clock) req.offsetOf req.limitOf (s.filed req.idxKey) := by
  have hits : ∀ keys : List String,
      (keys.filterMap (s.queried clock)).length = keys.countP (isLive s clock) := by
    intro keys
    rw [List.length_filterMap_eq_countP]
    exact List.countP_congr fun key _ => by rw [isSome_queried]
  have misses : ∀ keys : List String, Paging.misses (s.queried clock) keys =
      keys.countP fun key => !isLive s clock key := by
    intro keys
    rw [Paging.misses, ← List.countP_eq_length_filter]
    refine List.countP_congr fun key _ => ?_
    rw [← isSome_queried, Option.not_isSome]
  unfold InPlace Paging.Undisturbed
  simp only [hits, misses, ← Option.not_isSome_iff_eq_none, isSome_queried, Bool.not_eq_true]
  rfl

section Queries
variable [Serde]

/-- The live records that carry the index key, in key order. -/
def matching (s : KindServerImpl) (ik : String) (clock : String → UInt64) : List Record :=
  (s.tree.toList.filter fun entry => decide (ik ∈ s.extractIndexKeys entry.1 entry.2.value) &&
      !isExpired entry.2.expiresAt (clock entry.1)).map fun entry =>
    { key := entry.1, value := entry.2.value, expiresAt := entry.2.expiresAt }

theorem filed_eq {s : KindServerImpl} (exact : IndexExact s) (ik : String) :
    s.filed ik = (s.tree.toList.filter fun entry =>
      decide (ik ∈ s.extractIndexKeys entry.1 entry.2.value)).map Prod.fst := by
  refine SortedMap.toList_eq_keys fun key => ?_
  have same := (indexExact_iff s).mp exact ik key
  rw [← mem_filed, filed, Std.ExtTreeSet.mem_toList] at same
  simpa using same

theorem queried_filed {s : KindServerImpl} (exact : IndexExact s) (ik : String)
    (clock : String → UInt64) :
    (s.filed ik).filterMap (s.queried clock) = matching s ik clock := by
  rw [filed_eq exact, List.filterMap_map, matching, ← List.filterMap_eq_map,
    List.filterMap_filter, List.filterMap_filter]
  refine List.filterMap_congr fun entry member => ?_
  have held : s.tree[entry.1]? = some entry.2 := by
    simpa using Std.ExtTreeMap.mem_toList_iff_getElem?_eq_some.mp member
  cases carried : decide (ik ∈ s.extractIndexKeys entry.1 entry.2.value) with
  | false => rfl
  | true =>
      cases expired : isExpired entry.2.expiresAt (clock entry.1) <;>
        simp [queried, held, expired]

theorem query_page_iff {s : KindServerImpl} (exact : IndexExact s) (req : QueryRequest)
    (clock : String → UInt64) :
    s.query req clock = ((matching s req.idxKey clock).drop req.offsetOf).take req.limitOf ↔
      InPlace s req clock := by
  rw [query_eq, ← queried_filed exact, inPlace_iff]
  exact Paging.page_hits_iff (s.nodup_queried clock (s.nodup_filed req.idxKey)) _ _

end Queries

/-! ## An expired record on the page -/

def sameCity : List (UInt64 × Op) :=
  [(0, .put { key := "user:1", value := cityJson "a", ttlMs := some 5 }),
   (0, .put { key := "user:2", value := cityJson "a", ttlMs := none })]

def firstInCity : QueryRequest :=
  { schemaType := "User", field := "city", value := "a", limit := some 1, offset := none }

theorem registered_city : Registered userRegistry "User" "city" :=
  ⟨{ name := "User"
     fields := [{ name := "city", dataType := .string, isIndexed := true }]
     keyPrefix := some "user" }, by decide, _, List.mem_cons_self, rfl, rfl⟩

theorem exact_sameCity [Serde] :
    IndexExact (run serverStep (.fresh userRegistry false false false) sameCity) :=
  ((exact_fresh userRegistry false false).put rfl _ 0).put rfl _ 0

theorem query_page_short :
    ¬ ∀ [Serde] (s : KindServerImpl), s.isReplica = false → IndexExact s →
      ∀ req : QueryRequest, Registered s.schemaRegistry req.schemaType req.field →
      ∀ now : UInt64, s.query req (fun _ => now) =
        ((matching s req.idxKey fun _ => now).drop req.offsetOf).take req.limitOf := by
  intro claim
  let _ : Serde := SerdeJson.instSerde
  let s := run serverStep (.fresh userRegistry false false false) sameCity
  have differs : s.query firstInCity (fun _ => 6) ≠
      ((matching s firstInCity.idxKey fun _ => 6).drop 0).take 1 := by
    decide
  exact differs (claim s rfl exact_sameCity firstInCity registered_city 6)

theorem query_page_unexpired :
    let _ : Serde := SerdeJson.instSerde
    let s := run serverStep (.fresh userRegistry false false false) sameCity
    s.query firstInCity (fun _ => 5) =
      ((matching s firstInCity.idxKey fun _ => 5).drop 0).take 1 := by
  intro _ s
  refine (query_page_iff exact_sameCity firstInCity fun _ => 5).mpr ?_
  unfold InPlace
  decide

end KindDb.QueryPaging
