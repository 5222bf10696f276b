import KindDb.Lib.Paging
import KindDb.Server.Handlers

/-! # Queries by indexed field

`query` pages through the keys filed under its index key and then drops those
whose record has expired.  Like a scan it reads the clock anew for every
record, so the readings are a function of the key. -/
set_option autoImplicit false

namespace KindDb

open KindDb.Lib

structure QueryRequest where
  schemaType : String
  field : String
  value : String
  limit : Option UInt32
  offset : Option UInt32
deriving Repr, DecidableEq

namespace QueryRequest

def idxKey (req : QueryRequest) : String := req.schemaType ++ ":" ++ req.field ++ ":" ++ req.value

def offsetOf (req : QueryRequest) : Nat := (req.offset.getD 0).toNat

def limitOf (req : QueryRequest) : Nat := (req.limit.getD 100).toNat

end QueryRequest

namespace KindServerImpl

/-- What the loop of `query` makes of one key. -/
def queried (s : KindServerImpl) (clock : String → UInt64) (key : String) : Option Record :=
  match s.tree[key]? with
  | some rec =>
      if !isExpired rec.expiresAt (clock key) then
        some { key, value := rec.value, expiresAt := rec.expiresAt }
      else none
  | none => none

def query (s : KindServerImpl) (req : QueryRequest) (clock : String → UInt64) : List Record :=
  match s.indexes[req.idxKey]? with
  | some skipSet =>
      ((skipSet.toList.drop req.offsetOf).take req.limitOf).filterMap (s.queried clock)
  | none => []

def isLive (s : KindServerImpl) (clock : String → UInt64) (key : String) : Bool :=
  (s.tree[key]?).any fun rec => !isExpired rec.expiresAt (clock key)

theorem isSome_queried (s : KindServerImpl) (clock : String → UInt64) (key : String) :
    (s.queried clock key).isSome = isLive s clock key := by
  unfold queried isLive
  cases s.tree[key]? with
  | none => rfl
  | some rec => cases expired : isExpired rec.expiresAt (clock key) <;> simp [expired]

/-- The keys filed under an index key, in key order. -/
def filed (s : KindServerImpl) (ik : String) : List String := (s.indexes[ik]?.getD ∅).toList

theorem query_eq (s : KindServerImpl) (req : QueryRequest) (clock : String → UInt64) :
    s.query req clock =
      (Paging.page req.offsetOf req.limitOf (s.filed req.idxKey)).filterMap (s.queried clock) := by
  unfold query filed
  cases s.indexes[req.idxKey]? with
  | some skipSet => rfl
  | none =>
      have empty : (∅ : SortedSet String).toList = [] := rfl
      simp [Paging.page, empty]

theorem queried_eq_some {s : KindServerImpl} {clock : String → UInt64} {key : String}
    {answer : Record} : s.queried clock key = some answer ↔
      ∃ rec, s.tree[key]? = some rec ∧ isExpired rec.expiresAt (clock key) = false ∧
        answer = { key, value := rec.value, expiresAt := rec.expiresAt } := by
  unfold queried
  cases s.tree[key]? with
  | none => simp
  | some rec =>
      cases expired : isExpired rec.expiresAt (clock key) with
      | true => simp [expired]
      | false => simpa [expired] using eq_comm

/-- The answers to different keys differ. -/
theorem nodup_queried (s : KindServerImpl) (clock : String → UInt64) {keys : List String}
    (distinct : keys.Nodup) : (keys.filterMap (s.queried clock)).Nodup := by
  refine List.Nodup.filterMap (fun key key' answer found found' => ?_) distinct
  obtain ⟨_, _, _, rfl⟩ := queried_eq_some.mp found
  obtain ⟨_, _, _, same⟩ := queried_eq_some.mp found'
  exact congrArg Record.key same

theorem mem_filed {s : KindServerImpl} {ik key : String} :
    key ∈ s.filed ik ↔ PostingIndex.Indexed s.indexes ik key := by
  unfold filed PostingIndex.Indexed
  cases s.indexes[ik]? with
  | none => simp
  | some postings => simp

theorem nodup_filed (s : KindServerImpl) (ik : String) : (s.filed ik).Nodup :=
  SortedMap.nodup_toList _

end KindServerImpl

end KindDb
