import KindDb.SerdeJson
import KindDb.Server.Effects

/-! # The contract of `cas`

The record of the key is live, expired but still stored, or absent; the middle
one counts as absent.  `casMatches` is what the branches of the source test,
and here it is read as a statement about the live record. -/
set_option autoImplicit false

namespace KindDb.CasContract

open KindDb.Lib KindDb.Lib.Runs KindDb.KindServerImpl

def HoldsLive (s : KindServerImpl) (key : String) (now : UInt64) (value : Bytes) : Prop :=
  ∃ r, s.tree[key]? = some r ∧ isExpired r.expiresAt now = false ∧ r.value = value

def NoneLive (s : KindServerImpl) (key : String) (now : UInt64) : Prop :=
  ∀ r, s.tree[key]? = some r → isExpired r.expiresAt now = true

theorem casMatches_iff (s : KindServerImpl) (req : CasRequest) (now : UInt64) :
    s.casMatches req now = true ↔ HoldsLive s req.key now req.expectedValue ∨
      NoneLive s req.key now ∧ req.expectedValue = [] := by
  unfold casMatches HoldsLive NoneLive
  cases held : s.tree[req.key]? with
  | none => simp
  | some r => cases expired : isExpired r.expiresAt now <;> simp [expired]

section Contract
variable [Serde]

/-- The state after a `cas` that succeeded. -/
structure Swapped (s s' : KindServerImpl) (req : CasRequest) (expiresAt : Option UInt64) :
    Prop where
  written : s'.tree[req.key]? =
    some { value := req.newValue, expiresAt, version := s.globalVersion + 1 }
  others : ∀ k : String, k ≠ req.key → s'.tree[k]? = s.tree[k]?
  cache : s'.cache.peek req.key = none
  globalVersion : s'.globalVersion = s.globalVersion + 1
  wal : s'.wal = s.wal.map fun file => Wal.append file (s.globalVersion + 1)
    (.put req.key req.newValue expiresAt)

theorem swapped_casWrite (s : KindServerImpl) (req : CasRequest) (now : UInt64)
    (expiresAt : Option UInt64) :
    Swapped s ((s.casUnindex req now).casWrite req expiresAt) req expiresAt := by
  rw [casUnindex_eq, casWrite_eq]
  refine ⟨?_, fun k other => ?_, ?_, rfl, rfl⟩
  · exact (SortedMap.lookup_insert s.tree req.key req.key _).trans (if_pos rfl)
  · exact (SortedMap.lookup_insert s.tree req.key k _).trans (if_neg (Ne.symm other))
  · exact (Cache.LruCache.peek_invalidate s.cache req.key req.key).trans (if_pos rfl)

theorem cas_contract (s : KindServerImpl) (leader : s.isReplica = false) (req : CasRequest)
    (now : UInt64) :
    ((s.cas req now).1 = .ok true ↔ HoldsLive s req.key now req.expectedValue ∨
      NoneLive s req.key now ∧ req.expectedValue = []) ∧
    ((s.cas req now).1 = .ok true →
      Swapped s (s.cas req now).2 req (deadline now req.ttlMs)) ∧
    ((s.cas req now).1 ≠ .ok true → s.cas req now = (.ok false, s)) := by
  rw [← casMatches_iff, cas_eq s leader]
  by_cases holds : s.casMatches req now = true
  · rw [if_pos holds]
    refine ⟨iff_of_true rfl holds, fun _ => ?_, fun failed => absurd rfl failed⟩
    exact swapped_casWrite s req now (deadline now req.ttlMs)
  · rw [if_neg holds]
    refine ⟨iff_of_false (by simp) holds, fun succeeded => ?_, fun _ => rfl⟩
    simp at succeeded

end Contract

open SerdeJson

/-- At the time 6 the record of "a" has expired and that of "b" is live. -/
def oneExpired : KindServerImpl :=
  run serverStep (.fresh .new false true false)
    [(0, .put { key := "a", value := [1], ttlMs := some 5 }),
     (0, .put { key := "b", value := [2], ttlMs := none })]

theorem cas_contract_expired :
    (oneExpired.cas { key := "a", expectedValue := [], newValue := [3], ttlMs := some 4 } 6).1 =
        .ok true ∧
      Swapped oneExpired
        (oneExpired.cas { key := "a", expectedValue := [], newValue := [3], ttlMs := some 4 } 6).2
        { key := "a", expectedValue := [], newValue := [3], ttlMs := some 4 } (some 10) := by
  obtain ⟨succeeds, swapped, _⟩ := cas_contract oneExpired rfl
    { key := "a", expectedValue := [], newValue := [3], ttlMs := some 4 } 6
  have expired : oneExpired.tree["a"]? = some { value := [1], expiresAt := some 5, version := 1 } := by
    decide
  have noneLive : NoneLive oneExpired "a" 6 := by
    intro r held
    rw [expired] at held
    cases held
    rfl
  have succeeded := succeeds.mpr (Or.inr ⟨noneLive, rfl⟩)
  exact ⟨succeeded, swapped succeeded⟩

end KindDb.CasContract
