import KindDb.Lib.Recency

/-! # Lists in the order of insertion

The reference of a bounded cache with first-in-first-out eviction: a list of
(key, value) pairs, oldest first, with at most one pair for a key. -/
set_option autoImplicit false

namespace KindDb.Lib.InsertionOrder

open Recency

variable {K V : Type} [DecidableEq K]

/-- A new value in the place of the old one. -/
def replace (key : K) (value : V) (entries : List (K × V)) : List (K × V) :=
  entries.map fun entry => if entry.1 = key then (key, value) else entry

/-- A full list gives up its oldest pair. -/
def makeRoom (capacity : Nat) (entries : List (K × V)) : List (K × V) :=
  if capacity ≤ entries.length then entries.tail else entries

def store (capacity : Nat) (key : K) (value : V) (entries : List (K × V)) : List (K × V) :=
  match find key entries with
  | some _ => replace key value entries
  | none => makeRoom capacity entries ++ [(key, value)]

theorem keys_replace (key : K) (value : V) (entries : List (K × V)) :
    (replace key value entries).map Prod.fst = entries.map Prod.fst := by
  rw [replace, List.map_map]
  refine List.map_congr_left fun entry _ => ?_
  by_cases same : entry.1 = key <;> simp [same]

theorem find_replace (key k : K) (value : V) (entries : List (K × V)) :
    find k (replace key value entries) =
      if key = k then (find key entries).map fun _ => value else find k entries := by
  induction entries with
  | nil => simp [replace, find]
  | cons entry rest ih =>
      unfold replace at ih ⊢
      rw [List.map_cons, find, ih, find, find]
      by_cases same : entry.1 = key
      · by_cases asked : key = k <;> simp [same, asked]
      · by_cases asked : key = k
        · subst asked
          simp [same]
        · rw [if_neg same, if_neg asked, if_neg asked]

theorem find_concat (key k : K) (value : V) (entries : List (K × V)) :
    find k (entries ++ [(key, value)]) =
      (find k entries).or (if key = k then some value else none) := by
  rw [find_append]
  rfl

/-- Without its oldest pair a list finds all but the oldest key. -/
theorem find_tail {entry : K × V} {rest : List (K × V)} (distinct : Distinct (entry :: rest))
    (k : K) : find k rest = if entry.1 = k then none else find k (entry :: rest) := by
  by_cases same : entry.1 = k
  · subst same
    rw [if_pos rfl, find_eq_none]
    exact (List.nodup_cons.mp distinct).1
  · rw [if_neg same, find, if_neg same]

theorem find_isSome_iff {key : K} {entries : List (K × V)} :
    (∃ value, find key entries = some value) ↔ key ∈ entries.map Prod.fst := by
  rw [← Option.isSome_iff_exists, ← Option.ne_none_iff_isSome, ne_eq, find_eq_none, not_not]

/-- A store holds the new pair, and of the other ones no others than before. -/
theorem find_store (capacity : Nat) {entries : List (K × V)}
    (distinct : Distinct entries) (written : K) (new : V) :
    find written (store capacity written new entries) = some new ∧
      ∀ key value, key ≠ written →
        find key (store capacity written new entries) = some value →
        find key entries = some value := by
  unfold store
  cases found : find written entries with
  | some old =>
      refine ⟨by rw [find_replace, if_pos rfl, found]; rfl, ?_⟩
      intro key value other held
      rwa [find_replace, if_neg (Ne.symm other)] at held
  | none =>
      have fewer : ∀ key value,
          find key (makeRoom capacity entries) = some value →
          find key entries = some value := by
        intro key value held
        unfold makeRoom at held
        split at held
        · cases entries with
          | nil => exact held
          | cons entry rest =>
              rw [List.tail_cons, find_tail distinct] at held
              exact (Option.ite_none_left_eq_some.mp held).2
        · exact held
      have gone : find written (makeRoom capacity entries) = none := by
        rw [Option.eq_none_iff_forall_ne_some]
        intro value held
        rw [fewer written value held] at found
        cases found
      refine ⟨by simp [find_concat, gone], fun key value other held => ?_⟩
      rw [find_concat, if_neg (Ne.symm other), Option.or_none] at held
      exact fewer key value held

end KindDb.Lib.InsertionOrder
