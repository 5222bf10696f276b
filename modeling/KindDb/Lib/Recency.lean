import Mathlib

/-! # Lists ordered by most recent use

The reference of a bounded cache with least-recently-used eviction: a list of
(key, value) pairs, most recent first, with at most one pair for a key. -/
set_option autoImplicit false

namespace KindDb.Lib.Recency

variable {K V : Type} [DecidableEq K]

def find (key : K) : List (K × V) → Option V
  | [] => none
  | entry :: rest => if entry.1 = key then some entry.2 else find key rest

def drop (key : K) (entries : List (K × V)) : List (K × V) :=
  entries.filter fun entry => entry.1 ≠ key

def touch (key : K) (entries : List (K × V)) : List (K × V) :=
  match find key entries with
  | some value => (key, value) :: drop key entries
  | none => entries

def store (capacity : Nat) (key : K) (value : V) (entries : List (K × V)) : List (K × V) :=
  match find key entries with
  | some _ => (key, value) :: drop key entries
  | none =>
      if capacity ≤ entries.length then (key, value) :: entries.dropLast
      else (key, value) :: entries

def Distinct (entries : List (K × V)) : Prop := (entries.map Prod.fst).Nodup

theorem find_append (key : K) (front back : List (K × V)) :
    find key (front ++ back) = (find key front).or (find key back) := by
  induction front with
  | nil => rfl
  | cons entry rest ih =>
      simp only [List.cons_append, find]
      by_cases same : entry.1 = key
      · simp [same]
      · simp [same, ih]

theorem find_eq_none {key : K} {entries : List (K × V)} :
    find key entries = none ↔ key ∉ entries.map Prod.fst := by
  induction entries with
  | nil => simp [find]
  | cons entry rest ih =>
      by_cases same : entry.1 = key
      · simp [find, same]
      · simp [find, same, ih, Ne.symm same]

theorem find_drop (key k : K) (entries : List (K × V)) :
    find k (drop key entries) = if key = k then none else find k entries := by
  induction entries with
  | nil => simp [find, drop]
  | cons entry rest ih =>
      simp only [drop] at ih ⊢
      by_cases dropped : entry.1 = key
      · subst dropped
        by_cases same : entry.1 = k
        · simp [same] at ih ⊢
          exact ih
        · simp [find, same] at ih ⊢
          exact ih
      · by_cases same : entry.1 = k
        · subst same
          simp [find, dropped, Ne.symm dropped]
        · simp [find, dropped, same] at ih ⊢
          exact ih

theorem drop_of_absent {key : K} {entries : List (K × V)} (absent : key ∉ entries.map Prod.fst) :
    drop key entries = entries := by
  apply List.filter_eq_self.mpr
  intro entry member
  have : entry.1 ≠ key := fun same => absent (List.mem_map.mpr ⟨entry, member, same⟩)
  simpa using this

theorem find_split {key : K} {value : V} {front back : List (K × V)}
    (distinct : Distinct (front ++ (key, value) :: back)) :
    find key (front ++ (key, value) :: back) = some value := by
  have parts := List.nodup_append.mp (by simpa [Distinct] using distinct)
  have absent : key ∉ front.map Prod.fst := fun member =>
    parts.2.2 key member key (List.mem_cons_self ..) rfl
  rw [find_append, find_eq_none.mpr absent]
  simp [find]

theorem drop_split {key : K} {value : V} {front back : List (K × V)}
    (distinct : Distinct (front ++ (key, value) :: back)) :
    drop key (front ++ (key, value) :: back) = front ++ back := by
  have parts := List.nodup_append.mp (by simpa [Distinct] using distinct)
  have absentFront : key ∉ front.map Prod.fst := fun member =>
    parts.2.2 key member key (List.mem_cons_self ..) rfl
  have absentBack : key ∉ back.map Prod.fst := (List.nodup_cons.mp parts.2.1).1
  have split : drop key (front ++ (key, value) :: back) = drop key front ++ drop key back := by
    simp [drop]
  rw [split, drop_of_absent absentFront, drop_of_absent absentBack]

/-! ## What the operations do to a lookup -/

theorem find_touch (key k : K) (entries : List (K × V)) :
    find k (touch key entries) = find k entries := by
  unfold touch
  cases found : find key entries with
  | none => rfl
  | some value =>
      by_cases same : key = k
      · subst same
        simp [find, found]
      · simp [find, same, find_drop]

theorem find_store_self (capacity : Nat) (key : K) (value : V) (entries : List (K × V)) :
    find key (store capacity key value entries) = some value := by
  unfold store
  cases find key entries with
  | some _ => simp [find]
  | none => by_cases full : capacity ≤ entries.length <;> simp [full, find]

theorem find_dropLast {k : K} {value : V} {entries : List (K × V)}
    (found : find k entries.dropLast = some value) : find k entries = some value := by
  rcases List.eq_nil_or_concat entries with empty | ⟨front, last, split⟩
  · subst empty
    simpa using found
  · subst split
    simp only [List.concat_eq_append, List.dropLast_concat] at found ⊢
    rw [find_append, found]
    rfl

/-- Storing a key loses other keys (at most one, by eviction) but never
changes what is held for a key that stays. -/
theorem find_store_other {capacity : Nat} {key k : K} {value held : V} {entries : List (K × V)}
    (other : key ≠ k) (found : find k (store capacity key value entries) = some held) :
    find k entries = some held := by
  unfold store at found
  cases present : find key entries with
  | some _ => simpa [present, find, other, find_drop] using found
  | none =>
      by_cases full : capacity ≤ entries.length
      · simp only [present, full, if_true, find, other, if_false] at found
        exact find_dropLast found
      · simpa [present, full, find, other] using found

end KindDb.Lib.Recency
