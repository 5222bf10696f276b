import Mathlib

/-! # Sorted maps

The ordered, extensional map of the standard library under the lookup rules
the development uses, and the cursor of an iteration: `nextAbove t c` is the
entry an iterator standing at `c` moves to, read from the map as it is at that
moment. -/
set_option autoImplicit false

namespace KindDb.Lib

open Std

abbrev SortedMap (α β : Type) [Ord α] := ExtTreeMap α β compare

abbrev SortedSet (α : Type) [Ord α] := ExtTreeSet α compare

namespace SortedMap

section Lookup
variable {α β : Type} [Ord α] [TransOrd α] [LawfulEqOrd α] [DecidableEq α]

theorem lookup_insert (t : SortedMap α β) (a k : α) (b : β) :
    (t.insert a b)[k]? = if a = k then some b else t[k]? := by
  rw [ExtTreeMap.getElem?_insert]
  simp only [Std.compare_eq_iff_eq]

theorem lookup_erase (t : SortedMap α β) (a k : α) :
    (t.erase a)[k]? = if a = k then none else t[k]? := by
  rw [ExtTreeMap.getElem?_erase]
  simp only [Std.compare_eq_iff_eq]

omit [LawfulEqOrd α] [DecidableEq α] in
theorem nodup_keys_toList (t : SortedMap α β) : (t.toList.map Prod.fst).Nodup := by
  have sorted : t.toList.Pairwise fun a b => compare a.1 b.1 = .lt :=
    ExtTreeMap.ordered_keys_toList
  apply List.pairwise_map.mpr
  refine sorted.imp fun {a b} less same => ?_
  rw [same, compare_self] at less
  cases less

omit [DecidableEq α] in
/-- Maps that agree on the entries that pass a test list the same of them. -/
theorem filter_toList_congr {t t' : SortedMap α β} {test : α → β → Bool}
    (same : ∀ k : α, (t[k]?).filter (test k) = (t'[k]?).filter (test k)) :
    (t.toList.filter fun entry => test entry.1 entry.2) =
      t'.toList.filter fun entry => test entry.1 entry.2 := by
  have equal : t.filter test = t'.filter test := by
    refine ExtTreeMap.ext_getElem? fun k => ?_
    rw [ExtTreeMap.getElem?_filter', ExtTreeMap.getElem?_filter', same]
  rw [← ExtTreeMap.toList_filter, equal, ExtTreeMap.toList_filter]

omit [LawfulEqOrd α] [DecidableEq α] in
theorem nodup_toList (set : SortedSet α) : set.toList.Nodup := by
  have sorted : set.toList.Pairwise fun a b => compare a b = .lt := ExtTreeSet.ordered_toList
  refine sorted.imp fun {a b} less same => ?_
  rw [same, compare_self] at less
  cases less

omit [DecidableEq α] in
/-- A set of those keys of a map that pass a test lists them in the order of the map. -/
theorem toList_eq_keys {set : SortedSet α} {t : SortedMap α β} {test : α × β → Bool}
    (same : ∀ k : α, k ∈ set ↔ ∃ v, t[k]? = some v ∧ test (k, v) = true) :
    set.toList = (t.toList.filter test).map Prod.fst := by
  have sorted : set.toList.Pairwise fun a b => compare a b = .lt := ExtTreeSet.ordered_toList
  have sortedKeys : ((t.toList.filter test).map Prod.fst).Pairwise
      fun a b => compare a b = .lt :=
    List.pairwise_map.mpr (ExtTreeMap.ordered_keys_toList.filter _)
  have distinct : ((t.toList.filter test).map Prod.fst).Nodup :=
    (nodup_keys_toList t).sublist (List.filter_sublist.map _)
  refine List.Perm.eq_of_pairwise (fun a b _ _ less greater => ?_) sorted sortedKeys ?_
  · have : compare a a = .lt := TransCmp.lt_trans less greater
    simp at this
  · refine (List.perm_ext_iff_of_nodup (nodup_toList set) distinct).mpr fun k => ?_
    rw [ExtTreeSet.mem_toList, same]
    simp

omit [DecidableEq α] in
/-- The size of a map with known keys. -/
theorem size_eq_length {t : SortedMap α β} {keys : List α} (distinct : keys.Nodup)
    (same : ∀ k : α, k ∈ keys ↔ ∃ v, t[k]? = some v) : t.size = keys.length := by
  have members : ∀ k : α, k ∈ t.keys ↔ k ∈ keys := by
    intro k
    rw [ExtTreeMap.mem_keys, ExtTreeMap.mem_iff_isSome_getElem?, Option.isSome_iff_exists, same]
  have perm := (List.perm_ext_iff_of_nodup ExtTreeMap.nodup_keys distinct).mpr members
  rw [← ExtTreeMap.length_keys, perm.length_eq]

end Lookup

/-- In a list where whatever precedes a passing element passes, the walk to
the first failure meets all that pass. -/
theorem takeWhile_eq_filter {γ : Type} {test : γ → Bool} {list : List γ}
    (closed : list.Pairwise fun first second => test second = true → test first = true) :
    list.takeWhile test = list.filter test := by
  induction list with
  | nil => rfl
  | cons first rest ih =>
      obtain ⟨before, closedRest⟩ := List.pairwise_cons.mp closed
      cases passes : test first with
      | true => rw [List.takeWhile_cons_of_pos passes, List.filter_cons_of_pos passes, ih closedRest]
      | false =>
          rw [List.takeWhile_cons_of_neg (by simp [passes]), List.filter_cons_of_neg (by simp [passes])]
          refine (List.filter_eq_nil_iff.mpr fun later member passesLater => ?_).symm
          rw [before later member passesLater] at passes
          cases passes

section Cursor
variable {α β : Type} [Ord α] [TransOrd α] [LawfulEqOrd α]

/-- A cursor is `none` before the first entry, and then the last key visited. -/
def above (cursor : Option α) (key : α) : Bool :=
  match cursor with
  | none => true
  | some last => compare last key == .lt

def nextAbove (t : SortedMap α β) (cursor : Option α) : Option (α × β) :=
  t.toList.find? fun entry => above cursor entry.1

theorem nextAbove_some {t : SortedMap α β} {cursor : Option α} {key : α} {value : β}
    (found : nextAbove t cursor = some (key, value)) :
    t[key]? = some value ∧ above cursor key = true ∧
      ∀ other, above cursor other = true → compare other key = .lt → t[other]? = none := by
  obtain ⟨isAbove, before, after, split, notBefore⟩ := List.find?_eq_some_iff_append.mp found
  refine ⟨?_, isAbove, ?_⟩
  · rw [← ExtTreeMap.mem_toList_iff_getElem?_eq_some, split]
    simp
  · intro other otherAbove less
    cases lookup : t[other]? with
    | none => rfl
    | some otherValue =>
        exfalso
        have sorted : t.toList.Pairwise fun a b => compare a.1 b.1 = .lt :=
          ExtTreeMap.ordered_keys_toList
        have member : (other, otherValue) ∈ t.toList :=
          ExtTreeMap.mem_toList_iff_getElem?_eq_some.mpr lookup
        rw [split] at sorted member
        rcases List.mem_append.mp member with early | late
        · have := notBefore _ early
          simp [otherAbove] at this
        · rcases List.mem_cons.mp late with same | late
          · have : other = key := congrArg Prod.fst same
            simp [this] at less
          · have greater := (List.pairwise_cons.mp (List.pairwise_append.mp sorted).2.1).1 _ late
            have : compare key key = .lt := TransCmp.lt_trans greater less
            simp at this

theorem nextAbove_none {t : SortedMap α β} {cursor : Option α}
    (finished : nextAbove t cursor = none) (key : α) (isAbove : above cursor key = true) :
    t[key]? = none := by
  cases lookup : t[key]? with
  | none => rfl
  | some value =>
      have member := ExtTreeMap.mem_toList_iff_getElem?_eq_some.mpr lookup
      have := List.find?_eq_none.mp finished _ member
      simp [isAbove] at this

omit [LawfulEqOrd α] in
theorem above_trans {cursor : Option α} {first second : α} (isAbove : above cursor first = true)
    (less : compare first second = .lt) : above cursor second = true := by
  cases cursor with
  | none => rfl
  | some last =>
      simp only [above, beq_iff_eq] at isAbove ⊢
      exact TransCmp.lt_trans isAbove less

/-- The entries a cursor passes when it moves to the next entry: that entry. -/
theorem nextAbove_passed {t : SortedMap α β} {cursor : Option α} {key k : α} {value v : β}
    (found : nextAbove t cursor = some (key, value)) (held : t[k]? = some v) :
    above (some key) k = false ↔ above cursor k = false ∨ k = key := by
  obtain ⟨_, isAbove, between⟩ := nextAbove_some found
  constructor
  · intro passed
    cases before : above cursor k with
    | false => exact Or.inl rfl
    | true =>
        right
        simp only [above, beq_eq_false_iff_ne] at passed
        by_contra other
        have notEq : compare k key ≠ .eq := fun same => other (Std.compare_eq_iff_eq.mp same)
        have less : compare k key = .lt := by
          cases order : compare k key with
          | lt => rfl
          | eq => exact absurd order notEq
          | gt => exact absurd (OrientedCmp.lt_of_gt order) passed
        rw [between k before less] at held
        cases held
  · intro either
    rcases either with passed | rfl
    · by_contra stillAbove
      rw [Bool.not_eq_false] at stillAbove
      simp only [above, beq_iff_eq] at stillAbove
      rw [above_trans isAbove stillAbove] at passed
      cases passed
    · simp [above]

omit [LawfulEqOrd α] in
/-- A cursor moves through the entries of a map in their order. -/
theorem nextAbove_split {t : SortedMap α β} {visited rest : List (α × β)}
    (split : t.toList = visited ++ rest) :
    nextAbove t (visited.getLast?.map Prod.fst) = rest.head? := by
  have sorted : t.toList.Pairwise fun a b => compare a.1 b.1 = .lt :=
    ExtTreeMap.ordered_keys_toList
  rw [split] at sorted
  obtain ⟨sortedVisited, _, between⟩ := List.pairwise_append.mp sorted
  unfold nextAbove
  rw [split]
  rcases List.eq_nil_or_concat visited with rfl | ⟨before, last, rfl⟩
  · cases rest with
    | nil => rfl
    | cons entry rest => rfl
  · rw [List.concat_eq_append] at *
    have behind : (before ++ [last]).find? (fun entry => above (some last.1) entry.1) = none := by
      refine List.find?_eq_none.mpr fun entry member => ?_
      simp only [above, beq_iff_eq]
      intro less
      rcases List.mem_append.mp member with early | here
      · have greater := (List.pairwise_append.mp sortedVisited).2.2 entry early last
          List.mem_cons_self
        have : compare last.1 last.1 = .lt := TransCmp.lt_trans less greater
        simp at this
      · rw [List.mem_singleton.mp here] at less
        simp at less
    rw [List.getLast?_concat, Option.map_some, List.find?_append, behind, Option.none_or]
    cases rest with
    | nil => rfl
    | cons entry rest =>
        refine List.find?_cons_of_pos ?_
        simp [above, between last (by simp) entry List.mem_cons_self]

end Cursor

end SortedMap

end KindDb.Lib
