import Mathlib

/-! # Pages of a list that is filtered late

A page skips `offset` elements and takes `limit`.  Taking the page first and
dropping the misses of a partial function afterwards is the same as paging the
hits only if no miss stands in the way; `page_hits_iff` says exactly when. -/
set_option autoImplicit false

namespace KindDb.Lib.Paging

variable {α β : Type} (f : α → Option β)

def page (offset limit : Nat) {γ : Type} (list : List γ) : List γ := (list.drop offset).take limit

def before (offset : Nat) (list : List α) : List α := list.take offset

def behind (offset limit : Nat) (list : List α) : List α := list.drop (offset + limit)

def misses (list : List α) : Nat := (list.filter fun a => (f a).isNone).length

/-- What keeps a page of the list from losing or repeating hits: no miss before
it, and none in it unless no hit follows; or no hit in it, where the page of
the hits is empty too. -/
def Undisturbed (offset limit : Nat) (list : List α) : Prop :=
  (∀ a ∈ before offset list, (f a).isSome = true) ∧
      ((∀ a ∈ page offset limit list, (f a).isSome = true) ∨
        ∀ a ∈ behind offset limit list, f a = none) ∨
    (∀ a ∈ page offset limit list, f a = none) ∧
      (limit = 0 ∨
        ((behind offset limit list).filterMap f).length ≤ misses f (before offset list))

theorem split (offset limit : Nat) (list : List α) :
    list = before offset list ++ (page offset limit list ++ behind offset limit list) := by
  have rest : page offset limit list ++ behind offset limit list = list.drop offset := by
    rw [page, behind, ← List.drop_drop, List.take_append_drop]
  rw [rest, before, List.take_append_drop]

theorem length_hits (list : List α) : (list.filterMap f).length + misses f list = list.length := by
  unfold misses
  induction list with
  | nil => rfl
  | cons a rest ih =>
      cases hit : f a with
      | none => simp only [List.filterMap_cons, hit, List.filter_cons, Option.isNone_none, if_true,
          List.length_cons]; omega
      | some b => simp only [List.filterMap_cons, hit, List.filter_cons, Option.isNone_some,
          Bool.false_eq_true, if_false, List.length_cons]; omega

variable {f}

theorem misses_eq_zero {list : List α} :
    misses f list = 0 ↔ ∀ a ∈ list, (f a).isSome = true := by
  simp [misses, List.filter_eq_nil_iff, ← Option.isSome_iff_ne_none]

theorem hits_eq_nil {list : List α} : list.filterMap f = [] ↔ ∀ a ∈ list, f a = none :=
  List.filterMap_eq_nil_iff

theorem length_hits_eq {list : List α} :
    (list.filterMap f).length = list.length ↔ ∀ a ∈ list, (f a).isSome = true := by
  have := length_hits f list
  rw [← misses_eq_zero]
  omega

/-- Where nothing repeats, a list does not begin with what is left of it. -/
theorem eq_nil_of_drop {first second : List β} (distinct : (first ++ second).Nodup)
    {skipped n : Nat} (positive : 0 < skipped)
    (same : first = ((first ++ second).drop skipped).take n) : first = [] := by
  cases first with
  | nil => rfl
  | cons b rest =>
      obtain ⟨k, rfl⟩ : ∃ k, skipped = k + 1 := ⟨skipped - 1, by omega⟩
      have member : b ∈ ((b :: (rest ++ second)).drop (k + 1)).take n := same ▸ List.mem_cons_self
      have late : b ∈ rest ++ second := List.mem_of_mem_drop (List.mem_of_mem_take member)
      exact absurd late (List.nodup_cons.mp distinct).1

/-- The hits of a page against those that a late start would give: `hits` are
those on the page, `later` those behind it, and `skipped` hits are skipped. -/
theorem take_drop_eq_iff {hits later : List β} (distinct : (hits ++ later).Nodup)
    {skipped limit size : Nat} (few : hits.length ≤ size) (within : size ≤ limit)
    (full : later ≠ [] → size = limit) :
    hits = ((hits ++ later).drop skipped).take limit ↔
      skipped = 0 ∧ (hits.length = size ∨ later = []) ∨
        hits = [] ∧ (limit = 0 ∨ later.length ≤ skipped) := by
  constructor
  · intro same
    have lengths := congrArg List.length same
    rw [List.length_take, List.length_drop, List.length_append] at lengths
    rcases Nat.eq_zero_or_pos skipped with zero | positive
    · refine Or.inl ⟨zero, ?_⟩
      by_cases nothing : later = []
      · exact Or.inr nothing
      · have some := List.length_pos_iff.mpr nothing
        have := full nothing
        exact Or.inl (by omega)
    · have empty := eq_nil_of_drop distinct positive same
      rw [empty, List.length_nil] at lengths
      exact Or.inr ⟨empty, by omega⟩
  · rintro (⟨rfl, all | rfl⟩ | ⟨rfl, rfl | few⟩)
    · rw [List.drop_zero]
      by_cases nothing : later = []
      · rw [nothing, List.append_nil, List.take_of_length_le (by omega)]
      · rw [← full nothing, ← all, List.take_left]
    · rw [List.drop_zero, List.append_nil, List.take_of_length_le (by omega)]
    · rw [List.take_zero]
    · rw [List.nil_append, List.drop_of_length_le few, List.take_nil]

theorem page_hits_iff {list : List α} (distinct : (list.filterMap f).Nodup) (offset limit : Nat) :
    (page offset limit list).filterMap f = page offset limit (list.filterMap f) ↔
      Undisturbed f offset limit list := by
  have counted := length_hits f (before offset list)
  by_cases short : list.length ≤ offset
  · -- both pages are empty
    have empty : page offset limit list = [] := by
      rw [page, List.drop_of_length_le short, List.take_nil]
    have behindEmpty : behind offset limit list = [] := List.drop_of_length_le (by omega)
    have noHits : page offset limit (list.filterMap f) = [] := by
      have few := length_hits f list
      rw [page, List.drop_of_length_le (by omega), List.take_nil]
    rw [noHits]
    unfold Undisturbed
    rw [empty, behindEmpty]
    exact iff_of_true rfl (Or.inr ⟨by simp, Or.inr (Nat.zero_le _)⟩)
  · have beforeFull : (before offset list).length = offset := by
      rw [before, List.length_take]
      omega
    have hits : list.filterMap f = (before offset list).filterMap f ++
        ((page offset limit list).filterMap f ++ (behind offset limit list).filterMap f) := by
      conv_lhs => rw [split offset limit list]
      rw [List.filterMap_append, List.filterMap_append]
    have paged : page offset limit (list.filterMap f) =
        (((page offset limit list).filterMap f ++ (behind offset limit list).filterMap f).drop
          (misses f (before offset list))).take limit := by
      rw [hits, page, List.drop_append, List.drop_of_length_le (by omega), List.nil_append]
      congr 2
      omega
    have pageFull : (behind offset limit list).filterMap f ≠ [] →
        (page offset limit list).length = limit := by
      intro some
      have : offset + limit < list.length := by
        by_contra beyond
        have behindEmpty : behind offset limit list = [] := List.drop_of_length_le (by omega)
        exact some (by rw [behindEmpty, List.filterMap_nil])
      rw [page, List.length_take, List.length_drop]
      omega
    rw [hits] at distinct
    rw [paged, take_drop_eq_iff (List.nodup_append.mp distinct).2.1 (List.length_filterMap_le ..)
      (List.length_take_le ..) pageFull]
    unfold Undisturbed
    rw [misses_eq_zero, length_hits_eq, hits_eq_nil, hits_eq_nil]

end KindDb.Lib.Paging
