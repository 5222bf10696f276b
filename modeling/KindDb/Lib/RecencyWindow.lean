import KindDb.Lib.Recency

/-! # Recency lists of different sizes, and what stays in one

A list with more room keeps, of two runs of the same operations, all that the
other one keeps (`Includes`).  An entry leaves a list of `capacity` entries only
when as many other keys have come before it (`Window`). -/
set_option autoImplicit false

namespace KindDb.Lib.Recency

variable {K V : Type} [DecidableEq K]

/-! ## Distinct keys -/

section Distinctness
variable {key : K} {value : V} {entries : List (K × V)}

theorem Distinct.drop (distinct : Distinct entries) (key : K) : Distinct (drop key entries) :=
  distinct.sublist (List.filter_sublist.map _)

theorem not_mem_drop : key ∉ (drop key entries).map Prod.fst := by
  rw [← find_eq_none, find_drop, if_pos rfl]

theorem Distinct.front (distinct : Distinct entries) (key : K) (value : V) :
    Distinct ((key, value) :: Recency.drop key entries) :=
  List.nodup_cons.mpr ⟨not_mem_drop, distinct.drop key⟩

theorem Distinct.touch (distinct : Distinct entries) (key : K) : Distinct (touch key entries) := by
  unfold Recency.touch
  cases find key entries with
  | none => exact distinct
  | some value => exact distinct.front key value

theorem Distinct.store (distinct : Distinct entries) (capacity : Nat) (key : K) (value : V) :
    Distinct (store capacity key value entries) := by
  unfold Recency.store
  cases found : find key entries with
  | some _ => exact distinct.front key value
  | none =>
      have absent := find_eq_none.mp found
      dsimp only
      split
      · refine List.nodup_cons.mpr ⟨fun member => absent ?_,
          distinct.sublist ((List.dropLast_sublist entries).map _)⟩
        exact ((List.dropLast_sublist entries).map Prod.fst).subset member
      · exact List.nodup_cons.mpr ⟨absent, distinct⟩

theorem find_of_mem (distinct : Distinct entries) (member : (key, value) ∈ entries) :
    find key entries = some value := by
  obtain ⟨front, back, rfl⟩ := List.append_of_mem member
  exact find_split distinct

theorem mem_of_find (found : find key entries = some value) : (key, value) ∈ entries := by
  induction entries with
  | nil => cases found
  | cons entry rest ih =>
      rw [find] at found
      split at found
      · rename_i same
        rw [← Option.some.inj found, ← same]
        exact List.mem_cons_self
      · exact List.mem_cons_of_mem _ (ih found)

end Distinctness

/-! ## Two lists of different sizes -/

/-- The large list has at least as much room left, and holds the entries of the
small one in the same order. -/
structure Includes (capacity capacity' : Nat) (small large : List (K × V)) : Prop where
  positive : 0 < capacity'
  fits : large.length ≤ capacity'
  distinct : Distinct large
  sublist : small.Sublist large
  room : capacity - small.length ≤ capacity' - large.length

section Inclusion
variable {capacity capacity' : Nat} {small large : List (K × V)} {key : K} {value : V}

theorem Includes.find (includes : Includes capacity capacity' small large)
    (found : find key small = some value) : find key large = some value :=
  find_of_mem includes.distinct (includes.sublist.subset (mem_of_find found))

theorem length_drop_of_find {entries : List (K × V)} (distinct : Distinct entries)
    (found : Recency.find key entries = some value) :
    (drop key entries).length + 1 = entries.length := by
  obtain ⟨front, back, rfl⟩ := List.append_of_mem (mem_of_find found)
  rw [drop_split distinct, List.length_append, List.length_append, List.length_cons]
  omega

theorem sublist_drop (sublist : small.Sublist large) (key : K) :
    (drop key small).Sublist (drop key large) := sublist.filter _

/-- An entry that only the large list has is not in the way. -/
theorem sublist_drop_of_absent (sublist : small.Sublist large)
    (absent : Recency.find key small = none) : small.Sublist (drop key large) := by
  rw [← drop_of_absent (find_eq_none.mp absent)]
  exact sublist_drop sublist key

theorem dropLast_sublist_dropLast {α : Type} {first second : List α}
    (sublist : first.Sublist second) : first.dropLast.Sublist second.dropLast := by
  rcases List.eq_nil_or_concat first with rfl | ⟨front, last, rfl⟩
  · exact List.nil_sublist _
  · rcases List.eq_nil_or_concat second with rfl | ⟨front', last', rfl⟩
    · exact absurd (List.sublist_nil.mp sublist) (by simp)
    · rw [List.concat_eq_append, List.concat_eq_append] at sublist
      rw [List.concat_eq_append, List.concat_eq_append, List.dropLast_concat, List.dropLast_concat]
      have reversed := sublist.reverse
      rw [List.reverse_concat, List.reverse_concat] at reversed
      exact List.reverse_sublist.mp reversed.tail

omit [DecidableEq K] in
theorem Includes.distinct_small (includes : Includes capacity capacity' small large) :
    Distinct small := includes.distinct.sublist (includes.sublist.map _)

/-- The entry of the key comes to the front of both lists. -/
theorem Includes.refresh (includes : Includes capacity capacity' small large) {held : V}
    (found : Recency.find key small = some held) (value : V) :
    Includes capacity capacity' ((key, value) :: drop key small)
      ((key, value) :: drop key large) := by
  have smaller := length_drop_of_find includes.distinct_small found
  have larger := length_drop_of_find includes.distinct (includes.find found)
  obtain ⟨positive, fits, distinct, sublist, room⟩ := includes
  exact ⟨positive, by rw [List.length_cons]; omega, distinct.front key value,
    (sublist_drop sublist key).cons_cons _, by rw [List.length_cons, List.length_cons]; omega⟩

theorem Includes.touch (includes : Includes capacity capacity' small large) (key : K) :
    Includes capacity capacity' (touch key small) (touch key large) := by
  unfold Recency.touch
  cases found : Recency.find key small with
  | some value =>
      rw [includes.find found]
      exact includes.refresh found value
  | none =>
      obtain ⟨positive, fits, distinct, sublist, room⟩ := includes
      cases found' : Recency.find key large with
      | none => exact ⟨positive, fits, distinct, sublist, room⟩
      | some value =>
          have larger := length_drop_of_find distinct found'
          refine ⟨positive, by rw [List.length_cons]; omega, distinct.front key value,
            (sublist_drop_of_absent sublist found).cons _, ?_⟩
          rw [List.length_cons, larger]
          exact room

theorem Includes.store (includes : Includes capacity capacity' small large) (key : K) (value : V) :
    Includes capacity capacity' (store capacity key value small)
      (store capacity' key value large) := by
  have distinct' := includes.distinct.store capacity' key value
  unfold Recency.store at distinct' ⊢
  cases found : Recency.find key small with
  | some held =>
      rw [includes.find found]
      exact includes.refresh found value
  | none =>
      obtain ⟨positive, fits, distinct, sublist, room⟩ := includes
      have shorter : small.dropLast.length = small.length - 1 := List.length_dropLast
      have shorter' : large.dropLast.length = large.length - 1 := List.length_dropLast
      cases found' : Recency.find key large with
      | some held =>
          rw [found'] at distinct'
          have larger := length_drop_of_find distinct found'
          have kept := sublist_drop_of_absent sublist found
          dsimp only at distinct' ⊢
          split
          · exact ⟨positive, by rw [List.length_cons]; omega, distinct',
              ((List.dropLast_sublist small).trans kept).cons_cons _,
              by rw [List.length_cons, List.length_cons]; omega⟩
          · exact ⟨positive, by rw [List.length_cons]; omega, distinct', kept.cons_cons _,
              by rw [List.length_cons, List.length_cons]; omega⟩
      | none =>
          rw [found'] at distinct'
          dsimp only at distinct' ⊢
          by_cases full' : capacity' ≤ large.length
          · -- a full large list leaves no room in the small one
            have full : capacity ≤ small.length := by omega
            rw [if_pos full, if_pos full']
            rw [if_pos full'] at distinct'
            exact ⟨positive, by rw [List.length_cons]; omega, distinct',
              (dropLast_sublist_dropLast sublist).cons_cons _,
              by rw [List.length_cons, List.length_cons]; omega⟩
          · rw [if_neg full']
            rw [if_neg full'] at distinct'
            split
            · exact ⟨positive, by rw [List.length_cons]; omega, distinct',
                ((List.dropLast_sublist small).trans sublist).cons_cons _,
                by rw [List.length_cons, List.length_cons]; omega⟩
            · exact ⟨positive, by rw [List.length_cons]; omega, distinct', sublist.cons_cons _,
                by rw [List.length_cons, List.length_cons]; omega⟩

theorem Includes.drop (includes : Includes capacity capacity' small large) (key : K) :
    Includes capacity capacity' (drop key small) (drop key large) := by
  have distinctSmall := includes.distinct_small
  have found : ∀ value, Recency.find key small = some value → Recency.find key large = some value :=
    fun _ => includes.find
  obtain ⟨positive, fits, distinct, sublist, room⟩ := includes
  have fits' : (Recency.drop key large).length ≤ large.length := List.length_filter_le _ _
  refine ⟨positive, fits'.trans fits, distinct.drop key, sublist_drop sublist key, ?_⟩
  cases held : Recency.find key small with
  | some value =>
      have smaller := length_drop_of_find distinctSmall held
      have larger := length_drop_of_find distinct (found value held)
      omega
  | none =>
      rw [drop_of_absent (find_eq_none.mp held)]
      omega

end Inclusion

/-! ## What stays -/

/-- The entry is in the list, and only keys seen since are before it. -/
def Window (seen : Finset K) (key : K) (value : V) (entries : List (K × V)) : Prop :=
  Distinct entries ∧ ∃ front back, entries = front ++ (key, value) :: back ∧
    ∀ entry ∈ front, entry.1 ∈ seen

section Windows
variable {capacity : Nat} {seen : Finset K} {key : K} {value : V} {entries : List (K × V)}

theorem Window.find (window : Window seen key value entries) :
    find key entries = some value := by
  obtain ⟨distinct, front, back, rfl, _⟩ := window
  exact find_split distinct

theorem window_store (distinct : Distinct entries) (capacity : Nat) (seen : Finset K) :
    Window seen key value (store capacity key value entries) := by
  refine ⟨distinct.store capacity key value, ?_⟩
  unfold store
  cases find key entries with
  | some _ => exact ⟨[], _, rfl, fun _ member => (by cases member)⟩
  | none =>
      dsimp only
      split <;> exact ⟨[], _, rfl, fun _ member => (by cases member)⟩

theorem Window.drop (window : Window seen key value entries) {other : K} (differs : other ≠ key) :
    Window seen key value (drop other entries) := by
  obtain ⟨distinct, front, back, rfl, before⟩ := window
  refine ⟨distinct.drop other, Recency.drop other front, Recency.drop other back, ?_,
    fun entry member => before entry (List.mem_of_mem_filter member)⟩
  simp [Recency.drop, List.filter_append, Ne.symm differs]

/-- Another entry comes to the front. -/
theorem Window.front (window : Window seen key value entries) {other : K} (differs : other ≠ key)
    (new : V) :
    Window (insert other seen) key value ((other, new) :: Recency.drop other entries) := by
  obtain ⟨distinct, front, back, split, before⟩ := window.drop differs
  refine ⟨window.1.front other new, (other, new) :: front, back, by rw [split]; rfl, ?_⟩
  intro entry member
  rcases List.mem_cons.mp member with rfl | later
  · exact Finset.mem_insert_self _ _
  · exact Finset.mem_insert_of_mem (before entry later)

omit [DecidableEq K] in
theorem Window.mono (window : Window seen key value entries) {more : Finset K}
    (grown : seen ⊆ more) : Window more key value entries := by
  obtain ⟨distinct, front, back, split, before⟩ := window
  exact ⟨distinct, front, back, split, fun entry member => grown (before entry member)⟩

theorem Window.touch (window : Window seen key value entries) (other : K) :
    Window (insert other seen) key value (touch other entries) := by
  unfold Recency.touch
  by_cases differs : other = key
  · subst differs
    rw [window.find]
    exact ⟨window.1.front other value, [], _, rfl, fun _ member => (by cases member)⟩
  · cases Recency.find other entries with
    | none => exact window.mono (Finset.subset_insert ..)
    | some new => exact window.front differs new

/-- Storing another key pushes the entry out only if as many keys as the list
holds have been seen since. -/
theorem Window.store (window : Window seen key value entries) {other : K} (differs : other ≠ key)
    (new : V) (few : (insert other seen).card < capacity) :
    Window (insert other seen) key value (store capacity other new entries) := by
  have distinct' := window.1.store capacity other new
  unfold Recency.store at distinct' ⊢
  cases found : Recency.find other entries with
  | some _ => exact window.front differs new
  | none =>
      rw [found] at distinct'
      dsimp only at distinct' ⊢
      obtain ⟨distinct, front, back, rfl, before⟩ := window
      have seenFront : ∀ entry ∈ (other, new) :: front, entry.1 ∈ insert other seen := by
        intro entry member
        rcases List.mem_cons.mp member with rfl | later
        · exact Finset.mem_insert_self _ _
        · exact Finset.mem_insert_of_mem (before entry later)
      split
      · rename_i full
        rw [if_pos full] at distinct'
        rcases List.eq_nil_or_concat back with rfl | ⟨rest, last, rfl⟩
        · -- the keys before the entry and the new one fill the list
          have keys : (((other, new) :: front).map Prod.fst).toFinset ⊆ insert other seen := by
            intro k member
            obtain ⟨entry, listed, rfl⟩ := List.mem_map.mp (List.mem_toFinset.mp member)
            exact seenFront entry listed
          have several : (((other, new) :: front).map Prod.fst).Nodup := by
            rwa [List.dropLast_concat] at distinct'
          have counted := Finset.card_le_card keys
          rw [List.toFinset_card_of_nodup several, List.length_map, List.length_cons] at counted
          rw [List.length_append, List.length_singleton] at full
          omega
        · refine ⟨distinct', (other, new) :: front, rest, ?_, seenFront⟩
          rw [List.concat_eq_append, ← List.cons_append, ← List.append_assoc,
            List.dropLast_concat]
          rfl
      · rename_i room
        rw [if_neg room] at distinct'
        exact ⟨distinct', (other, new) :: front, back, rfl, seenFront⟩

end Windows

end KindDb.Lib.Recency
