import Mathlib

/-! # Overlaying updates on a store

A store is a partial function; an update sets or clears one key.  `overlay`
applies a list of updates in order.  What a key holds afterwards depends on
the last update of the key alone, and on the store below only if there is
none: `overlay_untouched` and `overlay_touched` are the two halves. -/
set_option autoImplicit false

namespace KindDb.Lib.Overlay

variable {Key Value : Type} [DecidableEq Key]

abbrev Update (Key Value : Type) := Key × Option Value

def touched (updates : List (Update Key Value)) : List Key := updates.map Prod.fst

def overlay (store : Key → Option Value) (updates : List (Update Key Value)) :
    Key → Option Value :=
  updates.foldl (fun store update => Function.update store update.1 update.2) store

omit [DecidableEq Key] in
theorem touched_append (first second : List (Update Key Value)) :
    touched (first ++ second) = touched first ++ touched second :=
  List.map_append

@[simp] theorem overlay_nil (store : Key → Option Value) : overlay store [] = store := rfl

theorem overlay_cons (store : Key → Option Value) (update : Update Key Value)
    (rest : List (Update Key Value)) :
    overlay store (update :: rest) = overlay (Function.update store update.1 update.2) rest := rfl

theorem overlay_append (store : Key → Option Value) (first second : List (Update Key Value)) :
    overlay store (first ++ second) = overlay (overlay store first) second :=
  List.foldl_append

theorem overlay_concat (store : Key → Option Value) (updates : List (Update Key Value))
    (update : Update Key Value) :
    overlay store (updates ++ [update]) =
      Function.update (overlay store updates) update.1 update.2 := by
  rw [overlay_append]
  rfl

/-- A key that no update names keeps what it holds. -/
theorem overlay_untouched {updates : List (Update Key Value)} {key : Key}
    (absent : key ∉ touched updates) (store : Key → Option Value) :
    overlay store updates key = store key := by
  induction updates generalizing store with
  | nil => rfl
  | cons update rest ih =>
      simp only [touched, List.map_cons, List.mem_cons, not_or] at absent
      rw [overlay_cons, ih absent.2, Function.update_of_ne absent.1]

/-- Equal below on a key, equal above on it. -/
theorem overlay_congr {store store' : Key → Option Value} {key : Key}
    (updates : List (Update Key Value)) (same : store key = store' key) :
    overlay store updates key = overlay store' updates key := by
  induction updates generalizing store store' with
  | nil => exact same
  | cons update rest ih =>
      rw [overlay_cons, overlay_cons]
      refine ih ?_
      by_cases named : key = update.1
      · subst named
        simp
      · rw [Function.update_of_ne named, Function.update_of_ne named, same]

/-- A key that some update names forgets the store below. -/
theorem overlay_touched {updates : List (Update Key Value)} {key : Key}
    (named : key ∈ touched updates) (store store' : Key → Option Value) :
    overlay store updates key = overlay store' updates key := by
  induction updates generalizing store store' with
  | nil => simp [touched] at named
  | cons update rest ih =>
      rw [overlay_cons, overlay_cons]
      by_cases later : key ∈ touched rest
      · exact ih later _ _
      · have first : key = update.1 := by
          simp only [touched, List.map_cons, List.mem_cons] at named
          exact named.resolve_right later
        refine overlay_congr rest ?_
        simp [first]

/-- Updates of a key by one side only come in any order. -/
theorem overlay_comm {first second : List (Update Key Value)} {key : Key}
    (apart : key ∈ touched first → key ∉ touched second) (store : Key → Option Value) :
    overlay (overlay store first) second key = overlay (overlay store second) first key := by
  by_cases named : key ∈ touched first
  · rw [overlay_untouched (apart named)]
    exact overlay_touched named _ _
  · rw [overlay_untouched named]
    exact overlay_congr second (overlay_untouched named store)

/-- Updates that are there already change nothing when they are replayed with
all that came after them: the last update of a key is the same. -/
theorem overlay_absorbs (store : Key → Option Value) (first second : List (Update Key Value)) :
    overlay (overlay store first) (first ++ second) = overlay store (first ++ second) := by
  funext key
  by_cases named : key ∈ touched (first ++ second)
  · exact overlay_touched named _ _
  · have early : key ∉ touched first := by
      rw [touched_append] at named
      exact fun member => named (List.mem_append_left _ member)
    rw [overlay_untouched named, overlay_untouched named, overlay_untouched early]

/-- With one update for a key, the key holds what that update says. -/
theorem overlay_of_mem {updates : List (Update Key Value)} (distinct : (touched updates).Nodup)
    {key : Key} {value : Option Value} (member : (key, value) ∈ updates)
    (store : Key → Option Value) : overlay store updates key = value := by
  induction updates generalizing store with
  | nil => cases member
  | cons update rest ih =>
      simp only [touched, List.map_cons, List.nodup_cons] at distinct
      rw [overlay_cons]
      rcases List.mem_cons.mp member with same | later
      · subst same
        rw [overlay_untouched distinct.1]
        simp
      · exact ih distinct.2 later _

/-- What a named key holds was put there by some update. -/
theorem mem_of_overlay {updates : List (Update Key Value)} {key : Key}
    (named : key ∈ touched updates) {store : Key → Option Value} {held : Option Value}
    (equal : overlay store updates key = held) : (key, held) ∈ updates := by
  induction updates using List.reverseRecOn with
  | nil => simp [touched] at named
  | append_singleton updates update ih =>
      rw [overlay_concat, Function.update_apply] at equal
      by_cases last : key = update.1
      · rw [if_pos last] at equal
        apply List.mem_append_right
        rw [List.mem_singleton, last, ← equal]
      · rw [if_neg last] at equal
        refine List.mem_append_left _ (ih ?_ equal)
        simpa [touched, last] using named

/-- The order of updates of different keys does not matter. -/
theorem overlay_perm {updates updates' : List (Update Key Value)}
    (distinct : (touched updates).Nodup) (perm : updates.Perm updates')
    (store : Key → Option Value) (key : Key) :
    overlay store updates key = overlay store updates' key := by
  by_cases named : key ∈ touched updates
  · have member : (key, overlay store updates key) ∈ updates := mem_of_overlay named rfl
    have distinct' : (touched updates').Nodup := (perm.map Prod.fst).nodup_iff.mp distinct
    rw [overlay_of_mem distinct' (perm.mem_iff.mp member)]
  · have absent : key ∉ touched updates' := fun named' =>
      named ((perm.map Prod.fst).mem_iff.mpr named')
    rw [overlay_untouched named, overlay_untouched absent]

/-- What a key holds over the empty store was put there by its last update. -/
theorem overlay_eq_some_iff {updates : List (Update Key Value)} {key : Key} {value : Value} :
    overlay (fun _ => none) updates key = some value ↔
      ∃ before after, updates = before ++ (key, some value) :: after ∧ key ∉ touched after := by
  constructor
  · intro held
    induction updates using List.reverseRecOn with
    | nil => cases held
    | append_singleton updates update ih =>
        rw [overlay_concat, Function.update_apply] at held
        by_cases named : key = update.1
        · rw [if_pos named] at held
          exact ⟨updates, [], by rw [named, ← held], by simp [touched]⟩
        · rw [if_neg named] at held
          obtain ⟨before, after, split, absent⟩ := ih held
          refine ⟨before, after ++ [update], by simp [split], ?_⟩
          simpa [touched, named] using absent
  · intro ⟨before, after, split, absent⟩
    rw [split, overlay_append, overlay_cons, overlay_untouched absent, Function.update_self]

variable {Image : Type}

/-- Overlaying commutes with a view of the values. -/
theorem overlay_map (view : Value → Image) (store : Key → Option Value)
    (updates : List (Update Key Value)) (key : Key) :
    (overlay store updates key).map view =
      overlay (fun k => (store k).map view) (updates.map fun u => (u.1, u.2.map view)) key := by
  induction updates generalizing store with
  | nil => rfl
  | cons update rest ih =>
      rw [overlay_cons, ih, List.map_cons, overlay_cons]
      refine overlay_congr _ ?_
      by_cases named : key = update.1
      · subst named
        simp
      · simp [Function.update_of_ne named]

end KindDb.Lib.Overlay
