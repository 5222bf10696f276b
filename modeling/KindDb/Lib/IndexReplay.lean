import KindDb.Lib.Overlay
import KindDb.Lib.PostingIndex

/-! # Rebuilding an index from a list of updates

A store and its index are rebuilt side by side: a removed value is unfiled, an
overwritten one is not.  `exact_replay_iff` is the exact price of that
shortcut: the index is right at the end exactly if no update clobbers a term,
that is, overwrites a value that carries it and is not followed by a value of
the same key that carries it again. -/
set_option autoImplicit false

namespace KindDb.Lib.IndexReplay

open Std KindDb.Lib KindDb.Lib.Overlay KindDb.Lib.PostingIndex

section Clobbering
variable {Term Key Value : Type} [DecidableEq Key] (termsOf : Key → Value → List Term)

/-- The last update of `key` is a put of a value that carries `term`. -/
def Carries (updates : List (Update Key Value)) (key : Key) (term : Term) : Prop :=
  ∃ before value after, updates = before ++ (key, some value) :: after ∧ key ∉ touched after ∧
    term ∈ termsOf key value

/-- A value that carries `term` is overwritten, and neither the value put over
it nor any value put later under the key carries it. -/
def Clobbers (updates : List (Update Key Value)) (key : Key) (term : Term) : Prop :=
  ∃ before new after, updates = before ++ (key, some new) :: after ∧
    Carries termsOf before key term ∧
    ∀ value, (key, some value) ∈ (key, some new) :: after → term ∉ termsOf key value

variable {termsOf} {updates : List (Update Key Value)} {key : Key} {term : Term}

theorem carries_iff : Carries termsOf updates key term ↔
    ∃ value, overlay (fun _ => none) updates key = some value ∧ term ∈ termsOf key value := by
  simp only [overlay_eq_some_iff, Carries]
  constructor
  · intro ⟨before, value, after, split, absent, carried⟩
    exact ⟨value, ⟨before, after, split, absent⟩, carried⟩
  · intro ⟨value, ⟨before, after, split, absent⟩, carried⟩
    exact ⟨before, value, after, split, absent, carried⟩

theorem carries_concat_other {u : Update Key Value} (other : u.1 ≠ key) :
    Carries termsOf (updates ++ [u]) key term ↔ Carries termsOf updates key term := by
  rw [carries_iff, carries_iff, overlay_concat, Function.update_of_ne (Ne.symm other)]

theorem carries_concat_put {value : Value} :
    Carries termsOf (updates ++ [(key, some value)]) key term ↔ term ∈ termsOf key value := by
  rw [carries_iff, overlay_concat, Function.update_self]
  simp

theorem carries_concat_delete : ¬ Carries termsOf (updates ++ [(key, none)]) key term := by
  rw [carries_iff, overlay_concat, Function.update_self]
  simp

omit [DecidableEq Key] in
/-- An update that is no put of the key clobbers nothing and repairs nothing. -/
theorem clobbers_concat_other {u : Update Key Value} (other : ∀ value, u ≠ (key, some value)) :
    Clobbers termsOf (updates ++ [u]) key term ↔ Clobbers termsOf updates key term := by
  constructor
  · intro clobbers
    obtain ⟨before, new, after, split, carried, gone⟩ := clobbers
    rcases List.eq_nil_or_concat' after with rfl | ⟨initial, last, rfl⟩
    · have same := (List.append_inj' split rfl).2
      exact absurd (List.singleton_inj.mp same) (other new)
    · rw [← List.cons_append, ← List.append_assoc] at split
      obtain ⟨splitInit, _⟩ := List.append_inj' split rfl
      refine ⟨before, new, initial, splitInit, carried, fun value member => gone value ?_⟩
      rw [← List.cons_append]
      exact List.mem_append_left _ member
  · intro clobbers
    obtain ⟨before, new, after, split, carried, gone⟩ := clobbers
    refine ⟨before, new, after ++ [u], by simp [split], carried, fun value member => ?_⟩
    rw [← List.cons_append] at member
    rcases List.mem_append.mp member with early | last
    · exact gone value early
    · exact absurd (List.mem_singleton.mp last).symm (other value)

omit [DecidableEq Key] in
theorem clobbers_concat_put {new : Value} :
    Clobbers termsOf (updates ++ [(key, some new)]) key term ↔
      term ∉ termsOf key new ∧
        (Clobbers termsOf updates key term ∨ Carries termsOf updates key term) := by
  constructor
  · intro clobbers
    obtain ⟨before, first, after, split, carried, gone⟩ := clobbers
    rcases List.eq_nil_or_concat' after with rfl | ⟨initial, last, rfl⟩
    · obtain ⟨rfl, same⟩ := List.append_inj' split rfl
      cases same
      exact ⟨gone new (List.mem_cons_self ..), Or.inr carried⟩
    · rw [← List.cons_append, ← List.append_assoc] at split
      obtain ⟨splitInit, same⟩ := List.append_inj' split rfl
      cases same
      refine ⟨gone new (by simp), Or.inl ⟨before, first, initial, splitInit, carried, ?_⟩⟩
      intro value member
      apply gone value
      rw [← List.cons_append]
      exact List.mem_append_left _ member
  · intro ⟨absent, either⟩
    rcases either with ⟨before, first, after, split, carried, gone⟩ | carried
    · refine ⟨before, first, after ++ [(key, some new)], by simp [split], carried, ?_⟩
      intro value member
      rw [← List.cons_append] at member
      rcases List.mem_append.mp member with early | last
      · exact gone value early
      · cases List.mem_singleton.mp last
        exact absent
    · refine ⟨updates, new, [], rfl, carried, fun value member => ?_⟩
      cases List.mem_singleton.mp member
      exact absent

omit [DecidableEq Key] in
/-- With one update for a key nothing is overwritten. -/
theorem not_clobbers_of_distinct (distinct : (touched updates).Nodup) :
    ¬ Clobbers termsOf updates key term := by
  intro ⟨before, new, after, split, ⟨early, value, between, first, _⟩, _⟩
  rw [split, touched_append] at distinct
  have inBefore : key ∈ touched before := by
    rw [first, touched_append]
    exact List.mem_append_right _ List.mem_cons_self
  exact (List.nodup_append.mp distinct).2.2 key inBefore key List.mem_cons_self rfl

theorem not_carries_of_clobbers (clobbers : Clobbers termsOf updates key term) :
    ¬ Carries termsOf updates key term := by
  induction updates using List.reverseRecOn with
  | nil =>
      obtain ⟨before, new, after, split, _⟩ := clobbers
      simp at split
  | append_singleton updates u ih =>
      obtain ⟨k, held⟩ := u
      by_cases same : k = key
      · subst same
        cases held with
        | none => exact carries_concat_delete
        | some new =>
            rw [carries_concat_put]
            exact (clobbers_concat_put.mp clobbers).1
      · rw [carries_concat_other same]
        exact ih ((clobbers_concat_other fun value equal => same (congrArg Prod.fst equal)).mp
          clobbers)

end Clobbering

section Replay
variable {Term Key Value : Type} [Ord Term] [TransOrd Term] [Ord Key] [TransOrd Key]
  [DecidableEq Key] (termsOf : Key → Value → List Term)

abbrev Built (Term Key Value : Type) [Ord Term] [Ord Key] :=
  (Key → Option Value) × PostingIndex Term Key

def replayUpdate (st : Built Term Key Value) (u : Update Key Value) : Built Term Key Value :=
  (Function.update st.1 u.1 u.2,
    match u.2, st.1 u.1 with
    | some value, _ => fileAll st.2 (termsOf u.1 value) u.1
    | none, some old => unfileAll st.2 (termsOf u.1 old) u.1
    | none, none => st.2)

def replay (st : Built Term Key Value) (updates : List (Update Key Value)) : Built Term Key Value :=
  updates.foldl (replayUpdate termsOf) st

def start : Built Term Key Value := (fun _ => none, ∅)

theorem replay_append (st : Built Term Key Value) (first second : List (Update Key Value)) :
    replay termsOf st (first ++ second) = replay termsOf (replay termsOf st first) second :=
  List.foldl_append

variable {termsOf}

theorem replay_store (st : Built Term Key Value) (updates : List (Update Key Value)) :
    (replay termsOf st updates).1 = overlay st.1 updates := by
  induction updates generalizing st with
  | nil => rfl
  | cons u rest ih => exact ih (replayUpdate termsOf st u)

variable [LawfulEqOrd Term] [DecidableEq Term] [LawfulEqOrd Key]
  {updates : List (Update Key Value)} {key : Key} {term : Term}

theorem indexed_replay_iff :
    Indexed (replay termsOf start updates).2 term key ↔
      Carries termsOf updates key term ∨ Clobbers termsOf updates key term := by
  induction updates using List.reverseRecOn with
  | nil =>
      have nothing : ¬ Clobbers termsOf [] key term := by
        intro ⟨before, new, after, split, _⟩
        simp at split
      simp [replay, start, carries_iff, nothing]
  | append_singleton updates u ih =>
      obtain ⟨k, held⟩ := u
      have store : (replay termsOf start updates).1 = overlay (fun _ => none) updates :=
        replay_store start updates
      have last : replay termsOf start (updates ++ [(k, held)]) =
          replayUpdate termsOf (replay termsOf start updates) (k, held) := by
        rw [replay_append]
        rfl
      rw [last]
      by_cases same : k = key
      · subst same
        cases held with
        | some new =>
            simp only [replayUpdate]
            rw [indexed_fileAll, ih, carries_concat_put, clobbers_concat_put]
            tauto
        | none =>
            rw [clobbers_concat_other (by simp), or_iff_right carries_concat_delete]
            simp only [replayUpdate, store]
            have excluded : Clobbers termsOf updates k term → ¬ Carries termsOf updates k term :=
              not_carries_of_clobbers
            cases found : overlay (fun _ => none) updates k with
            | none =>
                have free : ¬ Carries termsOf updates k term := by
                  intro carried
                  obtain ⟨value, held, _⟩ := carries_iff.mp carried
                  have : some value = none := held.symm.trans found
                  cases this
                rw [ih, or_iff_right free]
            | some old =>
                have carried : Carries termsOf updates k term ↔ term ∈ termsOf k old := by
                  rw [carries_iff]
                  rw [show overlay (fun _ => none) updates k = some old from found]
                  simp
                rw [indexed_unfileAll, ih, carried]
                rw [carried] at excluded
                tauto
      · have otherKey : ∀ value, (k, held) ≠ (key, some value) :=
          fun value equal => same (congrArg Prod.fst equal)
        rw [carries_concat_other same, clobbers_concat_other otherKey, ← ih]
        simp only [replayUpdate]
        split
        · rw [indexed_fileAll, or_iff_left fun both => same both.1]
        · rw [indexed_unfileAll, and_iff_left fun both => same both.1]
        · rfl

theorem exact_replay_iff :
    Exact termsOf (replay termsOf start updates).1 (replay termsOf start updates).2 ↔
      ∀ key term, ¬ Clobbers termsOf updates key term := by
  unfold Exact
  rw [replay_store]
  have stated : ∀ (t : Term) (k : Key),
      ((Indexed (replay termsOf start updates).2 t k ↔
        ∃ value, overlay (start : Built Term Key Value).1 updates k = some value ∧ t ∈ termsOf k value) ↔
      ¬ Clobbers termsOf updates k t) := by
    intro t k
    have excluded : Clobbers termsOf updates k t → ¬ Carries termsOf updates k t :=
      not_carries_of_clobbers
    rw [indexed_replay_iff]
    rw [carries_iff] at excluded ⊢
    constructor
    · intro same clobbers
      exact excluded clobbers (same.mp (Or.inr clobbers))
    · exact fun none => or_iff_left none
  simp only [stated]
  exact forall_comm

end Replay

end KindDb.Lib.IndexReplay
