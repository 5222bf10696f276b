import KindDb.Cache.LruRuns
import KindDb.Lib.RecencyWindow

/-! # LRU caches of different sizes

Of two LRU caches that are given the same operations the larger one answers
whatever the smaller one does, invalidations included; and a value stays as
long as fewer other keys than the capacity are named. -/
set_option autoImplicit false

namespace KindDb.Cache.LruInner

open KindDb.Lib KindDb.Lib.Runs KindDb.Lib.Refinement KindDb.Lib.Recency Std

section Lists
variable {K V : Type} [DecidableEq K] {capacity capacity' : Nat} {small large : List (K × V)}

/-- Whatever the first one finds, the second one finds. -/
def Hits (first second : CacheAnswer V) : Prop :=
  ∀ value, first = .got (some value) → second = .got (some value)

theorem includes_step (includes : Includes capacity capacity' small large) (op : CacheOp K V) :
    Hits (recent capacity small op).1 (recent capacity' large op).1 ∧
      Includes capacity capacity' (recent capacity small op).2 (recent capacity' large op).2 := by
  cases op with
  | get key =>
      refine ⟨fun value found => ?_, includes.touch key⟩
      rw [recent, includes.find (CacheAnswer.got.inj found)]
  | put key value => exact ⟨fun _ found => (by cases found), includes.store key value⟩
  | invalidate key => exact ⟨fun _ found => (by cases found), includes.drop key⟩

theorem includes_run (includes : Includes capacity capacity' small large)
    (ops : List (CacheOp K V)) :
    List.Forall₂ Hits (answers (recent capacity) small ops) (answers (recent capacity') large ops) ∧
      Includes capacity capacity' (after (recent capacity) small ops)
        (after (recent capacity') large ops) := by
  induction ops generalizing small large with
  | nil => exact ⟨.nil, includes⟩
  | cons op rest ih =>
      obtain ⟨hits, next⟩ := includes_step includes op
      obtain ⟨later, final⟩ := ih next
      exact ⟨.cons hits later, final⟩

theorem distinct_run {entries : List (K × V)} (distinct : Distinct entries)
    (ops : List (CacheOp K V)) : Distinct (after (recent capacity) entries ops) := by
  refine run_invariant_of_forall (fun entries op distinct => ?_) ops entries distinct
  cases op with
  | get key => exact distinct.touch key
  | put key value => exact distinct.store capacity key value
  | invalidate key => exact distinct.drop key

/-- The keys other than `key` that the operations name. -/
def others (key : K) (ops : List (CacheOp K V)) : Finset K :=
  ((ops.map CacheOp.key).toFinset).erase key

theorem window_run {seen : Finset K} {key : K} {value : V} {entries : List (K × V)}
    (window : Window seen key value entries) {ops : List (CacheOp K V)}
    (untouched : ∀ op ∈ ops, op.key = key → op = .get key)
    (few : (seen ∪ others key ops).card < capacity) :
    Window (seen ∪ others key ops) key value (after (recent capacity) entries ops) := by
  induction ops generalizing seen entries with
  | nil => exact window.mono Finset.subset_union_left
  | cons op rest ih =>
      have here := untouched op List.mem_cons_self
      have later : ∀ op ∈ rest, op.key = key → op = .get key :=
        fun op member => untouched op (List.mem_cons_of_mem _ member)
      by_cases same : op.key = key
      · have named : others key (op :: rest) = others key rest := by
          simp [others, same]
        rw [named] at few ⊢
        rw [here same]
        have touched : Window seen key value (touch key entries) := by
          unfold touch
          rw [window.find]
          exact ⟨window.1.front key value, [], _, rfl, fun _ member => (by cases member)⟩
        exact ih touched later few
      · have named : seen ∪ others key (op :: rest) = insert op.key seen ∪ others key rest := by
          ext k
          simp only [others, List.map_cons, List.toFinset_cons, Finset.mem_union,
            Finset.mem_erase, Finset.mem_insert]
          constructor
          · rintro (old | ⟨differs, rfl | new⟩)
            · exact Or.inl (Or.inr old)
            · exact Or.inl (Or.inl rfl)
            · exact Or.inr ⟨differs, new⟩
          · rintro ((rfl | old) | ⟨differs, new⟩)
            · exact Or.inr ⟨same, Or.inl rfl⟩
            · exact Or.inl old
            · exact Or.inr ⟨differs, Or.inr new⟩
        rw [named] at few ⊢
        refine ih ?_ later few
        cases op with
        | get other => exact window.touch other
        | put other new =>
            exact window.store same new
              ((Finset.card_le_card Finset.subset_union_left).trans_lt few)
        | invalidate other => exact (window.drop same).mono (Finset.subset_insert ..)

end Lists

section Arenas
variable {K V : Type} [Ord K] [TransOrd K] [LawfulEqOrd K] [DecidableEq K]

/-- A larger LRU cache finds all that a smaller one finds in the same run. -/
theorem larger_hits {small large : Nat} (positive : 0 < small) (wider : small ≤ large)
    (ops : List (CacheOp K V)) :
    ∃ answered final answered' final',
      answersFrom take (new small) ops = some (answered, final) ∧
      answersFrom take (new large) ops = some (answered', final') ∧
      List.Forall₂ Hits answered answered' ∧
      ∃ entries entries', final.walked = some entries ∧ final'.walked = some entries' ∧
        entries.Sublist entries' := by
  have positive' : 0 < large := positive.trans_le wider
  obtain ⟨final, ran, walked⟩ := answers_recent positive ops
  obtain ⟨final', ran', walked'⟩ := answers_recent positive' ops
  have empty : Includes small large ([] : List (K × V)) [] :=
    ⟨positive', Nat.zero_le _, List.nodup_nil, List.Sublist.refl _, wider⟩
  obtain ⟨hits, includes⟩ := includes_run empty ops
  exact ⟨_, final, _, final', ran, ran', hits, _, _, walked, walked', includes.sublist⟩

theorem larger_hits_two :
    ∃ answered final answered' final',
      answersFrom take (new 1) [.put 1 "A", .put 2 "B", .get 1, .invalidate 2, .get 2] =
        some (answered, final) ∧
      answersFrom take (new 2) [.put 1 "A", .put 2 "B", .get 1, .invalidate 2, .get 2] =
        some (answered', final') ∧
      List.Forall₂ Hits answered answered' ∧
      ∃ entries entries', final.walked = some entries ∧ final'.walked = some entries' ∧
        entries.Sublist entries' :=
  larger_hits (by decide) (by decide) [.put 1 "A", .put 2 "B", .get 1, .invalidate 2, .get 2]

/-- A value that was put, and is not put again or invalidated, is found as long
as fewer other keys than the capacity have been named since. -/
theorem put_stays {capacity : Nat} (positive : 0 < capacity) (before later : List (CacheOp K V))
    (key : K) (value : V) (untouched : ∀ op ∈ later, op.key = key → op = .get key)
    (few : (others key later).card < capacity) :
    ∃ answered final,
      answersFrom take (new capacity) (before ++ .put key value :: (later ++ [.get key])) =
        some (answered ++ [.got (some value)], final) := by
  obtain ⟨final, ran, _⟩ := answers_recent positive
    (before ++ .put key value :: (later ++ [.get key]))
  have empty : Distinct ([] : List (K × V)) := List.nodup_nil
  have distinct : Distinct (after (recent capacity) ([] : List (K × V)) before) :=
    distinct_run empty before
  have stored : Window ∅ key value
      (store capacity key value (after (recent capacity) [] before)) :=
    window_store distinct capacity ∅
  have window := window_run stored untouched (by rwa [Finset.empty_union])
  have reached : after (recent capacity) ([] : List (K × V)) (before ++ .put key value :: later) =
      after (recent capacity) (store capacity key value (after (recent capacity) [] before))
        later := run_append ..
  have listed : before ++ .put key value :: (later ++ [.get key]) =
      (before ++ .put key value :: later) ++ [CacheOp.get key] := by simp
  refine ⟨answers (recent capacity) [] (before ++ .put key value :: later), final, ?_⟩
  rw [ran, listed, answers_append, reached, answers, answers, recent, window.find]

theorem put_stays_two :
    ∃ answered final, answersFrom take (new 2)
        ([.put 3 "C"] ++ .put 1 "A" :: ([.put 2 "B", .get 1, .put 2 "D"] ++ [.get 1])) =
      some (answered ++ [.got (some "A")], final) :=
  put_stays (by decide) [.put 3 "C"] [.put 2 "B", .get 1, .put 2 "D"] 1 "A" (by decide) (by decide)

end Arenas

end KindDb.Cache.LruInner
