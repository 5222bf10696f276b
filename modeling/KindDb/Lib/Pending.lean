import KindDb.Lib.Overlay

/-! # Two stores behind the same writers

A writer brings each of its updates to two stores, to each in its own time.
`Balanced` says for one key what holds as long as some of the updates are still
under way to the first store and some to the second: once both have arrived the
stores agree (`settles`), and where neither has arrived they agree already
(`untouched`).  Each delivery keeps it; it survives that the first store is
replaced by a copy of the second exactly if the copy misses nothing
(`Balanced.capture`).

`InStep` is the like for a key that several writers update, most of them the
first store first: as long as they come to the second store in the order in
which they came to the first, the stores agree when nobody is half through. -/
set_option autoImplicit false

namespace KindDb.Lib.Pending

open KindDb.Lib.Overlay

variable {Key Value : Type} [DecidableEq Key]

structure Balanced (first second : Key → Option Value) (toFirst toSecond : List (Update Key Value))
    (key : Key) : Prop where
  settles : overlay first toFirst key = overlay second toSecond key
  untouched : key ∈ touched toFirst → key ∈ touched toSecond → first key = second key

variable {first second first' second' : Key → Option Value}
  {toFirst toSecond updates arrived : List (Update Key Value)} {key : Key}

theorem balanced_nil_iff : Balanced first second [] [] key ↔ first key = second key :=
  ⟨fun balanced => balanced.settles, fun same => ⟨same, fun _ _ => same⟩⟩

namespace Balanced

/-- A writer that has delivered nothing yet. -/
theorem start (same : first key = second key) (updates : List (Update Key Value)) :
    Balanced first second updates updates key :=
  ⟨overlay_congr updates same, fun _ _ => same⟩

theorem symm (balanced : Balanced first second toFirst toSecond key) :
    Balanced second first toSecond toFirst key :=
  ⟨balanced.settles.symm, fun inSecond inFirst => (balanced.untouched inFirst inSecond).symm⟩

theorem congr (balanced : Balanced first second toFirst toSecond key)
    (sameFirst : first' key = first key) (sameSecond : second' key = second key) :
    Balanced first' second' toFirst toSecond key := by
  refine ⟨?_, fun inFirst inSecond => ?_⟩
  · rw [overlay_congr toFirst sameFirst, overlay_congr toSecond sameSecond, balanced.settles]
  · rw [sameFirst, sameSecond, balanced.untouched inFirst inSecond]

/-- Updates arrive at the first store. -/
theorem deliver (balanced : Balanced first second (arrived ++ toFirst) toSecond key)
    (distinct : (touched (arrived ++ toFirst)).Nodup) :
    Balanced (overlay first arrived) second toFirst toSecond key := by
  refine ⟨?_, fun inFirst inSecond => ?_⟩
  · rw [← overlay_append]
    exact balanced.settles
  · rw [touched, List.map_append] at distinct
    have notArrived : key ∉ touched arrived := fun inArrived =>
      (List.nodup_append.mp distinct).2.2 key inArrived key inFirst rfl
    rw [overlay_untouched notArrived]
    refine balanced.untouched ?_ inSecond
    rw [touched, List.map_append]
    exact List.mem_append_right _ inFirst

/-- Updates arrive at the second store. -/
theorem deliverSecond (balanced : Balanced first second toFirst (arrived ++ toSecond) key)
    (distinct : (touched (arrived ++ toSecond)).Nodup) :
    Balanced first (overlay second arrived) toFirst toSecond key :=
  (balanced.symm.deliver distinct).symm

/-- A writer that has delivered nothing gives up. -/
theorem abandon (balanced : Balanced first second toFirst toSecond key)
    (inFirst : key ∈ touched toFirst) (inSecond : key ∈ touched toSecond) :
    Balanced first second [] [] key :=
  balanced_nil_iff.mpr (balanced.untouched inFirst inSecond)

/-- The first store becomes a copy of the second, which has everything that is
no longer under way to the first. -/
theorem capture (balanced : Balanced first second toFirst toSecond key)
    (complete : key ∉ touched toFirst → overlay second toSecond key = second key) :
    Balanced second second toFirst toSecond key := by
  refine ⟨?_, fun _ _ => rfl⟩
  by_cases inFirst : key ∈ touched toFirst
  · rw [overlay_touched inFirst second first]
    exact balanced.settles
  · rw [overlay_untouched inFirst, complete inFirst]

end Balanced

/-! ## Several writers of one key -/

/-- Where a writer is with the key: as far with the one store as with the other,
or with the first but not the second, or with the second but not the first. -/
inductive Stage (Value : Type)
  | level
  | toSecond (number : Nat) (value : Option Value)
  | toFirst (value : Option Value)

section Writers
variable {Writer : Type}

/-- Values come to the second store in the order of their numbers, in which they
came to the first; what comes to the second store first is a removal, and does
not meet with any of these. -/
structure InStep (first second : Option Value) (stage : Writer → Stage Value) : Prop where
  oneWay : ∀ i j n v w, stage i = .toSecond n v → stage j ≠ .toFirst w
  distinct : ∀ i j n v w, stage i = .toSecond n v → stage j = .toSecond n w → i = j
  newest : ∀ i n v, stage i = .toSecond n v → ∃ j m, stage j = .toSecond m first ∧
    ∀ k n v, stage k = .toSecond n v → n ≤ m
  removal : ∀ i v, stage i = .toFirst v → v = none ∧ second = none
  agree : (∀ i, stage i = .level) → first = second

theorem inStep_level {first second : Option Value} (same : first = second) :
    InStep first second fun _ : Writer => .level :=
  ⟨fun _ _ _ _ _ here => (by cases here), fun _ _ _ _ _ here => (by cases here),
    fun _ _ _ here => (by cases here), fun _ _ here => (by cases here), fun _ => same⟩

namespace InStep
variable [DecidableEq Writer] {first second value : Option Value} {stage : Writer → Stage Value}
  {i : Writer} {number : Nat}

/-- A writer that stands somewhere after a move of `i` is `i`, or stood there before. -/
theorem stage_moved {moved place : Stage Value} {j : Writer}
    (here : Function.update stage i moved j = place) :
    (j = i ∧ moved = place) ∨ (j ≠ i ∧ stage j = place) := by
  by_cases mine : j = i
  · subst mine
    rw [Function.update_self] at here
    exact Or.inl ⟨rfl, here⟩
  · rw [Function.update_of_ne mine] at here
    exact Or.inr ⟨mine, here⟩

/-- A value comes to the first store. -/
theorem arrive (inStep : InStep first second stage)
    (noRemoval : ∀ j w, stage j ≠ .toFirst w)
    (newer : ∀ j n w, stage j = .toSecond n w → n < number) :
    InStep value second (Function.update stage i (.toSecond number value)) := by
  have none : ∀ j w, Function.update stage i (.toSecond number value) j ≠ .toFirst w := by
    intro j w here
    rcases stage_moved here with ⟨_, same⟩ | ⟨_, was⟩
    · cases same
    · exact noRemoval j w was
  refine ⟨fun _ j _ _ w _ => none j w, fun j k n v w here there => ?_, fun _ _ _ _ => ?_,
    fun j v here => absurd here (none j v), fun all => ?_⟩
  · rcases stage_moved here with ⟨rfl, same⟩ | ⟨_, was⟩
    · cases same
      rcases stage_moved there with ⟨rfl, _⟩ | ⟨_, was⟩
      · rfl
      · exact absurd (newer k _ w was) (Nat.lt_irrefl _)
    · rcases stage_moved there with ⟨rfl, same⟩ | ⟨_, was'⟩
      · cases same
        exact absurd (newer j _ v was) (Nat.lt_irrefl _)
      · exact inStep.distinct j k n v w was was'
  · refine ⟨i, number, Function.update_self .., fun k n v here => ?_⟩
    rcases stage_moved here with ⟨_, same⟩ | ⟨_, was⟩
    · cases same
      exact le_rfl
    · exact (newer k n v was).le
  · have mine := all i
    rw [Function.update_self] at mine
    cases mine

/-- A value comes to the second store, and no older one has still to come. -/
theorem follow (inStep : InStep first second stage) (behind : stage i = .toSecond number value)
    (inOrder : ∀ j n w, stage j = .toSecond n w → ¬ n < number) :
    InStep first value (Function.update stage i .level) := by
  have others : ∀ {j s}, s ≠ Stage.level → Function.update stage i .level j = s →
      j ≠ i ∧ stage j = s := by
    intro j s notLevel here
    exact (stage_moved here).resolve_left fun mine => notLevel mine.2.symm
  have noRemoval : ∀ j w, Function.update stage i .level j ≠ .toFirst w := fun j w here =>
    inStep.oneWay i j number value w behind (others (by simp) here).2
  refine ⟨fun _ j _ _ w _ => noRemoval j w, fun j k n v w here there => ?_, fun k n v here => ?_,
    fun j v here => absurd here (noRemoval j v), fun all => ?_⟩
  · exact inStep.distinct j k n v w (others (by simp) here).2 (others (by simp) there).2
  · obtain ⟨other, was⟩ := others (by simp) here
    obtain ⟨j, m, newest, most⟩ := inStep.newest k n v was
    have notMine : j ≠ i := by
      rintro rfl
      rw [behind] at newest
      injection newest with same
      -- the writer that follows is the oldest, so it is the newest only if it is alone
      have equal : n = number := Nat.le_antisymm (same ▸ most k n v was)
        (Nat.not_lt.mp (inOrder k n v was))
      exact other (inStep.distinct k j n v value was (equal ▸ behind))
    refine ⟨j, m, by rw [Function.update_of_ne notMine, newest], fun k n v here => ?_⟩
    exact most k n v (others (by simp) here).2
  · obtain ⟨j, m, newest, _⟩ := inStep.newest i number value behind
    by_cases mine : j = i
    · subst mine
      rw [behind] at newest
      injection newest with _ same
      exact same.symm
    · have level := all j
      rw [Function.update_of_ne mine, newest] at level
      cases level

/-- A removal comes to the second store first. -/
theorem remove (inStep : InStep first second stage)
    (noneBehind : ∀ j n w, stage j ≠ .toSecond n w) :
    InStep first none (Function.update stage i (.toFirst none)) := by
  have noneAfter : ∀ j n w, Function.update stage i (.toFirst none) j ≠ .toSecond n w := by
    intro j n w here
    rcases stage_moved here with ⟨_, same⟩ | ⟨_, was⟩
    · cases same
    · exact noneBehind j n w was
  refine ⟨fun j _ n v _ here => absurd here (noneAfter j n v),
    fun j _ n v _ here => absurd here (noneAfter j n v),
    fun j n v here => absurd here (noneAfter j n v), fun j v here => ?_, fun all => ?_⟩
  · rcases stage_moved here with ⟨_, same⟩ | ⟨_, was⟩
    · cases same
      exact ⟨rfl, rfl⟩
    · exact ⟨(inStep.removal j v was).1, rfl⟩
  · have mine := all i
    rw [Function.update_self] at mine
    cases mine

/-- The removal comes to the first store as well. -/
theorem confirm (inStep : InStep first second stage) (behind : stage i = .toFirst value) :
    InStep value second (Function.update stage i .level) := by
  obtain ⟨isNone, removed⟩ := inStep.removal i value behind
  have noneAfter : ∀ j n w, Function.update stage i .level j ≠ .toSecond n w := by
    intro j n w here
    rcases stage_moved here with ⟨_, same⟩ | ⟨_, was⟩
    · cases same
    · exact inStep.oneWay j i n w value was behind
  refine ⟨fun j _ n v _ here => absurd here (noneAfter j n v),
    fun j _ n v _ here => absurd here (noneAfter j n v),
    fun j n v here => absurd here (noneAfter j n v), fun j v here => ?_,
    fun _ => isNone.trans removed.symm⟩
  rcases stage_moved here with ⟨_, same⟩ | ⟨_, was⟩
  · cases same
  · exact inStep.removal j v was

end InStep

end Writers

end KindDb.Lib.Pending
