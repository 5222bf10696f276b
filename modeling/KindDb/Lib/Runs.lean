import Mathlib

/-! # Runs of a transition system

A total system takes every label (`run`); a partial one may refuse it
(`runFrom`).  `StepsMeet C s as` says that every label of the run from `s`
is taken in a state where `C` allows it.  `run_invariant_iff` is the exact
form of the invariant rule: when a single step keeps the invariant exactly if
it meets `C`, the invariant holds in all states of the run exactly if all the
steps meet `C`; `answers_eq_iff` is the like for two runs that should give the
same answers. -/
set_option autoImplicit false

namespace KindDb.Lib.Runs

section Total
variable {State Label : Type} (step : State → Label → State)

def run (state : State) (labels : List Label) : State := labels.foldl step state

def StepsMeet (C : State → Label → Prop) : State → List Label → Prop
  | _, [] => True
  | state, label :: rest => C state label ∧ StepsMeet C (step state label) rest

@[simp] theorem run_nil (state : State) : run step state [] = state := rfl

@[simp] theorem run_cons (state : State) (label : Label) (rest : List Label) :
    run step state (label :: rest) = run step (step state label) rest := rfl

theorem run_append (state : State) (first second : List Label) :
    run step state (first ++ second) = run step (run step state first) second :=
  List.foldl_append

instance decidableStepsMeet (C : State → Label → Prop)
    [∀ state label, Decidable (C state label)] :
    ∀ (state : State) (labels : List Label), Decidable (StepsMeet step C state labels)
  | _, [] => isTrue trivial
  | state, label :: rest =>
      have := decidableStepsMeet C (step state label) rest
      inferInstanceAs (Decidable (C state label ∧ StepsMeet step C (step state label) rest))

variable {step}

theorem stepsMeet_of_forall {C : State → Label → Prop}
    (always : ∀ state label, C state label) (state : State) (labels : List Label) :
    StepsMeet step C state labels := by
  induction labels generalizing state with
  | nil => trivial
  | cons label rest ih => exact ⟨always state label, ih (step state label)⟩

theorem stepsMeet_cons {C : State → Label → Prop} {state : State} {label : Label}
    {rest : List Label} : StepsMeet step C state (label :: rest) ↔
      C state label ∧ StepsMeet step C (step state label) rest :=
  Iff.rfl

theorem stepsMeet_append {C : State → Label → Prop} {state : State} {first second : List Label} :
    StepsMeet step C state (first ++ second) ↔
      StepsMeet step C state first ∧ StepsMeet step C (run step state first) second := by
  induction first generalizing state with
  | nil => exact iff_of_eq (true_and _).symm
  | cons label rest ih => exact (and_congr_right' ih).trans and_assoc.symm

/-- Labels that are always admitted. -/
theorem stepsMeet_of_labels {C : State → Label → Prop} {labels : List Label}
    (always : ∀ label ∈ labels, ∀ state, C state label) (state : State) :
    StepsMeet step C state labels := by
  induction labels generalizing state with
  | nil => trivial
  | cons label rest ih =>
      exact ⟨always label List.mem_cons_self state,
        ih (fun label member => always label (List.mem_cons_of_mem _ member)) (step state label)⟩

theorem run_invariant {P : State → Prop} {C : State → Label → Prop}
    (keeps : ∀ state label, C state label → P state → P (step state label)) :
    ∀ (labels : List Label) (state : State), StepsMeet step C state labels →
      P state → P (run step state labels) := by
  intro labels
  induction labels with
  | nil => intro state _ holds; exact holds
  | cons label rest ih =>
      intro state meets holds
      exact ih (step state label) meets.2 (keeps state label meets.1 holds)

/-- An invariant that no step can break holds at the end of every run. -/
theorem run_invariant_of_forall {P : State → Prop}
    (keeps : ∀ state label, P state → P (step state label)) (labels : List Label)
    (state : State) (holds : P state) : P (run step state labels) := by
  induction labels generalizing state with
  | nil => exact holds
  | cons label rest ih => exact ih (step state label) (keeps state label holds)

theorem run_invariant_iff {P : State → Prop} {Q C : State → Label → Prop}
    (exact : ∀ state label, Q state label → P state →
      (P (step state label) ↔ C state label)) :
    ∀ (labels : List Label) (state : State), StepsMeet step Q state labels → P state →
      ((∀ past, past <+: labels → P (run step state past)) ↔
        StepsMeet step C state labels) := by
  intro labels
  induction labels with
  | nil =>
      intro state _ holds
      refine ⟨fun _ => trivial, fun _ past prefixed => ?_⟩
      rw [List.prefix_nil.mp prefixed]
      exact holds
  | cons label rest ih =>
      intro state possibleRun holds
      have stepExact := exact state label possibleRun.1 holds
      constructor
      · intro always
        have next : P (step state label) := always [label] ⟨rest, rfl⟩
        refine ⟨stepExact.mp next, (ih _ possibleRun.2 next).mp fun past prefixed => ?_⟩
        exact always (label :: past) (List.prefix_cons_inj label |>.mpr prefixed)
      · rintro ⟨allowedHere, meets⟩ past prefixed
        have next : P (step state label) := stepExact.mpr allowedHere
        cases past with
        | nil => exact holds
        | cons first past =>
            obtain ⟨same, restPrefixed⟩ := List.cons_prefix_cons.mp prefixed
            subst same
            exact (ih _ possibleRun.2 next).mpr meets past restPrefixed

end Total

section Partial
variable {State Label : Type} (step : State → Label → Option State)

def runFrom : State → List Label → Option State
  | state, [] => some state
  | state, label :: rest =>
      match step state label with
      | none => none
      | some next => runFrom next rest

/-- Every label of the run is taken in a state where `C` admits it; the
run may also stop at a label the system refuses. -/
def EachMeets (C : State → Label → Prop) : State → List Label → Prop
  | _, [] => True
  | state, label :: rest =>
      C state label ∧ ∀ next, step state label = some next → EachMeets C next rest

/-- A test of every step of a run. -/
def eachPasses (test : State → Label → Bool) : State → List Label → Bool
  | _, [] => true
  | state, label :: rest =>
      test state label && match step state label with
        | none => true
        | some next => eachPasses test next rest

variable {step}

theorem eachMeets_of_forall {C : State → Label → Prop}
    (always : ∀ state label, C state label) (state : State) (labels : List Label) :
    EachMeets step C state labels := by
  induction labels generalizing state with
  | nil => trivial
  | cons label rest ih => exact ⟨always state label, fun next _ => ih next⟩

/-- Labels that are always admitted. -/
theorem eachMeets_of_labels {C : State → Label → Prop} {labels : List Label}
    (always : ∀ label ∈ labels, ∀ state, C state label) (state : State) :
    EachMeets step C state labels := by
  induction labels generalizing state with
  | nil => trivial
  | cons label rest ih =>
      exact ⟨always label List.mem_cons_self state,
        fun next _ => ih (fun label member => always label (List.mem_cons_of_mem _ member)) next⟩

/-- A condition may be tested by anything stronger. -/
theorem eachMeets_of_passes {C : State → Label → Prop} {test : State → Label → Bool}
    (stronger : ∀ state label, test state label = true → C state label) {state : State}
    {labels : List Label} (passes : eachPasses step test state labels = true) :
    EachMeets step C state labels := by
  induction labels generalizing state with
  | nil => trivial
  | cons label rest ih =>
      obtain ⟨here, later⟩ := Bool.and_eq_true_iff.mp passes
      refine ⟨stronger state label here, fun next taken => ih ?_⟩
      simpa [taken] using later

theorem EachMeets.and {C D : State → Label → Prop} {state : State} {labels : List Label}
    (first : EachMeets step C state labels) (second : EachMeets step D state labels) :
    EachMeets step (fun state label => C state label ∧ D state label) state labels := by
  induction labels generalizing state with
  | nil => trivial
  | cons label rest ih =>
      exact ⟨⟨first.1, second.1⟩, fun next taken => ih (first.2 next taken) (second.2 next taken)⟩

theorem runFrom_cons {state final : State} {label : Label} {rest : List Label}
    (ran : runFrom step state (label :: rest) = some final) :
    ∃ next, step state label = some next ∧ runFrom step next rest = some final := by
  simp only [runFrom] at ran
  cases taken : step state label with
  | none => simp [taken] at ran
  | some next => exact ⟨next, rfl, by simpa [taken] using ran⟩

theorem runFrom_append (state : State) (first second : List Label) :
    runFrom step state (first ++ second) =
      (runFrom step state first).bind fun middle => runFrom step middle second := by
  induction first generalizing state with
  | nil => rfl
  | cons label rest ih =>
      simp only [List.cons_append, runFrom]
      cases step state label with
      | none => rfl
      | some next => exact ih next

theorem runFrom_invariant {P : State → Prop} {C : State → Label → Prop}
    (keeps : ∀ state label next, C state label → step state label = some next →
      P state → P next) :
    ∀ (labels : List Label) (state final : State), EachMeets step C state labels →
      runFrom step state labels = some final → P state → P final := by
  intro labels
  induction labels with
  | nil =>
      intro state final _ ran holds
      cases Option.some.inj ran
      exact holds
  | cons label rest ih =>
      intro state final meets ran holds
      obtain ⟨next, taken, ranRest⟩ := runFrom_cons ran
      exact ih next final (meets.2 next taken) ranRest
        (keeps state label next meets.1 taken holds)

/-- If no step from an invariant state fails and every step keeps the invariant,
no run fails. -/
theorem runFrom_total {P : State → Prop}
    (taken : ∀ state label, P state → ∃ next, step state label = some next ∧ P next)
    (labels : List Label) {state : State} (holds : P state) :
    ∃ final, runFrom step state labels = some final ∧ P final := by
  induction labels generalizing state with
  | nil => exact ⟨state, rfl, holds⟩
  | cons label rest ih =>
      obtain ⟨next, moved, holdsNext⟩ := taken state label holds
      obtain ⟨final, ran, holdsFinal⟩ := ih holdsNext
      refine ⟨final, ?_, holdsFinal⟩
      rw [runFrom, moved]
      exact ran

end Partial

section Answers
variable {State Label Answer : Type} (step : State → Label → Answer × State)

/-- What a system that answers every label answers in a run. -/
def answers : State → List Label → List Answer
  | _, [] => []
  | state, label :: rest => (step state label).1 :: answers (step state label).2 rest

/-- Two copies of the system in step. -/
def both (pair : State × State) (label : Label) : State × State :=
  ((step pair.1 label).2, (step pair.2 label).2)

variable {step}

/-- Two runs answer alike exactly if all their steps meet the condition under
which related states give one answer, when equal answers keep the states
related. -/
theorem answers_eq_iff {R : State → State → Prop} {Q : Label → Prop}
    {C : State × State → Label → Prop}
    (exact : ∀ left right label, Q label → R left right →
      ((step left label).1 = (step right label).1 ↔ C (left, right) label))
    (keeps : ∀ left right label, Q label → R left right →
      (step left label).1 = (step right label).1 →
        R (step left label).2 (step right label).2) :
    ∀ (labels : List Label) (left right : State), (∀ label ∈ labels, Q label) →
      R left right →
      (answers step left labels = answers step right labels ↔
        StepsMeet (both step) C (left, right) labels) := by
  intro labels
  induction labels with
  | nil => intro left right _ _; exact ⟨fun _ => trivial, fun _ => rfl⟩
  | cons label rest ih =>
      intro left right all related
      have here := all label List.mem_cons_self
      rw [answers, answers, List.cons.injEq, StepsMeet, ← exact left right label here related]
      refine and_congr_right fun same => ?_
      exact ih _ _ (fun label member => all label (List.mem_cons_of_mem _ member))
        (keeps left right label here related same)

end Answers

end KindDb.Lib.Runs
