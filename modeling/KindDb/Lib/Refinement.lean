import KindDb.Lib.Runs

/-! # Refinement of an object by a machine

A machine takes labels with an answer and may fail at any of them; an object
answers every label.  If one step of the machine does not fail, answers as the
object does and keeps the two related, the same holds of every run. -/
set_option autoImplicit false

namespace KindDb.Lib.Refinement

open KindDb.Lib.Runs

variable {State Object Label Answer : Type}

/-- The answers of a run with the state it ends in, if no step fails. -/
def answersFrom (step : State → Label → Option (Answer × State)) :
    State → List Label → Option (List Answer × State)
  | state, [] => some ([], state)
  | state, label :: rest =>
      match step state label with
      | none => none
      | some (answer, next) =>
          (answersFrom step next rest).map fun later => (answer :: later.1, later.2)

/-- The object after some labels. -/
def after (spec : Object → Label → Answer × Object) (object : Object) (labels : List Label) :
    Object :=
  run (fun object label => (spec object label).2) object labels

theorem answers_append (spec : Object → Label → Answer × Object) (object : Object)
    (first second : List Label) : answers spec object (first ++ second) =
      answers spec object first ++ answers spec (after spec object first) second := by
  induction first generalizing object with
  | nil => rfl
  | cons label rest ih => exact congrArg (_ :: ·) (ih _)

/-- A step of the machine does what the object does. -/
def Refines (step : State → Label → Option (Answer × State))
    (spec : Object → Label → Answer × Object) (R : State → Object → Prop) : Prop :=
  ∀ state object label, R state object → ∃ next,
    step state label = some ((spec object label).1, next) ∧ R next (spec object label).2

theorem Refines.run {step : State → Label → Option (Answer × State)}
    {spec : Object → Label → Answer × Object} {R : State → Object → Prop}
    (refines : Refines step spec R) (labels : List Label) {state : State} {object : Object}
    (related : R state object) : ∃ final,
      answersFrom step state labels = some (answers spec object labels, final) ∧
        R final (after spec object labels) := by
  induction labels generalizing state object with
  | nil => exact ⟨state, rfl, related⟩
  | cons label rest ih =>
      obtain ⟨next, taken, relatedNext⟩ := refines state object label related
      obtain ⟨final, ran, relatedFinal⟩ := ih relatedNext
      refine ⟨final, ?_, relatedFinal⟩
      rw [answersFrom, taken]
      simp only [ran]
      rfl

/-- The same for a machine that answers every label, on labels of a kind. -/
def Simulates (step : State → Label → Answer × State)
    (spec : Object → Label → Answer × Object) (Q : Label → Prop) (R : State → Object → Prop) :
    Prop :=
  ∀ state object label, Q label → R state object →
    (step state label).1 = (spec object label).1 ∧ R (step state label).2 (spec object label).2

theorem Simulates.run {step : State → Label → Answer × State}
    {spec : Object → Label → Answer × Object} {Q : Label → Prop} {R : State → Object → Prop}
    (simulates : Simulates step spec Q R) (labels : List Label) (all : ∀ label ∈ labels, Q label)
    {state : State} {object : Object} (related : R state object) :
    answers step state labels = answers spec object labels ∧
      R (after step state labels) (after spec object labels) := by
  induction labels generalizing state object with
  | nil => exact ⟨rfl, related⟩
  | cons label rest ih =>
      obtain ⟨same, relatedNext⟩ := simulates state object label (all label List.mem_cons_self)
        related
      obtain ⟨sameRest, relatedFinal⟩ :=
        ih (fun label member => all label (List.mem_cons_of_mem _ member)) relatedNext
      rw [answers, answers, same, sameRest]
      exact ⟨rfl, relatedFinal⟩

end KindDb.Lib.Refinement
