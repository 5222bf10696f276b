import KindDb.Lib.Runs

/-! # Runs that come to an end

A measure that every step lowers bounds the length of every run.  If besides a
state that is not final always has a step, every run goes on to a final state. -/
set_option autoImplicit false

namespace KindDb.Lib.Termination

open KindDb.Lib.Runs

variable {State Label : Type} {step : State → Label → Option State} {P : State → Prop}
  {cost : State → Nat}

/-- A step from a state with the invariant keeps it and lowers the cost. -/
def Lowers (step : State → Label → Option State) (P : State → Prop) (cost : State → Nat) : Prop :=
  ∀ state label next, step state label = some next → P state → P next ∧ cost next < cost state

theorem Lowers.run (lowers : Lowers step P cost) {labels : List Label} {state final : State}
    (ran : runFrom step state labels = some final) (holds : P state) :
    P final ∧ labels.length + cost final ≤ cost state := by
  induction labels generalizing state with
  | nil =>
      cases Option.some.inj ran
      exact ⟨holds, by simp⟩
  | cons label rest ih =>
      obtain ⟨next, stepped, ranRest⟩ := runFrom_cons ran
      obtain ⟨holdsNext, less⟩ := lowers state label next stepped holds
      obtain ⟨holdsFinal, bounded⟩ := ih ranRest holdsNext
      refine ⟨holdsFinal, ?_⟩
      rw [List.length_cons]
      omega

/-- Where nothing is stuck before the end, the end is reached. -/
theorem Lowers.completes (lowers : Lowers step P cost) {final : State → Prop}
    (progress : ∀ state, P state → ¬ final state → ∃ label next, step state label = some next)
    {state : State} (holds : P state) :
    ∃ labels last, runFrom step state labels = some last ∧ P last ∧ final last := by
  induction budget : cost state using Nat.strong_induction_on generalizing state with
  | _ budget ih =>
      by_cases ended : final state
      · exact ⟨[], state, rfl, holds, ended⟩
      · obtain ⟨label, next, stepped⟩ := progress state holds ended
        obtain ⟨holdsNext, less⟩ := lowers state label next stepped holds
        obtain ⟨labels, last, ran, holdsLast, finalLast⟩ :=
          ih (cost next) (budget ▸ less) holdsNext rfl
        refine ⟨label :: labels, last, ?_, holdsLast, finalLast⟩
        rw [runFrom, stepped]
        exact ran

end KindDb.Lib.Termination
