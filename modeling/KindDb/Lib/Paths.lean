import Mathlib

/-! # The run of a deterministic machine

A machine takes steps as long as it can.  A path is a run all of whose states
have a property; when it leads to a state without a step, the machine reaches
no other states than those on it. -/
set_option autoImplicit false

namespace KindDb.Lib.Paths

open StateTransition

variable {State : Type} {step : State → Option State} {P : State → Prop}

inductive Path (step : State → Option State) (P : State → Prop) : State → State → Prop
  | done {s : State} (safe : P s) : Path step P s s
  | move {s next t : State} (safe : P s) (moved : step s = some next) (rest : Path step P next t) :
      Path step P s t

theorem Path.trans {s t u : State} (first : Path step P s t) (second : Path step P t u) :
    Path step P s u := by
  induction first with
  | done _ => exact second
  | move safe moved _ ih => exact .move safe moved (ih second)

theorem Path.reaches {s t : State} (path : Path step P s t) : Reaches step s t := by
  induction path with
  | done _ => exact .refl
  | move _ moved _ ih => exact .head (Option.mem_def.mpr moved) ih

/-- Every state that is reached has the property, and the end is still ahead. -/
theorem Path.of_reaches {s t u : State} (path : Path step P s t) (ended : step t = none)
    (reached : Reaches step s u) : P u ∧ Reaches step u t := by
  induction path with
  | done safe =>
      rcases Relation.ReflTransGen.cases_head reached with same | ⟨next, moved, _⟩
      · rw [← same]
        exact ⟨safe, .refl⟩
      · rw [Option.mem_def, ended] at moved
        cases moved
  | move safe moved rest ih =>
      rcases Relation.ReflTransGen.cases_head reached with same | ⟨next, taken, later⟩
      · rw [← same]
        exact ⟨safe, .head (Option.mem_def.mpr moved) rest.reaches⟩
      · rw [Option.mem_def, moved, Option.some.injEq] at taken
        subst taken
        exact ih ended later

/-- A state that is reached and is not the end has a step. -/
theorem Path.moves {s t u : State} (path : Path step P s t) (ended : step t = none)
    (reached : Reaches step s u) (other : u ≠ t) : ∃ next, step u = some next := by
  rcases Relation.ReflTransGen.cases_head (path.of_reaches ended reached).2 with
    same | ⟨next, moved, _⟩
  · exact absurd same other
  · exact ⟨next, moved⟩

end KindDb.Lib.Paths
