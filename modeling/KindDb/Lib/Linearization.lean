import KindDb.Lib.Runs

/-! # Linearization points

Calls run concurrently on a system and one after the other on a sequential
object.  A simulation `R state object order` that appends a call to `order` at
the moment the call takes effect, between its start and its return, makes the
final `order` a linearization of the run: the object carries out the calls in
this order, and a call that had returned before another one started comes
first. -/
set_option autoImplicit false

namespace KindDb.Lib.Linearization

open KindDb.Lib.Runs

variable {State Label Call Object : Type}

section
variable (step : State → Label → Option State) (started returned : State → Call → Prop)

/-- At some moment of the run `i` had returned and `j` had not started. -/
def Precedes (start : State) (labels : List Label) (i j : Call) : Prop :=
  ∃ past middle, past <+: labels ∧ runFrom step start past = some middle ∧
    returned middle i ∧ ¬ started middle j

structure Linearizes (perform : Object → Call → Option Object) (start : State)
    (labels : List Label) (object : Object) (order : List Call) (after : Object) : Prop where
  once : order.Nodup
  performed : runFrom perform object order = some after
  respects : ∀ i j, Precedes step started returned start labels i j → j ∈ order →
    [i, j].Sublist order

/-- What an order of the calls that have taken effect has to satisfy. -/
structure Points (R : State → Object → List Call → Prop) : Prop where
  once : ∀ {state object order}, R state object order → order.Nodup
  returned_mem : ∀ {state object order i}, R state object order → returned state i → i ∈ order
  started_of_mem : ∀ {state object order i}, R state object order → i ∈ order → started state i

end

variable {step : State → Label → Option State} {started returned : State → Call → Prop}
  {perform : Object → Call → Option Object} {R : State → Object → List Call → Prop}
  {C : State → Label → Prop}

/-- The order only grows in the course of a run. -/
theorem points_run
    (keeps : ∀ {state label next object order}, C state label → step state label = some next →
      R state object order →
      ∃ more object', runFrom perform object more = some object' ∧ R next object' (order ++ more))
    (labels : List Label) :
    ∀ {state final object order}, EachMeets step C state labels →
      runFrom step state labels = some final → R state object order →
      ∃ more object', runFrom perform object more = some object' ∧
        R final object' (order ++ more) ∧
        ∀ past middle, past <+: labels → runFrom step state past = some middle →
          ∃ early object'', early <+: more ∧ R middle object'' (order ++ early) := by
  induction labels with
  | nil =>
      intro state final object order _ ran related
      cases Option.some.inj ran
      refine ⟨[], object, rfl, by rwa [List.append_nil], fun past middle isPast reached => ?_⟩
      rw [List.prefix_nil.mp isPast] at reached
      cases Option.some.inj reached
      exact ⟨[], object, List.nil_prefix, by rwa [List.append_nil]⟩
  | cons label rest ih =>
      intro state final object order meets ran related
      obtain ⟨next, taken, ranRest⟩ := runFrom_cons ran
      obtain ⟨first, object', performed, related'⟩ := keeps meets.1 taken related
      obtain ⟨later, object'', performedLater, atEnd, early⟩ :=
        ih (meets.2 next taken) ranRest related'
      refine ⟨first ++ later, object'', ?_, by rwa [← List.append_assoc], ?_⟩
      · rw [runFrom_append, performed]
        exact performedLater
      · intro past middle isPast reached
        cases past with
        | nil =>
            cases Option.some.inj reached
            exact ⟨[], object, List.nil_prefix, by rwa [List.append_nil]⟩
        | cons label' past =>
            obtain ⟨rfl, isPast'⟩ := List.cons_prefix_cons.mp isPast
            obtain ⟨next', taken', reached'⟩ := runFrom_cons reached
            cases Option.some.inj (taken.symm.trans taken')
            obtain ⟨part, meanwhile, isPart, relatedThen⟩ := early past middle isPast' reached'
            exact ⟨first ++ part, meanwhile, (List.prefix_append_right_inj first).mpr isPart,
              by rwa [← List.append_assoc]⟩

theorem linearizes_of_points (points : Points started returned R)
    (keeps : ∀ {state label next object order}, C state label → step state label = some next →
      R state object order →
      ∃ more object', runFrom perform object more = some object' ∧ R next object' (order ++ more))
    {labels : List Label} {start final : State} {object : Object}
    (meets : EachMeets step C start labels) (ran : runFrom step start labels = some final)
    (initially : R start object []) :
    ∃ order after, Linearizes step started returned perform start labels object order after ∧
      R final after order := by
  obtain ⟨order, after, performed, atEnd, early⟩ := points_run keeps labels meets ran initially
  rw [List.nil_append] at atEnd
  refine ⟨order, after, ⟨points.once atEnd, performed, fun i j precedes member => ?_⟩, atEnd⟩
  obtain ⟨past, middle, isPast, reached, hasReturned, notStarted⟩ := precedes
  obtain ⟨part, object', ⟨rest, whole⟩, related⟩ := early past middle isPast reached
  rw [List.nil_append] at related
  have first := points.returned_mem related hasReturned
  have second : j ∈ rest := by
    rw [← whole] at member
    refine (List.mem_append.mp member).resolve_left fun already => ?_
    exact notStarted (points.started_of_mem related already)
  rw [← whole]
  exact List.Sublist.append (List.singleton_sublist.mpr first) (List.singleton_sublist.mpr second)

end KindDb.Lib.Linearization
