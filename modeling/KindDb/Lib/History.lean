import Mathlib

/-! # The last event of a kind

A history is a list of events, the oldest first. -/
set_option autoImplicit false

namespace KindDb.Lib.History

variable {Event : Type}

/-- The last event of a kind, and what has happened since. -/
def Last (kind : Event → Bool) (history : List Event) (event : Event) (later : List Event) : Prop :=
  ∃ earlier, history = earlier ++ event :: later ∧ kind event = true ∧
    ∀ other ∈ later, kind other = false

variable {kind : Event → Bool} {history later : List Event} {event : Event}

theorem last_concat (isKind : kind event = true) : Last kind (history ++ [event]) event [] := by
  refine ⟨history, rfl, isKind, fun other member => ?_⟩
  cases member

theorem Last.concat (last : Last kind history event later) {next : Event}
    (notKind : kind next = false) : Last kind (history ++ [next]) event (later ++ [next]) := by
  obtain ⟨earlier, rfl, isKind, none⟩ := last
  refine ⟨earlier, by rw [List.append_assoc, List.cons_append], isKind, ?_⟩
  intro other member
  rcases List.mem_append.mp member with old | new
  · exact none other old
  · rw [List.mem_singleton.mp new]
    exact notKind

end KindDb.Lib.History
