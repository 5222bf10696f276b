import Mathlib

/-! # Receivers of a bounded broadcast channel

The channel keeps the last `capacity` values.  A receiver stands at the place of
the value it gets next; if that value is no longer kept it is told so, moves to
the oldest value there is, and never gets the ones in between.  So the
documentation of `tokio::sync::broadcast` has it of a receiver that falls
behind: `recv` returns `RecvError::Lagged` with the number of values it has
missed, and the next call the oldest value that the channel still retains.
`recv_kept`, `recv_behind` and their converses `recv_cases` and `recv_none` are
all that is used of `recv`. -/
set_option autoImplicit false

namespace KindDb.Lib.Broadcast

variable {Value : Type}

inductive Received (Value : Type)
  | value (v : Value)
  | lagged (missed : Nat)
deriving Repr, DecidableEq

/-- The place of the oldest value that is kept. -/
def oldest (capacity : Nat) (sent : List Value) : Nat := sent.length - capacity

/-- What a receiver gets and where it stands then; `none` if it has to wait. -/
def recv (capacity : Nat) (sent : List Value) (place : Nat) : Option (Received Value × Nat) :=
  if place < oldest capacity sent then
    some (.lagged (oldest capacity sent - place), oldest capacity sent)
  else (sent[place]?).map fun v => (.value v, place + 1)

/-- The values from one place up to another. -/
def between (sent : List Value) (place later : Nat) : List Value := (sent.take later).drop place

variable {sent : List Value} {place later : Nat}

theorem between_self : between sent place place = [] :=
  List.drop_eq_nil_of_le (List.length_take_le ..)

theorem between_length (sent : List Value) (place : Nat) :
    between sent place sent.length = sent.drop place := by
  rw [between, List.take_length]

/-- What was sent stays where it is. -/
theorem between_append (more : List Value) (inside : later ≤ sent.length) :
    between (sent ++ more) place later = between sent place later := by
  rw [between, List.take_append_of_le_length inside]
  rfl

theorem between_trans {start : Nat} (before : start ≤ place) (after : place ≤ later)
    (inside : place ≤ sent.length) :
    between sent start later = between sent start place ++ between sent place later := by
  unfold between
  have split := List.take_append_drop place (sent.take later)
  rw [List.take_take, Nat.min_eq_left after] at split
  rw [← split, List.drop_append_of_le_length, split]
  rw [List.length_take]
  omega

theorem between_succ {start : Nat} {v : Value} (before : start ≤ place)
    (found : sent[place]? = some v) :
    between sent start (place + 1) = between sent start place ++ [v] := by
  obtain ⟨inside, rfl⟩ := List.getElem?_eq_some_iff.mp found
  unfold between
  rw [List.take_succ_eq_append_getElem inside, List.drop_append_of_le_length]
  rw [List.length_take]
  omega

theorem between_eq_nil (passed : later ≤ place) : between sent place later = [] := by
  refine List.drop_eq_nil_of_le ?_
  rw [List.length_take]
  omega

/-- A value that is kept is received. -/
theorem recv_kept {capacity : Nat} {v : Value} (keeping : oldest capacity sent ≤ place)
    (found : sent[place]? = some v) : recv capacity sent place = some (.value v, place + 1) := by
  rw [recv, if_neg (Nat.not_lt.mpr keeping), found, Option.map_some]

/-- A receiver whose next value is gone moves on to the oldest there is. -/
theorem recv_behind {capacity : Nat} (behind : place < oldest capacity sent) :
    recv capacity sent place =
      some (.lagged (oldest capacity sent - place), oldest capacity sent) := by
  rw [recv, if_pos behind]

/-- A receiver that waits has got everything. -/
theorem recv_none {capacity : Nat} (waits : recv capacity sent place = none) :
    oldest capacity sent ≤ place ∧ sent.length ≤ place := by
  unfold recv at waits
  split at waits
  · cases waits
  · rename_i keeping
    exact ⟨not_lt.mp keeping, List.getElem?_eq_none_iff.mp (Option.map_eq_none_iff.mp waits)⟩

theorem recv_cases {capacity : Nat} {got : Received Value}
    (received : recv capacity sent place = some (got, later)) :
    (∃ v, got = .value v ∧ later = place + 1 ∧ sent[place]? = some v ∧
      oldest capacity sent ≤ place) ∨
      (got = .lagged (later - place) ∧ later = oldest capacity sent ∧ place < later) := by
  unfold recv at received
  split at received
  · rename_i behind
    cases received
    exact Or.inr ⟨rfl, rfl, behind⟩
  · rename_i keeping
    obtain ⟨v, found, same⟩ := Option.map_eq_some_iff.mp received
    cases same
    exact Or.inl ⟨v, rfl, rfl, found, not_lt.mp keeping⟩

end KindDb.Lib.Broadcast
