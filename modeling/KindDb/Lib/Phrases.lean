import Mathlib

/-! # Phrases and the words they are written in

A derivation tree is a value of a type of phrases, and `yield` its words.  A
kind of phrase is read uniquely if its words are the beginning of a text in at
most one way.  `Separated` is the tree of `[item (',' item)* [',']]`: read
uniquely before a closing word, if its items are (`Separated.unique`). -/
set_option autoImplicit false

namespace KindDb.Lib

variable {α τ : Type}

def UniquelyRead (yield : α → List τ) : Prop :=
  ∀ a b : α, ∀ rest rest' : List τ, yield a ++ rest = yield b ++ rest' → a = b ∧ rest = rest'

/-- A text is at most one sequence of such phrases. -/
theorem UniquelyRead.sequence {yield : α → List τ} (unique : UniquelyRead yield)
    (nonempty : ∀ a, yield a ≠ []) {list list' : List α}
    (same : list.flatMap yield = list'.flatMap yield) : list = list' := by
  induction list generalizing list' with
  | nil =>
      cases list' with
      | nil => rfl
      | cons a' list' =>
          rw [List.flatMap_nil, List.flatMap_cons] at same
          exact absurd (List.append_eq_nil_iff.mp same.symm).1 (nonempty a')
  | cons a list ih =>
      cases list' with
      | nil =>
          rw [List.flatMap_nil, List.flatMap_cons] at same
          exact absurd (List.append_eq_nil_iff.mp same).1 (nonempty a)
      | cons a' list' =>
          rw [List.flatMap_cons, List.flatMap_cons] at same
          obtain ⟨rfl, later⟩ := unique a a' _ _ same
          rw [ih later]

inductive Separated (α : Type)
  | none
  | some (first : α) (more : List α) (trailing : Bool)

namespace Separated

def toList : Separated α → List α
  | none => []
  | some first more _ => first :: more

/-- What may follow the first item. -/
def tail (comma : τ) (yield : α → List τ) (more : List α) (trailing : Bool) : List τ :=
  (more.flatMap fun a => comma :: yield a) ++ if trailing then [comma] else []

def yield (comma : τ) (word : α → List τ) : Separated α → List τ
  | none => []
  | some first more trailing => word first ++ tail comma word more trailing

/-- One more item and a comma in front. -/
def cons (a : α) : Separated α → Separated α
  | none => some a [] true
  | some first more trailing => some a (first :: more) trailing

@[simp] theorem toList_cons (a : α) (items : Separated α) :
    (cons a items).toList = a :: items.toList := by
  cases items <;> rfl

/-- The items in a row, with a comma after the last or without. -/
def ofList (trailing : Bool) : List α → Separated α
  | [] => none
  | first :: more => some first more trailing

@[simp] theorem toList_ofList (trailing : Bool) (list : List α) :
    (ofList trailing list).toList = list := by
  cases list <;> rfl

section Words
variable {comma close : τ} {word : α → List τ}

theorem tail_cons (a : α) (more : List α) (trailing : Bool) :
    tail comma word (a :: more) trailing = comma :: word a ++ tail comma word more trailing := by
  simp [tail]

theorem yield_cons (a : α) (items : Separated α) :
    (cons a items).yield comma word = word a ++ comma :: items.yield comma word := by
  cases items with
  | none => rfl
  | some first more trailing =>
      change word a ++ tail comma word (first :: more) trailing = _
      rw [tail_cons]
      rfl

theorem mem_yield {w : τ} {items : Separated α} (member : w ∈ items.yield comma word) :
    w = comma ∨ ∃ a ∈ items.toList, w ∈ word a := by
  cases items with
  | none => cases member
  | some first more trailing =>
      rcases List.mem_append.mp member with inFirst | later
      · exact Or.inr ⟨first, List.mem_cons_self, inFirst⟩
      · rcases List.mem_append.mp later with inMore | last
        · obtain ⟨a, listed, inItem⟩ := List.mem_flatMap.mp inMore
          rcases List.mem_cons.mp inItem with same | inWord
          · exact Or.inl same
          · exact Or.inr ⟨a, List.mem_cons_of_mem first listed, inWord⟩
        · cases trailing with
          | false => cases last
          | true => exact Or.inl (List.mem_singleton.mp last)

/-- An item begins with a word that is neither a comma nor the closing word. -/
def Begins (comma close : τ) (word : α → List τ) : Prop :=
  ∀ a, ∃ first rest, word a = first :: rest ∧ first ≠ comma ∧ first ≠ close

theorem tail_unique (unique : UniquelyRead word) (begins : Begins comma close word)
    (differ : comma ≠ close) {more more' : List α} {trailing trailing' : Bool} {rest rest' : List τ}
    (same : tail comma word more trailing ++ close :: rest =
      tail comma word more' trailing' ++ close :: rest') :
    more = more' ∧ trailing = trailing' ∧ rest = rest' := by
  induction more generalizing more' with
  | nil =>
      cases more' with
      | nil =>
          cases trailing <;> cases trailing' <;> simp [tail, differ, differ.symm] at same
          · exact ⟨rfl, rfl, same⟩
          · exact ⟨rfl, rfl, same⟩
      | cons a' more' =>
          obtain ⟨first, left, starts, _, notClose⟩ := begins a'
          rw [tail_cons, starts] at same
          cases trailing
          · simp [tail, differ.symm] at same
          · simp [tail, notClose.symm] at same
  | cons a more ih =>
      cases more' with
      | nil =>
          obtain ⟨first, left, starts, _, notClose⟩ := begins a
          rw [tail_cons, starts] at same
          cases trailing'
          · simp [tail, differ] at same
          · simp [tail, notClose] at same
      | cons a' more' =>
          rw [tail_cons, tail_cons, List.cons_append, List.cons_append, List.cons_append,
            List.cons_append, List.append_assoc, List.append_assoc] at same
          obtain ⟨rfl, later⟩ := unique a a' _ _ (List.cons.inj same).2
          obtain ⟨rfl, rest⟩ := ih later
          exact ⟨rfl, rest⟩

/-- Before the closing word a list of items is read in one way. -/
theorem unique (unique : UniquelyRead word) (begins : Begins comma close word)
    (differ : comma ≠ close) {items items' : Separated α} {rest rest' : List τ}
    (same : items.yield comma word ++ close :: rest = items'.yield comma word ++ close :: rest') :
    items = items' ∧ rest = rest' := by
  cases items with
  | none =>
      cases items' with
      | none => exact ⟨rfl, (List.cons.inj same).2⟩
      | some first' more' trailing' =>
          obtain ⟨first, left, starts, _, notClose⟩ := begins first'
          simp [yield, starts, notClose.symm] at same
  | some first more trailing =>
      cases items' with
      | none =>
          obtain ⟨head, left, starts, _, notClose⟩ := begins first
          simp [yield, starts, notClose] at same
      | some first' more' trailing' =>
          rw [yield, yield, List.append_assoc, List.append_assoc] at same
          obtain ⟨rfl, later⟩ := unique first first' _ _ same
          obtain ⟨rfl, rfl, rest⟩ := tail_unique unique begins differ later
          exact ⟨rfl, rest⟩

end Words

end Separated

end KindDb.Lib
