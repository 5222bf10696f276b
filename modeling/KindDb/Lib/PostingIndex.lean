import KindDb.Lib.SortedMap

/-! # Inverted indexes

A posting index maps a term to the set of keys filed under it.  `Exact` says
what such an index is for: a key is filed under a term exactly when the value
the store holds for the key carries the term.  The rules below say how filing
and unfiling one key moves the index along with the store, and
`exact_overwrite_iff` what goes wrong when a value is overwritten without
unfiling the old one. -/
set_option autoImplicit false

namespace KindDb.Lib

abbrev PostingIndex (Term Key : Type) [Ord Term] [Ord Key] := SortedMap Term (SortedSet Key)

namespace PostingIndex

open Std

variable {Term Key Value : Type} [Ord Term] [TransOrd Term] [LawfulEqOrd Term] [DecidableEq Term]
  [Ord Key] [TransOrd Key] [LawfulEqOrd Key] [DecidableEq Key]

def Indexed (index : PostingIndex Term Key) (term : Term) (key : Key) : Prop :=
  ∃ postings, index[term]? = some postings ∧ key ∈ postings

def file (index : PostingIndex Term Key) (term : Term) (key : Key) : PostingIndex Term Key :=
  index.insert term ((index[term]?.getD ∅).insert key)

def unfile (index : PostingIndex Term Key) (term : Term) (key : Key) : PostingIndex Term Key :=
  match index[term]? with
  | some postings => index.insert term (postings.erase key)
  | none => index

/-- Unfile a key; a term left without keys goes. -/
def withdraw (index : PostingIndex Term Key) (term : Term) (key : Key) : PostingIndex Term Key :=
  match index[term]? with
  | some postings =>
      if (postings.erase key).isEmpty then index.erase term
      else index.insert term (postings.erase key)
  | none => index

def fileAll (index : PostingIndex Term Key) (terms : List Term) (key : Key) :
    PostingIndex Term Key :=
  terms.foldl (fun index term => file index term key) index

def unfileAll (index : PostingIndex Term Key) (terms : List Term) (key : Key) :
    PostingIndex Term Key :=
  terms.foldl (fun index term => unfile index term key) index

omit [LawfulEqOrd Key] [DecidableEq Key] [DecidableEq Term] [LawfulEqOrd Term] in
@[simp] theorem not_indexed_empty (term : Term) (key : Key) :
    ¬ Indexed (∅ : PostingIndex Term Key) term key := by
  simp [Indexed]

omit [LawfulEqOrd Key] [DecidableEq Key] [DecidableEq Term] [LawfulEqOrd Term] in
theorem indexed_of_contains {index : PostingIndex Term Key} {term : Term} {key : Key}
    (filed : ((index[term]?).getD ∅).contains key = true) : Indexed index term key := by
  cases found : index[term]? with
  | none => simp [found] at filed
  | some postings => exact ⟨postings, found, by simpa [found] using filed⟩

omit [DecidableEq Key] in
theorem indexed_file (index : PostingIndex Term Key) (term t : Term) (key k : Key) :
    Indexed (file index term key) t k ↔ Indexed index t k ∨ (key = k ∧ term = t) := by
  simp only [Indexed, file, SortedMap.lookup_insert]
  by_cases same : term = t
  · subst same
    cases index[term]? with
    | none => simp
    | some postings => simp [or_comm]
  · simp [same]

omit [DecidableEq Key] in
theorem indexed_unfile (index : PostingIndex Term Key) (term t : Term) (key k : Key) :
    Indexed (unfile index term key) t k ↔ Indexed index t k ∧ ¬ (key = k ∧ term = t) := by
  unfold unfile
  cases found : index[term]? with
  | none =>
      simp only [Indexed]
      constructor
      · rintro ⟨postings, lookup, member⟩
        refine ⟨⟨postings, lookup, member⟩, ?_⟩
        rintro ⟨_, rfl⟩
        simp [found] at lookup
      · exact fun both => both.1
  | some postings =>
      simp only [Indexed, SortedMap.lookup_insert]
      by_cases same : term = t
      · subst same
        simp [found, and_comm]
      · simp [same]

omit [DecidableEq Key] [LawfulEqOrd Key] in
/-- Whether a term without keys has a set makes no difference. -/
theorem indexed_withdraw_iff (index : PostingIndex Term Key) (term t : Term) (key k : Key) :
    Indexed (withdraw index term key) t k ↔ Indexed (unfile index term key) t k := by
  unfold withdraw unfile
  cases found : index[term]? with
  | none => exact Iff.rfl
  | some postings =>
      dsimp only
      split
      · next empty =>
          rw [ExtTreeSet.isEmpty_iff] at empty
          simp only [Indexed, SortedMap.lookup_erase, SortedMap.lookup_insert, empty]
          by_cases same : term = t <;> simp [same]
      · exact Iff.rfl

omit [DecidableEq Key] in
theorem indexed_withdraw (index : PostingIndex Term Key) (term t : Term) (key k : Key) :
    Indexed (withdraw index term key) t k ↔ Indexed index t k ∧ ¬ (key = k ∧ term = t) := by
  rw [indexed_withdraw_iff, indexed_unfile]

/-- No term is kept without keys. -/
def Tight (index : PostingIndex Term Key) : Prop :=
  ∀ (term : Term) (postings : SortedSet Key), index[term]? = some postings →
    postings.isEmpty = false

omit [DecidableEq Key] [LawfulEqOrd Key] in
theorem Tight.file {index : PostingIndex Term Key} (tight : Tight index) (term : Term) (key : Key) :
    Tight (file index term key) := by
  intro t postings found
  rw [PostingIndex.file, SortedMap.lookup_insert] at found
  split at found
  · cases Option.some.inj found
    exact ExtTreeSet.isEmpty_eq_false_iff.mpr ExtTreeSet.insert_ne_empty
  · exact tight t postings found

omit [DecidableEq Key] [LawfulEqOrd Key] in
theorem Tight.withdraw {index : PostingIndex Term Key} (tight : Tight index) (term : Term)
    (key : Key) : Tight (withdraw index term key) := by
  intro t postings found
  unfold PostingIndex.withdraw at found
  cases held : index[term]? with
  | none =>
      rw [held] at found
      exact tight t postings found
  | some old =>
      simp only [held] at found
      split at found
      · rw [SortedMap.lookup_erase] at found
        split at found
        · cases found
        · exact tight t postings found
      · next nonempty =>
          rw [SortedMap.lookup_insert] at found
          split at found
          · cases Option.some.inj found
            exact Bool.eq_false_iff.mpr nonempty
          · exact tight t postings found

omit [DecidableEq Key] in
theorem indexed_fileAll (terms : List Term) (index : PostingIndex Term Key) (t : Term)
    (key k : Key) :
    Indexed (fileAll index terms key) t k ↔ Indexed index t k ∨ (key = k ∧ t ∈ terms) := by
  induction terms generalizing index with
  | nil => simp [fileAll]
  | cons term rest ih =>
      have unfolded : fileAll index (term :: rest) key = fileAll (file index term key) rest key := rfl
      rw [unfolded, ih, indexed_file, List.mem_cons, eq_comm (a := t)]
      tauto

omit [DecidableEq Key] in
theorem indexed_unfileAll (terms : List Term) (index : PostingIndex Term Key) (t : Term)
    (key k : Key) :
    Indexed (unfileAll index terms key) t k ↔ Indexed index t k ∧ ¬ (key = k ∧ t ∈ terms) := by
  induction terms generalizing index with
  | nil => simp [unfileAll]
  | cons term rest ih =>
      have unfolded :
          unfileAll index (term :: rest) key = unfileAll (unfile index term key) rest key := rfl
      rw [unfolded, ih, indexed_unfile, List.mem_cons, eq_comm (a := t)]
      tauto

/-! ## Which terms have a set -/

omit [DecidableEq Key] [LawfulEqOrd Key] in
theorem isSome_file (index : PostingIndex Term Key) (term t : Term) (key : Key) :
    (file index term key)[t]?.isSome = (index[t]?.isSome || decide (t = term)) := by
  rw [file, SortedMap.lookup_insert]
  by_cases same : term = t
  · simp [same]
  · simp [same, Ne.symm same]

omit [DecidableEq Key] [LawfulEqOrd Key] in
theorem isSome_unfile (index : PostingIndex Term Key) (term t : Term) (key : Key) :
    (unfile index term key)[t]?.isSome = index[t]?.isSome := by
  unfold unfile
  cases found : index[term]? with
  | none => rfl
  | some postings =>
      dsimp only
      rw [SortedMap.lookup_insert]
      by_cases same : term = t
      · subst same
        simp [found]
      · simp [same]

omit [DecidableEq Key] [LawfulEqOrd Key] in
theorem isSome_fileAll (terms : List Term) (index : PostingIndex Term Key) (t : Term)
    (key : Key) :
    (fileAll index terms key)[t]?.isSome = (index[t]?.isSome || decide (t ∈ terms)) := by
  induction terms generalizing index with
  | nil => simp [fileAll]
  | cons term rest ih =>
      have unfolded : fileAll index (term :: rest) key = fileAll (file index term key) rest key := rfl
      rw [unfolded, ih, isSome_file, Bool.or_assoc]
      simp only [List.mem_cons, Bool.decide_or]

omit [DecidableEq Key] [LawfulEqOrd Key] in
theorem isSome_unfileAll (terms : List Term) (index : PostingIndex Term Key) (t : Term)
    (key : Key) : (unfileAll index terms key)[t]?.isSome = index[t]?.isSome := by
  induction terms generalizing index with
  | nil => rfl
  | cons term rest ih =>
      have unfolded :
          unfileAll index (term :: rest) key = unfileAll (unfile index term key) rest key := rfl
      rw [unfolded, ih, isSome_unfile]

omit [DecidableEq Key] [DecidableEq Term] in
/-- An index is what it has sets for and what it has filed in them. -/
theorem ext_indexed {index index' : PostingIndex Term Key}
    (sets : ∀ t : Term, index[t]?.isSome = index'[t]?.isSome)
    (filed : ∀ t k, Indexed index t k ↔ Indexed index' t k) : index = index' := by
  refine ExtTreeMap.ext_getElem? fun t => ?_
  have both := sets t
  have same := filed t
  unfold Indexed at same
  cases left : index[t]? with
  | none =>
      rw [left] at both
      exact (Option.not_isSome_iff_eq_none.mp (Bool.eq_false_iff.mp both.symm)).symm
  | some postings =>
      rw [left] at both
      obtain ⟨postings', right⟩ := Option.isSome_iff_exists.mp both.symm
      rw [right]
      refine congrArg some (ExtTreeSet.ext_mem fun k => ?_)
      simpa [left, right] using same k

variable (termsOf : Key → Value → List Term)

def Exact (store : Key → Option Value) (index : PostingIndex Term Key) : Prop :=
  ∀ t k, Indexed index t k ↔ ∃ value, store k = some value ∧ t ∈ termsOf k value

variable {termsOf} {store : Key → Option Value} {index : PostingIndex Term Key}

omit [LawfulEqOrd Key] [DecidableEq Key] [DecidableEq Term] [LawfulEqOrd Term] in
theorem exact_empty : Exact termsOf (fun _ => none) ∅ := by
  intro t k
  simp

theorem Exact.unfile (exact : Exact termsOf store index) {key : Key} {old : Value}
    (held : store key = some old) :
    Exact termsOf (Function.update store key none) (unfileAll index (termsOf key old) key) := by
  intro t k
  rw [indexed_unfileAll, exact t k]
  by_cases same : key = k
  · subst same
    simp [held]
  · simp [same, Function.update_of_ne (Ne.symm same)]

theorem Exact.file (exact : Exact termsOf store index) {key : Key} (free : store key = none)
    (value : Value) :
    Exact termsOf (Function.update store key (some value))
      (fileAll index (termsOf key value) key) := by
  intro t k
  rw [indexed_fileAll, exact t k]
  by_cases same : key = k
  · subst same
    simp [free]
  · simp [same, Function.update_of_ne (Ne.symm same)]

/-- Filing a new value over an old one that stays filed is right exactly when
the new value carries every term of the old one. -/
theorem exact_overwrite_iff (exact : Exact termsOf store index) {key : Key} {old : Value}
    (held : store key = some old) (value : Value) :
    Exact termsOf (Function.update store key (some value))
        (fileAll index (termsOf key value) key) ↔
      ∀ t ∈ termsOf key old, t ∈ termsOf key value := by
  constructor
  · intro overwritten t carried
    have filed : Indexed (fileAll index (termsOf key value) key) t key := by
      rw [indexed_fileAll, exact t key]
      exact Or.inl ⟨old, held, carried⟩
    simpa using (overwritten t key).mp filed
  · intro covered t k
    rw [indexed_fileAll, exact t k]
    by_cases same : key = k
    · subst same
      simp only [held, Function.update_self, Option.some.injEq, exists_eq_left', true_and]
      exact ⟨fun either => either.elim (covered t) id, Or.inr⟩
    · simp [same, Function.update_of_ne (Ne.symm same)]

end PostingIndex

end KindDb.Lib
