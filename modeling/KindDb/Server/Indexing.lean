import KindDb.Lib.Runs
import KindDb.Server.State

/-! # Indexing with every access to shared state a step

The entries of `indexes` are references to shared sets, here numbers of sets in
a heap: a call that has looked up a set goes on with that set, also when the
entry is replaced meanwhile.  A call that runs alone does what `fileAll` does
(`alone_files`). -/
set_option autoImplicit false

namespace KindDb

open KindDb.Lib KindDb.Lib.Runs

structure IndexHeap where
  indexes : SortedMap String Nat
  sets : List (SortedSet String)

/-- An `index_record` call between two accesses, with the index keys that are left. -/
inductive Indexing
  | looking (todo : List String)
  /-- `indexes.get` has found nothing -/
  | creating (ik : String) (rest : List String)
  /-- the call has got a set -/
  | filing (ik : String) (set : Nat) (rest : List String)
  | returned
deriving Repr, DecidableEq

namespace Indexing

def step (key : String) (heap : IndexHeap) : Indexing → Option (IndexHeap × Indexing)
  | looking [] => some (heap, returned)
  | looking (ik :: rest) =>
      match heap.indexes[ik]? with
      | some set => some (heap, filing ik set rest)
      | none => some (heap, creating ik rest)
  | creating ik rest =>
      some ({ indexes := heap.indexes.insert ik heap.sets.length, sets := heap.sets ++ [∅] },
        filing ik heap.sets.length rest)
  | filing _ set rest =>
      some ({ heap with sets := heap.sets.modify set (·.insert key) }, looking rest)
  | returned => none

end Indexing

namespace IndexHeap

/-- What a query finds: the key is in the set that the entry refers to. -/
def Filed (heap : IndexHeap) (ik key : String) : Prop :=
  ∃ set postings, heap.indexes[ik]? = some set ∧ heap.sets[set]? = some postings ∧ key ∈ postings

/-- Entries refer to sets of the heap, each to its own. -/
structure WellFormed (heap : IndexHeap) : Prop where
  allocated : ∀ (ik : String) (set : Nat), heap.indexes[ik]? = some set → set < heap.sets.length
  separate : ∀ (ik ik' : String) (set : Nat), heap.indexes[ik]? = some set →
    heap.indexes[ik']? = some set → ik = ik'

/-- The heap holds the posting index. -/
def Represents (heap : IndexHeap) (index : PostingIndex String String) : Prop :=
  ∀ ik key, heap.Filed ik key ↔ PostingIndex.Indexed index ik key

theorem filed_insert (heap : IndexHeap) {ik : String} {set : Nat}
    (wf : heap.WellFormed) (found : heap.indexes[ik]? = some set) (key t k : String) :
    Filed { heap with sets := heap.sets.modify set (·.insert key) } t k ↔
      heap.Filed t k ∨ (key = k ∧ ik = t) := by
  unfold Filed
  simp only [List.getElem?_modify]
  constructor
  · rintro ⟨set', postings, found', held, member⟩
    by_cases same : set = set'
    · subst same
      obtain ⟨before, heldBefore, rfl⟩ := Option.map_eq_some_iff.mp held
      rw [if_pos rfl] at member
      rcases Std.ExtTreeSet.mem_insert.mp member with equal | old
      · exact Or.inr ⟨Std.compare_eq_iff_eq.mp equal, wf.separate ik t set found found'⟩
      · exact Or.inl ⟨set, before, found', heldBefore, old⟩
    · obtain ⟨before, heldBefore, rfl⟩ := Option.map_eq_some_iff.mp held
      rw [if_neg same] at member
      exact Or.inl ⟨set', before, found', heldBefore, member⟩
  · rintro (⟨set', postings, found', held, member⟩ | ⟨rfl, rfl⟩)
    · refine ⟨set', _, found', by rw [held]; rfl, ?_⟩
      split_ifs
      · exact Std.ExtTreeSet.mem_insert.mpr (Or.inr member)
      · exact member
    · have inside := wf.allocated ik set found
      refine ⟨set, _, found, by rw [List.getElem?_eq_getElem inside]; rfl, ?_⟩
      dsimp only
      rw [if_pos rfl]
      exact Std.ExtTreeSet.mem_insert.mpr (Or.inl Std.compare_self)

theorem WellFormed.insert {heap : IndexHeap} (wf : heap.WellFormed) (set : Nat) (key : String) :
    WellFormed { heap with sets := heap.sets.modify set (·.insert key) } :=
  ⟨fun ik s found => by rw [List.length_modify]; exact wf.allocated ik s found, wf.separate⟩

/-- A new set under an index key that had none. -/
theorem WellFormed.create {heap : IndexHeap} (wf : heap.WellFormed) (ik : String) :
    WellFormed { indexes := heap.indexes.insert ik heap.sets.length, sets := heap.sets ++ [∅] } := by
  refine ⟨fun t set found => ?_, fun t t' set found found' => ?_⟩
  · rw [SortedMap.lookup_insert] at found
    rw [List.length_append, List.length_singleton]
    split at found
    · cases found
      exact Nat.lt_succ_self _
    · exact Nat.lt_succ_of_lt (wf.allocated t set found)
  · rw [SortedMap.lookup_insert] at found found'
    split at found <;> split at found'
    · rename_i same same'
      exact same.symm.trans same'
    · cases found
      exact absurd (wf.allocated t' _ found') (Nat.lt_irrefl _)
    · cases found'
      exact absurd (wf.allocated t _ found) (Nat.lt_irrefl _)
    · exact wf.separate t t' set found found'

theorem filed_create {heap : IndexHeap} (wf : heap.WellFormed) {ik : String}
    (free : heap.indexes[ik]? = none) (t k : String) :
    Filed { indexes := heap.indexes.insert ik heap.sets.length, sets := heap.sets ++ [∅] } t k ↔
      heap.Filed t k := by
  unfold Filed
  simp only [SortedMap.lookup_insert]
  constructor
  · rintro ⟨set, postings, found, held, member⟩
    split at found
    · cases found
      rw [List.getElem?_append_right le_rfl, Nat.sub_self, List.getElem?_cons_zero] at held
      cases held
      exact absurd member Std.ExtTreeSet.not_mem_empty
    · rw [List.getElem?_append_left (wf.allocated t set found)] at held
      exact ⟨set, postings, found, held, member⟩
  · rintro ⟨set, postings, found, held, member⟩
    have other : ik ≠ t := by
      rintro rfl
      rw [free] at found
      cases found
    refine ⟨set, postings, by rw [if_neg other]; exact found, ?_, member⟩
    rw [List.getElem?_append_left (wf.allocated t set found)]
    exact held

/-! ## A call on its own -/

def aloneStep (key : String) (state : IndexHeap × Indexing) (_ : Unit) :
    Option (IndexHeap × Indexing) :=
  state.2.step key state.1

/-- A call that is alone files its key under its index keys. -/
theorem alone_files (key : String) (todo : List String) (heap : IndexHeap)
    (index : PostingIndex String String) (wf : heap.WellFormed) (represents : heap.Represents index) :
    ∃ steps heap', runFrom (aloneStep key) (heap, .looking todo) (List.replicate steps ()) =
        some (heap', .returned) ∧
      heap'.WellFormed ∧ heap'.Represents (PostingIndex.fileAll index todo key) := by
  induction todo generalizing heap index with
  | nil => exact ⟨1, heap, rfl, wf, represents⟩
  | cons ik rest ih =>
      have filesNext : ∀ (heap' : IndexHeap) (set : Nat), heap'.WellFormed →
          heap'.indexes[ik]? = some set → heap'.Represents index →
          Represents { heap' with sets := heap'.sets.modify set (·.insert key) }
            (PostingIndex.file index ik key) := by
        intro heap' set wf' found same t k
        rw [filed_insert heap' wf' found, PostingIndex.indexed_file, same t k]
      cases found : heap.indexes[ik]? with
      | some set =>
          obtain ⟨steps, final, ran, wfFinal, reached⟩ := ih _ (PostingIndex.file index ik key)
            (wf.insert set key) (filesNext heap set wf found represents)
          refine ⟨steps + 2, final, ?_, wfFinal, reached⟩
          simp only [List.replicate_succ, runFrom, aloneStep, Indexing.step, found]
          exact ran
      | none =>
          have created := wf.create ik
          have present : ((heap.indexes.insert ik heap.sets.length) : SortedMap String Nat)[ik]? =
              some heap.sets.length := by
            rw [SortedMap.lookup_insert, if_pos rfl]
          obtain ⟨steps, final, ran, wfFinal, reached⟩ := ih _ (PostingIndex.file index ik key)
            (created.insert heap.sets.length key)
            (filesNext _ heap.sets.length created present
              fun t k => (filed_create wf found t k).trans (represents t k))
          refine ⟨steps + 3, final, ?_, wfFinal, reached⟩
          simp only [List.replicate_succ, runFrom, aloneStep, Indexing.step, found]
          exact ran

end IndexHeap

/-! ## Concurrent calls -/

structure IndexPool (κ : Type) where
  heap : IndexHeap
  calls : κ → Indexing

namespace IndexPool

variable {κ : Type} [DecidableEq κ]

/-- Call `i`, which indexes the record under `key i`, takes its next step. -/
def step (key : κ → String) (pool : IndexPool κ) (i : κ) : Option (IndexPool κ) :=
  match (pool.calls i).step (key i) pool.heap with
  | some (heap, next) => some { heap, calls := Function.update pool.calls i next }
  | none => none

theorem step_cases {key : κ → String} {pool pool' : IndexPool κ} {i : κ}
    (stepped : pool.step key i = some pool') :
    ∃ heap next, (pool.calls i).step (key i) pool.heap = some (heap, next) ∧
      pool' = { heap, calls := Function.update pool.calls i next } := by
  unfold step at stepped
  split at stepped
  · rename_i heap next taken
    exact ⟨heap, next, taken, (Option.some.inj stepped).symm⟩
  · cases stepped

end IndexPool

end KindDb
