import KindDb.Cache.Trait
import KindDb.Lib.InsertionOrder

/-! # The FIFO cache of `cache.rs`

A map with the queue of its keys.  The eviction loop of `put` makes no progress
on an empty queue; that it ends rests on the queue holding exactly the keys of
the map. -/
set_option autoImplicit false

namespace KindDb.Cache

open KindDb.Lib KindDb.Lib.Runs KindDb.Lib.Refinement Std

structure FifoInner (K V : Type) [Ord K] where
  capacity : Nat
  map : SortedMap K V
  queue : List K

namespace FifoInner

variable {K V : Type} [Ord K] [TransOrd K]

def new (capacity : Nat) : FifoInner K V := { capacity, map := ∅, queue := [] }

def get (s : FifoInner K V) (key : K) : Option V := s.map[key]?

/-- One turn of the eviction loop. -/
def evictFront (s : FifoInner K V) : FifoInner K V :=
  match s.queue with
  | evictKey :: queue => { s with map := s.map.erase evictKey, queue }
  | [] => s

/-- `while inner.map.len() >= inner.capacity`; `none` if the condition was
checked so many times and the loop has not ended. -/
def evictLoop : Nat → FifoInner K V → Option (FifoInner K V)
  | 0, _ => none
  | checks + 1, s => if s.capacity ≤ s.map.size then evictLoop checks s.evictFront else some s

def put (checks : Nat) (s : FifoInner K V) (key : K) (value : V) : Option (FifoInner K V) :=
  if s.map.contains key then some { s with map := s.map.insert key value }
  else (s.evictLoop checks).map fun s =>
    { s with queue := s.queue ++ [key], map := s.map.insert key value }

def invalidate [DecidableEq K] (s : FifoInner K V) (key : K) : FifoInner K V :=
  if s.map.contains key then
    { s with map := s.map.erase key, queue := s.queue.filter fun k => k ≠ key }
  else s

def take [DecidableEq K] (checks : Nat) (s : FifoInner K V) :
    CacheOp K V → Option (CacheAnswer V × FifoInner K V)
  | .get key => some (.got (s.get key), s)
  | .put key value => (s.put checks key value).map fun t => (.done, t)
  | .invalidate key => some (.done, s.invalidate key)

/-- The reference list under the operations of the trait. -/
def inserted [DecidableEq K] (capacity : Nat) (entries : List (K × V)) :
    CacheOp K V → CacheAnswer V × List (K × V)
  | .get key => (.got (Recency.find key entries), entries)
  | .put key value => (.done, InsertionOrder.store capacity key value entries)
  | .invalidate key => (.done, Recency.drop key entries)

/-- With an empty queue and a full map the loop never ends. -/
theorem evictLoop_stuck {s : FifoInner K V} (empty : s.queue = []) (full : s.capacity ≤ s.map.size)
    (checks : Nat) : s.evictLoop checks = none := by
  have still : s.evictFront = s := by rw [evictFront, empty]
  induction checks with
  | zero => rfl
  | succ checks ih => rw [evictLoop, if_pos full, still, ih]

/-! ## The invariant -/

variable [LawfulEqOrd K] [DecidableEq K]

/-- The queue and the map are the list, which fits. -/
structure Lists (capacity : Nat) (s : FifoInner K V) (entries : List (K × V)) : Prop where
  positive : 0 < capacity
  bound : s.capacity = capacity
  queue : s.queue = entries.map Prod.fst
  map : ∀ key : K, s.map[key]? = Recency.find key entries
  distinct : Recency.Distinct entries
  fits : entries.length ≤ capacity

variable {capacity : Nat} {s : FifoInner K V} {entries : List (K × V)}

omit [LawfulEqOrd K] in
theorem lists_new (positive : 0 < capacity) : Lists capacity (new capacity : FifoInner K V) [] :=
  ⟨positive, rfl, rfl, fun key => by simp [new, Recency.find], List.nodup_nil, Nat.zero_le _⟩

theorem Lists.size (lists : Lists capacity s entries) : s.map.size = entries.length := by
  rw [← List.length_map Prod.fst]
  apply SortedMap.size_eq_length lists.distinct
  intro key
  rw [lists.map, InsertionOrder.find_isSome_iff]

omit [LawfulEqOrd K] in
theorem Lists.contains_iff (lists : Lists capacity s entries) (key : K) :
    s.map.contains key = (Recency.find key entries).isSome := by
  rw [ExtTreeMap.contains_eq_isSome_getElem?, lists.map]

theorem Lists.evictFront {entry : K × V} {rest : List (K × V)}
    (lists : Lists capacity s (entry :: rest)) : Lists capacity s.evictFront rest := by
  have queue : s.queue = entry.1 :: rest.map Prod.fst := lists.queue
  have evicted : s.evictFront =
      { s with map := s.map.erase entry.1, queue := rest.map Prod.fst } := by
    rw [FifoInner.evictFront, queue]
  rw [evicted]
  refine ⟨lists.positive, lists.bound, rfl, fun key => ?_, (List.nodup_cons.mp lists.distinct).2,
    (Nat.le_succ _).trans lists.fits⟩
  rw [SortedMap.lookup_erase, lists.map, InsertionOrder.find_tail lists.distinct]

/-- The loop turns at most once, and makes room. -/
theorem Lists.evictLoop (lists : Lists capacity s entries) {checks : Nat} (enough : 2 ≤ checks) :
    ∃ t, s.evictLoop checks = some t ∧ Lists capacity t (InsertionOrder.makeRoom capacity entries) ∧
      (InsertionOrder.makeRoom capacity entries).length < capacity := by
  obtain ⟨checks, rfl⟩ := Nat.exists_eq_add_of_le' enough
  have positive := lists.positive
  unfold InsertionOrder.makeRoom
  rw [FifoInner.evictLoop, lists.size, lists.bound]
  by_cases full : capacity ≤ entries.length
  · rw [if_pos full, if_pos full]
    cases entries with
    | nil => simp only [List.length_nil] at full; omega
    | cons entry rest =>
        have after := lists.evictFront
        have fits := lists.fits
        rw [List.length_cons] at fits
        refine ⟨s.evictFront, ?_, after, fits⟩
        rw [FifoInner.evictLoop, after.size, after.bound, if_neg (by omega)]
  · rw [if_neg full, if_neg full]
    exact ⟨s, rfl, lists, by omega⟩

theorem Lists.append (lists : Lists capacity s entries) {key : K} (value : V)
    (absent : Recency.find key entries = none) (room : entries.length < capacity) :
    Lists capacity { s with queue := s.queue ++ [key], map := s.map.insert key value }
      (entries ++ [(key, value)]) := by
  refine ⟨lists.positive, lists.bound, ?_, fun k => ?_, ?_, ?_⟩
  · rw [List.map_append, lists.queue]
    rfl
  · rw [SortedMap.lookup_insert, lists.map, InsertionOrder.find_concat]
    by_cases same : key = k
    · subst same
      simp [absent]
    · simp [same]
  · rw [Recency.Distinct, List.map_append]
    apply List.nodup_append.mpr
    refine ⟨lists.distinct, List.nodup_singleton _, ?_⟩
    rintro k member k' new rfl
    rw [List.map_singleton, List.mem_singleton] at new
    subst new
    exact Recency.find_eq_none.mp absent member
  · rw [List.length_append, List.length_singleton]
    exact room

theorem Lists.replace (lists : Lists capacity s entries) {key : K} (value : V) {held : V}
    (present : Recency.find key entries = some held) :
    Lists capacity { s with map := s.map.insert key value }
      (InsertionOrder.replace key value entries) := by
  refine ⟨lists.positive, lists.bound, ?_, fun k => ?_, ?_, ?_⟩
  · rw [InsertionOrder.keys_replace]
    exact lists.queue
  · rw [SortedMap.lookup_insert, lists.map, InsertionOrder.find_replace, present]
    rfl
  · rw [Recency.Distinct, InsertionOrder.keys_replace]
    exact lists.distinct
  · rw [InsertionOrder.replace, List.length_map]
    exact lists.fits

theorem Lists.drop (lists : Lists capacity s entries) (key : K) :
    Lists capacity { s with map := s.map.erase key, queue := s.queue.filter fun k => k ≠ key }
      (Recency.drop key entries) := by
  refine ⟨lists.positive, lists.bound, ?_, fun k => ?_, ?_, ?_⟩
  · rw [lists.queue, Recency.drop, List.filter_map]
    rfl
  · rw [SortedMap.lookup_erase, lists.map, Recency.find_drop]
  · exact lists.distinct.sublist (List.filter_sublist.map _)
  · exact (List.length_filter_le _ _).trans lists.fits

/-! ## Runs -/

theorem Lists.put (lists : Lists capacity s entries) {checks : Nat} (enough : 2 ≤ checks)
    (key : K) (value : V) : ∃ t, s.put checks key value = some t ∧
      Lists capacity t (InsertionOrder.store capacity key value entries) := by
  rw [FifoInner.put, lists.contains_iff, InsertionOrder.store]
  cases found : Recency.find key entries with
  | some held => exact ⟨_, if_pos rfl, lists.replace value found⟩
  | none =>
      obtain ⟨t, ended, roomy, room⟩ := lists.evictLoop enough
      have absent : Recency.find key (InsertionOrder.makeRoom capacity entries) = none := by
        rw [Recency.find_eq_none] at found ⊢
        intro member
        apply found
        unfold InsertionOrder.makeRoom at member
        split at member
        · exact ((List.tail_sublist entries).map Prod.fst).subset member
        · exact member
      rw [ended]
      exact ⟨_, rfl, roomy.append value absent room⟩

theorem Lists.invalidate (lists : Lists capacity s entries) (key : K) :
    Lists capacity (s.invalidate key) (Recency.drop key entries) := by
  rw [FifoInner.invalidate, lists.contains_iff]
  cases found : Recency.find key entries with
  | some held => exact lists.drop key
  | none =>
      rw [Recency.drop_of_absent (Recency.find_eq_none.mp found)]
      exact lists

theorem take_refines (capacity : Nat) {checks : Nat} (enough : 2 ≤ checks) :
    Refines (take checks) (inserted capacity) (Lists capacity (K := K) (V := V)) := by
  intro s entries op lists
  cases op with
  | get key =>
      refine ⟨s, ?_, lists⟩
      rw [take, get, lists.map]
      rfl
  | put key value =>
      obtain ⟨t, stored, listed⟩ := lists.put enough key value
      refine ⟨t, ?_, listed⟩
      rw [take, stored]
      rfl
  | invalidate key => exact ⟨s.invalidate key, rfl, lists.invalidate key⟩

/-- With two checks of its condition for each `put` the eviction loop ends in
every run, which answers as the list in the order of insertion; the queue holds
the keys of the map. -/
theorem answers_inserted {capacity : Nat} (positive : 0 < capacity) {checks : Nat}
    (enough : 2 ≤ checks) (ops : List (CacheOp K V)) : ∃ final,
      answersFrom (take checks) (new capacity) ops =
        some (answers (inserted capacity) [] ops, final) ∧
      final.queue = (after (inserted capacity) [] ops).map Prod.fst ∧
      final.queue.Nodup ∧ (∀ key : K, key ∈ final.queue ↔ key ∈ final.map) ∧
      final.queue.length ≤ capacity ∧ final.map.size = final.queue.length := by
  obtain ⟨final, ran, lists⟩ := (take_refines capacity enough).run ops (lists_new positive)
  have length : final.queue.length = (after (inserted capacity) [] ops).length := by
    rw [lists.queue, List.length_map]
  refine ⟨final, ran, lists.queue, ?_, fun key => ?_, ?_, ?_⟩
  · rw [lists.queue]
    exact lists.distinct
  · rw [← ExtTreeMap.contains_iff_mem, lists.contains_iff, Option.isSome_iff_exists,
      InsertionOrder.find_isSome_iff, lists.queue]
  · rw [length]
    exact lists.fits
  · rw [length]
    exact lists.size

theorem answers_inserted_evicting : ∃ final,
    answersFrom (take 2) (new 2)
        [.put 1 "A", .put 2 "B", .get 1, .put 3 "C", .get 1, .get 2, .get 3] =
      some ([.done, .done, .got (some "A"), .done, .got none, .got (some "B"), .got (some "C")],
        final) ∧
    final.queue = [2, 3] ∧ final.queue.Nodup ∧ (∀ key : Nat, key ∈ final.queue ↔ key ∈ final.map) ∧
    final.queue.length ≤ 2 ∧ final.map.size = final.queue.length :=
  answers_inserted (by decide) (by decide)
    [.put 1 "A", .put 2 "B", .get 1, .put 3 "C", .get 1, .get 2, .get 3]

end FifoInner

end KindDb.Cache
