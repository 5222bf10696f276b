import KindDb.Cache.LruRefinement
import KindDb.Cache.Trait

/-! # Runs of the LRU cache

Every run of the arena from the empty cache answers as the recency list does.
In every state it reaches, the chain read from either end visits the slots of
the map, and the free list holds all the other slots of the arena. -/
set_option autoImplicit false

namespace KindDb.Cache

open KindDb.Lib KindDb.Lib.Runs KindDb.Lib.Refinement Std

namespace LruInner

variable {K V : Type} [Ord K] [TransOrd K]

/-- One operation; `none` is the panic of an index out of bounds. -/
def take (s : LruInner K V) : CacheOp K V → Option (CacheAnswer V × LruInner K V)
  | .get key => (s.get key).map fun result => (.got result.1, result.2)
  | .put key value => (s.put key value).map fun t => (.done, t)
  | .invalidate key => (s.invalidate key).map fun t => (.done, t)

/-- The reference list under the operations of the trait. -/
def recent [DecidableEq K] (capacity : Nat) (entries : List (K × V)) :
    CacheOp K V → CacheAnswer V × List (K × V)
  | .get key => (.got (Recency.find key entries), Recency.touch key entries)
  | .put key value => (.done, Recency.store capacity key value entries)
  | .invalidate key => (.done, Recency.drop key entries)

/-! ## Walks along the chain -/

/-- The slots that are visited along a link, if the walk ends within so many
slots and stays in bounds. -/
def walk (s : LruInner K V) (link : LruNode K V → Option Nat) : Nat → Option Nat →
    Option (List Nat)
  | _, none => some []
  | 0, some _ => none
  | fuel + 1, some i =>
      match s.nodes[i]? with
      | none => none
      | some node => (s.walk link fuel (link node)).map (i :: ·)

/-- The walk from `head` along `next`. -/
def forward (s : LruInner K V) : Option (List Nat) :=
  s.walk LruNode.next s.nodes.length s.head

/-- The walk from `tail` along `prev`. -/
def backward (s : LruInner K V) : Option (List Nat) :=
  s.walk LruNode.prev s.nodes.length s.tail

variable {s : LruInner K V} {order : List Nat}

omit [TransOrd K] in
theorem Linked.walk_next (linked : Linked s order) {front back : List Nat}
    (split : order = front ++ back) {fuel : Nat} (enough : back.length ≤ fuel) :
    s.walk LruNode.next fuel back.head? = some back := by
  induction back generalizing front fuel with
  | nil => cases fuel <;> rfl
  | cons i back ih =>
      cases fuel with
      | zero => simp at enough
      | succ fuel =>
          obtain ⟨node, held, _, next⟩ := linked.links front i back split
          have inner : order = (front ++ [i]) ++ back := by rw [split, List.append_assoc]; rfl
          have later := ih inner (Nat.le_of_succ_le_succ enough)
          rw [List.head?_cons, walk, held]
          simp only [next, later]
          rfl

omit [TransOrd K] in
theorem Linked.walk_prev (linked : Linked s order) {front back : List Nat}
    (split : order = front ++ back) {fuel : Nat} (enough : front.length ≤ fuel) :
    s.walk LruNode.prev fuel front.getLast? = some front.reverse := by
  induction front using List.reverseRecOn generalizing back fuel with
  | nil => cases fuel <;> rfl
  | append_singleton front i ih =>
      cases fuel with
      | zero => simp at enough
      | succ fuel =>
          rw [List.append_assoc] at split
          obtain ⟨node, held, prev, _⟩ := linked.links front i back split
          have fits : front.length ≤ fuel := by
            rw [List.length_append, List.length_singleton] at enough
            exact Nat.le_of_succ_le_succ enough
          have earlier := ih split fits
          rw [List.getLast?_concat, walk, held]
          simp only [prev, earlier]
          rw [List.reverse_concat]
          rfl

theorem WellFormed.order_le (wf : WellFormed s order) : order.length ≤ s.nodes.length := by
  have whole := wf.free.length_eq
  rw [List.length_append, List.length_range] at whole
  omega

theorem WellFormed.forward (wf : WellFormed s order) : s.forward = some order := by
  have walked := wf.walk_next (List.nil_append order).symm wf.order_le
  rwa [← wf.head] at walked

theorem WellFormed.backward (wf : WellFormed s order) : s.backward = some order.reverse := by
  have walked := wf.walk_prev (List.append_nil order).symm wf.order_le
  rwa [← wf.tail] at walked

/-- The pairs that the walk from `head` finds. -/
def walked (s : LruInner K V) : Option (List (K × V)) := s.forward.map s.entries

/-! ## Runs -/

variable [LawfulEqOrd K] [DecidableEq K]

/-- The arena holds the list, with some order of its slots. -/
def Lists (capacity : Nat) (s : LruInner K V) (entries : List (K × V)) : Prop :=
  s.capacity = capacity ∧ ∃ order, WellFormed s order ∧ s.entries order = entries

theorem take_refines (capacity : Nat) :
    Refines take (recent capacity) (Lists capacity (K := K) (V := V)) := by
  rintro s entries op ⟨sameCapacity, order, wf, rfl⟩
  cases op with
  | get key =>
      obtain ⟨t, order', got, wf', kept, same⟩ := wf.get_refines key
      exact ⟨t, by rw [take, got]; rfl, kept.trans sameCapacity, order', wf', same⟩
  | put key value =>
      obtain ⟨t, order', stored, wf', kept, same⟩ := wf.put_refines key value
      rw [sameCapacity] at same
      exact ⟨t, by rw [take, stored]; rfl, kept.trans sameCapacity, order', wf', same⟩
  | invalidate key =>
      obtain ⟨t, order', dropped, wf', kept, same⟩ := wf.invalidate_refines key
      exact ⟨t, by rw [take, dropped]; rfl, kept.trans sameCapacity, order', wf', same⟩

theorem run_lists {capacity : Nat} (positive : 0 < capacity) (ops : List (CacheOp K V)) :
    ∃ final, answersFrom take (new capacity) ops = some (answers (recent capacity) [] ops, final) ∧
      Lists capacity final (after (recent capacity) [] ops) :=
  (take_refines capacity).run ops ⟨rfl, [], wellFormed_new positive, rfl⟩

/-- Every run answers as the recency list, and the walk from `head` finds the
list. -/
theorem answers_recent {capacity : Nat} (positive : 0 < capacity) (ops : List (CacheOp K V)) :
    ∃ final, answersFrom take (new capacity) ops = some (answers (recent capacity) [] ops, final) ∧
      final.walked = some (after (recent capacity) [] ops) := by
  obtain ⟨final, ran, _, order, wf, same⟩ := run_lists positive ops
  refine ⟨final, ran, ?_⟩
  rw [walked, wf.forward, Option.map_some, same]

theorem answers_recent_evicting :
    ∃ final, answersFrom take (new 2)
        [.put 1 "A", .put 2 "B", .get 1, .put 3 "C", .get 2, .get 3, .get 1, .invalidate 3] =
      some ([.done, .done, .got (some "A"), .done, .got none, .got (some "C"), .got (some "A"),
        .done], final) ∧ final.walked = some [(1, "A")] :=
  answers_recent (by decide) [.put 1 "A", .put 2 "B", .get 1, .put 3 "C", .get 2, .get 3, .get 1,
    .invalidate 3]

/-! ## The arena in every state -/

/-- The slots are divided between the chain and the free list, and the chain is
what the map files. -/
structure Sound (s : LruInner K V) (chain : List Nat) : Prop where
  forward : s.forward = some chain
  backward : s.backward = some chain.reverse
  head : s.head = chain.head?
  tail : s.tail = chain.getLast?
  mapped : ∀ i, i ∈ chain ↔ ∃ key : K, s.map[key]? = some i
  keyed : ∀ i ∈ chain, ∃ node, s.nodes[i]? = some node ∧ s.map[node.key]? = some i
  distinct : chain.Nodup ∧ s.freeList.Nodup ∧ chain.Disjoint s.freeList
  covered : ∀ i, i < s.nodes.length ↔ i ∈ chain ∨ i ∈ s.freeList
  bounded : s.nodes.length ≤ s.capacity

omit [LawfulEqOrd K] [DecidableEq K] in
theorem WellFormed.sound (wf : WellFormed s order) : Sound s order := by
  have distinct : (order ++ s.freeList).Nodup := wf.free.nodup_iff.mpr List.nodup_range
  have keyed : ∀ i ∈ order, ∃ node, s.nodes[i]? = some node ∧ s.map[node.key]? = some i := by
    intro i member
    have held : s.nodes[i]? = some _ := List.getElem?_eq_getElem (wf.inBounds member)
    exact ⟨_, held, wf.key_mapped member held⟩
  refine ⟨wf.forward, wf.backward, wf.head, wf.tail, fun i => ⟨fun member => ?_, ?_⟩, keyed,
    ⟨wf.nodup, distinct.of_append_right, List.disjoint_of_nodup_append distinct⟩, fun i => ?_,
    wf.bounded⟩
  · obtain ⟨node, _, filed⟩ := keyed i member
    exact ⟨node.key, filed⟩
  · rintro ⟨key, filed⟩
    exact ((wf.mapped key i).mp filed).1
  · rw [← List.mem_append, wf.free.mem_iff, List.mem_range]

/-- No run reaches an index out of bounds, and the arena it reaches is sound. -/
theorem run_sound {capacity : Nat} (positive : 0 < capacity) (ops : List (CacheOp K V)) :
    ∃ answered final, answersFrom take (new capacity) ops = some (answered, final) ∧
      final.capacity = capacity ∧ ∃ chain, Sound final chain := by
  obtain ⟨final, ran, kept, order, wf, _⟩ := run_lists positive ops
  exact ⟨_, final, ran, kept, order, wf.sound⟩

theorem run_sound_reusing :
    ∃ answered final, answersFrom take (new 2)
        [.put 1 "A", .put 2 "B", .invalidate 1, .put 3 "C", .put 4 "D"] =
      some (answered, final) ∧ final.capacity = 2 ∧ ∃ chain, Sound final chain :=
  run_sound (by decide) [.put 1 "A", .put 2 "B", .invalidate 1, .put 3 "C", .put 4 "D"]

end LruInner

end KindDb.Cache
