import KindDb.Cache.LruChain
import KindDb.Lib.Recency

/-! # The LRU cache refines the recency list

`WellFormed` adds to the chain that the map files each of its slots under its
key and that every other slot of the arena is free.  Under `WellFormed` no
index access can fail, and each operation does to the listed entries what the
reference list does. -/
set_option autoImplicit false

namespace KindDb.Cache

open KindDb.Lib Std

namespace LruInner

variable {K V : Type} [Ord K] [TransOrd K]

/-- The chain lists the mapped slots, the free list holds the others. -/
structure WellFormed (s : LruInner K V) (order : List Nat) : Prop extends Linked s order where
  mapped : ∀ k i, s.map[k]? = some i ↔ i ∈ order ∧ (s.nodes[i]?).map LruNode.key = some k
  free : (order ++ s.freeList).Perm (List.range s.nodes.length)
  bounded : s.nodes.length ≤ s.capacity
  positive : 0 < s.capacity

theorem wellFormed_new {capacity : Nat} (positive : 0 < capacity) :
    WellFormed (new capacity : LruInner K V) [] :=
  { nodup := List.nodup_nil
    head := rfl
    tail := rfl
    links := by simp
    mapped := by simp [new]
    free := by simp [new]
    bounded := by simp [new]
    positive := positive }

namespace WellFormed

variable {s : LruInner K V} {order : List Nat}

theorem key_mapped (wf : WellFormed s order) {i : Nat} {node : LruNode K V} (member : i ∈ order)
    (held : s.nodes[i]? = some node) : s.map[node.key]? = some i :=
  (wf.mapped node.key i).mpr ⟨member, by rw [held]; rfl⟩

theorem mapped_split (wf : WellFormed s order) {key : K} {i : Nat} (found : s.map[key]? = some i) :
    ∃ front back node, order = front ++ i :: back ∧ s.nodes[i]? = some node ∧ node.key = key := by
  obtain ⟨member, keyed⟩ := (wf.mapped key i).mp found
  obtain ⟨front, back, split⟩ := List.append_of_mem member
  obtain ⟨node, held, keyEq⟩ := Option.map_eq_some_iff.mp keyed
  exact ⟨front, back, node, split, held, keyEq⟩

theorem length_entries (wf : WellFormed s order) : (entries s order).length = order.length := by
  have all : ∀ slots : List Nat, (∀ i ∈ slots, i ∈ order) →
      (entries s slots).length = slots.length := by
    intro slots
    induction slots with
    | nil => intro _; rfl
    | cons i rest ih =>
        intro inOrder
        obtain ⟨node, held⟩ : ∃ node, s.nodes[i]? = some node :=
          ⟨_, List.getElem?_eq_getElem (wf.inBounds (inOrder i (List.mem_cons_self ..)))⟩
        rw [entries_cons held, List.length_cons, List.length_cons,
          ih fun j member => inOrder j (List.mem_cons_of_mem _ member)]
  exact all order fun _ member => member

theorem distinct (wf : WellFormed s order) : Recency.Distinct (entries s order) := by
  unfold Recency.Distinct entries
  rw [List.map_filterMap]
  refine List.pairwise_filterMap.mpr (wf.nodup.imp_of_mem ?_)
  intro i j iMember jMember different key keyI key' keyJ same
  subst same
  have slotOf : ∀ slot ∈ order, (Option.map Prod.fst
      ((s.nodes[slot]?).map fun node => (node.key, node.value))) = some key →
      s.map[key]? = some slot := by
    intro slot member keyed
    refine (wf.mapped key slot).mpr ⟨member, ?_⟩
    simpa [Option.map_map, Function.comp_def] using keyed
  have first := slotOf i iMember keyI
  have second := slotOf j jMember keyJ
  exact different (Option.some.inj (first.symm.trans second))

theorem mem_keys_iff (wf : WellFormed s order) (key : K) :
    key ∈ (entries s order).map Prod.fst ↔ ∃ i, s.map[key]? = some i := by
  constructor
  · intro member
    obtain ⟨entry, entryMember, keyEq⟩ := List.mem_map.mp member
    obtain ⟨i, iMember, entryEq⟩ := List.mem_filterMap.mp entryMember
    obtain ⟨node, held, nodeEq⟩ := Option.map_eq_some_iff.mp entryEq
    refine ⟨i, ?_⟩
    rw [← keyEq, ← nodeEq]
    exact wf.key_mapped iMember held
  · rintro ⟨i, found⟩
    obtain ⟨front, back, node, split, held, keyEq⟩ := wf.mapped_split found
    rw [split, entries_append, entries_cons held, ← keyEq]
    simp

theorem size_map [LawfulEqOrd K] (wf : WellFormed s order) : s.map.size = order.length := by
  rw [SortedMap.size_eq_length wf.distinct wf.mem_keys_iff, List.length_map, wf.length_entries]

/-- Relinking keeps the invariant, whatever order it leaves the slots in. -/
theorem relink (wf : WellFormed s order) {t : LruInner K V} {order' : List Nat}
    (same : SameContents s t) (linked : Linked t order') (perm : order'.Perm order) :
    WellFormed t order' := by
  refine { linked with mapped := ?_, free := ?_, bounded := ?_, positive := ?_ }
  · intro k i
    rw [same.map, wf.mapped k i, perm.mem_iff, key_of_entry (same.entry i)]
  · rw [same.freeList, same.length]
    exact (perm.append_right s.freeList).trans wf.free
  · rw [same.length, same.capacity]
    exact wf.bounded
  · rw [same.capacity]
    exact wf.positive

theorem moveToFront (wf : WellFormed s order) {front back : List Nat} {i : Nat}
    {node : LruNode K V} (split : order = front ++ i :: back) (held : s.nodes[i]? = some node) :
    ∃ t, s.moveToFront i = some t ∧ WellFormed t (i :: (front ++ back)) ∧
      (∃ node', t.nodes[i]? = some node' ∧ node'.value = node.value) ∧ t.capacity = s.capacity ∧
      entries t (i :: (front ++ back)) =
        (node.key, node.value) :: (entries s front ++ entries s back) := by
  subst split
  obtain ⟨t, moved, same, linked⟩ := wf.toLinked.moveToFront
  have sameEntries : entries t (i :: (front ++ back)) = entries s (i :: (front ++ back)) :=
    entries_congr fun j _ => same.entry j
  obtain ⟨node', held'⟩ : ∃ node', t.nodes[i]? = some node' :=
    ⟨_, List.getElem?_eq_getElem (linked.inBounds (List.mem_cons_self ..))⟩
  have sameSlot := same.entry i
  rw [held, held'] at sameSlot
  refine ⟨t, moved, wf.relink same linked List.perm_middle.symm,
    ⟨node', held', (Prod.mk.inj (Option.some.inj sameSlot)).2⟩, same.capacity, ?_⟩
  rw [sameEntries, entries_cons held, entries_append]

/-- Slot `i` leaves the chain and the map for the free list. -/
theorem detach [LawfulEqOrd K] [DecidableEq K] {front back : List Nat} {i : Nat}
    (wf : WellFormed s (front ++ i :: back)) {node : LruNode K V} (held : s.nodes[i]? = some node)
    {t : LruInner K V} (linked : Linked t (front ++ back)) (capacity : t.capacity = s.capacity)
    (map : t.map = s.map.erase node.key) (freeList : t.freeList = i :: s.freeList)
    (length : t.nodes.length = s.nodes.length)
    (entry : ∀ j : Nat, (t.nodes[j]?).map (fun node => (node.key, node.value)) =
      (s.nodes[j]?).map fun node => (node.key, node.value)) :
    WellFormed t (front ++ back) := by
  have atNode := wf.key_mapped (by simp) held
  refine { linked with mapped := ?_, free := ?_, bounded := ?_, positive := ?_ }
  · intro k j
    rw [map, SortedMap.lookup_erase, key_of_entry (entry j)]
    by_cases same : node.key = k
    · subst same
      simp only [if_true, reduceCtorEq, false_iff]
      rintro ⟨member, keyed⟩
      have stillMapped : s.map[node.key]? = some j :=
        (wf.mapped node.key j).mpr ⟨by simp only [List.mem_append, List.mem_cons] at member ⊢; tauto, keyed⟩
      have : i = j := Option.some.inj (atNode.symm.trans stillMapped)
      subst this
      have nodup := wf.nodup
      rw [List.nodup_middle, List.nodup_cons] at nodup
      exact nodup.1 member
    · simp only [same, if_false]
      rw [wf.mapped k j]
      constructor
      · rintro ⟨member, keyed⟩
        refine ⟨?_, keyed⟩
        have notRemoved : j ≠ i := by
          rintro rfl
          rw [held] at keyed
          exact same (Option.some.inj keyed)
        simp only [List.mem_append, List.mem_cons, notRemoved, false_or] at member ⊢
        exact member
      · rintro ⟨member, keyed⟩
        refine ⟨?_, keyed⟩
        simp only [List.mem_append, List.mem_cons] at member ⊢
        tauto
  · rw [freeList, length]
    refine List.Perm.trans ?_ wf.free
    calc (front ++ back ++ i :: s.freeList).Perm (i :: (front ++ back ++ s.freeList)) :=
          List.perm_middle
      _ |>.Perm ((i :: (front ++ back)) ++ s.freeList) := List.Perm.refl _
      _ |>.Perm (front ++ i :: back ++ s.freeList) := List.perm_middle.symm.append_right _
  · rw [length, capacity]
    exact wf.bounded
  · rw [capacity]
    exact wf.positive

/-! ## The operations -/

variable [LawfulEqOrd K] [DecidableEq K]

omit [LawfulEqOrd K] in
theorem get_refines (wf : WellFormed s order) (key : K) :
    ∃ t order', s.get key = some (Recency.find key (entries s order), t) ∧ WellFormed t order' ∧
      t.capacity = s.capacity ∧ entries t order' = Recency.touch key (entries s order) := by
  unfold LruInner.get
  cases found : s.map[key]? with
  | none =>
      have absent : Recency.find key (entries s order) = none :=
        Recency.find_eq_none.mpr fun member => by simpa [found] using (wf.mem_keys_iff key).mp member
      exact ⟨s, order, by rw [absent], wf, rfl, by rw [Recency.touch, absent]⟩
  | some idx =>
      obtain ⟨front, back, node, split, held, rfl⟩ := wf.mapped_split found
      obtain ⟨t, moved, wf', ⟨node', held', sameValue⟩, capacity, entriesEq⟩ :=
        wf.moveToFront split held
      have distinct := wf.distinct
      rw [split, entries_append, entries_cons held] at distinct
      have present : Recency.find node.key (entries s order) = some node.value := by
        rw [split, entries_append, entries_cons held, Recency.find_split distinct]
      refine ⟨t, idx :: (front ++ back), ?_, wf', capacity, ?_⟩
      · simp [moved, held', sameValue, present]
      · rw [Recency.touch, present, entriesEq, split, entries_append, entries_cons held,
          Recency.drop_split distinct]

theorem invalidate_refines (wf : WellFormed s order) (key : K) :
    ∃ t order', s.invalidate key = some t ∧ WellFormed t order' ∧ t.capacity = s.capacity ∧
      entries t order' = Recency.drop key (entries s order) := by
  unfold LruInner.invalidate
  cases found : s.map[key]? with
  | none =>
      have absent : key ∉ (entries s order).map Prod.fst := fun member => by
        simpa [found] using (wf.mem_keys_iff key).mp member
      exact ⟨s, order, rfl, wf, rfl, (Recency.drop_of_absent absent).symm⟩
  | some idx =>
      obtain ⟨front, back, node, split, held, rfl⟩ := wf.mapped_split found
      subst split
      have erased : Linked { s with map := s.map.erase node.key } (front ++ idx :: back) :=
        ⟨wf.nodup, wf.head, wf.tail, wf.links⟩
      obtain ⟨u, removed, same, linked⟩ := erased.removeNode
      have distinct := wf.distinct
      rw [entries_append, entries_cons held] at distinct
      refine ⟨{ u with freeList := idx :: u.freeList }, front ++ back, ?_, ?_, same.capacity, ?_⟩
      · simp [removed]
      · exact wf.detach held ⟨linked.nodup, linked.head, linked.tail, linked.links⟩ same.capacity
          same.map (congrArg (idx :: ·) same.freeList) same.length same.entry
      · rw [entries_append (s := s), entries_cons held, Recency.drop_split distinct,
          ← entries_append]
        exact entries_congr fun j _ => same.entry j

/-- `put` on a full cache first frees the slot at the tail. -/
theorem evictTail_spec (wf : WellFormed s order) :
    ∃ t order', s.evictTail = some t ∧ WellFormed t order' ∧ t.capacity = s.capacity ∧
      order'.length < s.capacity ∧ (∀ k : K, s.map[k]? = none → t.map[k]? = none) ∧
      entries t order' =
        if s.capacity ≤ (entries s order).length then (entries s order).dropLast
        else entries s order := by
  unfold LruInner.evictTail
  rw [wf.size_map, wf.length_entries]
  by_cases full : s.capacity ≤ order.length
  · rcases List.eq_nil_or_concat order with rfl | ⟨front, last, rfl⟩
    · have := wf.positive
      simp only [List.length_nil] at full
      omega
    · rw [List.concat_eq_append] at wf full ⊢
      have isTail : s.tail = some last := by simp [wf.tail]
      obtain ⟨node, held⟩ : ∃ node, s.nodes[last]? = some node :=
        ⟨_, List.getElem?_eq_getElem (wf.inBounds (by simp))⟩
      obtain ⟨u, removed, same, linked⟩ := wf.toLinked.removeNode
      obtain ⟨node', held'⟩ : ∃ node', u.nodes[last]? = some node' := by
        have := same.entry last
        rw [held] at this
        obtain ⟨node', held', _⟩ := Option.map_eq_some_iff.mp this
        exact ⟨node', held'⟩
      have sameKey : node'.key = node.key := by
        have := key_of_entry (same.entry last)
        rw [held, held'] at this
        exact Option.some.inj this
      refine ⟨{ u with map := u.map.erase node'.key, freeList := last :: u.freeList }, front ++ [],
        ?_, ?_, same.capacity, ?_, ?_, ?_⟩
      · rw [if_pos full]
        simp [isTail, removed, held']
      · exact wf.detach held ⟨linked.nodup, linked.head, linked.tail, linked.links⟩ same.capacity
          (by rw [sameKey, same.map]) (congrArg (last :: ·) same.freeList) same.length same.entry
      · have frontLength : (front ++ [last]).length ≤ s.nodes.length := by
          have := wf.free.length_eq
          simp only [List.length_append, List.length_range] at this ⊢
          omega
        have := wf.bounded
        simp only [List.length_append, List.length_cons, List.length_nil, List.append_nil]
          at frontLength ⊢
        omega
      · intro k free
        show (u.map.erase node'.key)[k]? = none
        rw [SortedMap.lookup_erase, same.map, free, ite_self]
      · rw [if_pos full, entries_append (s := s), entries_cons held]
        simp only [entries, List.filterMap_nil, List.dropLast_concat, List.append_nil]
        exact entries_congr fun j _ => same.entry j
  · exact ⟨s, order, by simp [full], wf, rfl, by omega, fun _ free => free, by simp [full]⟩

omit [LawfulEqOrd K] [DecidableEq K] in
/-- A slot outside the chain receives the new node; chain and map stay as they are. -/
theorem allocate_spec (wf : WellFormed s order) (room : order.length < s.capacity)
    (node : LruNode K V) :
    ∃ idx t, s.allocate node = some (idx, t) ∧ idx ∉ order ∧ Linked t order ∧
      t.nodes[idx]? = some node ∧ (∀ j ∈ order, t.nodes[j]? = s.nodes[j]?) ∧ t.map = s.map ∧
      t.capacity = s.capacity ∧ (idx :: order ++ t.freeList).Perm (List.range t.nodes.length) ∧
      t.nodes.length ≤ s.capacity := by
  have keepsChain : ∀ t : LruInner K V, t.head = s.head → t.tail = s.tail →
      (∀ j ∈ order, t.nodes[j]? = s.nodes[j]?) → Linked t order := by
    intro t head tail nodes
    refine ⟨wf.nodup, head.trans wf.head, tail.trans wf.tail, fun front i back split => ?_⟩
    obtain ⟨held, heldSlot, links⟩ := wf.links front i back split
    exact ⟨held, by rw [nodes i (split ▸ by simp), heldSlot], links⟩
  unfold LruInner.allocate
  cases freeCase : s.freeList with
  | nil =>
      have perm := wf.free
      rw [freeCase, List.append_nil] at perm
      have length : order.length = s.nodes.length := by simpa using perm.length_eq
      have fresh : s.nodes.length ∉ order := fun member => by
        simpa using perm.mem_iff.mp member
      have nodes : ∀ j ∈ order, (s.nodes ++ [node])[j]? = s.nodes[j]? := fun j member =>
        List.getElem?_append_left (wf.inBounds member)
      refine ⟨s.nodes.length, { s with nodes := s.nodes ++ [node] }, by simp [freeCase], fresh,
        keepsChain _ rfl rfl nodes, by simp, nodes, rfl, rfl, ?_, ?_⟩
      · simp only [freeCase, List.append_nil, List.length_append, List.length_cons, List.length_nil,
          List.range_succ]
        exact (List.Perm.cons _ perm).trans (List.perm_append_singleton _ _).symm
      · simp only [List.length_append, List.length_cons, List.length_nil]
        omega
  | cons idx rest =>
      have perm := wf.free
      rw [freeCase] at perm
      have inBounds : idx < s.nodes.length := by
        have : idx ∈ order ++ idx :: rest := by simp
        simpa using perm.mem_iff.mp this
      have fresh : idx ∉ order := by
        have nodup : (order ++ idx :: rest).Nodup := perm.nodup_iff.mpr List.nodup_range
        exact fun member =>
          (List.nodup_append.mp nodup).2.2 idx member idx (List.mem_cons_self ..) rfl
      have nodes : ∀ j ∈ order, (s.nodes.modify idx fun _ => node)[j]? = s.nodes[j]? := by
        intro j member
        have other : idx ≠ j := fun same => fresh (same ▸ member)
        simp [other]
      refine ⟨idx, { s with freeList := rest, nodes := s.nodes.modify idx fun _ => node }, ?_, fresh,
        keepsChain _ rfl rfl nodes, ?_, nodes, rfl, rfl, ?_, ?_⟩
      · simp [modifyNode, inBounds]
      · simp [inBounds]
      · simp only [List.length_modify]
        exact List.perm_middle.symm.trans perm
      · simp only [List.length_modify]
        exact wf.bounded

omit [LawfulEqOrd K] [DecidableEq K] in
/-- Overwriting the value of a chained slot. -/
theorem setValue (wf : WellFormed s order) (idx : Nat) (value : V) :
    WellFormed { s with nodes := s.nodes.modify idx fun node => { node with value } } order := by
  have slots : ∀ j : Nat, (s.nodes.modify idx fun node => { node with value })[j]? =
      (s.nodes[j]?).map fun node => if idx = j then { node with value } else node := by
    intro j
    rw [List.getElem?_modify]
    cases s.nodes[j]? with
    | none => rfl
    | some other => by_cases same : idx = j <;> simp [same]
  refine ⟨⟨wf.nodup, wf.head, wf.tail, ?_⟩, ?_, ?_, ?_, wf.positive⟩
  · intro front i back split
    obtain ⟨other, heldSlot, prev, next⟩ := wf.links front i back split
    refine ⟨if idx = i then { other with value } else other, by rw [slots, heldSlot]; rfl, ?_, ?_⟩
    · by_cases same : idx = i <;> simp [same, prev]
    · by_cases same : idx = i <;> simp [same, next]
  · intro k i
    rw [wf.mapped k i, slots]
    cases s.nodes[i]? with
    | none => rfl
    | some other => by_cases same : idx = i <;> simp [same]
  · simpa using wf.free
  · simpa using wf.bounded

omit [LawfulEqOrd K] in
theorem put_present (wf : WellFormed s order) {key : K} (value : V) {idx : Nat}
    (found : s.map[key]? = some idx) :
    ∃ t order', s.put key value = some t ∧ WellFormed t order' ∧ t.capacity = s.capacity ∧
      entries t order' = (key, value) :: Recency.drop key (entries s order) := by
  obtain ⟨front, back, node, split, held, rfl⟩ := wf.mapped_split found
  have inBounds : idx < s.nodes.length := (List.getElem?_eq_some_iff.mp held).1
  have written := wf.setValue idx value
  set s' : LruInner K V := { s with nodes := s.nodes.modify idx fun node => { node with value } }
    with writtenDef
  have held' : s'.nodes[idx]? = some { node with value } := by simp [writtenDef, held]
  obtain ⟨t, moved, wf', _, capacity, entriesEq⟩ := written.moveToFront split held'
  have nodup := wf.nodup
  rw [split, List.nodup_middle, List.nodup_cons] at nodup
  have others : ∀ slots : List Nat, idx ∉ slots → entries s' slots = entries s slots := by
    intro slots absent
    refine entries_congr fun j member => ?_
    have other : idx ≠ j := fun same => absent (same ▸ member)
    simp [writtenDef, other]
  have distinct := wf.distinct
  rw [split, entries_append, entries_cons held] at distinct
  refine ⟨t, idx :: (front ++ back), ?_, wf', capacity, ?_⟩
  · simp [LruInner.put, found, modifyNode, inBounds, ← writtenDef, moved]
  · rw [entriesEq, others front fun member => nodup.1 (List.mem_append_left back member),
      others back fun member => nodup.1 (List.mem_append_right front member), split,
      entries_append, entries_cons held, Recency.drop_split distinct]

theorem put_absent (wf : WellFormed s order) {key : K} (value : V) (free : s.map[key]? = none) :
    ∃ t order', s.put key value = some t ∧ WellFormed t order' ∧ t.capacity = s.capacity ∧
      entries t order' = (key, value) ::
        if s.capacity ≤ (entries s order).length then (entries s order).dropLast
        else entries s order := by
  obtain ⟨u, order', evicted, wfEvicted, capacity, room, stillFree, entriesEvicted⟩ :=
    wf.evictTail_spec
  rw [← capacity] at room
  obtain ⟨idx, v, allocated, fresh, linked, placed, kept, map, capacity', perm, bounded⟩ :=
    wfEvicted.allocate_spec room { key, value, prev := none, next := none }
  have inBounds : idx < v.nodes.length := (List.getElem?_eq_some_iff.mp placed).1
  have filed : Linked { v with map := v.map.insert key idx } order' :=
    ⟨linked.nodup, linked.head, linked.tail, linked.links⟩
  obtain ⟨t, linkedIn, same, linkedFinal⟩ := filed.linkFront inBounds fresh
  have keyAt : ∀ j : Nat, (t.nodes[j]?).map LruNode.key = (v.nodes[j]?).map LruNode.key := fun j =>
    key_of_entry (same.entry j)
  refine ⟨t, idx :: order', ?_, ?_, ?_, ?_⟩
  · simp [LruInner.put, free, evicted, allocated, linkedIn]
  · refine { linkedFinal with mapped := ?_, free := ?_, bounded := ?_, positive := ?_ }
    · intro k i
      have tMap : t.map[k]? = if key = k then some idx else u.map[k]? := by
        rw [same.map]
        show (v.map.insert key idx)[k]? = _
        rw [SortedMap.lookup_insert, map]
      rw [tMap, keyAt i]
      by_cases new : idx = i
      · subst new
        simp only [placed, Option.map_some, List.mem_cons, true_or, true_and, Option.some.injEq]
        by_cases sameKey : key = k
        · simp [sameKey]
        · simp only [sameKey, if_false, iff_false]
          intro oldMapped
          exact fresh ((wfEvicted.mapped k idx).mp oldMapped).1
      · simp only [List.mem_cons, Ne.symm new, false_or]
        by_cases sameKey : key = k
        · subst sameKey
          simp only [if_true, Option.some.injEq, new, false_iff]
          rintro ⟨member, keyed⟩
          rw [kept i member] at keyed
          have := (wfEvicted.mapped key i).mpr ⟨member, keyed⟩
          rw [stillFree key free] at this
          cases this
        · simp only [sameKey, if_false, wfEvicted.mapped k i]
          exact and_congr_right fun member => by rw [kept i member]
    · rw [same.freeList, same.length]
      exact perm
    · rw [same.length, same.capacity]
      show v.nodes.length ≤ v.capacity
      rw [capacity']
      exact bounded
    · rw [same.capacity]
      show 0 < v.capacity
      rw [capacity', capacity]
      exact wf.positive
  · rw [same.capacity]
    exact capacity'.trans capacity
  · rw [← entriesEvicted]
    have asPlaced : entries t (idx :: order') = entries v (idx :: order') :=
      entries_congr fun j _ => same.entry j
    rw [asPlaced, entries_cons placed]
    exact congrArg _ (entries_congr fun j member => by rw [kept j member])

theorem put_refines (wf : WellFormed s order) (key : K) (value : V) :
    ∃ t order', s.put key value = some t ∧ WellFormed t order' ∧ t.capacity = s.capacity ∧
      entries t order' = Recency.store s.capacity key value (entries s order) := by
  cases found : s.map[key]? with
  | some idx =>
      obtain ⟨held, present⟩ : ∃ held, Recency.find key (entries s order) = some held := by
        refine Option.ne_none_iff_exists'.mp fun absent => ?_
        exact Recency.find_eq_none.mp absent ((wf.mem_keys_iff key).mpr ⟨idx, found⟩)
      obtain ⟨t, order', stored, wf', capacity, entriesEq⟩ := wf.put_present value found
      exact ⟨t, order', stored, wf', capacity, by rw [entriesEq, Recency.store, present]⟩
  | none =>
      have absent : Recency.find key (entries s order) = none :=
        Recency.find_eq_none.mpr fun member => by simpa [found] using (wf.mem_keys_iff key).mp member
      obtain ⟨t, order', stored, wf', capacity, entriesEq⟩ := wf.put_absent value found
      refine ⟨t, order', stored, wf', capacity, ?_⟩
      rw [entriesEq, Recency.store, absent]
      split_ifs <;> rfl

end WellFormed

end LruInner

end KindDb.Cache
