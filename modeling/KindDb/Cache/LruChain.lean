import KindDb.Cache.Lru

/-! # The recency chain of the LRU arena

`Linked s order` says that the slots of `order`, and only these, are chained
from `head` to `tail` in that order.  The three relinking steps of the source
(`remove_node`, linking in at the front, `move_to_front`) are followed link by
link; on a linked arena none of them reaches an index out of bounds. -/
set_option autoImplicit false

namespace KindDb.Cache

open KindDb.Lib Std

namespace LruInner

variable {K V : Type} [Ord K]

structure Linked (s : LruInner K V) (order : List Nat) : Prop where
  nodup : order.Nodup
  head : s.head = order.head?
  tail : s.tail = order.getLast?
  links : ∀ front i back, order = front ++ i :: back → ∃ node, s.nodes[i]? = some node ∧
    node.prev = front.getLast? ∧ node.next = back.head?

/-- Everything but the chain: what a relinking leaves alone. -/
structure SameContents (s t : LruInner K V) : Prop where
  capacity : t.capacity = s.capacity
  map : t.map = s.map
  freeList : t.freeList = s.freeList
  length : t.nodes.length = s.nodes.length
  entry : ∀ i : Nat, (t.nodes[i]?).map (fun node => (node.key, node.value)) =
    (s.nodes[i]?).map fun node => (node.key, node.value)

theorem SameContents.refl (s : LruInner K V) : SameContents s s :=
  ⟨rfl, rfl, rfl, rfl, fun _ => rfl⟩

theorem SameContents.trans {s t u : LruInner K V} (first : SameContents s t)
    (second : SameContents t u) : SameContents s u :=
  ⟨second.capacity.trans first.capacity, second.map.trans first.map,
    second.freeList.trans first.freeList, second.length.trans first.length,
    fun i => (second.entry i).trans (first.entry i)⟩

/-! ## One link at a time -/

theorem Linked.inBounds {s : LruInner K V} {order : List Nat} (linked : Linked s order) {i : Nat}
    (member : i ∈ order) : i < s.nodes.length := by
  obtain ⟨front, back, split⟩ := List.append_of_mem member
  obtain ⟨node, held, _⟩ := linked.links front i back split
  exact (List.getElem?_eq_some_iff.mp held).1

/-- What slot `j` holds once slot `i` is taken out from between `prev` and `next`. -/
def afterRemove (prev next : Option Nat) (i j : Nat) (node : LruNode K V) : LruNode K V :=
  { node with
    prev := if i = j then none else if next = some j then prev else node.prev
    next := if i = j then none else if prev = some j then next else node.next }

/-- What slot `j` holds once slot `i` is linked in before `head`. -/
def afterLink (head : Option Nat) (i j : Nat) (node : LruNode K V) : LruNode K V :=
  { node with
    prev := if i = j then none else if head = some j then some i else node.prev
    next := if i = j then head else node.next }

theorem sameContents_of_relink {s t : LruInner K V} (relink : Nat → LruNode K V → LruNode K V)
    (capacity : t.capacity = s.capacity) (map : t.map = s.map) (freeList : t.freeList = s.freeList)
    (length : t.nodes.length = s.nodes.length)
    (nodes : ∀ j : Nat, t.nodes[j]? = (s.nodes[j]?).map (relink j))
    (keeps : ∀ j node, ((relink j node).key, (relink j node).value) = (node.key, node.value)) :
    SameContents s t := by
  refine ⟨capacity, map, freeList, length, fun j => ?_⟩
  rw [nodes j, Option.map_map]
  cases s.nodes[j]? with
  | none => rfl
  | some node => exact congrArg some (keeps j node)

theorem removeNode_spec {s : LruInner K V} {i : Nat} {node : LruNode K V}
    (held : s.nodes[i]? = some node)
    (prevInBounds : ∀ p, node.prev = some p → p < s.nodes.length)
    (nextInBounds : ∀ n, node.next = some n → n < s.nodes.length) :
    ∃ t, s.removeNode i = some t ∧ SameContents s t ∧
      t.head = (if node.prev = none then node.next else s.head) ∧
      t.tail = (if node.next = none then node.prev else s.tail) ∧
      ∀ j : Nat, t.nodes[j]? = (s.nodes[j]?).map (afterRemove node.prev node.next i j) := by
  have inBounds : i < s.nodes.length := (List.getElem?_eq_some_iff.mp held).1
  have described : ∃ t, s.removeNode i = some t ∧ t.capacity = s.capacity ∧ t.map = s.map ∧
      t.freeList = s.freeList ∧ t.nodes.length = s.nodes.length ∧
      t.head = (if node.prev = none then node.next else s.head) ∧
      t.tail = (if node.next = none then node.prev else s.tail) ∧
      ∀ j : Nat, t.nodes[j]? = (s.nodes[j]?).map (afterRemove node.prev node.next i j) := by
    obtain ⟨key, value, prev, next⟩ := node
    unfold removeNode
    rw [held]
    cases prev with
    | none =>
        cases next with
        | none =>
            simp only [setPrev, setNext, modifyNode, Option.bind_eq_bind, Option.bind_some, inBounds,
              if_true, List.length_modify]
            refine ⟨_, rfl, rfl, rfl, rfl, by simp, by simp, by simp, fun j => ?_⟩
            rw [List.getElem?_modify, List.getElem?_modify]
            cases s.nodes[j]? with
            | none => rfl
            | some other => by_cases same : i = j <;> simp [afterRemove, same]
        | some n =>
            have nInBounds := nextInBounds n rfl
            simp only [setPrev, setNext, modifyNode, Option.bind_eq_bind, Option.bind_some, inBounds,
              nInBounds, if_true, List.length_modify]
            refine ⟨_, rfl, rfl, rfl, rfl, by simp, by simp, by simp, fun j => ?_⟩
            rw [List.getElem?_modify, List.getElem?_modify, List.getElem?_modify]
            cases s.nodes[j]? with
            | none => rfl
            | some other =>
                by_cases same : i = j <;> by_cases after : n = j <;>
                  simp [afterRemove, same, after]
    | some p =>
        have pInBounds := prevInBounds p rfl
        cases next with
        | none =>
            simp only [setPrev, setNext, modifyNode, Option.bind_eq_bind, Option.bind_some, inBounds,
              pInBounds, if_true, List.length_modify]
            refine ⟨_, rfl, rfl, rfl, rfl, by simp, by simp, by simp, fun j => ?_⟩
            rw [List.getElem?_modify, List.getElem?_modify, List.getElem?_modify]
            cases s.nodes[j]? with
            | none => rfl
            | some other =>
                by_cases same : i = j <;> by_cases before : p = j <;>
                  simp [afterRemove, same, before]
        | some n =>
            have nInBounds := nextInBounds n rfl
            simp only [setPrev, setNext, modifyNode, Option.bind_eq_bind, Option.bind_some, inBounds,
              pInBounds, nInBounds, if_true, List.length_modify]
            refine ⟨_, rfl, rfl, rfl, rfl, by simp, by simp, by simp, fun j => ?_⟩
            rw [List.getElem?_modify, List.getElem?_modify, List.getElem?_modify,
              List.getElem?_modify]
            cases s.nodes[j]? with
            | none => rfl
            | some other =>
                by_cases same : i = j <;> by_cases before : p = j <;> by_cases after : n = j <;>
                  simp [afterRemove, same, before, after]
  obtain ⟨t, removed, capacity, map, freeList, length, head, tail, nodes⟩ := described
  exact ⟨t, removed, sameContents_of_relink (afterRemove node.prev node.next i) capacity map
    freeList length nodes fun _ _ => rfl, head, tail, nodes⟩

theorem linkFront_spec {s : LruInner K V} {i : Nat} (inBounds : i < s.nodes.length)
    (headInBounds : ∀ h, s.head = some h → h < s.nodes.length) (fresh : s.head ≠ some i) :
    ∃ t, s.linkFront i = some t ∧ SameContents s t ∧ t.head = some i ∧
      t.tail = (if s.tail.isNone then some i else s.tail) ∧
      ∀ j : Nat, t.nodes[j]? = (s.nodes[j]?).map (afterLink s.head i j) := by
  have described : ∃ t, s.linkFront i = some t ∧ t.capacity = s.capacity ∧ t.map = s.map ∧
      t.freeList = s.freeList ∧ t.nodes.length = s.nodes.length ∧ t.head = some i ∧
      t.tail = (if s.tail.isNone then some i else s.tail) ∧
      ∀ j : Nat, t.nodes[j]? = (s.nodes[j]?).map (afterLink s.head i j) := by
    obtain ⟨capacity, map, nodes, freeList, head, tail⟩ := s
    unfold linkFront
    cases head with
    | none =>
        simp only [setPrev, setNext, modifyNode, Option.bind_eq_bind, Option.bind_some, inBounds,
          if_true, List.length_modify]
        refine ⟨_, rfl, ?_, ?_, ?_, ?_, ?_, ?_, fun j => ?_⟩
        all_goals cases tail <;> simp
        all_goals
          rw [List.getElem?_modify, List.getElem?_modify]
          cases nodes[j]? with
          | none => rfl
          | some other => by_cases same : i = j <;> simp [afterLink, same]
    | some h =>
        have hInBounds := headInBounds h rfl
        have other : h ≠ i := fun same => fresh (congrArg some same)
        simp only [setPrev, setNext, modifyNode, Option.bind_eq_bind, Option.bind_some, inBounds,
          hInBounds, if_true, List.length_modify]
        refine ⟨_, rfl, ?_, ?_, ?_, ?_, ?_, ?_, fun j => ?_⟩
        all_goals cases tail <;> simp
        all_goals
          rw [List.getElem?_modify, List.getElem?_modify, List.getElem?_modify]
          cases nodes[j]? with
          | none => rfl
          | some held =>
              by_cases same : i = j
              · subst same
                simp [afterLink, other]
              · by_cases first : h = j <;> simp [afterLink, same, first]
  obtain ⟨t, linkedIn, capacity, map, freeList, length, head, tail, nodes⟩ := described
  exact ⟨t, linkedIn, sameContents_of_relink (afterLink s.head i) capacity map freeList length
    nodes fun _ _ => rfl, head, tail, nodes⟩

theorem mem_side {front back front' back' : List Nat} {j : Nat}
    (split : front ++ back = front' ++ j :: back') :
    (∃ mid, front' = front ++ mid ∧ back = mid ++ j :: back') ∨
      ∃ mid, front = front' ++ j :: mid ∧ back' = mid ++ back := by
  rcases List.append_eq_append_iff.mp split with ⟨mid, frontSplit, backSplit⟩ |
    ⟨mid, frontSplit, tailSplit⟩
  · exact Or.inl ⟨mid, frontSplit, backSplit⟩
  · cases mid with
    | nil => exact Or.inl ⟨[], by simpa using frontSplit.symm, by simpa using tailSplit.symm⟩
    | cons first mid =>
        simp only [List.cons_append, List.cons.injEq] at tailSplit
        obtain ⟨rfl, tailSplit⟩ := tailSplit
        exact Or.inr ⟨mid, frontSplit, tailSplit⟩

/-! ## The chain after a removal and after an insertion at the front -/

theorem Linked.removeNode {s : LruInner K V} {front back : List Nat} {i : Nat}
    (linked : Linked s (front ++ i :: back)) :
    ∃ t, s.removeNode i = some t ∧ SameContents s t ∧ Linked t (front ++ back) := by
  obtain ⟨node, held, prev, next⟩ := linked.links front i back rfl
  have parts := List.nodup_append.mp linked.nodup
  have backParts := List.nodup_cons.mp parts.2.1
  have frontNotBack : ∀ j ∈ front, j ∉ back := fun j inFront inBack =>
    parts.2.2 j inFront j (List.mem_cons_of_mem _ inBack) rfl
  have frontNot : i ∉ front := fun inFront =>
    parts.2.2 i inFront i (List.mem_cons_self ..) rfl
  obtain ⟨t, removed, same, head, tail, nodes⟩ := removeNode_spec held
    (fun p before => linked.inBounds (by
      have : p ∈ front := List.mem_of_getLast? (prev ▸ before)
      simp [this]))
    (fun n after => linked.inBounds (by
      have : n ∈ back := List.mem_of_head? (next ▸ after)
      simp [this]))
  refine ⟨t, removed, same, ?_, ?_, ?_, ?_⟩
  · exact List.nodup_append.mpr ⟨parts.1, backParts.2, fun a inFront b inBack eq =>
      frontNotBack a inFront (eq ▸ inBack)⟩
  · rw [head, prev, next, linked.head]
    cases front with
    | nil => simp
    | cons first rest => simp [List.getLast?_cons]
  · rw [tail, prev, next, linked.tail]
    cases back with
    | nil => simp
    | cons first rest => simp [List.getLast?_append, List.getLast?_cons]
  · intro front' j back' split
    rcases mem_side split with ⟨mid, frontSplit, backSplit⟩ | ⟨mid, frontSplit, backSplit⟩
    · -- `j` stands behind the removed slot
      have inBack : j ∈ back := backSplit ▸ List.mem_append_right mid (List.mem_cons_self ..)
      have other : i ≠ j := fun same => backParts.1 (same ▸ inBack)
      obtain ⟨held, heldSlot, heldPrev, heldNext⟩ :=
        linked.links (front ++ i :: mid) j back' (by simp [backSplit])
      have notPrev : node.prev ≠ some j := fun before =>
        frontNotBack j (List.mem_of_getLast? (prev ▸ before)) inBack
      refine ⟨afterRemove node.prev node.next i j held, by rw [nodes, heldSlot]; rfl, ?_, ?_⟩
      · simp only [afterRemove, other, if_false]
        cases mid with
        | nil => simp [next, backSplit, prev, frontSplit]
        | cons first mid =>
            have notNext : node.next ≠ some j := by
              rw [next, backSplit]
              intro same
              have same : first = j := Option.some.inj same
              have := backParts.2
              rw [backSplit, same] at this
              simp at this
            simp [notNext, heldPrev, frontSplit, List.getLast?_append, List.getLast?_cons]
      · simp [afterRemove, other, notPrev, heldNext]
    · -- `j` stands in front of the removed slot
      have inFront : j ∈ front := frontSplit ▸ List.mem_append_right front' (List.mem_cons_self ..)
      have other : i ≠ j := fun same => frontNot (same ▸ inFront)
      obtain ⟨held, heldSlot, heldPrev, heldNext⟩ :=
        linked.links front' j (mid ++ i :: back) (by simp [frontSplit])
      have notNext : node.next ≠ some j := fun after =>
        frontNotBack j inFront (List.mem_of_head? (next ▸ after))
      refine ⟨afterRemove node.prev node.next i j held, by rw [nodes, heldSlot]; rfl, ?_, ?_⟩
      · simp [afterRemove, other, notNext, heldPrev]
      · simp only [afterRemove, other, if_false]
        rcases List.eq_nil_or_concat mid with rfl | ⟨mid, last, rfl⟩
        · simp [prev, frontSplit, next, backSplit]
        · have notPrev : node.prev ≠ some j := by
            rw [prev, frontSplit]
            intro same
            have same : last = j := by simpa [List.getLast?_append, List.getLast?_cons] using same
            have frontNodup := parts.1
            rw [frontSplit, same] at frontNodup
            have := (List.nodup_cons.mp (List.nodup_append.mp frontNodup).2.1).1
            simp at this
          cases mid <;> simp [notPrev, heldNext, backSplit]

theorem Linked.linkFront {s : LruInner K V} {order : List Nat} (linked : Linked s order) {i : Nat}
    (inBounds : i < s.nodes.length) (fresh : i ∉ order) :
    ∃ t, s.linkFront i = some t ∧ SameContents s t ∧ Linked t (i :: order) := by
  obtain ⟨t, linkedIn, same, head, tail, nodes⟩ := linkFront_spec inBounds
    (fun h first => linked.inBounds (List.mem_of_head? (linked.head ▸ first)))
    (fun first => fresh (List.mem_of_head? (linked.head ▸ first)))
  refine ⟨t, linkedIn, same, List.nodup_cons.mpr ⟨fresh, linked.nodup⟩, head, ?_, ?_⟩
  · rw [tail, linked.tail]
    cases order with
    | nil => rfl
    | cons first rest => simp [List.getLast?_cons]
  · intro front j back split
    cases front with
    | nil =>
        simp only [List.nil_append, List.cons.injEq] at split
        obtain ⟨rfl, rfl⟩ := split
        obtain ⟨node, held⟩ : ∃ node, s.nodes[i]? = some node :=
          ⟨_, List.getElem?_eq_getElem inBounds⟩
        exact ⟨afterLink s.head i i node, by rw [nodes, held]; rfl, by simp [afterLink],
          by simp [afterLink, linked.head]⟩
    | cons first front =>
        simp only [List.cons_append, List.cons.injEq] at split
        obtain ⟨rfl, split⟩ := split
        obtain ⟨node, held, prev, next⟩ := linked.links front j back split
        have other : i ≠ j := by
          rintro rfl
          exact fresh (split ▸ List.mem_append_right front (List.mem_cons_self ..))
        refine ⟨afterLink s.head i j node, by rw [nodes, held]; rfl, ?_, ?_⟩
        · -- the old head, and only it, learns of its new predecessor
          simp only [afterLink, other, if_false]
          cases front with
          | nil => simp [linked.head, split]
          | cons second front =>
              have notHead : s.head ≠ some j := by
                rw [linked.head, split]
                intro first
                have same : second = j := Option.some.inj first
                have := linked.nodup
                rw [split, same] at this
                simp at this
              simp [notHead, prev, List.getLast?_cons]
        · simp [afterLink, other, next]

theorem Linked.moveToFront {s : LruInner K V} {front back : List Nat} {i : Nat}
    (linked : Linked s (front ++ i :: back)) :
    ∃ t, s.moveToFront i = some t ∧ SameContents s t ∧ Linked t (i :: (front ++ back)) := by
  unfold LruInner.moveToFront
  by_cases first : s.head = some i
  · have frontNil : front = [] := by
      cases front with
      | nil => rfl
      | cons h front =>
          have same : h = i := by simpa [linked.head] using first
          have := linked.nodup
          simp [same] at this
    subst frontNil
    exact ⟨s, by simp [first], SameContents.refl s, linked⟩
  · obtain ⟨u, removed, sameRemoved, linkedRemoved⟩ := linked.removeNode
    have fresh : i ∉ front ++ back := by
      have := List.nodup_append.mp linked.nodup
      simp only [List.mem_append, not_or]
      exact ⟨fun inFront => this.2.2 i inFront i (List.mem_cons_self ..) rfl,
        (List.nodup_cons.mp this.2.1).1⟩
    have inBounds : i < u.nodes.length := by
      rw [sameRemoved.length]
      exact linked.inBounds (by simp)
    obtain ⟨t, linkedIn, sameLinked, linkedFinal⟩ := linkedRemoved.linkFront inBounds fresh
    exact ⟨t, by simp [first, removed, linkedIn], sameRemoved.trans sameLinked, linkedFinal⟩

/-- The (key, value) pairs along the chain. -/
def entries (s : LruInner K V) (order : List Nat) : List (K × V) :=
  order.filterMap fun i => (s.nodes[i]?).map fun node => (node.key, node.value)

theorem entries_append (s : LruInner K V) (front back : List Nat) :
    entries s (front ++ back) = entries s front ++ entries s back :=
  List.filterMap_append ..

theorem entries_cons {s : LruInner K V} {i : Nat} {node : LruNode K V}
    (held : s.nodes[i]? = some node) (back : List Nat) :
    entries s (i :: back) = (node.key, node.value) :: entries s back := by
  simp [entries, held]

theorem entries_congr {s t : LruInner K V} {order : List Nat}
    (same : ∀ i ∈ order, (t.nodes[i]?).map (fun node => (node.key, node.value)) =
      (s.nodes[i]?).map fun node => (node.key, node.value)) :
    entries t order = entries s order :=
  List.filterMap_congr same

theorem key_of_entry {s t : LruInner K V} {i : Nat}
    (same : (t.nodes[i]?).map (fun node => (node.key, node.value)) =
      (s.nodes[i]?).map fun node => (node.key, node.value)) :
    (t.nodes[i]?).map LruNode.key = (s.nodes[i]?).map LruNode.key := by
  have := congrArg (Option.map Prod.fst) same
  simpa [Option.map_map, Function.comp_def] using this

end LruInner

end KindDb.Cache
