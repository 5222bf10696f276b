import KindDb.Lib.SortedMap

/-! # The LRU cache of `cache.rs`

A slot arena with an index-linked recency list.  Every `self.nodes[i]` of the
source is an access that may be out of bounds; here such an access makes the
operation return `none` (the panic of the source).  `Vec::pop` and `Vec::push`
on the free list work on the head of `freeList`. -/
set_option autoImplicit false

namespace KindDb.Cache

open KindDb.Lib Std

structure LruNode (K V : Type) where
  key : K
  value : V
  prev : Option Nat
  next : Option Nat
deriving Repr, DecidableEq

structure LruInner (K V : Type) [Ord K] where
  capacity : Nat
  map : SortedMap K Nat
  nodes : List (LruNode K V)
  freeList : List Nat
  head : Option Nat
  tail : Option Nat

namespace LruInner

variable {K V : Type} [Ord K] [TransOrd K]

def new (capacity : Nat) : LruInner K V :=
  { capacity, map := ∅, nodes := [], freeList := [], head := none, tail := none }

/-- `self.nodes[i] = f(self.nodes[i])`. -/
def modifyNode (s : LruInner K V) (i : Nat) (f : LruNode K V → LruNode K V) :
    Option (LruInner K V) :=
  if i < s.nodes.length then some { s with nodes := s.nodes.modify i f } else none

def setPrev (s : LruInner K V) (i : Nat) (prev : Option Nat) : Option (LruInner K V) :=
  s.modifyNode i fun node => { node with prev }

def setNext (s : LruInner K V) (i : Nat) (next : Option Nat) : Option (LruInner K V) :=
  s.modifyNode i fun node => { node with next }

def removeNode (s : LruInner K V) (idx : Nat) : Option (LruInner K V) := do
  let node ← s.nodes[idx]?
  let s ← match node.prev with
    | some p => s.setNext p node.next
    | none => some { s with head := node.next }
  let s ← match node.next with
    | some n => s.setPrev n node.prev
    | none => some { s with tail := node.prev }
  let s ← s.setPrev idx none
  s.setNext idx none

/-- The tail shared by `move_to_front` and `put`: link slot `idx` in before the
current head. -/
def linkFront (s : LruInner K V) (idx : Nat) : Option (LruInner K V) := do
  let oldHead := s.head
  let s ← s.setNext idx oldHead
  let s ← s.setPrev idx none
  let s ← match oldHead with
    | some h => s.setPrev h (some idx)
    | none => some s
  let s := { s with head := some idx }
  return if s.tail.isNone then { s with tail := some idx } else s

def moveToFront (s : LruInner K V) (idx : Nat) : Option (LruInner K V) :=
  if s.head = some idx then some s
  else do
    let s ← s.removeNode idx
    s.linkFront idx

def get (s : LruInner K V) (key : K) : Option (Option V × LruInner K V) :=
  match s.map[key]? with
  | some idx => do
      let s ← s.moveToFront idx
      let node ← s.nodes[idx]?
      return (some node.value, s)
  | none => some (none, s)

/-- The eviction at the top of `put`: a full cache gives up its tail. -/
def evictTail (s : LruInner K V) : Option (LruInner K V) :=
  if s.capacity ≤ s.map.size then
    match s.tail with
    | some tailIdx => do
        let s ← s.removeNode tailIdx
        let node ← s.nodes[tailIdx]?
        return { s with map := s.map.erase node.key, freeList := tailIdx :: s.freeList }
    | none => some s
  else some s

/-- A slot for a new node: a freed one if there is any, else a fresh one. -/
def allocate (s : LruInner K V) (node : LruNode K V) : Option (Nat × LruInner K V) :=
  match s.freeList with
  | idx :: rest => do
      let s ← { s with freeList := rest }.modifyNode idx fun _ => node
      return (idx, s)
  | [] => some (s.nodes.length, { s with nodes := s.nodes ++ [node] })

def put (s : LruInner K V) (key : K) (value : V) : Option (LruInner K V) :=
  match s.map[key]? with
  | some idx => do
      let s ← s.modifyNode idx fun node => { node with value }
      s.moveToFront idx
  | none => do
      let s ← s.evictTail
      let (newIdx, s) ← s.allocate { key, value, prev := none, next := none }
      { s with map := s.map.insert key newIdx }.linkFront newIdx

def invalidate (s : LruInner K V) (key : K) : Option (LruInner K V) :=
  match s.map[key]? with
  | some idx => do
      let s ← { s with map := s.map.erase key }.removeNode idx
      return { s with freeList := idx :: s.freeList }
  | none => some s

end LruInner

end KindDb.Cache
