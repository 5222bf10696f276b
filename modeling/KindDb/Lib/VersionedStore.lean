import KindDb.Lib.Overlay
import KindDb.Lib.SortedMap

/-! # A store whose writes are numbered

A sorted map in which every value carries the version of the batch that wrote
it.  `apply` carries out a batch as the next version; deletion, compare-and-swap
and commit decide whether there is a batch at all. -/
set_option autoImplicit false

namespace KindDb.Lib

open Std Overlay

structure VersionedStore (α β : Type) [Ord α] where
  entries : SortedMap α (β × Nat)
  version : Nat

namespace VersionedStore

variable {α β γ : Type} [Ord α] [TransOrd α]

def empty : VersionedStore α β := ⟨∅, 0⟩

def read (o : VersionedStore α β) (key : α) : Option β := (o.entries[key]?).map Prod.fst

def place (version : Nat) (entries : SortedMap α (β × Nat)) (write : Update α β) :
    SortedMap α (β × Nat) :=
  match write.2 with
  | some value => entries.insert write.1 (value, version)
  | none => entries.erase write.1

def apply (o : VersionedStore α β) (writes : List (Update α β)) : VersionedStore α β where
  entries := writes.foldl (place (o.version + 1)) o.entries
  version := o.version + 1

def delete (o : VersionedStore α β) (key : α) : Bool × VersionedStore α β :=
  if (o.read key).isSome then (true, o.apply [(key, none)]) else (false, o)

/-- A key without a value compares as `absent`. -/
def compareAndSwap [DecidableEq β] (o : VersionedStore α β) (absent : β) (key : α)
    (expected new : β) : Bool × VersionedStore α β :=
  if (o.read key).getD absent = expected then (true, o.apply [(key, some new)]) else (false, o)

/-- One of the keys holds a value that is newer than the version. -/
def newer (o : VersionedStore α β) (version : Nat) (keys : List α) : Bool :=
  keys.any fun key => (o.entries[key]?).any fun held => version < held.2

/-- The batch is carried out unless another one has written to its keys since. -/
def commit (o : VersionedStore α β) (since : Nat) (writes : List (Update α β)) :
    Bool × VersionedStore α β :=
  if o.newer since (touched writes) then (false, o) else (true, o.apply writes)

/-- What is picked of the values, in the order of their keys. -/
def select (o : VersionedStore α β) (pick : α → β → Option γ) : List γ :=
  o.entries.toList.filterMap fun entry => pick entry.1 entry.2.1

section Lookup
variable [LawfulEqOrd α] [DecidableEq α]

theorem lookup_place (version : Nat) (entries : SortedMap α (β × Nat)) (write : Update α β)
    (key : α) : (place version entries write)[key]? =
      Function.update (fun k => entries[k]?) write.1 (write.2.map (·, version)) key := by
  obtain ⟨written, value⟩ := write
  rw [Function.update_apply]
  cases value with
  | some value =>
      refine (SortedMap.lookup_insert entries written key (value, version)).trans ?_
      simp only [eq_comm, Option.map_some]
  | none =>
      refine (SortedMap.lookup_erase entries written key).trans ?_
      simp only [eq_comm, Option.map_none]

theorem lookup_apply (o : VersionedStore α β) (writes : List (Update α β)) (key : α) :
    (o.apply writes).entries[key]? = overlay (fun k => o.entries[k]?)
      (writes.map fun write => (write.1, write.2.map (·, o.version + 1))) key := by
  have placed : ∀ (writes : List (Update α β)) (entries : SortedMap α (β × Nat)) (key : α),
      (writes.foldl (place (o.version + 1)) entries)[key]? = overlay (fun k => entries[k]?)
        (writes.map fun write => (write.1, write.2.map (·, o.version + 1))) key := by
    intro writes
    induction writes with
    | nil => exact fun _ _ => rfl
    | cons write rest ih =>
        intro entries key
        rw [List.foldl_cons, ih, List.map_cons, overlay_cons]
        exact overlay_congr _ (lookup_place _ entries write key)
  exact placed writes o.entries key

omit [DecidableEq α] in
/-- A store is known by its lookups and its version. -/
theorem ext_lookup {o o' : VersionedStore α β}
    (lookups : ∀ key : α, o.entries[key]? = o'.entries[key]?) (version : o.version = o'.version) :
    o = o' := by
  obtain ⟨entries, v⟩ := o
  obtain ⟨entries', v'⟩ := o'
  cases version
  cases ExtTreeMap.ext_getElem? lookups
  rfl

omit [DecidableEq α] in
/-- A selection does not look at the versions. -/
theorem select_congr {o o' : VersionedStore α β} (reads : ∀ key, o.read key = o'.read key)
    (pick : α → β → Option γ) : o.select pick = o'.select pick := by
  have listed : ∀ o : VersionedStore α β, o.select pick =
      (o.entries.map fun _ held => held.1).toList.filterMap fun entry => pick entry.1 entry.2 := by
    intro o
    rw [ExtTreeMap.toList_map, List.filterMap_map]
    rfl
  have same : o.entries.map (fun _ held => held.1) = o'.entries.map fun _ held => held.1 := by
    refine ExtTreeMap.ext_getElem? fun key => ?_
    rw [ExtTreeMap.getElem?_map, ExtTreeMap.getElem?_map]
    exact reads key
  rw [listed, listed, same]

end Lookup

end VersionedStore

end KindDb.Lib
