import KindDb.Cache.LruRefinement

/-! # The cache object of the server

`LruCache` packs an arena with the proof that it is well formed, so that its
operations are total.  The rest of the development sees a cache through
`peek`, what it holds for a key. -/
set_option autoImplicit false

namespace KindDb.Cache

open KindDb.Lib Std

/-- The `LruCache` handed to the server: an arena that some order of its slots
makes well formed, so that none of its operations can panic. -/
structure LruCache (K V : Type) [Ord K] [TransOrd K] where
  inner : LruInner K V
  wellFormed : ∃ order, inner.WellFormed order

namespace LruCache

variable {K V : Type} [Ord K] [TransOrd K] [LawfulEqOrd K] [DecidableEq K]

/-- `LruCache::new`, whose assertion is the positivity of the capacity. -/
def new (capacity : Nat) (positive : 0 < capacity) : LruCache K V where
  inner := LruInner.new capacity
  wellFormed := ⟨[], LruInner.wellFormed_new positive⟩

omit [LawfulEqOrd K] in
theorem get_isSome (c : LruCache K V) (key : K) : (c.inner.get key).isSome := by
  obtain ⟨order, wf⟩ := c.wellFormed
  obtain ⟨t, _, got, _⟩ := wf.get_refines key
  simp [got]

theorem put_isSome (c : LruCache K V) (key : K) (value : V) : (c.inner.put key value).isSome := by
  obtain ⟨order, wf⟩ := c.wellFormed
  obtain ⟨t, _, stored, _⟩ := wf.put_refines key value
  simp [stored]

theorem invalidate_isSome (c : LruCache K V) (key : K) : (c.inner.invalidate key).isSome := by
  obtain ⟨order, wf⟩ := c.wellFormed
  obtain ⟨t, _, dropped, _⟩ := wf.invalidate_refines key
  simp [dropped]

def get (c : LruCache K V) (key : K) : Option V × LruCache K V :=
  let result := (c.inner.get key).get (c.get_isSome key)
  (result.1, { inner := result.2
               wellFormed := by
                 obtain ⟨order, wf⟩ := c.wellFormed
                 obtain ⟨t, order', got, wf', _⟩ := wf.get_refines key
                 exact ⟨order', by simpa [result, got] using wf'⟩ })

def put (c : LruCache K V) (key : K) (value : V) : LruCache K V where
  inner := (c.inner.put key value).get (c.put_isSome key value)
  wellFormed := by
    obtain ⟨order, wf⟩ := c.wellFormed
    obtain ⟨t, order', stored, wf', _⟩ := wf.put_refines key value
    exact ⟨order', by simpa [stored] using wf'⟩

def invalidate (c : LruCache K V) (key : K) : LruCache K V where
  inner := (c.inner.invalidate key).get (c.invalidate_isSome key)
  wellFormed := by
    obtain ⟨order, wf⟩ := c.wellFormed
    obtain ⟨t, order', dropped, wf', _⟩ := wf.invalidate_refines key
    exact ⟨order', by simpa [dropped] using wf'⟩

/-- What the cache holds for a key: the answer `get` would give. -/
def peek (c : LruCache K V) (key : K) : Option V := (c.get key).1

omit [LawfulEqOrd K] in
theorem peek_eq_find (c : LruCache K V) {order : List Nat} (wf : c.inner.WellFormed order)
    (key : K) : c.peek key = Recency.find key (c.inner.entries order) := by
  obtain ⟨t, order', got, _⟩ := wf.get_refines key
  simp [peek, get, got]

omit [LawfulEqOrd K] in
@[simp] theorem peek_new (capacity : Nat) (positive : 0 < capacity) (key : K) :
    (new capacity positive : LruCache K V).peek key = none := by
  simp [peek, get, new, LruInner.new, LruInner.get]

omit [LawfulEqOrd K] in
@[simp] theorem peek_get (c : LruCache K V) (key k : K) : (c.get key).2.peek k = c.peek k := by
  obtain ⟨order, wf⟩ := c.wellFormed
  obtain ⟨t, order', got, wf', _, entriesEq⟩ := wf.get_refines key
  have inner : (c.get key).2.inner = t := by simp [get, got]
  rw [peek_eq_find _ (inner ▸ wf'), inner, entriesEq, peek_eq_find c wf, Recency.find_touch]

@[simp] theorem peek_put_self (c : LruCache K V) (key : K) (value : V) :
    (c.put key value).peek key = some value := by
  obtain ⟨order, wf⟩ := c.wellFormed
  obtain ⟨t, order', stored, wf', _, entriesEq⟩ := wf.put_refines key value
  have inner : (c.put key value).inner = t := by simp [put, stored]
  rw [peek_eq_find _ (inner ▸ wf'), inner, entriesEq, Recency.find_store_self]

theorem peek_put_other {c : LruCache K V} {key k : K} {value held : V} (other : key ≠ k)
    (found : (c.put key value).peek k = some held) : c.peek k = some held := by
  obtain ⟨order, wf⟩ := c.wellFormed
  obtain ⟨t, order', stored, wf', _, entriesEq⟩ := wf.put_refines key value
  have inner : (c.put key value).inner = t := by simp [put, stored]
  rw [peek_eq_find _ (inner ▸ wf'), inner, entriesEq] at found
  rw [peek_eq_find c wf, Recency.find_store_other other found]

theorem peek_invalidate (c : LruCache K V) (key k : K) :
    (c.invalidate key).peek k = if key = k then none else c.peek k := by
  obtain ⟨order, wf⟩ := c.wellFormed
  obtain ⟨t, order', dropped, wf', _, entriesEq⟩ := wf.invalidate_refines key
  have inner : (c.invalidate key).inner = t := by simp [invalidate, dropped]
  rw [peek_eq_find _ (inner ▸ wf'), inner, entriesEq, peek_eq_find c wf, Recency.find_drop]

/-- The pairs in the cache, the last used first. -/
def Holds (c : LruCache K V) (entries : List (K × V)) : Prop :=
  ∃ order, c.inner.WellFormed order ∧ c.inner.entries order = entries

theorem Holds.invalidate {c : LruCache K V} {entries : List (K × V)} (holds : c.Holds entries)
    (key : K) : (c.invalidate key).Holds (Recency.drop key entries) := by
  obtain ⟨order, wf, same⟩ := holds
  obtain ⟨t, order', dropped, wf', _, entriesEq⟩ := wf.invalidate_refines key
  have inner : (c.invalidate key).inner = t := by simp [LruCache.invalidate, dropped]
  exact ⟨order', inner ▸ wf', by rw [inner, entriesEq, same]⟩

end LruCache

end KindDb.Cache
