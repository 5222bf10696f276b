import KindDb.Cache.Trait
import KindDb.Lib.History
import KindDb.Lib.PostingIndex

/-! # The LFU cache of `cache.rs`

A map from the keys to their values and frequencies, with the set of keys of
each frequency.  Which key of a set an iteration meets first is not determined,
so every operation comes with an iteration order of its own. -/
set_option autoImplicit false

namespace KindDb.Cache

open KindDb.Lib KindDb.Lib.Runs KindDb.Lib.PostingIndex KindDb.Lib.History Std

/-- What `keys.iter().next()` gives for a hash set. -/
structure Iteration (K : Type) [Ord K] [TransOrd K] where
  first : SortedSet K → Option K
  member : ∀ (keys : SortedSet K) (key : K), first keys = some key → key ∈ keys
  ends : ∀ keys : SortedSet K, first keys = none → keys.isEmpty = true

/-- The counters are numbers of operations, so a `usize` holds them in every run
shorter than its range. -/
structure LfuInner (K V : Type) [Ord K] where
  capacity : Nat
  map : SortedMap K (V × Nat)
  freqs : PostingIndex Nat K

namespace LfuInner

variable {K V : Type} [Ord K] [TransOrd K]

def new (capacity : Nat) : LfuInner K V := { capacity, map := ∅, freqs := ∅ }

def incrementFreq (s : LfuInner K V) (key : K) (currentFreq : Nat) : LfuInner K V :=
  let newFreq := currentFreq + 1
  let freqs := (s.freqs.withdraw currentFreq key).file newFreq key
  match s.map[key]? with
  | some entry => { s with freqs, map := s.map.insert key (entry.1, newFreq) }
  | none => { s with freqs }

def get (s : LfuInner K V) (key : K) : Option V × LfuInner K V :=
  match s.map[key]? with
  | some (_, freq) =>
      let t := s.incrementFreq key freq
      ((t.map[key]?).map Prod.fst, t)
  | none => (none, s)

/-- Take a key out of the map and out of the set of its frequency. -/
def remove (s : LfuInner K V) (key : K) : LfuInner K V :=
  match s.map[key]? with
  | some (_, freq) => { s with map := s.map.erase key, freqs := s.freqs.withdraw freq key }
  | none => s

/-- `none` is the panic of `unwrap` on an empty set. -/
def evict (iteration : Iteration K) (s : LfuInner K V) : Option (LfuInner K V) :=
  match s.freqs.nextAbove none with
  | some (_, keys) => (iteration.first keys).map fun evictKey => s.remove evictKey
  | none => some s

def enter (s : LfuInner K V) (key : K) (value : V) : LfuInner K V :=
  { s with map := s.map.insert key (value, 1), freqs := s.freqs.file 1 key }

def put (iteration : Iteration K) (s : LfuInner K V) (key : K) (value : V) :
    Option (LfuInner K V) :=
  match s.map[key]? with
  | some (_, currentFreq) =>
      some (({ s with map := s.map.insert key (value, currentFreq) } : LfuInner K V).incrementFreq
        key currentFreq)
  | none =>
      if s.capacity ≤ s.map.size then (s.evict iteration).map fun t => t.enter key value
      else some (s.enter key value)

def invalidate (s : LfuInner K V) (key : K) : LfuInner K V := s.remove key

def take (s : LfuInner K V) (label : CacheOp K V × Iteration K) :
    Option (CacheAnswer V × LfuInner K V) :=
  match label.1 with
  | .get key => some (.got (s.get key).1, (s.get key).2)
  | .put key value => (s.put label.2 key value).map fun t => (.done, t)
  | .invalidate key => some (.done, s.invalidate key)

/-! ## Histories -/

/-- An operation with the state it met. -/
abbrev Event (K V : Type) [Ord K] := LfuInner K V × CacheOp K V

/-- A run that writes down its events. -/
def record (run : List (Event K V) × LfuInner K V) (label : CacheOp K V × Iteration K) :
    Option (List (Event K V) × LfuInner K V) :=
  (run.2.take label).map fun taken => (run.1 ++ [(run.2, label.1)], taken.2)

variable [DecidableEq K]

def puts (key : K) (event : Event K V) : Bool :=
  match event.2 with
  | .put k _ => decide (k = key)
  | _ => false

/-- A `put` of a key that was not resident. -/
def inserts (key : K) (event : Event K V) : Bool :=
  puts key event && !event.1.map.contains key

/-- A `get` that succeeds, or a `put` that overwrites. -/
def hits (key : K) (event : Event K V) : Bool :=
  event.1.map.contains key &&
    match event.2 with
    | .get k => decide (k = key)
    | .put k _ => decide (k = key)
    | .invalidate _ => false

/-- What the history says of a resident key: its frequency counts the hits
since it was last inserted, its value is that of the last `put`. -/
structure Counted (history : List (Event K V)) (key : K) (value : V) (freq : Nat) : Prop where
  count : ∃ event later, Last (inserts key) history event later ∧
    freq = 1 + later.countP (hits key)
  value : ∃ before later, Last (puts key) history (before, .put key value) later

section Counting
variable {history : List (Event K V)} {key : K} {value : V} {freq : Nat}

theorem Counted.carried (counted : Counted history key value freq) {event : Event K V}
    (notPut : puts key event = false) :
    Counted (history ++ [event]) key value (freq + if hits key event then 1 else 0) := by
  obtain ⟨⟨inserted, later, last, same⟩, ⟨before, since, lastPut⟩⟩ := counted
  have notInserted : inserts key event = false := by rw [inserts, notPut, Bool.false_and]
  refine ⟨⟨inserted, later ++ [event], last.concat notInserted, ?_⟩,
    ⟨before, since ++ [event], lastPut.concat notPut⟩⟩
  rw [List.countP_append, List.countP_singleton, same, Nat.add_assoc]

/-- An operation on another key changes nothing for a key. -/
theorem Counted.elsewhere (counted : Counted history key value freq) (s : LfuInner K V)
    {op : CacheOp K V} (other : op.key ≠ key) :
    Counted (history ++ [(s, op)]) key value freq := by
  have notPut : puts key (s, op) = false := by
    cases op with
    | put k new => exact decide_eq_false other
    | _ => rfl
  have missed : hits key (s, op) = false := by
    rw [hits, Bool.and_eq_false_iff]
    right
    cases op with
    | invalidate k => rfl
    | _ => exact decide_eq_false other
  have counted := counted.carried notPut
  rw [missed] at counted
  exact counted

theorem Counted.found (counted : Counted history key value freq) {s : LfuInner K V}
    (resident : s.map.contains key = true) :
    Counted (history ++ [(s, .get key)]) key value (freq + 1) := by
  have hit : hits key (s, CacheOp.get (V := V) key) = true := by simp [hits, resident]
  have notPut : puts key (s, CacheOp.get (V := V) key) = false := rfl
  have counted := counted.carried notPut
  rw [hit] at counted
  exact counted

theorem Counted.overwritten (counted : Counted history key value freq) {s : LfuInner K V}
    (resident : s.map.contains key = true) (new : V) :
    Counted (history ++ [(s, .put key new)]) key new (freq + 1) := by
  obtain ⟨⟨inserted, later, last, same⟩, _⟩ := counted
  have notInserted : inserts key (s, .put key new) = false := by simp [inserts, resident]
  have hit : hits key (s, .put key new) = true := by simp [hits, resident]
  refine ⟨⟨inserted, later ++ [(s, .put key new)], last.concat notInserted, ?_⟩,
    ⟨s, [], last_concat (by simp [puts])⟩⟩
  rw [List.countP_append, List.countP_singleton, hit, same, Nat.add_assoc]
  rfl

theorem counted_inserted {s : LfuInner K V} (absent : s.map.contains key = false) (new : V) :
    Counted (history ++ [(s, .put key new)]) key new 1 := by
  refine ⟨⟨(s, .put key new), [], last_concat ?_, rfl⟩, ⟨s, [], last_concat ?_⟩⟩
  · simp [inserts, puts, absent]
  · simp [puts]

end Counting

/-! ## The map and the sets of keys agree -/

variable [LawfulEqOrd K]

structure Agrees (s : LfuInner K V) : Prop where
  filed : ∀ (freq : Nat) (key : K), Indexed s.freqs freq key ↔ ∃ v, s.map[key]? = some (v, freq)
  tight : Tight s.freqs

variable {s t : LfuInner K V}

omit [DecidableEq K] [LawfulEqOrd K] in
theorem agrees_new (capacity : Nat) : Agrees (new capacity : LfuInner K V) := by
  refine ⟨fun freq key => ?_, fun freq keys found => ?_⟩
  · simp [new]
  · simp [new] at found

theorem remove_lookup (s : LfuInner K V) (key k : K) :
    (s.remove key).map[k]? = if key = k then none else s.map[k]? := by
  unfold remove
  cases held : s.map[key]? with
  | some entry => exact SortedMap.lookup_erase s.map key k
  | none =>
      by_cases same : key = k
      · subst same
        rw [if_pos rfl]
        exact held
      · rw [if_neg same]

theorem Agrees.remove (agrees : Agrees s) (key : K) : Agrees (s.remove key) := by
  unfold LfuInner.remove
  cases held : s.map[key]? with
  | none => exact agrees
  | some entry =>
      refine ⟨fun freq k => ?_, agrees.tight.withdraw entry.2 key⟩
      dsimp only
      rw [indexed_withdraw, agrees.filed, SortedMap.lookup_erase]
      by_cases same : key = k
      · subst same
        rw [held]
        constructor
        · rintro ⟨⟨v, found⟩, other⟩
          cases Option.some.inj found
          exact absurd ⟨rfl, rfl⟩ other
        · rintro ⟨v, found⟩
          rw [if_pos rfl] at found
          cases found
      · simp [same]

/-- A key that is not resident enters with some frequency. -/
theorem Agrees.file (agrees : Agrees s) {key : K} (absent : s.map[key]? = none) (value : V)
    (freq : Nat) :
    Agrees { s with map := s.map.insert key (value, freq), freqs := s.freqs.file freq key } := by
  refine ⟨fun f k => ?_, agrees.tight.file freq key⟩
  dsimp only
  rw [indexed_file, agrees.filed, SortedMap.lookup_insert]
  by_cases same : key = k
  · subst same
    simp [absent]
  · simp [same]

/-- A value changes where it stands. -/
theorem Agrees.overwrite (agrees : Agrees s) {key : K} {value : V} {freq : Nat}
    (held : s.map[key]? = some (value, freq)) (new : V) :
    Agrees { s with map := s.map.insert key (new, freq) } := by
  refine ⟨fun f k => ?_, agrees.tight⟩
  dsimp only
  rw [agrees.filed, SortedMap.lookup_insert]
  by_cases same : key = k
  · subst same
    simp [held]
  · simp [same]

omit [DecidableEq K] [LawfulEqOrd K] in
theorem contains_of_lookup {key : K} {entry : V × Nat} (held : s.map[key]? = some entry) :
    s.map.contains key = true := by
  rw [ExtTreeMap.contains_eq_isSome_getElem?, held]
  rfl

section Increment
variable {key : K} {value : V} {freq : Nat}

/-- The key leaves its set and enters the next one. -/
theorem incrementFreq_eq (held : s.map[key]? = some (value, freq)) :
    s.incrementFreq key freq =
      { s.remove key with
        map := (s.remove key).map.insert key (value, freq + 1)
        freqs := (s.remove key).freqs.file (freq + 1) key } := by
  have sameMap : s.map.insert key (value, freq + 1) =
      (s.map.erase key).insert key (value, freq + 1) := by
    refine ExtTreeMap.ext_getElem? fun k => ?_
    rw [SortedMap.lookup_insert, SortedMap.lookup_insert, SortedMap.lookup_erase]
    by_cases same : key = k <;> simp [same]
  simp only [incrementFreq, LfuInner.remove, held, sameMap]

theorem incrementFreq_lookup (held : s.map[key]? = some (value, freq)) (k : K) :
    (s.incrementFreq key freq).map[k]? =
      if key = k then some (value, freq + 1) else s.map[k]? := by
  simp only [incrementFreq, held]
  exact SortedMap.lookup_insert s.map key k (value, freq + 1)

theorem Agrees.incrementFreq (agrees : Agrees s) (held : s.map[key]? = some (value, freq)) :
    Agrees (s.incrementFreq key freq) := by
  rw [incrementFreq_eq held]
  apply (agrees.remove key).file
  rw [remove_lookup, if_pos rfl]

omit [DecidableEq K] [LawfulEqOrd K] in
theorem incrementFreq_capacity (s : LfuInner K V) (key : K) (freq : Nat) :
    (s.incrementFreq key freq).capacity = s.capacity := by
  unfold incrementFreq
  dsimp only
  cases s.map[key]? <;> rfl

omit [DecidableEq K] [LawfulEqOrd K] in
theorem incrementFreq_size (held : s.map[key]? = some (value, freq)) :
    (s.incrementFreq key freq).map.size = s.map.size := by
  simp only [incrementFreq, held]
  rw [ExtTreeMap.size_insert, if_pos (contains_of_lookup held)]

end Increment

omit [DecidableEq K] [LawfulEqOrd K] in
theorem remove_capacity (s : LfuInner K V) (key : K) :
    (s.remove key).capacity = s.capacity := by
  unfold LfuInner.remove
  cases s.map[key]? <;> rfl

omit [DecidableEq K] [LawfulEqOrd K] in
theorem remove_size (s : LfuInner K V) (key : K) :
    (s.remove key).map.size = if s.map.contains key then s.map.size - 1 else s.map.size := by
  rw [ExtTreeMap.contains_eq_isSome_getElem?]
  unfold LfuInner.remove
  cases held : s.map[key]? with
  | none => rfl
  | some entry =>
      rw [ExtTreeMap.size_erase, if_pos (contains_of_lookup held)]
      rfl

/-! ## Eviction -/

/-- A resident of minimal frequency. -/
def Least (s : LfuInner K V) (key : K) : Prop :=
  ∃ value freq, s.map[key]? = some (value, freq) ∧
    ∀ (k : K) (v : V) (f : Nat), s.map[k]? = some (v, f) → freq ≤ f

omit [DecidableEq K] in
/-- Whatever the iteration meets first, it is a resident of minimal frequency. -/
theorem Agrees.evict (agrees : Agrees s) (resident : 0 < s.map.size) (iteration : Iteration K) :
    ∃ evicted, s.evict iteration = some (s.remove evicted) ∧ Least s evicted := by
  have minimal : ∀ freq keys, s.freqs.nextAbove none = some (freq, keys) →
      ∀ (k : K) (v : V) (f : Nat), s.map[k]? = some (v, f) → freq ≤ f := by
    intro freq keys found k v f held
    obtain ⟨_, _, before⟩ := SortedMap.nextAbove_some found
    obtain ⟨set, filed, _⟩ := (agrees.filed f k).mpr ⟨v, held⟩
    by_contra less
    rw [before f rfl (Nat.compare_eq_lt.mpr (Nat.lt_of_not_le less))] at filed
    cases filed
  unfold LfuInner.evict
  cases found : s.freqs.nextAbove none with
  | none =>
      exfalso
      rw [← ExtTreeMap.length_toList] at resident
      obtain ⟨⟨key, value, freq⟩, listed⟩ := List.exists_mem_of_length_pos resident
      have held := ExtTreeMap.mem_toList_iff_getElem?_eq_some.mp listed
      obtain ⟨set, filed, _⟩ := (agrees.filed freq key).mpr ⟨value, held⟩
      rw [SortedMap.nextAbove_none found freq rfl] at filed
      cases filed
  | some entry =>
      obtain ⟨freq, keys⟩ := entry
      have filed := (SortedMap.nextAbove_some found).1
      have nonempty := agrees.tight freq keys filed
      cases first : iteration.first keys with
      | none =>
          rw [iteration.ends keys first] at nonempty
          cases nonempty
      | some evicted =>
          obtain ⟨value, held⟩ :=
            (agrees.filed freq evicted).mp ⟨keys, filed, iteration.member keys evicted first⟩
          exact ⟨evicted, by simp only [first, Option.map_some], value, freq, held,
            minimal freq keys found⟩

theorem enter_lookup (s : LfuInner K V) (key k : K) (value : V) :
    (s.enter key value).map[k]? = if key = k then some (value, 1) else s.map[k]? :=
  SortedMap.lookup_insert s.map key k (value, 1)

omit [DecidableEq K] in
/-- A new key enters, in a full cache after an eviction. -/
theorem Agrees.put_absent (agrees : Agrees s) (positive : 0 < s.capacity) {key : K}
    (absent : s.map[key]? = none) (iteration : Iteration K) (value : V) :
    ∃ t, s.put iteration key value = some (t.enter key value) ∧
      if s.capacity ≤ s.map.size then ∃ evicted, t = s.remove evicted ∧ Least s evicted
      else t = s := by
  simp only [put, absent]
  split
  · next full =>
      obtain ⟨evicted, ended, least⟩ := agrees.evict (Nat.lt_of_lt_of_le positive full) iteration
      rw [ended]
      exact ⟨s.remove evicted, rfl, evicted, rfl, least⟩
  · exact ⟨s, rfl, rfl⟩

/-! ## Runs -/

/-- The cache after a history. -/
structure Exact (capacity : Nat) (history : List (Event K V)) (s : LfuInner K V) : Prop
    extends Agrees s where
  bound : s.capacity = capacity
  fits : s.map.size ≤ capacity
  counted : ∀ (key : K) (value : V) (freq : Nat), s.map[key]? = some (value, freq) →
    Counted history key value freq

variable {capacity : Nat} {history : List (Event K V)}

omit [LawfulEqOrd K] in
theorem Exact.absent (exact : Exact capacity history s) {op : CacheOp K V}
    (absent : s.map[op.key]? = none) : Exact capacity (history ++ [(s, op)]) s := by
  refine ⟨exact.toAgrees, exact.bound, exact.fits, fun k value freq found => ?_⟩
  apply (exact.counted k value freq found).elsewhere s
  rintro rfl
  rw [absent] at found
  cases found

/-- There is room after the eviction, and what is left was resident before. -/
theorem Exact.roomy (exact : Exact capacity history s) {t : LfuInner K V}
    (evicted : if s.capacity ≤ s.map.size then ∃ evicted, t = s.remove evicted ∧ Least s evicted
      else t = s) :
    Agrees t ∧ t.capacity = capacity ∧ t.map.size < capacity ∧
      ∀ (k : K) (entry : V × Nat), t.map[k]? = some entry → s.map[k]? = some entry := by
  have bound := exact.bound
  have fits := exact.fits
  split at evicted
  · next full =>
      obtain ⟨gone, rfl, value, freq, held, _⟩ := evicted
      have resident := contains_of_lookup held
      have size := remove_size s gone
      rw [if_pos resident] at size
      have nonempty : 0 < s.map.size := by
        rw [← ExtTreeMap.length_toList]
        exact List.length_pos_of_mem (ExtTreeMap.mem_toList_iff_getElem?_eq_some.mpr held)
      refine ⟨exact.toAgrees.remove gone, (remove_capacity s gone).trans bound, by omega,
        fun k entry found => ?_⟩
      rw [remove_lookup] at found
      by_cases same : gone = k
      · rw [if_pos same] at found
        cases found
      · rwa [if_neg same] at found
  · next room =>
      subst evicted
      exact ⟨exact.toAgrees, bound, by omega, fun k entry found => found⟩

theorem Exact.get (exact : Exact capacity history s) (key : K) :
    Exact capacity (history ++ [(s, .get key)]) (s.get key).2 := by
  unfold LfuInner.get
  cases held : s.map[key]? with
  | none => exact exact.absent held
  | some entry =>
      obtain ⟨value, freq⟩ := entry
      refine ⟨exact.toAgrees.incrementFreq held, (incrementFreq_capacity s key freq).trans exact.bound,
        (incrementFreq_size held).trans_le exact.fits, fun k v f found => ?_⟩
      dsimp only at found
      rw [incrementFreq_lookup held] at found
      by_cases same : key = k
      · subst same
        rw [if_pos rfl] at found
        cases Option.some.inj found
        exact (exact.counted key value freq held).found (contains_of_lookup held)
      · rw [if_neg same] at found
        exact (exact.counted k v f found).elsewhere s same

theorem Exact.put (exact : Exact capacity history s) (positive : 0 < capacity)
    (iteration : Iteration K) (key : K) (value : V) : ∃ t, s.put iteration key value = some t ∧
      Exact capacity (history ++ [(s, .put key value)]) t := by
  cases held : s.map[key]? with
  | some entry =>
      obtain ⟨old, freq⟩ := entry
      have agrees := exact.toAgrees.overwrite held value
      have overwritten : (s.map.insert key (value, freq))[key]? = some (value, freq) :=
        ExtTreeMap.getElem?_insert_self
      have sameSize : (s.map.insert key (value, freq)).size = s.map.size := by
        rw [ExtTreeMap.size_insert, if_pos (contains_of_lookup held)]
      refine ⟨_, by rw [LfuInner.put, held], agrees.incrementFreq overwritten,
        (incrementFreq_capacity _ key freq).trans exact.bound,
        ((incrementFreq_size overwritten).trans sameSize).trans_le exact.fits, fun k v f found => ?_⟩
      rw [incrementFreq_lookup overwritten, SortedMap.lookup_insert] at found
      by_cases same : key = k
      · subst same
        rw [if_pos rfl] at found
        cases Option.some.inj found
        exact (exact.counted key old freq held).overwritten (contains_of_lookup held) value
      · rw [if_neg same, if_neg same] at found
        exact (exact.counted k v f found).elsewhere s same
  | none =>
      obtain ⟨t, stored, evicted⟩ :=
        exact.toAgrees.put_absent (exact.bound ▸ positive) held iteration value
      obtain ⟨agrees, bound, room, left⟩ := exact.roomy evicted
      have missing : t.map[key]? = none := by
        rw [Option.eq_none_iff_forall_not_mem]
        intro entry found
        rw [left key entry found] at held
        cases held
      have isNew : t.map.contains key = false := by
        rw [ExtTreeMap.contains_eq_isSome_getElem?, missing]
        rfl
      have size : (t.enter key value).map.size = t.map.size + 1 := by
        rw [enter, ExtTreeMap.size_insert, if_neg (Bool.eq_false_iff.mp isNew)]
      refine ⟨_, stored, agrees.file missing value 1, bound, size.trans_le room,
        fun k v f found => ?_⟩
      rw [enter_lookup] at found
      by_cases same : key = k
      · subst same
        rw [if_pos rfl] at found
        cases Option.some.inj found
        apply counted_inserted
        rw [ExtTreeMap.contains_eq_isSome_getElem?, held]
        rfl
      · rw [if_neg same] at found
        exact (exact.counted k v f (left k (v, f) found)).elsewhere s same

theorem Exact.invalidate (exact : Exact capacity history s) (key : K) :
    Exact capacity (history ++ [(s, .invalidate key)]) (s.invalidate key) := by
  rw [LfuInner.invalidate]
  refine ⟨exact.toAgrees.remove key, (remove_capacity s key).trans exact.bound, ?_,
    fun k v f found => ?_⟩
  · rw [remove_size]
    have fits := exact.fits
    split <;> omega
  · rw [remove_lookup] at found
    by_cases same : key = k
    · rw [if_pos same] at found
      cases found
    · rw [if_neg same] at found
      exact (exact.counted k v f found).elsewhere s same

omit [LawfulEqOrd K] in
theorem exact_new (capacity : Nat) : Exact capacity [] (new capacity : LfuInner K V) := by
  refine ⟨agrees_new capacity, rfl, Nat.zero_le _, fun key value freq found => ?_⟩
  simp [new] at found

/-- No operation panics, and the cache stays exact. -/
theorem record_exact (positive : 0 < capacity) (run : List (Event K V) × LfuInner K V)
    (label : CacheOp K V × Iteration K) (exact : Exact capacity run.1 run.2) :
    ∃ next, record run label = some next ∧ Exact capacity next.1 next.2 := by
  obtain ⟨op, iteration⟩ := label
  cases op with
  | get key => exact ⟨_, rfl, exact.get key⟩
  | put key value =>
      obtain ⟨t, stored, kept⟩ := exact.put positive iteration key value
      refine ⟨(run.1 ++ [(run.2, .put key value)], t), ?_, kept⟩
      simp only [record, take, stored, Option.map_some]
  | invalidate key => exact ⟨_, rfl, exact.invalidate key⟩

/-- In every run, whatever the iterations meet first, the cache is exact; a
resident is found with the value of its last `put`, and a new key in a full cache
takes the place of one resident, of minimal frequency. -/
theorem run_exact (positive : 0 < capacity) (labels : List (CacheOp K V × Iteration K)) :
    ∃ history final, runFrom record ([], new capacity) labels = some (history, final) ∧
      Exact capacity history final ∧
      (∀ key : K, (final.get key).1 = (final.map[key]?).map Prod.fst) ∧
      ∀ (iteration : Iteration K) (key : K) (value : V), final.map[key]? = none →
        capacity ≤ final.map.size → ∃ evicted t, Least final evicted ∧
          final.put iteration key value = some t ∧ ∀ k : K, t.map[k]? =
            if key = k then some (value, 1) else if evicted = k then none else final.map[k]? := by
  obtain ⟨⟨history, final⟩, ran, exact⟩ : ∃ run : List (Event K V) × LfuInner K V,
      runFrom record ([], new capacity) labels = some run ∧ Exact capacity run.1 run.2 :=
    runFrom_total (record_exact positive) labels (exact_new capacity)
  refine ⟨history, final, ran, exact, fun key => ?_, fun iteration key value absent full => ?_⟩
  · unfold LfuInner.get
    cases held : final.map[key]? with
    | none => rfl
    | some entry =>
        dsimp only
        rw [incrementFreq_lookup held, if_pos rfl]
        rfl
  · have bound := exact.bound
    obtain ⟨t, stored, evicted⟩ :=
      exact.toAgrees.put_absent (bound ▸ positive) absent iteration value
    rw [if_pos (bound ▸ full)] at evicted
    obtain ⟨gone, rfl, least⟩ := evicted
    refine ⟨gone, _, least, stored, fun k => ?_⟩
    rw [enter_lookup, remove_lookup]

/-- The iteration of a set in the order of its keys. -/
def ascending : Iteration K where
  first keys := keys.toList.head?
  member keys key found := ExtTreeSet.mem_toList.mp (List.mem_of_head? found)
  ends keys ended := by
    rw [List.head?_eq_none_iff] at ended
    rw [← ExtTreeSet.isEmpty_toList, ended]
    rfl

theorem run_exact_evicting : ∃ history final,
    runFrom record ([], new 2) ([CacheOp.put 1 "A", .put 2 "B", .get 1, .put 3 "C", .get 2].map
      fun op => (op, ascending)) = some (history, final) ∧
      Exact 2 history final ∧
      (∀ key : Nat, (final.get key).1 = (final.map[key]?).map Prod.fst) ∧
      ∀ (iteration : Iteration Nat) (key : Nat) (value : String), final.map[key]? = none →
        2 ≤ final.map.size → ∃ evicted t, Least final evicted ∧
          final.put iteration key value = some t ∧ ∀ k : Nat, t.map[k]? =
            if key = k then some (value, 1) else if evicted = k then none else final.map[k]? :=
  run_exact (by decide) ([CacheOp.put 1 "A", .put 2 "B", .get 1, .put 3 "C", .get 2].map
    fun op => (op, ascending))

end LfuInner

end KindDb.Cache
