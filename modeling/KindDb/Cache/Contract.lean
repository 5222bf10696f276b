import KindDb.Cache.Fifo
import KindDb.Cache.Lfu
import KindDb.Cache.LruRuns

/-! # What all three caches have in common

A cache may forget, but what it answers is what an unbounded map would answer:
the value of the last `put` of the key, unless the key was invalidated since.
And it does not forget at once: a `get` right after the `put` of its key hits.
`Lossy` is the rule for one step, `Lossy.honest` what it makes of a run. -/
set_option autoImplicit false

namespace KindDb.Cache

open KindDb.Lib KindDb.Lib.Runs KindDb.Lib.Refinement Std

section Contract
variable {K V State Label : Type} [DecidableEq K]

/-- An unbounded map under the operations of the trait. -/
def remember (held : K → Option V) : CacheOp K V → K → Option V
  | .get _ => held
  | .put key value => Function.update held key (some value)
  | .invalidate key => Function.update held key none

def answerOf (held : K → Option V) : CacheOp K V → CacheAnswer V
  | .get key => .got (held key)
  | .put _ _ => .done
  | .invalidate _ => .done

/-- The answers from the moment on at which an unbounded map holds `held` and
`prev` was the last operation. -/
def Honest (held : K → Option V) (prev : Option (CacheOp K V)) :
    List (CacheOp K V) → List (CacheAnswer V) → Prop
  | [], [] => True
  | op :: ops, given :: rest =>
      (∀ value, given = .got (some value) → held op.key = some value) ∧
      (∀ key value, prev = some (.put key value) → op = .get key → given = .got (some value)) ∧
      Honest (remember held op) (some op) ops rest
  | _, _ => False

/-- The map loses nothing but keys, and not the one that is put. -/
structure Keeps (before after : K → Option V) (op : CacheOp K V) : Prop where
  known : ∀ key value, after key = some value → remember before op key = some value
  stored : ∀ key value, op = .put key value → after key = some value

/-- The machine never panics and shows a map that only forgets. -/
def Lossy (step : State → Label → Option (CacheAnswer V × State)) (opOf : Label → CacheOp K V)
    (Shows : State → (K → Option V) → Prop) : Prop :=
  ∀ state shown label, Shows state shown → ∃ next shown',
    step state label = some (answerOf shown (opOf label), next) ∧ Shows next shown' ∧
      Keeps shown shown' (opOf label)

theorem remember_mono {shown held : K → Option V}
    (known : ∀ key value, shown key = some value → held key = some value) (op : CacheOp K V)
    (key : K) (value : V) (found : remember shown op key = some value) :
    remember held op key = some value := by
  cases op with
  | get _ => exact known key value found
  | put written _ | invalidate written =>
      simp only [remember, Function.update_apply] at found ⊢
      split
      · rename_i same
        rwa [if_pos same] at found
      · rename_i other
        rw [if_neg other] at found
        exact known key value found

theorem Lossy.honest {step : State → Label → Option (CacheAnswer V × State)}
    {opOf : Label → CacheOp K V} {Shows : State → (K → Option V) → Prop}
    (lossy : Lossy step opOf Shows) (labels : List Label) (held : K → Option V)
    (prev : Option (CacheOp K V)) {state : State} {shown : K → Option V}
    (shows : Shows state shown)
    (known : ∀ key value, shown key = some value → held key = some value)
    (stored : ∀ key value, prev = some (.put key value) → shown key = some value) :
    ∃ answered final, answersFrom step state labels = some (answered, final) ∧
      Honest held prev (labels.map opOf) answered := by
  induction labels generalizing state shown held prev with
  | nil => exact ⟨[], state, rfl, trivial⟩
  | cons label rest ih =>
      obtain ⟨next, shown', taken, shows', keeps⟩ := lossy state shown label shows
      obtain ⟨answered, final, ran, honest⟩ := ih (remember held (opOf label))
        (some (opOf label)) shows'
        (fun key value found => remember_mono known _ key value (keeps.known key value found))
        (fun key value put => keeps.stored key value (Option.some.inj put))
      refine ⟨answerOf shown (opOf label) :: answered, final, ?_, ?_, ?_, honest⟩
      · rw [answersFrom, taken]
        simp only [ran]
        rfl
      · intro value given
        cases op : opOf label with
        | get key =>
            rw [op] at given
            exact known key value (CacheAnswer.got.inj given)
        | put _ _ | invalidate _ =>
            rw [op] at given
            cases given
      · intro key value put got
        rw [got]
        exact congrArg CacheAnswer.got (stored key value put)

end Contract

/-! ## The three caches -/

section Caches
variable {K V : Type} [Ord K] [TransOrd K] [LawfulEqOrd K] [DecidableEq K]

def ShowsLru (capacity : Nat) (s : LruInner K V) (shown : K → Option V) : Prop :=
  ∃ entries, s.Lists capacity entries ∧ shown = fun key => Recency.find key entries

theorem lossy_lru (capacity : Nat) :
    Lossy LruInner.take id (ShowsLru capacity (K := K) (V := V)) := by
  rintro s shown op ⟨entries, lists, rfl⟩
  obtain ⟨next, taken, lists'⟩ := LruInner.take_refines capacity s entries op lists
  refine ⟨next, _, ?_, ⟨_, lists', rfl⟩, ?_, ?_⟩
  · rw [taken]
    cases op <;> rfl
  · intro key value found
    cases op with
    | get touched =>
        simp only [LruInner.recent, Recency.find_touch] at found
        exact found
    | put written new =>
        simp only [LruInner.recent] at found
        simp only [id_eq, remember, Function.update_apply]
        by_cases same : key = written
        · subst same
          rw [Recency.find_store_self] at found
          rw [if_pos rfl, found]
        · rw [if_neg same]
          exact Recency.find_store_other (Ne.symm same) found
    | invalidate dropped =>
        simp only [LruInner.recent, Recency.find_drop] at found
        simp only [id_eq, remember, Function.update_apply, eq_comm (a := key)]
        exact found
  · rintro key value rfl
    exact Recency.find_store_self capacity key value entries

def ShowsFifo (capacity : Nat) (s : FifoInner K V) (shown : K → Option V) : Prop :=
  ∃ entries, s.Lists capacity entries ∧ shown = fun key => Recency.find key entries

theorem lossy_fifo (capacity : Nat) {checks : Nat} (enough : 2 ≤ checks) :
    Lossy (FifoInner.take checks) id (ShowsFifo capacity (K := K) (V := V)) := by
  rintro s shown op ⟨entries, lists, rfl⟩
  obtain ⟨next, taken, lists'⟩ := FifoInner.take_refines capacity enough s entries op lists
  refine ⟨next, _, ?_, ⟨_, lists', rfl⟩, ?_, ?_⟩
  · rw [taken]
    cases op <;> rfl
  · intro key value found
    cases op with
    | get touched => exact found
    | put written new =>
        obtain ⟨own, rest⟩ := InsertionOrder.find_store capacity lists.distinct written new
        simp only [FifoInner.inserted] at found
        simp only [id_eq, remember, Function.update_apply]
        by_cases same : key = written
        · subst same
          rw [own] at found
          rw [if_pos rfl, found]
        · rw [if_neg same]
          exact rest key value same found
    | invalidate dropped =>
        simp only [FifoInner.inserted, Recency.find_drop] at found
        simp only [id_eq, remember, Function.update_apply, eq_comm (a := key)]
        exact found
  · rintro key value rfl
    exact (InsertionOrder.find_store capacity lists.distinct key value).1

def ShowsLfu (capacity : Nat) (s : LfuInner K V) (shown : K → Option V) : Prop :=
  (∃ history, LfuInner.Exact capacity history s) ∧ shown = fun key => (s.map[key]?).map Prod.fst

theorem lookup_get_lfu (s : LfuInner K V) (key k : K) :
    (((s.get key).2.map[k]?).map Prod.fst = (s.map[k]?).map Prod.fst) ∧
      (s.get key).1 = (s.map[key]?).map Prod.fst := by
  unfold LfuInner.get
  cases held : s.map[key]? with
  | none => exact ⟨rfl, rfl⟩
  | some entry =>
      obtain ⟨value, freq⟩ := entry
      simp only [LfuInner.incrementFreq_lookup held]
      refine ⟨?_, by simp⟩
      by_cases same : key = k
      · subst same
        simp [held]
      · rw [if_neg same]

theorem lookup_put_lfu {capacity : Nat} {history : List (LfuInner.Event K V)} {s t : LfuInner K V}
    (exact : LfuInner.Exact capacity history s) (positive : 0 < capacity)
    {iteration : Iteration K} {written : K} {new : V}
    (stored : s.put iteration written new = some t) :
    (t.map[written]?).map Prod.fst = some new ∧
      ∀ key value, key ≠ written → (t.map[key]?).map Prod.fst = some value →
        (s.map[key]?).map Prod.fst = some value := by
  cases held : s.map[written]? with
  | some entry =>
      obtain ⟨old, freq⟩ := entry
      have overwritten : (s.map.insert written (new, freq))[written]? = some (new, freq) :=
        ExtTreeMap.getElem?_insert_self
      rw [LfuInner.put, held] at stored
      cases Option.some.inj stored
      refine ⟨?_, fun key value other found => ?_⟩
      · rw [LfuInner.incrementFreq_lookup overwritten, if_pos rfl]
        rfl
      · rw [LfuInner.incrementFreq_lookup overwritten, if_neg (Ne.symm other),
          SortedMap.lookup_insert, if_neg (Ne.symm other)] at found
        exact found
  | none =>
      obtain ⟨u, entered, evicted⟩ :=
        exact.toAgrees.put_absent (exact.bound ▸ positive) held iteration new
      obtain ⟨_, _, _, left⟩ := exact.roomy evicted
      rw [entered] at stored
      cases Option.some.inj stored
      refine ⟨?_, fun key value other found => ?_⟩
      · rw [LfuInner.enter_lookup, if_pos rfl]
        rfl
      · rw [LfuInner.enter_lookup, if_neg (Ne.symm other)] at found
        obtain ⟨entry, kept, same⟩ := Option.map_eq_some_iff.mp found
        rw [left key entry kept, Option.map_some, same]

theorem lossy_lfu {capacity : Nat} (positive : 0 < capacity) :
    Lossy LfuInner.take Prod.fst (ShowsLfu capacity (K := K) (V := V)) := by
  rintro s shown ⟨op, iteration⟩ ⟨⟨history, exact⟩, rfl⟩
  cases op with
  | get key =>
      refine ⟨(s.get key).2, _, ?_, ⟨⟨_, exact.get key⟩, rfl⟩, fun k value found => ?_,
        fun _ _ put => by cases put⟩
      · exact congrArg (fun found => some (CacheAnswer.got found, (s.get key).2))
          (lookup_get_lfu s key key).2
      · exact (lookup_get_lfu s key k).1.symm.trans found
  | put written new =>
      obtain ⟨t, stored, exact'⟩ := exact.put positive iteration written new
      obtain ⟨own, rest⟩ := lookup_put_lfu exact positive stored
      refine ⟨t, _, ?_, ⟨⟨_, exact'⟩, rfl⟩, fun key value found => ?_, fun key value put => ?_⟩
      · rw [LfuInner.take]
        simp only [stored]
        rfl
      · simp only [remember, Function.update_apply]
        by_cases same : key = written
        · subst same
          rw [if_pos rfl]
          exact own.symm.trans found
        · rw [if_neg same]
          exact rest key value same found
      · cases put
        exact own
  | invalidate dropped =>
      refine ⟨s.invalidate dropped, _, rfl, ⟨⟨_, exact.invalidate dropped⟩, rfl⟩,
        fun key value found => ?_, fun _ _ put => by cases put⟩
      simp only [LfuInner.invalidate, LfuInner.remove_lookup] at found
      simp only [remember, Function.update_apply, eq_comm (a := key)]
      split
      · rename_i same
        rw [if_pos same] at found
        cases found
      · rename_i other
        rw [if_neg other] at found
        exact found

/-- Every run of each of the three caches ends without a panic; a hit is the
value last put and not invalidated since, and a value just put is hit. -/
theorem caches_honest {capacity : Nat} (positive : 0 < capacity) :
    (∀ ops : List (CacheOp K V), ∃ answered final,
      answersFrom LruInner.take (LruInner.new capacity) ops = some (answered, final) ∧
        Honest (fun _ => none) none ops answered) ∧
    (∀ checks, 2 ≤ checks → ∀ ops : List (CacheOp K V), ∃ answered final,
      answersFrom (FifoInner.take checks) (FifoInner.new capacity) ops = some (answered, final) ∧
        Honest (fun _ => none) none ops answered) ∧
    ∀ labels : List (CacheOp K V × Iteration K), ∃ answered final,
      answersFrom LfuInner.take (LfuInner.new capacity) labels = some (answered, final) ∧
        Honest (fun _ => none) none (labels.map Prod.fst) answered := by
  refine ⟨fun ops => ?_, fun checks enough ops => ?_, fun labels => ?_⟩
  · have lists : LruInner.Lists capacity (LruInner.new capacity : LruInner K V) [] :=
      ⟨rfl, [], LruInner.wellFormed_new positive, rfl⟩
    have honest := (lossy_lru capacity).honest ops (fun _ => none) none ⟨[], lists, rfl⟩
      (fun _ _ found => found) (fun _ _ put => by cases put)
    rwa [List.map_id] at honest
  · have honest := (lossy_fifo capacity enough).honest ops (fun _ => none) none
      ⟨[], FifoInner.lists_new positive, rfl⟩ (fun _ _ found => found)
      (fun _ _ put => by cases put)
    rwa [List.map_id] at honest
  · refine (lossy_lfu positive).honest labels (fun _ => none) none
      ⟨⟨[], LfuInner.exact_new capacity⟩, rfl⟩ (fun key value found => ?_)
      (fun _ _ put => by cases put)
    simp [LfuInner.new] at found

theorem caches_honest_lru : ∃ answered final,
    answersFrom LruInner.take (LruInner.new 1)
        [.put 1 "A", .get 1, .put 2 "B", .get 1, .invalidate 2, .get 2] =
      some (answered, final) ∧
    Honest (fun _ => none) none
      [.put 1 "A", .get 1, .put 2 "B", .get 1, .invalidate 2, .get 2] answered :=
  (caches_honest (by decide)).1 _

end Caches

end KindDb.Cache
