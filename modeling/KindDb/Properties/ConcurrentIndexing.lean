import KindDb.Properties.IndexExactness
import KindDb.Server.Indexing

/-! # Concurrent `index_record` calls

A call that finds no set under an index key inserts a new one, and the insert
replaces what others have put there since.  While that does not happen entries
only appear and sets only grow, and whatever a call has filed stays filed. -/
set_option autoImplicit false

namespace KindDb.ConcurrentIndexing

open KindDb.Lib KindDb.Lib.Runs KindDb.Schema KindDb.IndexHeap

/-- A call that is about to insert a new set still finds none there. -/
def Unraced {κ : Type} (pool : IndexPool κ) (i : κ) : Prop :=
  ∀ ik rest, pool.calls i = .creating ik rest → pool.heap.indexes[ik]? = none

/-- The index keys a call has yet to file its key under. -/
def left : Indexing → List String
  | .looking todo => todo
  | .creating ik rest => ik :: rest
  | .filing ik _ rest => ik :: rest
  | .returned => []

structure OnItsWay (heap : IndexHeap) (key : String) (keys : List String) (call : Indexing) :
    Prop where
  filed : ∀ ik ∈ keys, ik ∈ left call ∨ heap.Filed ik key
  current : ∀ ik set rest, call = .filing ik set rest → heap.indexes[ik]? = some set

structure Grows (heap heap' : IndexHeap) : Prop where
  entries : ∀ (ik : String) (set : Nat), heap.indexes[ik]? = some set →
    heap'.indexes[ik]? = some set
  filed : ∀ ik key, heap.Filed ik key → heap'.Filed ik key

theorem Grows.refl (heap : IndexHeap) : Grows heap heap := ⟨fun _ _ => id, fun _ _ => id⟩

theorem OnItsWay.grows {heap heap' : IndexHeap} {key : String} {keys : List String}
    {call : Indexing} (onItsWay : OnItsWay heap key keys call) (grows : Grows heap heap') :
    OnItsWay heap' key keys call :=
  ⟨fun ik member => (onItsWay.filed ik member).imp_right (grows.filed ik key),
    fun ik set rest same => grows.entries ik set (onItsWay.current ik set rest same)⟩

/-- One access of one call. -/
theorem call_step {heap heap' : IndexHeap} {key : String} {keys : List String}
    {call next : Indexing} (stepped : call.step key heap = some (heap', next))
    (unraced : ∀ ik rest, call = .creating ik rest → heap.indexes[ik]? = none)
    (wf : heap.WellFormed) (onItsWay : OnItsWay heap key keys call) :
    heap'.WellFormed ∧ Grows heap heap' ∧ OnItsWay heap' key keys next := by
  obtain ⟨filed, current⟩ := onItsWay
  cases call with
  | returned => cases stepped
  | looking todo =>
      cases todo with
      | nil =>
          cases stepped
          exact ⟨wf, Grows.refl _, filed, fun _ _ _ same => by cases same⟩
      | cons ik rest =>
          simp only [Indexing.step] at stepped
          split at stepped
          · rename_i set found
            cases stepped
            exact ⟨wf, Grows.refl _, filed, fun _ _ _ same => by cases same; exact found⟩
          · cases stepped
            exact ⟨wf, Grows.refl _, filed, fun _ _ _ same => by cases same⟩
  | creating ik rest =>
      have free := unraced ik rest rfl
      cases stepped
      have kept := fun t k => (filed_create wf free t k).mpr
      refine ⟨wf.create ik, ⟨fun t set found => ?_, kept⟩,
        fun t member => (filed t member).imp_right (kept t key), fun _ _ _ same => ?_⟩
      · rw [SortedMap.lookup_insert, if_neg, found]
        rintro rfl
        rw [free] at found
        cases found
      · cases same
        rw [SortedMap.lookup_insert, if_pos rfl]
  | filing ik set rest =>
      have found := current ik set rest rfl
      cases stepped
      have moved := filed_insert heap wf found key
      refine ⟨wf.insert set key, ⟨fun _ _ => id, fun t k => (moved t k).mpr ∘ Or.inl⟩,
        fun t member => ?_, fun _ _ _ same => by cases same⟩
      rcases filed t member with todo | old
      · rcases List.mem_cons.mp todo with rfl | later
        · exact Or.inr ((moved t key).mpr (Or.inr ⟨rfl, rfl⟩))
        · exact Or.inl later
      · exact Or.inr ((moved t key).mpr (Or.inl old))

variable {κ : Type} [DecidableEq κ]

structure InProgress (key : κ → String) (keys : κ → List String) (pool : IndexPool κ) : Prop where
  wf : pool.heap.WellFormed
  calls : ∀ i, OnItsWay pool.heap (key i) (keys i) (pool.calls i)

theorem inProgress_step {key : κ → String} {keys : κ → List String} {pool pool' : IndexPool κ}
    {i : κ} (unraced : Unraced pool i) (stepped : pool.step key i = some pool')
    (inProgress : InProgress key keys pool) : InProgress key keys pool' := by
  obtain ⟨heap, next, taken, rfl⟩ := IndexPool.step_cases stepped
  obtain ⟨wf, grows, mine⟩ := call_step taken unraced inProgress.wf (inProgress.calls i)
  refine ⟨wf, fun j => ?_⟩
  by_cases same : j = i
  · subst same
    simpa only [Function.update_self] using mine
  · simpa only [Function.update_of_ne same] using (inProgress.calls j).grows grows

section Calls
variable [Serde]

/-- Calls for the given records, each with its index keys extracted. -/
def start (reg : SchemaRegistry) (records : κ → String × Bytes) (heap : IndexHeap) : IndexPool κ :=
  { heap, calls := fun i => .looking (extractIndexKeys reg (records i).1 (records i).2) }

/-- In a run in which no call replaces a set, every call that has returned has
its key under each of its index keys. -/
theorem returned_filed (reg : SchemaRegistry) (records : κ → String × Bytes) (heap : IndexHeap)
    (wf : heap.WellFormed) (labels : List κ) (pool : IndexPool κ)
    (ran : runFrom (IndexPool.step fun i => (records i).1) (start reg records heap) labels =
      some pool)
    (unraced : EachMeets (IndexPool.step fun i => (records i).1) Unraced
      (start reg records heap) labels) :
    ∀ i, pool.calls i = .returned →
      ∀ ik ∈ extractIndexKeys reg (records i).1 (records i).2, pool.heap.Filed ik (records i).1 := by
  have started : InProgress (fun i => (records i).1)
      (fun i => extractIndexKeys reg (records i).1 (records i).2) (start reg records heap) :=
    ⟨wf, fun i => ⟨fun ik member => Or.inl member, fun _ _ _ same => by cases same⟩⟩
  have reached := runFrom_invariant (fun _ _ _ => inProgress_step) labels _ _ unraced ran started
  intro i returned ik member
  have filed := (reached.calls i).filed ik member
  rw [returned] at filed
  exact filed.resolve_left List.not_mem_nil

end Calls

/-! ## Two first writers -/

open SerdeJson IndexExactness

def twoUsers (i : Bool) : String × Bytes := (if i then "user:1" else "user:2", cityJson "a")

def emptyHeap : IndexHeap := { indexes := ∅, sets := [] }

theorem emptyHeap_wellFormed : emptyHeap.WellFormed :=
  ⟨fun _ _ found => by simp [emptyHeap] at found, fun _ _ _ found => by simp [emptyHeap] at found⟩

/-- Both find no set; the second to insert one replaces that of the first. -/
def overlapping : List Bool := [true, false, true, true, true, false, false, false]

def inTurn : List Bool := [true, true, true, true, false, false, false]

theorem overlapping_loses_entry :
    ¬ ∀ (reg : SchemaRegistry) (records : Bool → String × Bytes),
      (∀ i j, i ≠ j → (records i).1 ≠ (records j).1) →
      ∀ (labels : List Bool) (pool : IndexPool Bool),
        runFrom (IndexPool.step fun i => (records i).1) (start reg records emptyHeap) labels =
          some pool → (∀ i, pool.calls i = .returned) →
        ∀ i, ∀ ik ∈ extractIndexKeys reg (records i).1 (records i).2,
          pool.heap.Filed ik (records i).1 := by
  intro claim
  let final := runFrom (IndexPool.step fun i => (twoUsers i).1)
    (start userRegistry twoUsers emptyHeap) overlapping
  have finished : final.map (fun pool => (pool.calls true, pool.calls false)) =
      some (.returned, .returned) := by decide
  have entry : final.map (fun pool => pool.heap.indexes["User:city:a"]?) = some (some 1) := by
    decide
  have lost : final.map (fun pool => (pool.heap.sets[1]?).map (·.contains "user:1")) =
      some (some false) := by decide
  have keys : extractIndexKeys userRegistry "user:1" (cityJson "a") = ["User:city:a"] := by
    decide
  obtain ⟨pool, ran, returned⟩ := Option.map_eq_some_iff.mp finished
  rw [ran, Option.map_some, Option.some.injEq] at entry lost
  obtain ⟨set, postings, found, held, member⟩ :=
    claim userRegistry twoUsers (by decide) overlapping pool ran
      (by rintro ⟨⟩ <;> simp_all) true "User:city:a" (by simp [twoUsers, keys])
  rw [entry] at found
  cases found
  rw [held, Option.map_some, Option.some.injEq] at lost
  exact absurd (Std.ExtTreeSet.mem_iff_contains.mp member) (by simp [twoUsers, lost])

def isUnraced (pool : IndexPool Bool) (i : Bool) : Bool :=
  match pool.calls i with
  | .creating ik _ => (pool.heap.indexes[ik]?).isNone
  | _ => true

theorem unraced_of_isUnraced (pool : IndexPool Bool) (i : Bool) (passes : isUnraced pool i = true) :
    Unraced pool i := by
  intro ik rest creating
  rw [isUnraced, creating] at passes
  exact Option.isNone_iff_eq_none.mp passes

theorem returned_filed_inTurn :
    ∃ pool, runFrom (IndexPool.step fun i => (twoUsers i).1)
        (start userRegistry twoUsers emptyHeap) inTurn = some pool ∧
      ∀ i, pool.calls i = .returned →
        ∀ ik ∈ extractIndexKeys userRegistry (twoUsers i).1 (twoUsers i).2,
          pool.heap.Filed ik (twoUsers i).1 := by
  have finished : (runFrom (IndexPool.step fun i => (twoUsers i).1)
      (start userRegistry twoUsers emptyHeap) inTurn).isSome = true := by decide
  obtain ⟨pool, ran⟩ := Option.isSome_iff_exists.mp finished
  refine ⟨pool, ran, returned_filed userRegistry twoUsers emptyHeap emptyHeap_wellFormed inTurn
    pool ran (eachMeets_of_passes unraced_of_isUnraced ?_)⟩
  decide

end KindDb.ConcurrentIndexing
