import KindDb.SerdeJson
import KindDb.Server.Recovery
import KindDb.Server.Pool
import KindDb.Server.Workers

/-! # Cache and tree under concurrent calls

`put` fills the cache well before it inserts, `cas` invalidates before it
inserts, `delete` and `commit` invalidate last.  A call mends a cached value
that the tree does not hold if it is bound to replace or to invalidate it, or to
insert just that value.  As long as every insert into the tree leaves the cache
without a value for the key, with the value inserted, or with one that some call
mends, the cache agrees with the tree whenever no call is in progress. -/
set_option autoImplicit false

namespace KindDb

open KindDb.Lib KindDb.Lib.Overlay KindDb.Lib.Runs KindDb.Cache KindDb.KindServerImpl

/-! ## What a worker is bound to do -/

namespace Access

/-- The worker may drop what it had still to do. -/
def mayEnd : Access → Bool
  | .deleteLookup _ => true
  | .compare _ => true
  | .check _ _ => true
  | .cacheGet _ => true
  | .getLookup _ => true
  | .collect _ _ => true
  | .load => true
  | .reply _ => true
  | _ => false

/-- After the access a cached `held` is gone, or the tree holds it. -/
def mends (key : String) (held : Bytes) : Access → Bool
  | .cacheInvalidate k => k = key
  | .cachePut k _ => k = key
  | .insert k value _ => k = key && value = held
  | _ => false

def isIndexing : Access → Bool
  | .file _ _ => true
  | .unfile _ _ => true
  | _ => false

end Access

namespace CacheAgreement

def mends (key : String) (held : Bytes) : List Access → Bool
  | [] => false
  | access :: rest => access.mends key held || (!access.mayEnd && mends key held rest)

/-- What comes behind an access that parts cache and tree. -/
def FollowedUp (rest : List Access) : Access → Prop
  | .cachePut key value => mends key value rest = true
  | .remove key => ∀ held, mends key held rest = true
  | .cacheGet _ => False
  | .getLookup _ => False
  | .collect _ _ => False
  | .evict _ => False
  | _ => True

def Orderly : List Access → Prop
  | [] => True
  | access :: rest => FollowedUp rest access ∧ Orderly rest

theorem indexing_append {pre rest : List Access} (indexing : ∀ a ∈ pre, a.isIndexing = true) :
    (∀ key held, mends key held (pre ++ rest) = mends key held rest) ∧
      (Orderly (pre ++ rest) ↔ Orderly rest) := by
  induction pre with
  | nil => exact ⟨fun _ _ => rfl, Iff.rfl⟩
  | cons access pre ih =>
      obtain ⟨mended, orderly⟩ := ih fun a member => indexing a (List.mem_cons_of_mem _ member)
      have quiet := indexing access List.mem_cons_self
      cases access with
      | file | unfile =>
          exact ⟨mended, (and_iff_right trivial).trans orderly⟩
      | _ => cases quiet

section Programs
variable [Serde] (s : KindServerImpl)

theorem filing_indexing (key : String) (value : Bytes) :
    ∀ a ∈ s.filing key value, a.isIndexing = true := by
  intro a member
  obtain ⟨ik, _, rfl⟩ := List.mem_map.mp member
  rfl

theorem unfiling_indexing (key : String) (value : Bytes) :
    ∀ a ∈ s.unfiling key value, a.isIndexing = true := by
  intro a member
  obtain ⟨ik, _, rfl⟩ := List.mem_map.mp member
  rfl

theorem orderly_applies (entries : List (String × Option DbRecord)) {rest : List Access}
    (orderly : Orderly rest) : Orderly (entries.flatMap s.applyAccesses ++ rest) := by
  induction entries with
  | nil => exact orderly
  | cons entry entries ih =>
      obtain ⟨key, written⟩ := entry
      rw [List.flatMap_cons, List.append_assoc]
      cases written with
      | none =>
          refine ⟨trivial, fun held => ?_, trivial, trivial, ih⟩
          simp [mends, Access.mends, Access.mayEnd]
      | some rec =>
          simp only [applyAccesses, List.cons_append, List.append_assoc]
          refine ⟨trivial, trivial, (indexing_append (filing_indexing s key rec.value)).2.mpr ?_⟩
          exact ⟨trivial, trivial, ih⟩

omit [Serde] in
theorem orderly_checks (entries : List (String × Option DbRecord)) (snapshotVersion : Nat)
    {rest : List Access} (orderly : Orderly rest) :
    Orderly (entries.map (fun entry => .check entry.1 snapshotVersion) ++ rest) := by
  induction entries with
  | nil => exact orderly
  | cons entry entries ih => exact ⟨trivial, ih⟩

theorem orderly_accesses (now : UInt64) (call : Call) :
    Orderly (s.accesses now (.call call)) := by
  have refused : ∀ outcome, Orderly [.reply outcome] := fun _ => ⟨trivial, trivial⟩
  cases call with
  | put req =>
      simp only [accesses]
      split
      · exact refused _
      · refine ⟨trivial, (indexing_append (filing_indexing s _ _)).2.mpr ?_⟩
        unfold caching
        split <;> simp [Orderly, FollowedUp, mends, Access.mends, Access.mayEnd]
  | delete key =>
      simp only [accesses]
      split
      · exact refused _
      · simp [deleteAccesses, Orderly, FollowedUp, mends, Access.mends, Access.mayEnd]
  | cas req =>
      simp only [accesses]
      split
      · exact refused _
      · refine ⟨trivial, trivial, (indexing_append (filing_indexing s _ _)).2.mpr ?_⟩
        simp [Orderly, FollowedUp]
  | beginTransaction => exact ⟨trivial, trivial⟩
  | commit tx =>
      simp only [accesses]
      split
      · exact refused _
      · exact ⟨trivial, orderly_checks _ _ ⟨trivial, trivial, trivial,
          orderly_applies s _ ⟨trivial, trivial, trivial⟩⟩⟩

/-! ## One access -/

variable {s} {version : Nat} {access : Access} {rest : List Access}

/-- A worker that is bound to mend goes on to do so. -/
theorem mends_next (now : UInt64) {key : String} {held : Bytes}
    (bound : mends key held (access :: rest) = true) (notHere : access.mends key held = false) :
    mends key held (Worker.todo (some (access.next now s version rest))) = true := by
  obtain ⟨goesOn, later⟩ : access.mayEnd = false ∧ mends key held rest = true := by
    simpa [mends, notHere] using bound
  cases access with
  | lookupOld k =>
      simp only [Access.next, Access.goesOn, Worker.todo_running]
      cases s.tree[k]? with
      | none => exact later
      | some old => exact ((indexing_append (unfiling_indexing s k old.value)).1 key held).trans later
  | deleteLookup | compare | check | cacheGet | getLookup | collect | load | reply => cases goesOn
  | _ => exact later

theorem orderly_next (now : UInt64) (orderly : Orderly (access :: rest)) :
    Orderly (Worker.todo (some (access.next now s version rest))) := by
  obtain ⟨followed, later⟩ := orderly
  have unfiled : ∀ key value, Orderly (s.unfiling key value ++ rest) := fun key value =>
    (indexing_append (unfiling_indexing s key value)).2.mpr later
  have replied : ∀ outcome, Orderly [.reply outcome] := fun _ => ⟨trivial, trivial⟩
  have released : ∀ outcome, Orderly [.unlock, .reply outcome] := fun _ => ⟨trivial, trivial, trivial⟩
  cases access with
  | lookupOld k =>
      simp only [Access.next, Access.goesOn, Worker.todo_running]
      split
      · exact unfiled _ _
      · exact later
  | deleteLookup k =>
      simp only [Access.next, Access.goesOn, Worker.todo_running]
      split
      · exact unfiled _ _
      · exact replied _
  | compare req =>
      simp only [Access.next, Access.goesOn, Worker.todo_running]
      split
      · split
        · split
          · exact later
          · exact released _
        · split
          · exact unfiled _ _
          · exact released _
      · split
        · exact later
        · exact released _
  | check k snapshotVersion =>
      simp only [Access.next, Access.goesOn, Worker.todo_running]
      split
      · split
        · exact released _
        · exact later
      · exact later
  | load | reply => trivial
  | cacheGet | getLookup | collect | evict => exact followed.elim
  | _ => exact later

end Programs

/-! ## Runs -/

section Runs
variable {κ : Type}

def Agrees (s : KindServerImpl) (key : String) : Prop :=
  ∀ held, s.cache.peek key = some held → ∃ r, s.tree[key]? = some r ∧ r.value = held

def Mended (pool : WorkerPool κ) (key : String) (held : Bytes) : Prop :=
  ∃ i, mends key held (Worker.todo (pool.workers i)) = true

/-- The tree holds what the cache holds, or somebody is bound to see to it. -/
def Settled (pool : WorkerPool κ) (key : String) : Prop :=
  ∀ held, pool.shared.server.cache.peek key = some held →
    (∃ r, pool.shared.server.tree[key]? = some r ∧ r.value = held) ∨ Mended pool key held

/-- A call that is about to insert leaves the cache with nothing else for the
key than the value inserted, or what it or another call is bound to mend. -/
def InsertsInOrder (pool : WorkerPool κ) (event : κ × UInt64) : Prop :=
  ∀ version key value expiresAt rest,
    pool.workers event.1 = some (.running version (.insert key value expiresAt :: rest)) →
    ∀ held, pool.shared.server.cache.peek key = some held →
      value = held ∨ mends key held rest = true ∨
        ∃ j, j ≠ event.1 ∧ mends key held (Worker.todo (pool.workers j)) = true

structure Underway (pool : WorkerPool κ) : Prop where
  orderly : ∀ i, Orderly (Worker.todo (pool.workers i))
  settled : ∀ key, Settled pool key

variable [Serde] [DecidableEq κ] {calls : κ → Call} {pool pool' : WorkerPool κ}
  {event : κ × UInt64}

omit [Serde] in
theorem forall_update {P : List Access → Prop} {workers : κ → Option Worker} {i : κ}
    {worker : Worker} (others : ∀ j, P (Worker.todo (workers j)))
    (mine : P (Worker.todo (some worker))) (j : κ) :
    P (Worker.todo (Function.update workers i (some worker) j)) := by
  by_cases same : j = i
  · subst same
    simpa only [Function.update_self] using mine
  · simpa only [Function.update_of_ne same] using others j

theorem Underway.begin (underway : Underway pool) (idle : pool.workers event.1 = none) :
    Underway ⟨pool.shared, Function.update pool.workers event.1
      (some (.running 0 (pool.shared.server.accesses event.2 (.call (calls event.1)))))⟩ := by
  refine ⟨forall_update underway.orderly (orderly_accesses _ _ _), fun key held cached => ?_⟩
  refine (underway.settled key held cached).imp_right fun ⟨j, bound⟩ => ⟨j, ?_⟩
  have other : j ≠ event.1 := by
    rintro rfl
    rw [idle] at bound
    cases bound
  simpa only [Function.update_of_ne other] using bound

/-- One access of one call. -/
theorem Underway.access (underway : Underway pool) (inOrder : InsertsInOrder pool event)
    {version : Nat} {access : Access} {rest : List Access} {walLock : Option κ}
    (running : pool.workers event.1 = some (.running version (access :: rest))) :
    Underway ⟨⟨access.change version pool.shared.server, walLock⟩, Function.update pool.workers
      event.1 (some (access.next event.2 pool.shared.server version rest))⟩ := by
  have orderly : Orderly (access :: rest) := by
    simpa only [running, Worker.todo_running] using underway.orderly event.1
  refine ⟨forall_update underway.orderly (orderly_next event.2 orderly), fun key held cached => ?_⟩
  -- who mends in the new pool
  have byMe : mends key held (Worker.todo
      (some (access.next event.2 pool.shared.server version rest))) = true →
      Mended ⟨⟨access.change version pool.shared.server, walLock⟩, Function.update pool.workers
        event.1 (some (access.next event.2 pool.shared.server version rest))⟩ key held :=
    fun bound => ⟨event.1, by simpa only [Function.update_self] using bound⟩
  have byOther : ∀ j, j ≠ event.1 → mends key held (Worker.todo (pool.workers j)) = true →
      Mended ⟨⟨access.change version pool.shared.server, walLock⟩, Function.update pool.workers
        event.1 (some (access.next event.2 pool.shared.server version rest))⟩ key held :=
    fun j other bound => ⟨j, by simpa only [Function.update_of_ne other] using bound⟩
  have elsewhere : access.mends key held = false →
      pool.shared.server.cache.peek key = some held →
      (access.change version pool.shared.server).tree[key]? = pool.shared.server.tree[key]? →
      (∃ r, (access.change version pool.shared.server).tree[key]? = some r ∧ r.value = held) ∨
        Mended ⟨⟨access.change version pool.shared.server, walLock⟩, Function.update pool.workers
          event.1 (some (access.next event.2 pool.shared.server version rest))⟩ key held := by
    intro notHere before unchanged
    rw [unchanged]
    refine (underway.settled key held before).imp_right fun ⟨j, bound⟩ => ?_
    by_cases mine : j = event.1
    · subst mine
      rw [running, Worker.todo_running] at bound
      exact byMe (mends_next event.2 bound notHere)
    · exact byOther j mine bound
  have untouched : ∀ {written : Option DbRecord} {k : String}, k ≠ key →
      overlay (fun k : String => pool.shared.server.tree[k]?) [(k, written)] key =
        pool.shared.server.tree[key]? :=
    fun other => overlay_untouched (by simp [touched, other.symm]) _
  obtain ⟨followed, _⟩ := orderly
  cases access with
  | cacheInvalidate k =>
      have cached' : (pool.shared.server.cache.invalidate k).peek key = some held := cached
      rw [LruCache.peek_invalidate] at cached'
      split at cached'
      · cases cached'
      · rename_i other
        exact elsewhere (by simp [Access.mends, other]) cached' rfl
  | cachePut k value =>
      by_cases same : k = key
      · subst same
        have cached' : (pool.shared.server.cache.put k value).peek k = some held := cached
        rw [LruCache.peek_put_self] at cached'
        cases cached'
        exact Or.inr (byMe followed)
      · exact elsewhere (by simp [Access.mends, same]) (LruCache.peek_put_other same cached) rfl
  | insert k value expiresAt =>
      by_cases same : k = key
      · subst same
        rcases inOrder version k value expiresAt rest running held cached with
          equal | bound | ⟨j, other, bound⟩
        · refine Or.inl ⟨{ value, expiresAt, version }, ?_, equal⟩
          exact (Access.lookup_change _ _ _ _).trans
            (overlay_of_mem (by simp [touched]) List.mem_cons_self _)
        · exact Or.inr (byMe bound)
        · exact Or.inr (byOther j other bound)
      · exact elsewhere (by simp [Access.mends, same]) cached
          ((Access.lookup_change _ _ _ _).trans (untouched same))
  | remove k =>
      by_cases same : k = key
      · subst same
        exact Or.inr (byMe (followed held))
      · exact elsewhere rfl cached ((Access.lookup_change _ _ _ _).trans (untouched same))
  | cacheGet | getLookup | collect | evict => exact followed.elim
  | _ => exact elsewhere rfl cached rfl

theorem underway_step (inOrder : InsertsInOrder pool event)
    (stepped : pool.step (fun i => .call (calls i)) event = some pool')
    (underway : Underway pool) : Underway pool' := by
  rcases WorkerPool.step_cases stepped with ⟨idle, rfl⟩ |
    ⟨version, access, rest, walLock, running, rfl⟩
  · exact underway.begin idle
  · exact underway.access inOrder running

omit [Serde] [DecidableEq κ] in
/-- No call has been started and has not returned. -/
def Quiescent (pool : WorkerPool κ) : Prop :=
  ∀ i version todo, pool.workers i ≠ some (.running version todo)

/-- In a run whose inserts are in order the cache agrees with the tree when no
call is in progress. -/
theorem quiescent_agrees (calls : κ → Call) (s : KindServerImpl) (agrees : ∀ key, Agrees s key)
    (events : List (κ × UInt64)) (pool : WorkerPool κ)
    (ran : runFrom (WorkerPool.step fun i => .call (calls i)) (.start s) events = some pool)
    (inOrder : EachMeets (WorkerPool.step fun i => .call (calls i)) InsertsInOrder (.start s)
      events) (quiescent : Quiescent pool) : ∀ key, Agrees pool.shared.server key := by
  have started : Underway (.start s : WorkerPool κ) :=
    ⟨fun _ => trivial, fun key held cached => Or.inl (agrees key held cached)⟩
  have underway := runFrom_invariant (fun _ _ _ => underway_step) events _ _ inOrder ran started
  intro key held cached
  refine (underway.settled key held cached).resolve_right fun ⟨i, bound⟩ => ?_
  cases worker : pool.workers i with
  | none =>
      rw [worker] at bound
      cases bound
  | some running =>
      rw [worker] at bound
      cases running with
      | done outcome => cases bound
      | running version todo => exact quiescent i version todo worker

end Runs

/-! ## Two puts to one key -/

open SerdeJson

def twoPuts (i : Bool) : Call := .put { key := "a", value := if i then [1] else [2], ttlMs := none }

def fresh : KindServerImpl := .fresh .new false false false

def times (count : Nat) (i : Bool) : List (Bool × UInt64) := List.replicate count (i, 0)

/-- The first put is overtaken between its write to the cache and its insert. -/
def overtaken : List (Bool × UInt64) := times 3 true ++ times 11 false ++ times 8 true

/-- Both puts reach the cache and the tree in the same order. -/
def sameOrder : List (Bool × UInt64) := times 3 true ++ times 3 false ++ times 8 true ++ times 8 false

def isQuiescent (pool : WorkerPool Bool) : Bool :=
  [true, false].all fun i => match pool.workers i with
    | some (.running _ _) => false
    | _ => true

theorem quiescent_of_isQuiescent {pool : WorkerPool Bool} (quiet : isQuiescent pool = true) :
    Quiescent pool := by
  intro i version todo running
  have all := List.all_eq_true.mp quiet i (by cases i <;> simp)
  simp [running] at all

theorem agrees_fresh (key : String) : Agrees fresh key := by
  intro held cached
  have empty : fresh.cache.peek key = none := LruCache.peek_new _ (by decide) key
  rw [empty] at cached
  cases cached

theorem overtaken_disagrees :
    ¬ ∀ (calls : Bool → Call), (∀ i, (calls i).TtlFree) → ∀ (s : KindServerImpl),
      s.isReplica = false → (∀ key, Agrees s key) →
      ∀ (events : List (Bool × UInt64)) (pool : WorkerPool Bool),
        runFrom (WorkerPool.step fun i => .call (calls i)) (.start s) events = some pool →
        Quiescent pool → ∀ key, Agrees pool.shared.server key := by
  intro claim
  have ends : (runFrom (WorkerPool.step fun i => .call (twoPuts i)) (.start fresh) overtaken).map
      (fun pool => (isQuiescent pool, pool.shared.server.cache.peek "a",
        pool.shared.server.tree["a"]?)) =
      some (true, some [2], some { value := [1], expiresAt := none, version := 2 }) := by
    decide
  obtain ⟨pool, ran, seen⟩ := Option.map_eq_some_iff.mp ends
  obtain ⟨quiet, cached, held⟩ : _ ∧ _ ∧ _ := by simpa only [Prod.mk.injEq] using seen
  obtain ⟨r, found, same⟩ := claim twoPuts (fun _ => rfl) fresh rfl agrees_fresh overtaken pool ran
    (quiescent_of_isQuiescent quiet) "a" [2] cached
  rw [held] at found
  cases found
  exact absurd same (by decide)

def insertsInOrder (pool : WorkerPool Bool) (event : Bool × UInt64) : Bool :=
  match pool.workers event.1 with
  | some (.running _ (.insert key value _ :: rest)) =>
      (pool.shared.server.cache.peek key).all fun held => value = held || mends key held rest ||
        mends key held (Worker.todo (pool.workers !event.1))
  | _ => true

theorem inOrder_of_insertsInOrder (pool : WorkerPool Bool) (event : Bool × UInt64)
    (passes : insertsInOrder pool event = true) : InsertsInOrder pool event := by
  intro version key value expiresAt rest running held cached
  simp only [insertsInOrder, running, cached, Option.all_some, Bool.or_eq_true,
    decide_eq_true_eq, or_assoc] at passes
  exact passes.imp_right (Or.imp_right fun bound => ⟨!event.1, by simp, bound⟩)

theorem quiescent_agrees_sameOrder :
    ∃ pool, runFrom (WorkerPool.step fun i => .call (twoPuts i)) (.start fresh) sameOrder =
      some pool ∧ ∀ key, Agrees pool.shared.server key := by
  have finished : (runFrom (WorkerPool.step fun i => .call (twoPuts i)) (.start fresh)
      sameOrder).map isQuiescent = some true := by decide
  obtain ⟨pool, ran, quiet⟩ := Option.map_eq_some_iff.mp finished
  refine ⟨pool, ran, quiescent_agrees twoPuts fresh agrees_fresh sameOrder pool ran
    (eachMeets_of_passes inOrder_of_insertsInOrder ?_) (quiescent_of_isQuiescent quiet)⟩
  decide

end CacheAgreement

end KindDb
