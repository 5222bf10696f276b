import KindDb.Server.Workers

/-! # The WAL mutex among workers

A worker is in its section when the next thing it will do with the mutex is to
release it.  The programs bracket their sections, and what an access puts in
place of the rest of a program keeps to the brackets, so that in every run a
worker in its section is the one that holds the mutex. -/
set_option autoImplicit false

namespace KindDb

open KindDb.Lib KindDb.KindServerImpl

namespace Access

def inSection : List Access → Bool
  | [] => false
  | .lock :: _ => false
  | .unlock :: _ => true
  | _ :: rest => inSection rest

/-- What stands behind an access, so that an early end keeps to the section. -/
def Sectioned (rest : List Access) : Access → Prop
  | .lock => inSection rest = true
  | .unlock => inSection rest = false
  | .compare _ => inSection rest = true
  | .check _ _ => inSection rest = true
  | .deleteLookup _ => inSection rest = false
  | .cacheGet _ => inSection rest = false
  | .getLookup _ => inSection rest = false
  | .collect _ _ => inSection rest = false
  | _ => True

def Bracketed : List Access → Prop
  | [] => True
  | access :: rest => Sectioned rest access ∧ Bracketed rest

/-- An access that has nothing to do with the mutex and always goes on. -/
def isPlain : Access → Bool
  | .file _ _ => true
  | .unfile _ _ => true
  | .cachePut _ _ => true
  | .cacheInvalidate _ => true
  | .insert _ _ _ => true
  | .remove _ => true
  | .evict _ => true
  | .watch _ => true
  | .lookupOld _ => true
  | _ => false

theorem plain_append {pre rest : List Access} (plain : ∀ a ∈ pre, a.isPlain = true) :
    inSection (pre ++ rest) = inSection rest ∧ (Bracketed (pre ++ rest) ↔ Bracketed rest) := by
  induction pre with
  | nil => exact ⟨rfl, Iff.rfl⟩
  | cons access pre ih =>
      obtain ⟨same, bracketed⟩ := ih fun a member => plain a (List.mem_cons_of_mem _ member)
      have here := plain access List.mem_cons_self
      cases access with
      | file | unfile | cachePut | cacheInvalidate | insert | remove | evict | watch | lookupOld =>
          exact ⟨same, (and_iff_right trivial).trans bracketed⟩
      | _ => cases here

def Unfiles (access : Access) : Prop := ∃ ik key, access = .unfile ik key

/-- Of a record that is to go, an index entry or the record itself. -/
def Clears (access : Access) : Prop := Unfiles access ∨ ∃ key, access = .evict key

theorem plain_of_clears {access : Access} (clears : Clears access) : access.isPlain = true := by
  rcases clears with ⟨ik, key, rfl⟩ | ⟨key, rfl⟩ <;> rfl

/-- A lookup may answer at once. -/
def mayAnswer : Access → Bool
  | .deleteLookup _ => true
  | .cacheGet _ => true
  | .getLookup _ => true
  | _ => false

/-- What an access may leave a worker to do. -/
inductive Onward (access : Access) (rest : List Access) : List Access → Prop
  | on {pre : List Access} (unfiling : ∀ a ∈ pre, Unfiles a) : Onward access rest (pre ++ rest)
  | answered {pre : List Access} {outcome : Outcome} (clearing : ∀ a ∈ pre, Clears a)
      (answers : access.mayAnswer = true) : Onward access rest (pre ++ [.reply outcome])
  | released {outcome : Outcome}
      (locks : (∃ req, access = .compare req) ∨
        ∃ key snapshotVersion, access = .check key snapshotVersion) :
      Onward access rest [.unlock, .reply outcome]
  | collecting {pre : List Access} {cursor : Option String} {toRemove : List (String × Bytes)}
      (isCollect : ∃ cursor toRemove, access = .collect cursor toRemove)
      (clearing : ∀ a ∈ pre, Clears a) :
      Onward access rest (pre ++ .collect cursor toRemove :: rest)
  | finished (last : (∃ outcome, access = .reply outcome) ∨ access = .load) :
      Onward access rest []

section Programs
variable [Serde] (s : KindServerImpl)

theorem filing_plain (key : String) (value : Bytes) : ∀ a ∈ s.filing key value, a.isPlain = true := by
  intro a member
  obtain ⟨ik, _, rfl⟩ := List.mem_map.mp member
  rfl

theorem unfiling_unfiles (key : String) (value : Bytes) :
    ∀ a ∈ s.unfiling key value, Unfiles a := by
  intro a member
  obtain ⟨ik, _, rfl⟩ := List.mem_map.mp member
  exact ⟨ik, key, rfl⟩

theorem clears_eviction (entry : String × Bytes) :
    ∀ a ∈ s.unfiling entry.1 entry.2 ++ [.evict entry.1], Clears a := by
  intro a member
  rcases List.mem_append.mp member with unfiled | last
  · exact Or.inl (unfiling_unfiles s entry.1 entry.2 a unfiled)
  · exact Or.inr ⟨entry.1, List.mem_singleton.mp last⟩

theorem applyAccesses_plain (entries : List (String × Option DbRecord)) :
    ∀ a ∈ entries.flatMap s.applyAccesses, a.isPlain = true := by
  intro a member
  obtain ⟨⟨key, written⟩, _, listed⟩ := List.mem_flatMap.mp member
  cases written with
  | none =>
      simp only [applyAccesses, List.mem_cons, List.not_mem_nil, or_false] at listed
      rcases listed with rfl | rfl | rfl | rfl <;> rfl
  | some rec =>
      simp only [applyAccesses, List.mem_cons, List.mem_append, List.not_mem_nil, or_false]
        at listed
      rcases listed with rfl | rfl | filed | rfl | rfl
      · rfl
      · rfl
      · exact filing_plain s key rec.value a filed
      · rfl
      · rfl

omit [Serde] in
theorem checks_section (entries : List (String × Option DbRecord)) (snapshotVersion : Nat)
    {rest : List Access} (inside : inSection rest = true) (bracketed : Bracketed rest) :
    inSection (entries.map (fun entry => .check entry.1 snapshotVersion) ++ rest) = true ∧
      Bracketed (entries.map (fun entry => .check entry.1 snapshotVersion) ++ rest) := by
  induction entries with
  | nil => exact ⟨inside, bracketed⟩
  | cons entry entries ih => exact ⟨ih.1, ih.1, ih.2⟩

/-- Every program starts outside its section and keeps to its brackets. -/
theorem bracketed_accesses (now : UInt64) (job : Job) :
    inSection (s.accesses now job) = false ∧ Bracketed (s.accesses now job) := by
  have refused : ∀ outcome, inSection [.reply outcome] = false ∧ Bracketed [.reply outcome] :=
    fun _ => ⟨rfl, trivial, trivial⟩
  cases job with
  | get key => simp [accesses, inSection, Bracketed, Sectioned]
  | sweeper => simp [accesses, inSection, Bracketed, Sectioned]
  | call call =>
      cases call with
      | beginTransaction => simp [accesses, inSection, Bracketed, Sectioned]
      | delete key =>
          simp only [accesses]
          split
          · exact refused _
          · simp [deleteAccesses, inSection, Bracketed, Sectioned]
      | put req =>
          simp only [accesses]
          split
          · exact refused _
          · have cached : ∀ a ∈ caching req.key req.value (deadline now req.ttlMs),
                a.isPlain = true := by
              intro a member
              unfold caching at member
              split at member
              · rw [List.mem_singleton.mp member]
                rfl
              · cases member
            refine ⟨?_, trivial, ?_⟩
            · exact (plain_append (filing_plain s req.key req.value)).1.trans (plain_append cached).1
            · refine (plain_append (filing_plain s req.key req.value)).2.mpr ?_
              refine (plain_append cached).2.mpr ?_
              simp [Bracketed, Sectioned, inSection]
      | cas req =>
          simp only [accesses]
          split
          · exact refused _
          · have inside : inSection (s.filing req.key req.newValue ++ [.cacheInvalidate req.key,
                .fetchAdd, .append (.put req.key req.newValue (deadline now req.ttlMs)),
                .send (.put req.key req.newValue (deadline now req.ttlMs)),
                .insert req.key req.newValue (deadline now req.ttlMs),
                .watch (putEvent req.key req.newValue), .unlock,
                .reply (.call (.write (.ok true)))]) = true :=
              (plain_append (filing_plain s req.key req.newValue)).1
            refine ⟨rfl, inside, inside, ?_⟩
            refine (plain_append (filing_plain s req.key req.newValue)).2.mpr ?_
            simp [Bracketed, Sectioned, inSection]
      | commit tx =>
          simp only [accesses]
          split
          · exact refused _
          · have applied := applyAccesses_plain s tx.writeSet.entries
            have inside : inSection (.fetchAdd :: .append (commitCommand tx) ::
                .send (commitCommand tx) :: (tx.writeSet.entries.flatMap s.applyAccesses ++
                  [.unlock, .reply (.call (.commit (.ok ())))])) = true :=
              (plain_append applied).1
            have bracketed : Bracketed (.fetchAdd :: .append (commitCommand tx) ::
                .send (commitCommand tx) :: (tx.writeSet.entries.flatMap s.applyAccesses ++
                  [.unlock, .reply (.call (.commit (.ok ())))])) := by
              refine ⟨trivial, trivial, trivial, (plain_append applied).2.mpr ?_⟩
              simp [Bracketed, Sectioned, inSection]
            obtain ⟨locked, checked⟩ :=
              checks_section tx.writeSet.entries tx.snapshotVersion inside bracketed
            exact ⟨rfl, locked, checked⟩

/-! ## One access -/

variable {s} {version : Nat} {access : Access} {rest : List Access}

theorem onward_next (now : UInt64) :
    Onward access rest (Worker.todo (some (access.next now s version rest))) := by
  have none : ∀ a ∈ ([] : List Access), Unfiles a := fun a member => (by cases member)
  have nothing : ∀ a ∈ ([] : List Access), Clears a := fun a member => (by cases member)
  have goesOn : Onward access rest rest := .on none
  have unfiled : ∀ key value, Onward access rest (s.unfiling key value ++ rest) :=
    fun key value => .on (unfiling_unfiles s key value)
  have answered : access.mayAnswer = true → ∀ outcome, Onward access rest [.reply outcome] :=
    fun answers outcome => .answered nothing answers
  cases access with
  | lookupOld key =>
      simp only [next, Access.goesOn, Worker.todo_running]
      split
      · exact unfiled _ _
      · exact goesOn
  | deleteLookup key =>
      simp only [next, Access.goesOn, Worker.todo_running]
      split
      · exact unfiled _ _
      · exact answered rfl _
  | compare req =>
      simp only [next, Access.goesOn, Worker.todo_running]
      split
      · split
        · split
          · exact goesOn
          · exact .released (Or.inl ⟨req, rfl⟩)
        · split
          · exact unfiled _ _
          · exact .released (Or.inl ⟨req, rfl⟩)
      · split
        · exact goesOn
        · exact .released (Or.inl ⟨req, rfl⟩)
  | check key snapshotVersion =>
      simp only [next, Access.goesOn, Worker.todo_running]
      split
      · split
        · exact .released (Or.inr ⟨key, snapshotVersion, rfl⟩)
        · exact goesOn
      · exact goesOn
  | cacheGet key =>
      simp only [next, Access.goesOn, Worker.todo_running]
      split
      · exact answered rfl _
      · exact goesOn
  | getLookup key =>
      simp only [next, Access.goesOn, Worker.todo_running]
      split
      · rename_i rec _
        split
        · have evicting : s.unfiling key rec.value ++
              [.evict key, .reply (.got (.error (.notFound "Key not found or expired")))] =
              (s.unfiling key rec.value ++ [.evict key]) ++
                [.reply (.got (.error (.notFound "Key not found or expired")))] := by simp
          rw [evicting]
          exact .answered (clears_eviction s (key, rec.value)) rfl
        · exact answered rfl _
      · exact answered rfl _
  | collect cursor toRemove =>
      simp only [next, Access.goesOn, Worker.todo_running]
      split
      · exact .collecting ⟨cursor, toRemove, rfl⟩ nothing
      · refine .collecting ⟨cursor, toRemove, rfl⟩ fun a member => ?_
        obtain ⟨entry, _, listed⟩ := List.mem_flatMap.mp member
        exact clears_eviction s entry a listed
  | load => exact .finished (Or.inr rfl)
  | reply outcome => exact .finished (Or.inl ⟨outcome, rfl⟩)
  | _ => exact goesOn

end Programs

section Onward
variable {access : Access} {rest todo : List Access}

theorem inSection_cons (passive : access ≠ .lock ∧ access ≠ .unlock) :
    inSection (access :: rest) = inSection rest := by
  cases access with
  | lock => exact absurd rfl passive.1
  | unlock => exact absurd rfl passive.2
  | _ => rfl

/-- An access that is neither `lock` nor `unlock` leaves a worker where it was. -/
theorem Onward.inSection (onward : Onward access rest todo)
    (bracketed : Bracketed (access :: rest)) (passive : access ≠ .lock ∧ access ≠ .unlock)
    (inside : Access.inSection todo = true) : Access.inSection (access :: rest) = true := by
  rw [inSection_cons passive]
  cases onward with
  | on unfiling =>
      rwa [(plain_append fun a member => plain_of_clears (Or.inl (unfiling a member))).1] at inside
  | answered clearing answers =>
      rw [(plain_append fun a member => plain_of_clears (clearing a member)).1] at inside
      cases inside
  | released locks =>
      rcases locks with ⟨req, rfl⟩ | ⟨key, snapshotVersion, rfl⟩
      · exact bracketed.1
      · exact bracketed.1
  | collecting isCollect clearing =>
      rwa [(plain_append fun a member => plain_of_clears (clearing a member)).1] at inside
  | finished last => cases inside

theorem Onward.bracketed (onward : Onward access rest todo)
    (bracketed : Bracketed (access :: rest)) : Bracketed todo := by
  cases onward with
  | on unfiling =>
      exact (plain_append fun a member => plain_of_clears (Or.inl (unfiling a member))).2.mpr
        bracketed.2
  | answered clearing answers =>
      exact (plain_append fun a member => plain_of_clears (clearing a member)).2.mpr
        ⟨trivial, trivial⟩
  | released locks => exact ⟨rfl, trivial, trivial⟩
  | collecting isCollect clearing =>
      obtain ⟨cursor, toRemove, rfl⟩ := isCollect
      exact (plain_append fun a member => plain_of_clears (clearing a member)).2.mpr
        ⟨bracketed.1, bracketed.2⟩
  | finished last => trivial

end Onward

end Access

/-! ## Runs -/

namespace WorkerPool

variable {κ : Type}

/-- Whoever is in its section holds the mutex. -/
structure Exclusive (pool : WorkerPool κ) : Prop where
  bracketed : ∀ i, Access.Bracketed (Worker.todo (pool.workers i))
  held : ∀ i, Access.inSection (Worker.todo (pool.workers i)) = true →
    pool.shared.walLock = some i

theorem exclusive_start (s : KindServerImpl) : Exclusive (.start s : WorkerPool κ) :=
  ⟨fun _ => trivial, fun _ inside => (by cases inside)⟩

variable [Serde] [DecidableEq κ] {jobs : κ → Job} {pool pool' : WorkerPool κ} {event : κ × UInt64}

/-- What a step does, with the mutex. -/
theorem step_cases_mutex (stepped : pool.step jobs event = some pool') :
    (pool.workers event.1 = none ∧ pool' = ⟨pool.shared, Function.update pool.workers event.1
      (some (.running 0 (pool.shared.server.accesses event.2 (jobs event.1))))⟩) ∨
    ∃ version access rest walLock,
      pool.workers event.1 = some (.running version (access :: rest)) ∧
      access.mutex event.1 pool.shared.walLock = some walLock ∧
      pool' = ⟨⟨access.change version pool.shared.server, walLock⟩, Function.update pool.workers
        event.1 (some (access.next event.2 pool.shared.server version rest))⟩ := by
  rcases step_cases stepped with begins | ⟨version, access, rest, walLock, running, became⟩
  · exact Or.inl begins
  · refine Or.inr ⟨version, access, rest, walLock, running, ?_, became⟩
    subst became
    simp only [step, running, Worker.step] at stepped
    cases mutex : access.mutex event.1 pool.shared.walLock with
    | none => simp [mutex] at stepped
    | some held =>
        simp only [mutex, Option.some.injEq, WorkerPool.mk.injEq, Shared.mk.injEq] at stepped
        rw [stepped.1.2]

theorem Exclusive.step (exclusive : Exclusive pool)
    (stepped : pool.step jobs event = some pool') : Exclusive pool' := by
  rcases step_cases_mutex stepped with ⟨idle, rfl⟩ |
    ⟨version, access, rest, walLock, running, mutex, rfl⟩
  · obtain ⟨outside, bracketed⟩ :=
      Access.bracketed_accesses pool.shared.server event.2 (jobs event.1)
    refine ⟨fun j => ?_, fun j inside => ?_⟩
    · by_cases same : j = event.1
      · subst same
        simpa only [Function.update_self, Worker.todo_running] using bracketed
      · simpa only [Function.update_of_ne same] using exclusive.bracketed j
    · by_cases same : j = event.1
      · subst same
        simp only [Function.update_self, Worker.todo_running] at inside
        rw [outside] at inside
        cases inside
      · simp only [Function.update_of_ne same] at inside
        exact exclusive.held j inside
  · have bracketed := exclusive.bracketed event.1
    have mine := exclusive.held event.1
    rw [running, Worker.todo_running] at bracketed mine
    refine ⟨fun j => ?_, fun j inside => ?_⟩
    · by_cases same : j = event.1
      · subst same
        simpa only [Function.update_self] using (Access.onward_next event.2).bracketed bracketed
      · simpa only [Function.update_of_ne same] using exclusive.bracketed j
    · by_cases same : j = event.1
      · subst same
        simp only [Function.update_self] at inside
        cases access with
        | lock =>
            simp only [Access.mutex] at mutex
            split at mutex
            · exact (Option.some.inj mutex).symm
            · cases mutex
        | unlock =>
            have outside : Access.inSection rest = false := bracketed.1
            have onward : Access.inSection rest = true := inside
            rw [outside] at onward
            cases onward
        | _ =>
            cases Option.some.inj mutex
            exact mine ((Access.onward_next event.2).inSection bracketed (by simp) inside)
      · simp only [Function.update_of_ne same] at inside
        have theirs := exclusive.held j inside
        cases access with
        | lock =>
            simp [Access.mutex, theirs] at mutex
        | unlock =>
            rw [mine rfl] at theirs
            exact absurd (Option.some.inj theirs).symm same
        | _ =>
            cases Option.some.inj mutex
            exact theirs

end WorkerPool

end KindDb
