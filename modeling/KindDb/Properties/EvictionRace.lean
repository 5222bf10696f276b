import KindDb.SerdeJson
import KindDb.Server.Recovery
import KindDb.Server.Workers

/-! # Evictions against concurrent writes

The sweeper and `get` find a record expired and later remove whatever the tree
holds under its key.  The runs here keep, for each key, the last write of a
call with a mark whether the record written has been seen expired since.  As
long as an evictor that removes finds an expired record once more, or nothing,
every record that a call has written and that has not expired stays. -/
set_option autoImplicit false

namespace KindDb.EvictionRace

open KindDb.Lib KindDb.Lib.Overlay KindDb.Lib.Runs KindDb.KindServerImpl

/-! ## Last writes -/

/-- What a call has written under a key, `none` if it has deleted it. -/
structure Written (κ : Type) where
  writer : κ
  record : Option DbRecord
  /-- some clock reading since has found the record expired -/
  expired : Bool
deriving Repr, DecidableEq

section Runs
variable {κ : Type}

def Written.seenAt (now : UInt64) (written : Written κ) : Written κ :=
  { written with
    expired := written.expired || written.record.any fun record => isExpired record.expiresAt now }

structure Observed (κ : Type) where
  pool : WorkerPool κ
  lastWrite : String → Option (Written κ)

/-- What an access of a call writes, by a write or a delete of the client. -/
def writes (version : Nat) : Access → Option (String × Option DbRecord)
  | .insert key value expiresAt => some (key, some { value, expiresAt, version })
  | .remove key => some (key, none)
  | _ => none

def writing (pool : WorkerPool κ) (i : κ) : Option (String × Option DbRecord) :=
  match pool.workers i with
  | some (.running version (access :: _)) => writes version access
  | _ => none

def record (lastWrite : String → Option (Written κ)) (i : κ) :
    Option (String × Option DbRecord) → String → Option (Written κ)
  | some (key, record) => Function.update lastWrite key (some { writer := i, record, expired := false })
  | none => lastWrite

variable [Serde] [DecidableEq κ]

omit [Serde] [DecidableEq κ] in
def start (s : KindServerImpl) : Observed κ := ⟨.start s, fun _ => none⟩

def step (jobs : κ → Job) (obs : Observed κ) (event : κ × UInt64) : Option (Observed κ) :=
  (obs.pool.step jobs event).map fun pool =>
    { pool
      lastWrite := fun key =>
        (record obs.lastWrite event.1 (writing obs.pool event.1) key).map (·.seenAt event.2) }

/-! ## The law -/

omit [Serde] [DecidableEq κ] in
def succeeded : Option Worker → Bool
  | some (.done (.call (.write (.ok done)))) => done
  | some (.done (.call (.commit (.ok ())))) => true
  | _ => false

omit [Serde] [DecidableEq κ] in
/-- The record is the last thing a call has written under the key, and has not
expired since. -/
def Current (obs : Observed κ) (key : String) (i : κ) (record : DbRecord) : Prop :=
  obs.lastWrite key = some { writer := i, record := some record, expired := false }

omit [Serde] [DecidableEq κ] in
/-- A record of a call that has returned success is still in the tree. -/
def Kept (obs : Observed κ) : Prop :=
  ∀ key i record, Current obs key i record → succeeded (obs.pool.workers i) = true →
    obs.pool.shared.server.tree[key]? = some record

omit [Serde] [DecidableEq κ] in
/-- An evictor that is about to remove would again find an expired record. -/
def Rechecked (obs : Observed κ) (event : κ × UInt64) : Prop :=
  ∀ version key rest, obs.pool.workers event.1 = some (.running version (.evict key :: rest)) →
    ∀ held, obs.pool.shared.server.tree[key]? = some held →
      isExpired held.expiresAt event.2 = true

omit [Serde] [DecidableEq κ] in
def InTree (obs : Observed κ) : Prop :=
  ∀ key i record, Current obs key i record →
    obs.pool.shared.server.tree[key]? = some record

omit [Serde] [DecidableEq κ] in
/-- A record that has not expired at the reading had not expired before. -/
theorem unexpired {lastWrite : String → Option (Written κ)} {key : String} {now : UInt64} {i : κ}
    {record : DbRecord} (current : (lastWrite key).map (·.seenAt now) =
      some { writer := i, record := some record, expired := false }) :
    lastWrite key = some { writer := i, record := some record, expired := false } ∧
      isExpired record.expiresAt now = false := by
  obtain ⟨⟨writer, written, expired⟩, last, seen⟩ := Option.map_eq_some_iff.mp current
  simp only [Written.seenAt, Written.mk.injEq, Bool.or_eq_false_iff] at seen
  obtain ⟨rfl, rfl, rfl, live⟩ := seen
  exact ⟨last, live⟩

variable {jobs : κ → Job} {obs obs' : Observed κ} {event : κ × UInt64}

/-- One step keeps the last writes that have not expired in the tree. -/
theorem inTree_step (rechecked : Rechecked obs event) (stepped : step jobs obs event = some obs')
    (inTree : InTree obs) : InTree obs' := by
  obtain ⟨pool, taken, rfl⟩ := Option.map_eq_some_iff.mp stepped
  intro key i rec current
  obtain ⟨last, live⟩ := unexpired current
  rcases WorkerPool.step_cases taken with ⟨idle, rfl⟩ |
    ⟨version, access, rest, walLock, running, rfl⟩
  · simp only [writing, idle, record] at last
    exact inTree key i rec last
  · simp only [writing, running] at last
    change (access.change version obs.pool.shared.server).tree[key]? = _
    rw [access.lookup_change]
    have untouched : ∀ {written : Option DbRecord} {other : String}, other ≠ key →
        overlay (fun k : String => obs.pool.shared.server.tree[k]?) [(other, written)] key =
          obs.pool.shared.server.tree[key]? :=
      fun other => overlay_untouched (by simp [touched, other.symm]) _
    cases access with
    | insert k value expiresAt =>
        by_cases same : k = key
        · subst same
          simp only [writes, record, Function.update_self, Option.some.injEq, Written.mk.injEq] at last
          obtain ⟨_, rfl, _⟩ := last
          exact overlay_of_mem (by simp [touched]) List.mem_cons_self _
        · simp only [writes, record, Function.update_of_ne (Ne.symm same)] at last
          exact (untouched same).trans (inTree key i rec last)
    | remove k =>
        by_cases same : k = key
        · subst same
          simp [writes, record] at last
        · simp only [writes, record, Function.update_of_ne (Ne.symm same)] at last
          exact (untouched same).trans (inTree key i rec last)
    | evict k =>
        have held := inTree key i rec last
        by_cases same : k = key
        · subst same
          have expired := rechecked version k rest running rec held
          rw [live] at expired
          cases expired
        · exact (untouched same).trans held
    | _ => exact inTree key i rec last

/-- An evictor that removes a live record of a call that has returned. -/
theorem not_kept_of_evicted {version : Nat} {key : String} {rest : List Access} {i : κ}
    {record : DbRecord} (stepped : step jobs obs event = some obs')
    (running : obs.pool.workers event.1 = some (.running version (.evict key :: rest)))
    (current : Current obs key i record) (returned : succeeded (obs.pool.workers i) = true)
    (live : isExpired record.expiresAt event.2 = false) : ¬ Kept obs' := by
  obtain ⟨pool, taken, rfl⟩ := Option.map_eq_some_iff.mp stepped
  have other : i ≠ event.1 := by
    rintro rfl
    rw [running] at returned
    cases returned
  rcases WorkerPool.step_cases taken with ⟨idle, rfl⟩ |
    ⟨version', access, rest', walLock, running', rfl⟩
  · rw [running] at idle
    cases idle
  · rw [running, Option.some.injEq, Worker.running.injEq, List.cons.injEq] at running'
    obtain ⟨rfl, rfl, rfl⟩ := running'
    intro kept
    have held := kept key i record ?_ ?_
    · change (Access.change version obs.pool.shared.server (.evict key)).tree[key]? = _ at held
      rw [Access.lookup_change] at held
      simp [Access.treeUpdates, overlay] at held
    · rw [Current] at current ⊢
      simp [writing, running, writes, EvictionRace.record, current, Written.seenAt, live]
    · simpa only [Function.update_of_ne other] using returned

/-- In a run whose evictors find an expired record once more before they
remove, the records of calls that have returned success stay until they expire
or a call deletes or overwrites them. -/
theorem live_records_kept (jobs : κ → Job) (s : KindServerImpl) (events : List (κ × UInt64))
    (obs : Observed κ) (ran : runFrom (step jobs) (start s) events = some obs)
    (rechecked : EachMeets (step jobs) Rechecked (start s) events) : Kept obs := by
  have started : InTree (start s : Observed κ) := fun key i record current => by cases current
  have inTree := runFrom_invariant (fun _ _ _ => inTree_step) events _ _ rechecked ran started
  exact fun key i record current _ => inTree key i record current

end Runs

/-! ## A fresh record under an expired one -/

open SerdeJson

inductive Actor
  | early
  | late
  | sweep
  | read
deriving DecidableEq

def jobs : Actor → Job
  | .early => .call (.put { key := "a", value := [1], ttlMs := some 5 })
  | .late => .call (.put { key := "a", value := [2], ttlMs := some 50 })
  | .sweep => .sweeper
  | .read => .get "a"

def times (count : Nat) (actor : Actor) (now : UInt64) : List (Actor × UInt64) :=
  List.replicate count (actor, now)

def fresh : KindServerImpl := .fresh .new false false false

/-- The sweeper has collected the expired record when the fresh one is written. -/
def sweptAway : List (Actor × UInt64) :=
  times 10 .early 0 ++ times 3 .sweep 10 ++ times 10 .late 10 ++ times 1 .sweep 10

/-- The lookup has found the expired record when the fresh one is written. -/
def readAway : List (Actor × UInt64) :=
  times 10 .early 0 ++ times 3 .read 10 ++ times 10 .late 10 ++ times 1 .read 10

theorem not_kept_of_ends {events : List (Actor × UInt64)} (record : DbRecord)
    (ends : (runFrom (step jobs) (start fresh) events).map (fun obs =>
      (obs.lastWrite "a", succeeded (obs.pool.workers .late), obs.pool.shared.server.tree["a"]?)) =
      some (some ⟨.late, some record, false⟩, true, none)) :
    ∃ obs, runFrom (step jobs) (start fresh) events = some obs ∧ ¬ Kept obs := by
  obtain ⟨obs, ran, seen⟩ := Option.map_eq_some_iff.mp ends
  obtain ⟨current, returned, gone⟩ : _ ∧ _ ∧ _ := by simpa only [Prod.mk.injEq] using seen
  refine ⟨obs, ran, fun kept => ?_⟩
  rw [kept "a" .late _ current returned] at gone
  cases gone

theorem live_record_removed :
    (∃ obs, runFrom (step jobs) (start fresh) sweptAway = some obs ∧ ¬ Kept obs) ∧
      ∃ obs, runFrom (step jobs) (start fresh) readAway = some obs ∧ ¬ Kept obs := by
  constructor
  · exact not_kept_of_ends ⟨[2], some 60, 2⟩ (by decide)
  · exact not_kept_of_ends ⟨[2], some 60, 2⟩ (by decide)

/-- The sweeper has removed the expired record when the fresh one is written. -/
def sweptBefore : List (Actor × UInt64) :=
  times 10 .early 0 ++ times 4 .sweep 10 ++ times 10 .late 10

def rechecks (obs : Observed Actor) (event : Actor × UInt64) : Bool :=
  match obs.pool.workers event.1 with
  | some (.running _ (.evict key :: _)) =>
      (obs.pool.shared.server.tree[key]?).all fun held => isExpired held.expiresAt event.2
  | _ => true

theorem rechecked_of_rechecks (obs : Observed Actor) (event : Actor × UInt64)
    (passes : rechecks obs event = true) : Rechecked obs event := by
  intro version key rest running held found
  simpa [rechecks, running, found] using passes

theorem live_records_kept_sweptBefore :
    ∃ obs, runFrom (step jobs) (start fresh) sweptBefore = some obs ∧ Kept obs := by
  have finished : (runFrom (step jobs) (start fresh) sweptBefore).isSome = true := by
    decide
  obtain ⟨obs, ran⟩ := Option.isSome_iff_exists.mp finished
  refine ⟨obs, ran, live_records_kept jobs fresh sweptBefore obs ran
    (eachMeets_of_passes rechecked_of_rechecks ?_)⟩
  decide

end KindDb.EvictionRace
