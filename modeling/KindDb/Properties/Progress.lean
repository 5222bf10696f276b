import KindDb.Lib.Termination
import KindDb.Properties.LogOrder
import KindDb.Server.Accounting

/-! # Every call returns

The WAL mutex is the only lock a call waits for.  Whoever holds it can go on
until it releases it, and every action brings its call nearer to its reply, so
no interleaving of calls deadlocks or runs forever. -/
set_option autoImplicit false

namespace KindDb.Progress

open KindDb.Lib KindDb.Lib.Overlay KindDb.Lib.Runs KindDb.Lib.Termination KindDb.KindServerImpl
open KindDb.Accounting

/-! ## The end of a program -/

/-- The last action gives the reply. -/
def ends : List Action → Bool
  | [] => false
  | [.reply _] => true
  | [.load] => true
  | _ :: rest => ends rest

theorem ends_cons {action : Action} {rest : List Action} (more : rest ≠ []) :
    ends (action :: rest) = ends rest := by
  cases rest with
  | nil => exact absurd rfl more
  | cons next rest => cases action <;> rfl

theorem ends_append (first second : List Action) (ended : ends second = true) :
    ends (first ++ second) = true := by
  have some_ : second ≠ [] := by
    rintro rfl
    cases ended
  induction first with
  | nil => exact ended
  | cons action rest ih => rw [List.cons_append, ends_cons (by simp [some_]), ih]

theorem ends_program (now : UInt64) (call : Call) : ends (program false now call) = true := by
  cases call with
  | commit tx =>
      have last := ends_append (commitApplies tx.writeSet.entries)
        [.unlock, .reply (.commit (.ok ()))] rfl
      exact ends_append (.lock :: commitChecks tx) _ (ends_append [.commitFetchAdd,
        .append (commitCommand tx), .send (commitCommand tx)] _ last)
  | _ => rfl

/-- Of a call that may end early more is left than its early end takes. -/
theorem early_shorter {now : UInt64} {s : KindServerImpl} {action : Action}
    {ending rest : List Action} {command : WalCommand}
    (entered : Entered command (action :: rest))
    (early : action.endsEarly now s = some ending) :
    ends ending = true ∧ ending.length < (action :: rest).length := by
  have ready := (entered.2.1 (entered_early early).1).1
  have long : 3 ≤ rest.length := by
    have := congrArg List.length ready
    have fewer : (entries rest).length ≤ rest.length := List.length_filterMap_le _ _
    simp only [whole, List.length_cons, List.length_nil] at this
    omega
  rcases Action.endsEarly_cases early with rfl | rfl | rfl <;>
    exact ⟨rfl, by simp only [deleteMissed, casFailed, commitFailed, List.length_cons,
      List.length_nil]; omega⟩

section Steps
variable [Serde] {Holder : Type} {me : Holder} {now : UInt64} {sh sh' : Shared Holder}
  {version : Nat} {action : Action} {rest : List Action} {thread : Thread}

/-- Only the mutex can make an action wait. -/
theorem exec_isSome (action : Action) (rest : List Action)
    (unlocked : action = .lock → sh.walLock = none) :
    (action.exec me now sh version rest).isSome = true := by
  cases action with
  | lock => simp [Action.exec, unlocked rfl]
  | deleteLookup key => cases held : sh.server.tree[key]? <;> simp [Action.exec, held]
  | compare req =>
      by_cases holds : sh.server.casMatches req now = true <;> simp [Action.exec, holds]
  | check key snapshotVersion =>
      cases held : sh.server.tree[key]? with
      | none => simp [Action.exec, held]
      | some current =>
          by_cases newer : current.version > snapshotVersion <;> simp [Action.exec, held, newer]
  | applyWrite key rec => cases rec <;> rfl
  | _ => rfl

/-- What is left of a call after an action. -/
def left : Thread → Nat
  | .running _ todo => todo.length
  | .done _ => 0

theorem after_step {command : WalCommand}
    (effect : action.Effect me now sh version rest sh' thread)
    (entered : Entered command (action :: rest)) (ended : ends (action :: rest) = true) :
    left thread < (action :: rest).length ∧
      ∀ v todo, thread = .running v todo → ends todo = true ∧ Entered command todo := by
  have moved := effect.thread
  have onward : (∀ r, action ≠ .reply r) → action ≠ .load → ∀ v,
      thread = .running v ((action.endsEarly now sh.server).getD rest) →
      left thread < (action :: rest).length ∧
        ∀ v todo, thread = .running v todo → ends todo = true ∧ Entered command todo := by
    rintro notReply notLoad v rfl
    cases early : action.endsEarly now sh.server with
    | some ending =>
        obtain ⟨finishes, shorter⟩ := early_shorter entered early
        refine ⟨shorter, ?_⟩
        rintro _ _ ⟨⟩
        exact ⟨finishes, (entered_early early).2.1 command⟩
    | none =>
        refine ⟨Nat.lt_succ_self _, ?_⟩
        rintro _ _ ⟨⟩
        refine ⟨?_, entered.2.2.2⟩
        rw [ends_cons] at ended
        · exact ended
        · rintro rfl
          cases action with
          | reply r => exact notReply r rfl
          | load => exact notLoad rfl
          | _ => cases ended
  cases action with
  | reply r =>
      rw [show thread = .done r from moved]
      exact ⟨Nat.succ_pos _, fun _ _ same => (by cases same)⟩
  | load =>
      rw [show thread = .done (.handle sh.server.beginTransaction) from moved]
      exact ⟨Nat.succ_pos _, fun _ _ same => (by cases same)⟩
  | _ => exact onward (fun _ same => (by cases same)) (fun same => (by cases same)) _ moved

end Steps

/-! ## The pool -/

section Pools
variable [Serde] {κ : Type} [DecidableEq κ]

structure Orderly (requests : κ → Request κ) (pool : Pool κ κ) : Prop where
  leader : pool.shared.server.isReplica = false
  exclusive : pool.Exclusive (fun _ _ => True) fun i => i
  running : ∀ i version todo, pool.threads i = some (.running version todo) →
    ends todo = true ∧ ∃ command, Entered command todo
  handles : ∀ i, requests i = .call .beginTransaction → pool.threads i = none ∨
    (∃ version, pool.threads i = some (.running version [.load])) ∨
      ∃ tx, pool.threads i = some (.done (.handle tx))

/-- A commit under a handle of the pool names a `begin_transaction` of the pool. -/
def WellFormed (requests : κ → Request κ) : Prop :=
  ∀ i begun writeSet, requests i = .commitOf begun writeSet →
    requests begun = .call .beginTransaction

def programLength : Request κ → Nat
  | .call call => (program false 0 call).length
  | .commitOf _ writeSet => (commitProgram { writeSet, snapshotVersion := 0 }).length

/-- The actions that a request has still to take, its start included. -/
def remaining (request : Request κ) : Option Thread → Nat
  | none => 1 + programLength request
  | some thread => left thread

def AllReturned (pool : Pool κ κ) : Prop := ∀ i, ∃ r, pool.threads i = some (.done r)

variable {requests : κ → Request κ} {pool pool' : Pool κ κ} {i : κ} {now : UInt64}

omit [DecidableEq κ] [Serde] in
theorem length_program {call : Call} (made : (requests i).toCall pool.threads = some call) :
    (program false now call).length = programLength (requests i) := by
  cases requested : requests i with
  | call c =>
      rw [requested] at made
      cases Option.some.inj made
      cases call <;> rfl
  | commitOf begun writeSet =>
      rw [requested] at made
      simp only [Request.toCall] at made
      split at made
      · cases Option.some.inj made
        simp [program, commitProgram, commitChecks, programLength]
      · cases made

omit [Serde] in
theorem Orderly.start (orderly : Orderly requests pool) {call : Call}
    (idle : pool.threads i = none) (made : (requests i).toCall pool.threads = some call) :
    Orderly requests ⟨pool.shared, Function.update pool.threads i
      (some (.running 0 (program pool.shared.server.isReplica now call)))⟩ := by
  rw [orderly.leader]
  refine ⟨orderly.leader, orderly.exclusive.begins trivial idle, fun j version todo => ?_,
    fun j begins => ?_⟩
  · by_cases same : j = i
    · subst same
      simp only [Function.update_self, Option.some.injEq, Thread.running.injEq]
      rintro ⟨rfl, rfl⟩
      refine ⟨ends_program now call, ?_⟩
      cases is : commandAt now call with
      | some command => exact ⟨command, (entered_program is).1⟩
      | none =>
          cases call with
          | beginTransaction => exact ⟨.delete "", by simp [program, Entered, entry, mayEnd]⟩
          | _ => cases is
    · simpa only [Function.update_of_ne same] using orderly.running j version todo
  · by_cases same : j = i
    · subst same
      rw [begins] at made
      cases Option.some.inj made
      exact Or.inr (Or.inl ⟨0, Function.update_self ..⟩)
    · simpa only [Function.update_of_ne same] using orderly.handles j begins

theorem Orderly.act (orderly : Orderly requests pool) {version : Nat} {action : Action}
    {rest : List Action} {shared : Shared κ} {next : Thread}
    (running : pool.threads i = some (.running version (action :: rest)))
    (effect : action.Effect i now pool.shared version rest shared next) :
    Orderly requests ⟨shared, Function.update pool.threads i (some next)⟩ ∧
      left next < (action :: rest).length := by
  obtain ⟨ended, command, entered⟩ := orderly.running i _ _ running
  obtain ⟨less, after⟩ := after_step effect entered ended
  refine ⟨⟨effect.isReplica.trans orderly.leader,
    orderly.exclusive.acts Function.injective_id running effect, fun j v todo => ?_,
    fun j begins => ?_⟩, less⟩
  · by_cases same : j = i
    · subst same
      simp only [Function.update_self, Option.some.injEq]
      rintro rfl
      obtain ⟨finishes, enteredNext⟩ := after v todo rfl
      exact ⟨finishes, command, enteredNext⟩
    · simpa only [Function.update_of_ne same] using orderly.running j v todo
  · by_cases same : j = i
    · subst same
      rcases orderly.handles j begins with idle | ⟨v, loading⟩ | ⟨tx, done⟩
      · rw [running] at idle
        cases idle
      · rw [running] at loading
        cases loading
        have loaded : next = .done (.handle pool.shared.server.beginTransaction) := effect.thread
        subst loaded
        exact Or.inr (Or.inr ⟨_, Function.update_self ..⟩)
      · rw [running] at done
        cases done
    · simpa only [Function.update_of_ne same] using orderly.handles j begins

theorem can_step {version : Nat} {action : Action} {rest : List Action}
    (running : pool.threads i = some (.running version (action :: rest)))
    (unlocked : action = .lock → pool.shared.walLock = none) :
    ∃ pool', LogOrder.step requests pool (i, now) = some pool' := by
  have executes : (action.exec i now pool.shared version rest).isSome = true :=
    exec_isSome action rest unlocked
  obtain ⟨⟨shared, next⟩, executed⟩ := Option.isSome_iff_exists.mp executes
  exact ⟨⟨shared, Function.update pool.threads i (some next)⟩, by
    simp [LogOrder.step, Pool.step, running, Thread.step, executed]⟩

/-- As long as a call has not returned, some call has a next step. -/
theorem Orderly.progress (orderly : Orderly requests pool) (wellFormed : WellFormed requests)
    (waiting : ¬ AllReturned pool) :
    ∃ event pool', LogOrder.step requests pool event = some pool' := by
  have runs : ∀ j version todo, pool.threads j = some (.running version todo) →
      ∃ event pool', LogOrder.step requests pool event = some pool' := by
    intro j version todo running
    have next : ∀ k version todo, pool.threads k = some (.running version todo) →
        ∃ action rest, todo = action :: rest := by
      intro k version todo running
      have ended := (orderly.running k version todo running).1
      cases todo with
      | nil => cases ended
      | cons action rest => exact ⟨action, rest, rfl⟩
    obtain ⟨action, rest, rfl⟩ := next j version todo running
    by_cases unlocked : action = .lock → pool.shared.walLock = none
    · exact ⟨(j, 0), can_step running unlocked⟩
    · -- the holder of the mutex is inside its section and goes on
      cases held : pool.shared.walLock with
      | none => exact absurd (fun _ => held) unlocked
      | some k =>
          have inside := (orderly.exclusive.mutex k).mp held
          cases thread : pool.threads k with
          | none => rw [thread] at inside; cases inside
          | some t =>
              cases t with
              | done r => rw [thread] at inside; cases inside
              | running v todo =>
                  obtain ⟨first, later, rfl⟩ := next k v todo thread
                  refine ⟨(k, 0), can_step thread ?_⟩
                  rintro rfl
                  rw [thread] at inside
                  cases inside
  have starts : ∀ j call, pool.threads j = none →
      (requests j).toCall pool.threads = some call →
      ∃ event pool', LogOrder.step requests pool event = some pool' := by
    intro j call idle made
    exact ⟨(j, 0), _, by simp only [LogOrder.step, Pool.step, idle, made]; rfl⟩
  obtain ⟨j, open_⟩ := not_forall.mp waiting
  cases thread : pool.threads j with
  | some t =>
      cases t with
      | done r => exact absurd ⟨r, thread⟩ open_
      | running version todo => exact runs j version todo thread
  | none =>
      cases requested : requests j with
      | call c => exact starts j c thread (by rw [requested]; rfl)
      | commitOf begun writeSet =>
          have begins := wellFormed j begun writeSet requested
          rcases orderly.handles begun begins with idle | ⟨v, loading⟩ | ⟨tx, done⟩
          · exact starts begun .beginTransaction idle (by rw [begins]; rfl)
          · exact runs begun v _ loading
          · exact starts j _ thread (by rw [requested]; simp only [Request.toCall, done]; rfl)

/-- Every step brings one call nearer to its reply. -/
theorem lowers [Fintype κ] (requests : κ → Request κ) :
    Lowers (LogOrder.step requests) (Orderly requests)
      fun pool => ∑ i, remaining (requests i) (pool.threads i) := by
  rintro pool ⟨i, now⟩ pool' stepped orderly
  have sum : ∀ (shared : Shared κ) (next : Thread),
      left next < remaining (requests i) (pool.threads i) →
      ∑ j, remaining (requests j) (Function.update pool.threads i (some next) j) <
        ∑ j, remaining (requests j) (pool.threads j) := by
    intro shared next less
    refine Finset.sum_lt_sum (fun j _ => ?_) ⟨i, Finset.mem_univ i, ?_⟩
    · by_cases same : j = i
      · subst same
        rw [Function.update_self]
        exact less.le
      · rw [Function.update_of_ne same]
    · rw [Function.update_self]
      exact less
  rcases Pool.step_cases stepped with ⟨call, idle, made, rfl⟩ |
    ⟨version, action, rest, shared, next, running, effect, rfl⟩
  · refine ⟨orderly.start idle made, sum pool.shared _ ?_⟩
    have length : (program false now call).length = programLength (requests i) :=
      length_program made
    rw [idle, orderly.leader, left, remaining, length]
    omega
  · obtain ⟨orderly', less⟩ := orderly.act running effect
    refine ⟨orderly', sum shared next ?_⟩
    rw [running]
    exact less

omit [DecidableEq κ] [Serde] in
theorem orderly_start {s : KindServerImpl} (leader : s.isReplica = false) :
    Orderly requests (LogOrder.start s) :=
  ⟨leader, Pool.exclusive_idle (fun _ => ⟨[], trivial⟩) (fun _ => rfl) rfl,
    fun _ _ _ running => (by cases running), fun _ _ => Or.inl rfl⟩

/-- Any number of concurrent calls on a leader: an interleaving takes at most
as many steps as the calls have actions, and from wherever it has come to all
the calls can return. -/
theorem calls_return [Fintype κ] (requests : κ → Request κ) (wellFormed : WellFormed requests)
    (s : KindServerImpl) (leader : s.isReplica = false) (events : List (κ × UInt64))
    (pool : Pool κ κ)
    (ran : runFrom (LogOrder.step requests) (LogOrder.start s) events = some pool) :
    events.length ≤ ∑ i, (1 + programLength (requests i)) ∧
      (¬ AllReturned pool → ∃ event pool', LogOrder.step requests pool event = some pool') ∧
      ∃ more final, runFrom (LogOrder.step requests) pool more = some final ∧
        AllReturned final := by
  obtain ⟨orderly, bounded⟩ := (lowers requests).run ran (orderly_start leader)
  obtain ⟨more, final, ranMore, _, returned⟩ := (lowers requests).completes
    (fun pool orderly waiting => orderly.progress wellFormed waiting) orderly
  refine ⟨?_, orderly.progress wellFormed, more, final, ranMore, returned⟩
  exact le_trans (Nat.le_add_right _ _) bounded

end Pools

/-! ## A call that waits -/

def contending : Fin 3 → Request (Fin 3)
  | 0 => .call .beginTransaction
  | 1 => .commitOf 0
      (WriteSet.empty.insert "a" (some { value := [1], expiresAt := none, version := 0 }))
  | 2 => .call (.cas { key := "a", expectedValue := [], newValue := [2], ttlMs := none })

/-- The commit has taken the mutex when the cas comes to it. -/
def untilBlocked : List (Fin 3 × UInt64) := [(0, 0), (0, 0), (1, 0), (1, 0), (2, 0)]

theorem wellFormed_contending : WellFormed contending := by
  intro i begun writeSet requested
  match i with
  | 0 => cases requested
  | 1 =>
      cases requested
      rfl
  | 2 => cases requested

open SerdeJson in
theorem calls_return_contended : ∃ pool,
    runFrom (LogOrder.step contending) (LogOrder.start LogOrder.fresh) untilBlocked = some pool ∧
      (pool.shared.walLock = some 1 ∧ LogOrder.step contending pool (2, 0) = none) ∧
      ∃ more final, runFrom (LogOrder.step contending) pool more = some final ∧
        AllReturned final := by
  have blocked : (runFrom (LogOrder.step contending) (LogOrder.start LogOrder.fresh)
      untilBlocked).map (fun pool => (pool.shared.walLock,
        (LogOrder.step contending pool (2, 0)).isNone)) = some (some 1, true) := by
    decide +kernel
  obtain ⟨pool, ran, facts⟩ := Option.map_eq_some_iff.mp blocked
  simp only [Prod.mk.injEq, Option.isNone_iff_eq_none] at facts
  exact ⟨pool, ran, facts,
    (calls_return contending wellFormed_contending LogOrder.fresh rfl untilBlocked pool ran).2.2⟩

end KindDb.Progress
