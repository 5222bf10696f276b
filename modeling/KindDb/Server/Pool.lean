import KindDb.Server.Programs

/-! # Concurrent calls

A pool runs one thread for each request, in any interleaving.  A commit uses
the handle that a `begin_transaction` of the pool has returned, or any other.
The step lemmas are about one thread and its mutex; across the threads a pool
keeps the mutex with the thread in its section, and what else holds is up to its
users. -/
set_option autoImplicit false

namespace KindDb

open KindDb.Lib KindDb.Lib.Overlay

/-- A call, or the commit of a write set under the handle that another request
of the pool returns. -/
inductive Request (κ : Type)
  | call (call : Call)
  | commitOf (begun : κ) (writeSet : WriteSet)

/-! ## Calls without deadlines -/

def DeadlineFree (updates : List (Update String Content)) : Prop :=
  ∀ u ∈ updates, ∀ held, u.2 = some held → held.2 = none

theorem overlay_deadlineFree {store : String → Option Content}
    {updates : List (Update String Content)}
    (below : ∀ key held, store key = some held → held.2 = none) (free : DeadlineFree updates)
    (key : String) (held : Content) (found : overlay store updates key = some held) :
    held.2 = none := by
  by_cases named : key ∈ touched updates
  · exact free _ (mem_of_overlay named found) held rfl
  · rw [overlay_untouched named] at found
    exact below key held found

def WriteSet.TtlFree (ws : WriteSet) : Prop :=
  ∀ entry ∈ ws.entries, ∀ rec, entry.2 = some rec → rec.expiresAt = none

def Call.TtlFree : Call → Prop
  | .put req => req.ttlMs = none
  | .cas req => req.ttlMs = none
  | .commit tx => tx.writeSet.TtlFree
  | _ => True

theorem Call.deadlineFree_updates {call : Call} (ttlFree : call.TtlFree) (now : UInt64) :
    DeadlineFree (call.updates now) := by
  intro u member held content
  cases call with
  | put req =>
      cases List.mem_singleton.mp member
      cases Option.some.inj content
      exact congrArg (deadline now) ttlFree
  | cas req =>
      cases List.mem_singleton.mp member
      cases Option.some.inj content
      exact congrArg (deadline now) ttlFree
  | delete key =>
      cases List.mem_singleton.mp member
      cases content
  | beginTransaction => cases member
  | commit tx =>
      obtain ⟨entry, listed, rfl⟩ := List.mem_map.mp member
      obtain ⟨rec, written, rfl⟩ := Option.map_eq_some_iff.mp content
      exact ttlFree entry listed rec written

namespace Request

variable {κ : Type}

def TtlFree : Request κ → Prop
  | .call c => c.TtlFree
  | .commitOf _ writeSet => writeSet.TtlFree

def keys : Request κ → List String
  | .call c => c.keys
  | .commitOf _ writeSet => writeSet.keys

theorem keys_nodup (request : Request κ) : request.keys.Nodup := by
  cases request with
  | call c => exact c.keys_nodup
  | commitOf _ writeSet => exact writeSet.distinct

/-- The call of a request, once it can be made. -/
def toCall (threads : κ → Option Thread) : Request κ → Option Call
  | .call c => some c
  | .commitOf begun writeSet =>
      match threads begun with
      | some (.done (.handle tx)) => some (.commit { tx with writeSet })
      | _ => none

theorem ttlFree_toCall {threads : κ → Option Thread} {request : Request κ} {call : Call}
    (made : request.toCall threads = some call) (ttlFree : request.TtlFree) : call.TtlFree := by
  cases request with
  | call c =>
      cases Option.some.inj made
      exact ttlFree
  | commitOf begun writeSet =>
      simp only [toCall] at made
      split at made
      · cases Option.some.inj made
        exact ttlFree
      · cases made

theorem keys_toCall {threads : κ → Option Thread} {request : Request κ} {call : Call}
    (made : request.toCall threads = some call) : call.keys = request.keys := by
  cases request with
  | call c =>
      cases Option.some.inj made
      rfl
  | commitOf begun writeSet =>
      simp only [toCall] at made
      split at made
      · cases Option.some.inj made
        rfl
      · cases made

end Request

namespace Thread

def todo : Option Thread → List Action
  | some (.running _ todo) => todo
  | _ => []

@[simp] theorem todo_none : todo none = [] := rfl

@[simp] theorem todo_running (version : Nat) (actions : List Action) :
    todo (some (.running version actions)) = actions := rfl

@[simp] theorem todo_done (reply : Reply) : todo (some (.done reply)) = [] := rfl

end Thread

structure Pool (κ Holder : Type) where
  shared : Shared Holder
  threads : κ → Option Thread

namespace Pool

variable [Serde] {κ Holder : Type} [DecidableEq κ]

/-- Thread `i` starts or takes its next action. -/
def step (requests : κ → Request κ) (holder : κ → Holder) (pool : Pool κ Holder) (i : κ)
    (now : UInt64) : Option (Pool κ Holder) :=
  match pool.threads i with
  | none =>
      match (requests i).toCall pool.threads with
      | some call =>
          let thread := .running 0 (program pool.shared.server.isReplica now call)
          some { pool with threads := Function.update pool.threads i (some thread) }
      | none => none
  | some thread =>
      match thread.step (holder i) now pool.shared with
      | some (shared, next) =>
          some { shared, threads := Function.update pool.threads i (some next) }
      | none => none

variable {requests : κ → Request κ} {holder : κ → Holder} {pool pool' : Pool κ Holder} {i : κ}
  {now : UInt64}

theorem step_cases (stepped : pool.step requests holder i now = some pool') :
    (∃ call, pool.threads i = none ∧ (requests i).toCall pool.threads = some call ∧
      pool' = ⟨pool.shared, Function.update pool.threads i
        (some (.running 0 (program pool.shared.server.isReplica now call)))⟩) ∨
    ∃ version action rest shared next,
      pool.threads i = some (.running version (action :: rest)) ∧
      action.Effect (holder i) now pool.shared version rest shared next ∧
      pool' = { shared, threads := Function.update pool.threads i (some next) } := by
  unfold step at stepped
  split at stepped
  · rename_i idle
    split at stepped
    · rename_i call made
      exact Or.inl ⟨call, idle, made, (Option.some.inj stepped).symm⟩
    · cases stepped
  · rename_i thread running
    split at stepped
    · rename_i shared next taken
      cases thread with
      | done reply => cases taken
      | running version todo =>
          cases todo with
          | nil => cases taken
          | cons action rest =>
              exact Or.inr ⟨version, action, rest, shared, next, running,
                Action.exec_effect taken, (Option.some.inj stepped).symm⟩
    · cases stepped

end Pool

/-! ## One thread -/

/-- The call ends early, before anything is delivered. -/
structure GivesUp (updates : List (Update String Content)) (action : Action)
    (rest todo : List Action) : Prop where
  undelivered : Undelivered updates (action :: rest)
  silent : action.logged = [] ∧ action.sent = [] ∧ action.written = []
  nothing : Undelivered [] todo
  mutex : inSection todo = inSection (action :: rest)

namespace Action.Effect

variable [Serde] {Holder : Type} {me : Holder} {now : UInt64} {sh sh' : Shared Holder}
  {version : Nat} {action : Action} {rest : List Action} {thread : Thread}
  {updates : List (Update String Content)}

omit [Serde] in
theorem disciplined_deleteMissed : Disciplined updates deleteMissed := by
  simp [deleteMissed, Disciplined, Action.Placed, Action.logged, Action.sent, Action.written]

omit [Serde] in
theorem disciplined_casFailed : Disciplined updates casFailed := by
  simp [casFailed, Disciplined, Action.Placed, inSection, Action.logged, Action.sent,
    Action.written]

omit [Serde] in
theorem disciplined_commitFailed : Disciplined updates commitFailed := by
  simp [commitFailed, Disciplined, Action.Placed, inSection, Action.logged, Action.sent,
    Action.written]

/-- A disciplined thread stays disciplined; it goes on with the rest of its
actions or gives up before it has delivered anything. -/
theorem next (effect : action.Effect me now sh version rest sh' thread)
    (disciplined : Disciplined updates (action :: rest)) :
    Disciplined updates (Thread.todo (some thread)) ∧
      (Thread.todo (some thread) = rest ∨
        GivesUp updates action rest (Thread.todo (some thread))) := by
  obtain ⟨_, placed, later⟩ := disciplined
  have became := effect.thread
  have onward : ∀ {version : Nat}, thread = .running version rest →
      Disciplined updates (Thread.todo (some thread)) ∧
        (Thread.todo (some thread) = rest ∨
          GivesUp updates action rest (Thread.todo (some thread))) := by
    intro version same
    subst same
    exact ⟨later, Or.inl rfl⟩
  cases action with
  | deleteLookup key =>
      by_cases ends : (sh.server.tree[key]?).isNone = true
      · simp only [endsEarly, ends, if_true, Option.getD_some] at became
        subst became
        exact ⟨disciplined_deleteMissed, Or.inr ⟨⟨placed.1.logged, placed.1.sent, placed.1.written⟩,
          ⟨rfl, rfl, rfl⟩, ⟨rfl, rfl, rfl⟩, placed.2.symm⟩⟩
      · exact onward (by simpa [endsEarly, ends] using became)
  | compare req =>
      by_cases holds : sh.server.casMatches req now = true
      · exact onward (by simpa [endsEarly, holds] using became)
      · simp only [endsEarly, holds] at became
        subst became
        exact ⟨disciplined_casFailed, Or.inr ⟨⟨placed.1.logged, placed.1.sent, placed.1.written⟩,
          ⟨rfl, rfl, rfl⟩, ⟨rfl, rfl, rfl⟩, placed.2.symm⟩⟩
  | check key snapshotVersion =>
      by_cases newer : (sh.server.tree[key]?).any (·.version > snapshotVersion) = true
      · simp only [endsEarly, newer, if_true, Option.getD_some] at became
        subst became
        exact ⟨disciplined_commitFailed, Or.inr ⟨⟨placed.1.logged, placed.1.sent, placed.1.written⟩,
          ⟨rfl, rfl, rfl⟩, ⟨rfl, rfl, rfl⟩, placed.2.symm⟩⟩
      · exact onward (by simpa [endsEarly, newer] using became)
  | load =>
      rw [show thread = .done (.handle sh.server.beginTransaction) from became]
      exact ⟨trivial, Or.inl placed.symm⟩
  | reply r =>
      rw [show thread = .done r from became]
      exact ⟨trivial, Or.inl placed.symm⟩
  | _ => exact onward became

/-- A thread holds the mutex exactly while it is in its section, and moves
nobody else's hold of it. -/
theorem mutex (effect : action.Effect me now sh version rest sh' thread)
    (disciplined : Disciplined updates (action :: rest))
    (held : sh.walLock = some me ↔ inSection (action :: rest) = true) :
    (sh'.walLock = some me ↔ inSection (Thread.todo (some thread)) = true) ∧
      ∀ other, other ≠ me → (sh'.walLock = some other ↔ sh.walLock = some other) := by
  have moved := effect.walLock
  have placed := disciplined.2.1
  have same : inSection (action :: rest) = inSection rest →
      inSection (Thread.todo (some thread)) = inSection (action :: rest) := by
    intro passive
    rcases (effect.next disciplined).2 with goesOn | givesUp
    · rw [goesOn, passive]
    · exact givesUp.mutex
  have unmoved : inSection (action :: rest) = inSection rest → sh'.walLock = sh.walLock →
      (sh'.walLock = some me ↔ inSection (Thread.todo (some thread)) = true) ∧
        ∀ other, other ≠ me → (sh'.walLock = some other ↔ sh.walLock = some other) := by
    intro passive kept
    rw [kept, same passive]
    exact ⟨held, fun _ _ => Iff.rfl⟩
  cases action with
  | lock =>
      obtain ⟨free, taken⟩ := moved
      have became : thread = .running version rest := effect.thread
      subst became
      refine ⟨iff_of_true taken placed, fun other different => ?_⟩
      simp [taken, free, Ne.symm different]
  | unlock =>
      have became : thread = .running version rest := effect.thread
      have released : sh'.walLock = none := moved
      have mine := held.mpr rfl
      have left : inSection rest = false := placed
      subst became
      refine ⟨by simp [released, left], fun other different => ?_⟩
      simp [released, mine, Ne.symm different]
  | _ => exact unmoved rfl moved

theorem version_mono (effect : action.Effect me now sh version rest sh' thread) :
    sh.server.globalVersion ≤ sh'.server.globalVersion := by
  rw [effect.globalVersion]
  split <;> omega

theorem contents (effect : action.Effect me now sh version rest sh' thread) (key : String) :
    sh'.server.contents key = overlay sh.server.contents action.written key := by
  unfold KindServerImpl.contents
  rw [effect.tree, overlay_map, content_treeUpdates]

theorem readable (effect : action.Effect me now sh version rest sh' thread)
    (wal : ∃ file, sh.server.wal = some file ∧ (Wal.readAllCommands file).isSome = true) :
    ∃ file, sh'.server.wal = some file ∧ (Wal.readAllCommands file).isSome = true := by
  obtain ⟨file, held, readable⟩ := wal
  have moved := effect.wal
  cases action with
  | append command =>
      refine ⟨Wal.append file version command, by simp [moved, held], ?_⟩
      rw [Wal.readAllCommands_append, Option.isSome_map]
      exact readable
  | _ => exact ⟨file, moved.trans held, readable⟩

theorem onDisk (effect : action.Effect me now sh version rest sh' thread)
    (wal : ∃ file, sh.server.wal = some file ∧ (Wal.readAllCommands file).isSome = true) :
    sh'.server.onDisk = sh.server.onDisk ++ action.logged := by
  obtain ⟨file, held, readable⟩ := wal
  have moved := effect.wal
  cases action with
  | append command =>
      simp only [KindServerImpl.onDisk, effect.snapshotFile, moved, held, Option.map_some,
        Option.getD_some]
      exact fileUpdates_append _ readable _ command
  | _ => simp [KindServerImpl.onDisk, effect.snapshotFile, moved, logged]

end Action.Effect

/-! ## The mutex -/

namespace Pool

/-- Each thread has updates of its kind to deliver and keeps its discipline, and
holds the mutex exactly while it is in its section. -/
structure Exclusive {κ Holder : Type} (kind : κ → List (Update String Content) → Prop)
    (holder : κ → Holder) (pool : Pool κ Holder) : Prop where
  disciplined : ∀ i, ∃ updates, kind i updates ∧ Disciplined updates (Thread.todo (pool.threads i))
  mutex : ∀ i, pool.shared.walLock = some (holder i) ↔
    inSection (Thread.todo (pool.threads i)) = true

section Mutex

variable {κ Holder : Type} {kind : κ → List (Update String Content) → Prop}
  {holder : κ → Holder} {pool : Pool κ Holder}

theorem exclusive_idle (some_kind : ∀ i, ∃ updates, kind i updates)
    (idle : ∀ i, pool.threads i = none) (unlocked : pool.shared.walLock = none) :
    Exclusive kind holder pool := by
  refine ⟨fun i => ?_, fun i => ?_⟩
  · obtain ⟨updates, is⟩ := some_kind i
    rw [idle i]
    exact ⟨updates, is, trivial⟩
  · rw [idle i, unlocked]
    simp [inSection]

theorem Exclusive.begins [DecidableEq κ] (exclusive : Exclusive kind holder pool) {i : κ}
    {call : Call} {now : UInt64} (is : kind i (call.updates now))
    (idle : pool.threads i = none) :
    Exclusive kind holder ⟨pool.shared, Function.update pool.threads i
      (some (.running 0 (program false now call)))⟩ := by
  have outside : inSection (program false now call) = false := by
    cases call <;> rfl
  refine ⟨fun j => ?_, fun j => ?_⟩
  · by_cases same : j = i
    · subst same
      simp only [Function.update_self]
      exact ⟨call.updates now, is, (disciplined_program now call).2⟩
    · simpa only [Function.update_of_ne same] using exclusive.disciplined j
  · by_cases same : j = i
    · subst same
      have free := exclusive.mutex j
      rw [idle] at free
      simp only [Function.update_self, Thread.todo_running, outside]
      exact free
    · simpa only [Function.update_of_ne same] using exclusive.mutex j

variable [Serde] {i : κ} {now : UInt64} {version : Nat} {action : Action} {rest : List Action}
  {shared : Shared Holder} {next : Thread}

/-- An action moves nobody else's hold of the mutex. -/
theorem Exclusive.elsewhere (exclusive : Exclusive kind holder pool)
    (running : pool.threads i = some (.running version (action :: rest)))
    (effect : action.Effect (holder i) now pool.shared version rest shared next)
    {other : Holder} (different : other ≠ holder i) :
    shared.walLock = some other ↔ pool.shared.walLock = some other := by
  obtain ⟨updates, _, disciplined⟩ := exclusive.disciplined i
  have held := exclusive.mutex i
  rw [running] at disciplined held
  exact (effect.mutex disciplined held).2 other different

theorem Exclusive.acts [DecidableEq κ] (exclusive : Exclusive kind holder pool)
    (distinct : Function.Injective holder)
    (running : pool.threads i = some (.running version (action :: rest)))
    (effect : action.Effect (holder i) now pool.shared version rest shared next) :
    Exclusive kind holder ⟨shared, Function.update pool.threads i (some next)⟩ := by
  obtain ⟨updates, is, disciplined⟩ := exclusive.disciplined i
  have held := exclusive.mutex i
  rw [running] at disciplined held
  refine ⟨fun j => ?_, fun j => ?_⟩
  · by_cases same : j = i
    · subst same
      simp only [Function.update_self]
      exact ⟨updates, is, (effect.next disciplined).1⟩
    · simpa only [Function.update_of_ne same] using exclusive.disciplined j
  · by_cases same : j = i
    · subst same
      simpa only [Function.update_self] using (effect.mutex disciplined held).1
    · simp only [Function.update_of_ne same]
      exact (exclusive.elsewhere running effect fun equal => same (distinct equal)).trans
        (exclusive.mutex j)

end Mutex

end Pool

end KindDb
