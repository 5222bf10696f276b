import KindDb.Lib.Runs
import KindDb.Server.Accesses

/-! # Concurrent workers

A pool runs one worker for each job, in any interleaving of their accesses. -/
set_option autoImplicit false

namespace KindDb

open KindDb.Lib KindDb.Lib.Overlay KindDb.KindServerImpl

namespace Worker

def todo : Option Worker → List Access
  | some (.running _ todo) => todo
  | _ => []

@[simp] theorem todo_none : todo none = [] := rfl

@[simp] theorem todo_running (version : Nat) (accesses : List Access) :
    todo (some (.running version accesses)) = accesses := rfl

@[simp] theorem todo_done (outcome : Outcome) : todo (some (.done outcome)) = [] := rfl

end Worker

structure WorkerPool (κ : Type) where
  shared : Shared κ
  workers : κ → Option Worker

namespace WorkerPool

variable [Serde] {κ : Type} [DecidableEq κ]

omit [Serde] [DecidableEq κ] in
def start (s : KindServerImpl) : WorkerPool κ := ⟨⟨s, none⟩, fun _ => none⟩

/-- A worker starts or takes its next access, when the clock shows a reading. -/
def step (jobs : κ → Job) (pool : WorkerPool κ) (event : κ × UInt64) : Option (WorkerPool κ) :=
  match pool.workers event.1 with
  | none =>
      let worker := .running 0 (pool.shared.server.accesses event.2 (jobs event.1))
      some { pool with workers := Function.update pool.workers event.1 (some worker) }
  | some worker =>
      match worker.step event.1 event.2 pool.shared with
      | some (shared, next) =>
          some { shared, workers := Function.update pool.workers event.1 (some next) }
      | none => none

variable {jobs : κ → Job} {pool pool' : WorkerPool κ} {event : κ × UInt64}

theorem step_cases (stepped : pool.step jobs event = some pool') :
    (pool.workers event.1 = none ∧ pool' = ⟨pool.shared, Function.update pool.workers event.1
      (some (.running 0 (pool.shared.server.accesses event.2 (jobs event.1))))⟩) ∨
    ∃ version access rest walLock,
      pool.workers event.1 = some (.running version (access :: rest)) ∧
      pool' = ⟨⟨access.change version pool.shared.server, walLock⟩, Function.update pool.workers
        event.1 (some (access.next event.2 pool.shared.server version rest))⟩ := by
  unfold step at stepped
  split at stepped
  · exact Or.inl ⟨‹_›, (Option.some.inj stepped).symm⟩
  · rename_i worker running
    cases worker with
    | done outcome => cases stepped
    | running version todo =>
        cases todo with
        | nil => cases stepped
        | cons access rest =>
            simp only [Worker.step] at stepped
            cases mutex : access.mutex event.1 pool.shared.walLock with
            | none => simp [mutex] at stepped
            | some walLock =>
                rw [mutex] at stepped
                exact Or.inr ⟨version, access, rest, walLock, running,
                  (Option.some.inj stepped).symm⟩

end WorkerPool

/-! ## What an access changes -/

namespace Access

def treeUpdates (version : Nat) : Access → List (Update String DbRecord)
  | .insert key value expiresAt => [(key, some { value, expiresAt, version })]
  | .remove key => [(key, none)]
  | .evict key => [(key, none)]
  | _ => []

theorem lookup_change [Serde] (version : Nat) (s : KindServerImpl) (access : Access)
    (k : String) :
    (access.change version s).tree[k]? =
      overlay (fun k => s.tree[k]?) (access.treeUpdates version) k := by
  cases access with
  | insert key value expiresAt =>
      exact (SortedMap.lookup_insert s.tree key k _).trans
        (by simp [treeUpdates, overlay, Function.update_apply, eq_comm])
  | remove key | evict key =>
      exact (SortedMap.lookup_erase s.tree key k).trans
        (by simp [treeUpdates, overlay, Function.update_apply, eq_comm])
  | _ => rfl

end Access

end KindDb
