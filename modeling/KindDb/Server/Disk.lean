import KindDb.Server.Effects

/-! # Writes on a disk that may fail

`Wal::append` returns the errors of writing and syncing; every caller drops
its result with `let _ =`.  The four write paths are run here with the outcome of
their one append given.  `run_eq` compares them with the same on a disk that
never fails: only the log differs. -/
set_option autoImplicit false

namespace KindDb

open KindDb.Lib KindDb.Cache KindDb.KindServerImpl

/-- What an append does: it succeeds, or it returns an error and leaves the
file as it happens to be. -/
inductive Disk
  | accepts
  | fails (error : String) (left : WalFile)

namespace Disk

variable [Serde]

def append (disk : Disk) (file : WalFile) (txId : Nat) (command : WalCommand) :
    Except String Unit × WalFile :=
  match disk with
  | accepts => (.ok (), Wal.append file txId command)
  | fails error left => (.error error, left)

/-- `if let Some(wal) = lock.as_mut() { let _ = wal.append(..); }` -/
def log (disk : Disk) (s : KindServerImpl) (txId : Nat) (command : WalCommand) : KindServerImpl :=
  { s with wal := s.wal.map fun file => (disk.append file txId command).2 }

end Disk

/-- A call that writes. -/
inductive WriteCall
  | put (req : PutRequest)
  | delete (key : String)
  | cas (req : CasRequest)
  | commit (tx : TxHandle)

namespace WriteCall

variable [Serde]

omit [Serde] in
def op : WriteCall → Op
  | .put req => .put req
  | .delete key => .delete key
  | .cas req => .cas req
  | .commit tx => .commit tx

omit [Serde] in
def reportsSuccess {ε α : Type} (succeeded : α → Bool) : Except ε α → Bool
  | .ok a => succeeded a
  | .error _ => false

/-- Whether the call reports success, and the state after it. -/
def run (disk : Disk) (s : KindServerImpl) (now : UInt64) : WriteCall → Bool × KindServerImpl
  | .put req =>
      let result := putLogging disk.log s req now
      (reportsSuccess id result.1, result.2)
  | .delete key =>
      let result := deleteLogging disk.log s key
      (reportsSuccess id result.1, result.2)
  | .cas req =>
      let result := casLogging disk.log s req now
      (reportsSuccess id result.1, result.2)
  | .commit tx =>
      let result := TxHandle.commitLogging disk.log tx s
      (reportsSuccess (fun _ => true) result.1, result.2)

/-- The state with what the append of a command has made of the log. -/
def relogged (disk : Disk) (s s' : KindServerImpl) (c : WalCommand) : KindServerImpl :=
  { s' with wal := s.wal.map fun file => (disk.append file (s.globalVersion + 1) c).2 }

/-! ## Only the log differs -/

theorem applyEntry_wal (version : Nat) (s : KindServerImpl) (file : Option WalFile)
    (entry : String × Option DbRecord) :
    TxHandle.applyEntry version { s with wal := file } entry =
      { TxHandle.applyEntry version s entry with wal := file } := by
  obtain ⟨key, written⟩ := entry
  unfold TxHandle.applyEntry KindServerImpl.unindexOld
  cases s.tree[key]? <;> cases written <;> rfl

theorem applyEntries_wal (version : Nat) (entries : List (String × Option DbRecord))
    (s : KindServerImpl) (file : Option WalFile) :
    entries.foldl (TxHandle.applyEntry version) { s with wal := file } =
      { entries.foldl (TxHandle.applyEntry version) s with wal := file } := by
  induction entries generalizing s with
  | nil => rfl
  | cons entry rest ih => rw [List.foldl_cons, applyEntry_wal, ih, List.foldl_cons]

variable {s : KindServerImpl} {now : UInt64} (disk : Disk)

theorem put_eq (leader : s.isReplica = false) (req : PutRequest) :
    putLogging disk.log s req now = (.ok true, relogged disk s (s.put req now).2
      (.put req.key req.value (deadline now req.ttlMs))) := by
  rw [KindServerImpl.put_eq s leader]
  obtain ⟨key, value, ttlMs⟩ := req
  unfold putLogging
  rw [if_neg (by simp [leader]), KindServerImpl.unindexOld_eq]
  cases ttlMs <;> rfl

theorem delete_present (leader : s.isReplica = false) {key : String} {old : DbRecord}
    (held : s.tree[key]? = some old) :
    deleteLogging disk.log s key =
      (.ok true, relogged disk s (s.delete key).2 (.delete key)) := by
  rw [KindServerImpl.delete_present s leader held]
  unfold deleteLogging
  rw [if_neg (by simp [leader]), held]
  rfl

theorem delete_absent (leader : s.isReplica = false) {key : String}
    (free : s.tree[key]? = none) : deleteLogging disk.log s key = (.ok false, s) := by
  unfold deleteLogging
  rw [if_neg (by simp [leader]), free]

theorem cas_eq (leader : s.isReplica = false) (req : CasRequest) :
    casLogging disk.log s req now =
      if s.casMatches req now then
        (.ok true, relogged disk s (s.cas req now).2
          (.put req.key req.newValue (deadline now req.ttlMs)))
      else (.ok false, s) := by
  rw [KindServerImpl.cas_eq s leader]
  unfold casLogging KindServerImpl.casMatches KindServerImpl.casUnindex
  rw [if_neg (by simp [leader])]
  cases s.tree[req.key]? with
  | none =>
      simp only [decide_eq_true_eq]
      split_ifs <;> rfl
  | some rec =>
      dsimp only
      by_cases expired : isExpired rec.expiresAt now = true
      · simp only [if_pos expired, decide_eq_true_eq]
        split_ifs <;> rfl
      · simp only [if_neg expired, decide_eq_true_eq]
        split_ifs <;> rfl

theorem commit_eq (leader : s.isReplica = false) {tx : TxHandle} (clear : tx.conflicts s = false) :
    TxHandle.commitLogging disk.log tx s = (.ok (), relogged disk s (tx.commit s).2
      (.txCommit (tx.writeSet.entries.map TxHandle.pendingCommand))) := by
  rw [TxHandle.commit_ok leader clear]
  unfold TxHandle.commitLogging relogged
  rw [if_neg (by simp [leader]), if_neg (by simp [clear]), ← applyEntries_wal]
  rfl

/-- A call that has something to log reports success and does to all but the
log what it does on a disk that never fails; the others change nothing. -/
theorem run_eq (leader : s.isReplica = false) (call : WriteCall) :
    call.run disk s now = match call.op.command s now with
      | some c => (true, relogged disk s (call.op.exec s now) c)
      | none => (false, s) := by
  cases call with
  | put req =>
      simp only [run, put_eq disk leader]
      rfl
  | delete key =>
      cases held : s.tree[key]? with
      | none =>
          simp only [run, delete_absent disk leader held, op, Op.command, held]
          rfl
      | some old =>
          simp only [run, delete_present disk leader held, op, Op.command, Op.exec, held]
          rfl
  | cas req =>
      simp only [run, cas_eq disk leader, op, Op.command, Op.exec]
      split_ifs <;> rfl
  | commit tx =>
      cases clear : tx.conflicts s with
      | true => simp [run, TxHandle.commitLogging, leader, clear, op, Op.command, reportsSuccess]
      | false =>
          simp only [run, commit_eq disk leader clear, op, Op.command, Op.exec, clear]
          rfl

end WriteCall

end KindDb
