import KindDb.SerdeJson
import KindDb.Server.Disk

/-! # Acknowledged and logged

A call that reports success should have logged what it did, and a call whose
append fails should report that and leave the state alone.  The first holds
wherever the append succeeds, the second nowhere. -/
set_option autoImplicit false

namespace KindDb.AckedLogged

open KindDb.Lib KindDb.Lib.Runs KindDb.WriteCall

section Calls
variable [Serde]

/-- The append of the call is made and fails. -/
def AppendFails (disk : Disk) (s : KindServerImpl) (call : WriteCall) (now : UInt64) : Prop :=
  s.wal.isSome = true ∧ (∃ c, call.op.command s now = some c) ∧
    ∃ error left, disk = .fails error left

/-- A call that reports success and changes the tree has appended its command,
and one whose append fails reports that and leaves tree, indexes and cache alone. -/
structure Accounted (disk : Disk) (s : KindServerImpl) (call : WriteCall) (now : UInt64) :
    Prop where
  acked : (call.run disk s now).1 = true → (call.run disk s now).2.tree ≠ s.tree →
    ∃ c, call.op.command s now = some c ∧ (call.run disk s now).2.wal =
      s.wal.map fun file => Wal.append file (s.globalVersion + 1) c
  failed : AppendFails disk s call now → (call.run disk s now).1 = false ∧
    (call.run disk s now).2.tree = s.tree ∧ (call.run disk s now).2.indexes = s.indexes ∧
    (call.run disk s now).2.cache = s.cache

theorem accounted_iff (s : KindServerImpl) (leader : s.isReplica = false)
    (hasWal : s.wal.isSome = true) (disk : Disk) (call : WriteCall) (now : UInt64) :
    Accounted disk s call now ↔ ¬ AppendFails disk s call now := by
  have ran : call.run disk s now = _ := run_eq disk leader call
  constructor
  · intro accounted fails
    have failed := (accounted.failed fails).1
    obtain ⟨_, ⟨c, logs⟩, _⟩ := fails
    rw [ran, logs] at failed
    cases failed
  · intro succeeds
    refine ⟨fun acked changed => ?_, fun fails => absurd fails succeeds⟩
    cases logs : call.op.command s now with
    | none =>
        rw [ran, logs] at acked
        cases acked
    | some c =>
        refine ⟨c, rfl, ?_⟩
        rw [ran, logs]
        cases disk with
        | accepts => rfl
        | fails error left => exact absurd ⟨hasWal, ⟨c, logs⟩, error, left, rfl⟩ succeeds

end Calls

open SerdeJson

def emptyLeader : KindServerImpl := .fresh .new false true false

def putA : WriteCall := .put { key := "a", value := [1], ttlMs := none }

/-- The file stays empty. -/
def fullDisk : Disk := .fails "No space left on device" []

theorem failed_append_acked :
    ¬ ∀ (s : KindServerImpl), s.isReplica = false → s.wal.isSome = true →
      ∀ (disk : Disk) (call : WriteCall) (now : UInt64), Accounted disk s call now := by
  intro claim
  have fails : AppendFails fullDisk emptyLeader putA 0 := ⟨rfl, ⟨_, rfl⟩, _, _, rfl⟩
  have reported : (putA.run fullDisk emptyLeader 0).1 = true := rfl
  rw [((claim emptyLeader rfl rfl fullDisk putA 0).failed fails).1] at reported
  cases reported

theorem accounted_accepted : Accounted .accepts emptyLeader putA 0 :=
  (accounted_iff emptyLeader rfl rfl .accepts putA 0).mpr (by rintro ⟨_, _, _, _, ⟨⟩⟩)

end KindDb.AckedLogged
