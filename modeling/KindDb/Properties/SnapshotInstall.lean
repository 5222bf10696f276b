import KindDb.Lib.Runs
import KindDb.SerdeJson
import KindDb.Server.Sync

/-! # Installing a snapshot

A replica overlays the records of a snapshot on what it holds; it removes
nothing.  The installed state is the leader's exactly if the replica held
nothing live under a key the snapshot does not mention. -/
set_option autoImplicit false

namespace KindDb.SnapshotInstall

open KindDb.Lib KindDb.Lib.Overlay KindDb.Lib.Runs KindDb.Schema

section Install
variable [Serde]

theorem installed (leader replica : KindServerImpl) (clock : String → UInt64)
    (nonempty : leader.snapshotStream clock ≠ []) :
    (∀ key, (replica.processStream (leader.snapshotStream clock)).contents key =
      (liveAt (clock key) (leader.contents key)).or (replica.contents key)) ∧
    (replica.processStream (leader.snapshotStream clock)).globalVersion = leader.globalVersion := by
  obtain ⟨chunks, records⟩ := leader.snapshotStream_records clock
  obtain ⟨contents, version⟩ := processStream_snapshots replica chunks
  refine ⟨fun key => ?_, version nonempty⟩
  rw [contents, records, KindServerImpl.overlay_liveUpdates]

/-- The leader is idle, its clock reads `clock key` when the record of `key` is
read for the snapshot, and `t` is no earlier. -/
theorem install_iff (leader replica : KindServerImpl) (clock : String → UInt64) (t : UInt64)
    (later : ∀ key, clock key ≤ t) (nonempty : leader.snapshotStream clock ≠ []) :
    let after := replica.processStream (leader.snapshotStream clock)
    ((∀ key, liveAt t (after.contents key) = liveAt t (leader.contents key)) ∧
        after.globalVersion = leader.globalVersion) ↔
      ∀ key, liveAt (clock key) (leader.contents key) = none →
        liveAt t (replica.contents key) = none := by
  obtain ⟨contents, version⟩ := installed leader replica clock nonempty
  simp only [version, and_true, contents]
  refine forall_congr' fun key => ?_
  rw [← liveAt_liveAt (later key) (leader.contents key)]
  cases liveAt (clock key) (leader.contents key) with
  | none => simp
  | some c => simp

end Install

/-! ## A deleted key survives -/

open SerdeJson

def put (key : String) : UInt64 × Op := (0, .put { key, value := [1], ttlMs := none })

def leaderAfter (events : List (UInt64 × Op)) : KindServerImpl :=
  run serverStep (.fresh .new false false false) events

/-- A replica that was connected while the leader held "a". -/
def staleReplica : KindServerImpl :=
  (KindServerImpl.fresh .new false false true).processStream
    ((leaderAfter [put "a"]).snapshotStream fun _ => 0)

/-- Since then the leader has deleted "a". -/
def leaderWithB : KindServerImpl := leaderAfter [put "a", (0, .delete "a"), put "b"]

theorem install_keeps_deleted :
    ¬ ∀ (leader replica : KindServerImpl) (clock : String → UInt64) (t : UInt64),
      (∀ key, clock key ≤ t) → leader.snapshotStream clock ≠ [] →
      let after := replica.processStream (leader.snapshotStream clock)
      (∀ key, liveAt t (after.contents key) = liveAt t (leader.contents key)) ∧
        after.globalVersion = leader.globalVersion := by
  intro claim
  have nonempty : leaderWithB.snapshotStream (fun _ => 0) ≠ [] := by decide
  have same := (claim leaderWithB staleReplica (fun _ => 0) 0 (fun _ => UInt64.le_refl 0) nonempty).1 "a"
  have kept : liveAt 0 ((staleReplica.processStream
      (leaderWithB.snapshotStream fun _ => 0)).contents "a") = some ([1], none) := by
    decide
  have gone : liveAt 0 (leaderWithB.contents "a") = none := by decide
  rw [kept, gone] at same
  cases same

theorem install_stale :
    let after := staleReplica.processStream (leaderWithB.snapshotStream fun _ => 0)
    ((∀ key, liveAt 0 (after.contents key) = liveAt 0 (leaderWithB.contents key)) ∧
        after.globalVersion = leaderWithB.globalVersion) ↔
      ∀ key, liveAt 0 (leaderWithB.contents key) = none →
        liveAt 0 (staleReplica.contents key) = none :=
  install_iff leaderWithB staleReplica (fun _ => 0) 0 (fun _ => UInt64.le_refl 0) (by decide)

end KindDb.SnapshotInstall
