import KindDb.Properties.Durability
import KindDb.Server.Versions

/-! # Transaction ids over restarts

After a checkpoint the log is empty, and a restart rebuilds the version counter
from the records that are left.  If the last mutation left none, the counter
falls back and its ids are given out again: `ids_fresh_iff` says that this is
the only way. -/
set_option autoImplicit false

namespace KindDb.VersionReuse

open KindDb.Lib KindDb.Lib.Runs KindDb.Schema KindDb.Durability

section Runs
variable [Serde]

/-- A server and the ids of all its mutations so far. -/
abbrev History := KindServerImpl × List Nat

def historyStep (h : History) (event : UInt64 × Event) : History :=
  ((lifeStep (event.1, h.1) event).2,
    match event.2 with
    | .op op =>
        match op.command h.1 event.1 with
        | some _ => h.2 ++ [h.1.globalVersion + 1]
        | none => h.2
    | .restart => h.2)

/-- No id was given out twice, and none that was given out will be. -/
structure NoReuse (h : History) : Prop where
  increasing : h.2.Pairwise (· < ·)
  bounded : ∀ id ∈ h.2, id ≤ h.1.globalVersion

/-- A restart finds a command in the log, or an unexpired record in the snapshot
that is as new as the last mutation. -/
def Remembers (h : History) (event : UInt64 × Event) : Prop :=
  match event.2 with
  | .op _ => True
  | .restart => h.2 = [] ∨ h.1.logged ≠ [] ∨
      ∃ r, Recovery.Loads (h.1.snapshotFile.getD []) event.1 r ∧
        ∀ id ∈ h.2, id ≤ r.record.version

/-- The log is readable and ends with the last mutation, if it is not empty. -/
structure LogEnds (h : History) : Prop where
  leader : h.1.isReplica = false
  readable : h.1.Readable
  positive : ∀ id ∈ h.2, 0 < id
  logged : ∀ logged ∈ h.1.logged, logged.1 ∈ h.2
  last : ∀ logged, h.1.logged.getLast? = some logged → h.2.getLast? = some logged.1

theorem logEnds_fresh (reg : SchemaRegistry) (hasSnapshot hasWal : Bool) :
    LogEnds (KindServerImpl.fresh reg hasSnapshot hasWal false, []) := by
  have empty : (KindServerImpl.fresh reg hasSnapshot hasWal false).logged = [] := by
    cases hasWal <;> rfl
  refine ⟨rfl, ?_, by simp, by simp [empty], by simp [empty]⟩
  cases hasWal <;> rfl

theorem LogEnds.step {h : History} (ends : LogEnds h) (event : UInt64 × Event) :
    LogEnds (historyStep h event) := by
  obtain ⟨s, ids⟩ := h
  obtain ⟨now, event⟩ := event
  cases event with
  | restart => exact ⟨ends.leader, ends.readable, ends.positive, ends.logged, ends.last⟩
  | op op =>
      have leader := (@KindServerImpl.exec_settings _ _ now ends.leader op).isReplica.trans
        ends.leader
      cases logs : op.command s now with
      | some c =>
          have logged := KindServerImpl.exec_logged ends.leader logs
          have file := logged.logged ends.readable
          have became : historyStep (s, ids) (now, .op op) =
              (op.exec s now, ids ++ [s.globalVersion + 1]) := by
            simp [historyStep, lifeStep, logs]
          rw [became]
          refine ⟨leader, logged.readable ends.readable, ?_, ?_, ?_⟩
          · intro id member
            rcases List.mem_append.mp member with old | new
            · exact ends.positive id old
            · rw [List.mem_singleton.mp new]
              exact Nat.succ_pos _
          · intro entry member
            simp only [file] at member
            split at member
            · rcases List.mem_append.mp member with old | new
              · exact List.mem_append_left _ (ends.logged entry old)
              · rw [List.mem_singleton.mp new]
                exact List.mem_append_right _ (List.mem_singleton_self _)
            · cases member
          · intro entry last
            simp only [file] at last
            split at last
            · rw [List.getLast?_concat] at last
              cases Option.some.inj last
              exact List.getLast?_concat
            · cases last
      | none =>
          have became : historyStep (s, ids) (now, .op op) = (op.exec s now, ids) := by
            simp [historyStep, lifeStep, logs]
          rw [became]
          by_cases running : op = .checkpoint
          · subst running
            cases held : s.snapshotFile with
            | none =>
                have same : Op.checkpoint.exec s now = s := by
                  simp [Op.exec, KindServerImpl.saveSnapshotAndTruncateWal, held]
                rw [same]
                exact ends
            | some lines =>
                have empty : (Op.checkpoint.exec s now).wal.getD [] = [] := by
                  simp only [Op.exec, KindServerImpl.saveSnapshotAndTruncateWal, held]
                  cases s.wal <;> rfl
                have none : (Op.checkpoint.exec s now).logged = [] := by
                  rw [KindServerImpl.logged, empty]
                  rfl
                refine ⟨leader, ?_, ends.positive, by simp [none], by simp [none]⟩
                rw [KindServerImpl.Readable, empty]
                rfl
          · have quiet := KindServerImpl.exec_unlogged ends.leader running logs
            exact ⟨leader, quiet.readable ends.readable, ends.positive,
              quiet.logged.symm ▸ ends.logged, quiet.logged.symm ▸ ends.last⟩

/-- The counter that a restart arrives at has passed all ids exactly if the
files still show the last of them. -/
theorem restart_bounds_iff {h : History} (ends : LogEnds h) (fresh : NoReuse h) (now : UInt64) :
    (∀ id ∈ h.2, id ≤ (h.1.restart now).globalVersion) ↔ Remembers h (now, .restart) := by
  obtain ⟨s, ids⟩ := h
  have counter : ∀ n, n ≤ (s.restart now).globalVersion ↔
      n = 0 ∨ (∃ r, Recovery.Loads (s.snapshotFile.getD []) now r ∧ n ≤ r.record.version) ∨
        ∃ logged ∈ s.logged, n ≤ logged.1 := fun n =>
    Recovery.le_maxVer_recover _ fun logged member => ends.positive _ (ends.logged logged member)
  rcases List.eq_nil_or_concat ids with rfl | ⟨earlier, last, rfl⟩
  · simp [Remembers]
  · rw [List.concat_eq_append] at *
    have highest : ∀ n, (∀ id ∈ earlier ++ [last], id ≤ n) ↔ last ≤ n := by
      intro n
      refine ⟨fun all => all last (by simp), fun below id member => ?_⟩
      rcases List.mem_append.mp member with before | here
      · have := (List.pairwise_append.mp fresh.increasing).2.2 id before last (by simp)
        omega
      · rw [List.mem_singleton.mp here]
        exact below
    have positive : last ≠ 0 := (ends.positive last (by simp)).ne'
    rw [highest, counter]
    simp only [Remembers, highest, positive, false_or, List.append_eq_nil_iff,
      List.cons_ne_self, and_false]
    refine ⟨fun either => ?_, fun either => ?_⟩
    · rcases either with loaded | ⟨entry, member, _⟩
      · exact Or.inr loaded
      · exact Or.inl (List.ne_nil_of_mem member)
    · rcases either with some | loaded
      · right
        have found := List.getLast?_eq_some_getLast some
        have same := ends.last _ found
        rw [List.getLast?_concat] at same
        exact ⟨_, List.getLast_mem some, (Option.some.inj same).le⟩
      · exact Or.inl loaded

theorem noReuse_step_iff {h : History} (ends : LogEnds h) (fresh : NoReuse h)
    (event : UInt64 × Event) : NoReuse (historyStep h event) ↔ Remembers h event := by
  obtain ⟨s, ids⟩ := h
  obtain ⟨now, event⟩ := event
  cases event with
  | restart =>
      rw [← restart_bounds_iff ends fresh now]
      exact ⟨fun after => after.bounded, fun bounded => ⟨fresh.increasing, bounded⟩⟩
  | op op =>
      refine iff_of_true ?_ trivial
      rcases @KindServerImpl.exec_cases _ _ now ends.leader op with
        ⟨c, logs, logged⟩ | ⟨logs, version, _⟩
      · have became : historyStep (s, ids) (now, .op op) =
            (op.exec s now, ids ++ [s.globalVersion + 1]) := by
          simp [historyStep, lifeStep, logs]
        rw [became]
        refine ⟨List.pairwise_append.mpr ⟨fresh.increasing, List.pairwise_singleton _ _, ?_⟩, ?_⟩
        · intro id member new isNew
          rw [List.mem_singleton.mp isNew]
          exact Nat.lt_succ_of_le (fresh.bounded id member)
        · intro id member
          rw [logged.globalVersion]
          rcases List.mem_append.mp member with old | new
          · exact Nat.le_succ_of_le (fresh.bounded id old)
          · exact (List.mem_singleton.mp new).le
      · have became : historyStep (s, ids) (now, .op op) = (op.exec s now, ids) := by
          simp [historyStep, lifeStep, logs]
        rw [became]
        exact ⟨fresh.increasing, fun id member => version ▸ fresh.bounded id member⟩

/-- Over every history no id is ever given out again, exactly if every restart
remembers the last one. -/
theorem ids_fresh_iff (reg : SchemaRegistry) (hasSnapshot hasWal : Bool)
    (events : List (UInt64 × Event)) :
    (∀ past, past <+: events →
      NoReuse (run historyStep (KindServerImpl.fresh reg hasSnapshot hasWal false, []) past)) ↔
    StepsMeet historyStep Remembers (KindServerImpl.fresh reg hasSnapshot hasWal false, [])
      events := by
  let start : History := (KindServerImpl.fresh reg hasSnapshot hasWal false, [])
  have ends : ∀ past, LogEnds (run historyStep start past) := fun past =>
    run_invariant_of_forall (fun _ event ends => ends.step event) past start
      (logEnds_fresh reg hasSnapshot hasWal)
  have exact := run_invariant_iff (P := fun h => LogEnds h ∧ NoReuse h)
    (Q := fun _ _ => True) (C := Remembers)
    (fun h event _ holds => (and_iff_right (holds.1.step event)).trans
      (noReuse_step_iff holds.1 holds.2 event))
    events start (stepsMeet_of_forall (fun _ _ => trivial) ..)
    ⟨logEnds_fresh reg hasSnapshot hasWal, List.Pairwise.nil, by simp [start]⟩
  refine Iff.trans ?_ exact
  exact forall₂_congr fun past _ => (and_iff_right (ends past)).symm

end Runs

/-! ## A deleted key takes its id along -/

def deleted : List (UInt64 × Event) :=
  [(0, .op (.put { key := "a", value := [1], ttlMs := none })), (0, .op (.delete "a")),
   (0, .op .checkpoint), (0, .restart), (0, .op (.put { key := "b", value := [1], ttlMs := none }))]

theorem restart_reuses_ids :
    ¬ ∀ [Serde] (reg : SchemaRegistry) (events : List (UInt64 × Event)),
      (run historyStep (KindServerImpl.fresh reg true true false, []) events).2.Nodup ∧
      ∀ id ∈ (run historyStep (KindServerImpl.fresh reg true true false, []) events).2,
        id ≤ (run historyStep (KindServerImpl.fresh reg true true false, []) events).1.globalVersion := by
  intro claim
  let _ : Serde := SerdeJson.instSerde
  have ids : (run historyStep (KindServerImpl.fresh .new true true false, []) deleted).2 =
      [1, 2, 1] := by
    decide
  have unique := (claim .new deleted).1
  rw [ids] at unique
  exact absurd unique (by decide)

end KindDb.VersionReuse
