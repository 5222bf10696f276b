import KindDb.SerdeJson
import KindDb.Server.Effects

/-! # Durability

What a restart brings back, at any later time, against what the tree holds.
A replay skips the puts whose deadline has passed, so a record that such a put
had replaced comes back if it would still be live: `agrees_step_iff` says that
nothing else goes wrong in a step.  Restarts are events of the run too. -/
set_option autoImplicit false

namespace KindDb.Durability

open KindDb.Lib KindDb.Lib.Overlay KindDb.Lib.Runs KindDb.Cache KindDb.Schema

section Runs
variable [Serde]

inductive Event
  | op (op : Op)
  | restart

/-- A server and the last reading of the clock. -/
abbrev Clocked := UInt64 × KindServerImpl

def lifeStep (cs : Clocked) (event : UInt64 × Event) : Clocked :=
  (event.1,
    match event.2 with
    | .op op => op.exec cs.2 event.1
    | .restart => cs.2.restart event.1)

/-- A restart at any time from now on brings back every live record and no other. -/
def Agrees (cs : Clocked) : Prop :=
  ∀ t, cs.1 ≤ t → ∀ key,
    liveAt t ((cs.2.restart t).contents key) = liveAt t (cs.2.contents key)

/-- A leader with a snapshot path and a log of whole records, as appends leave
it: empty or ended by a line feed. -/
structure Serving (s : KindServerImpl) : Prop where
  leader : s.isReplica = false
  hasSnapshot : s.snapshotFile.isSome = true
  whole : ∃ pairs, s.wal = some (Wal.written pairs)

theorem Serving.readable {s : KindServerImpl} (serving : Serving s) :
    ∃ file, s.wal = some file ∧ (Wal.readAllCommands file).isSome = true := by
  obtain ⟨pairs, held⟩ := serving.whole
  exact ⟨Wal.written pairs, held, by rw [Wal.readAllCommands_written]; rfl⟩

/-- A value written over a record of the tree does not expire before that record. -/
def KeepsDeadline (cs : Clocked) (event : UInt64 × Event) : Prop :=
  match event.2 with
  | .op op => ∀ c, op.command cs.2 event.1 = some c → ∀ key old new,
      cs.2.contents key = some old → (key, some new) ∈ c.updates →
      ∀ t, event.1 ≤ t → isExpired new.2 t = true → isExpired old.2 t = true
  | .restart => True

/-! ## What is on disk -/

theorem onDisk_logged {s s' : KindServerImpl} {c : WalCommand} (serving : Serving s)
    (logged : Logged s s' c) : s'.onDisk = s.onDisk ++ c.updates := by
  obtain ⟨file, held, readable⟩ := serving.readable
  simp only [KindServerImpl.onDisk, logged.snapshotFile, logged.wal, held, Option.map_some, Option.getD_some]
  exact fileUpdates_append _ readable _ c

omit [Serde] in
/-- The lines of a snapshot hold the live part of the tree. -/
theorem overlay_snapshotLines (s : KindServerImpl) {now t : UInt64} (later : now ≤ t)
    (key : String) :
    liveAt t (overlay (fun _ => none)
      (effectiveAt t ((s.snapshotLines now).flatMap SnapshotLine.updates)) key) =
        liveAt t (s.contents key) := by
  rw [KindServerImpl.updates_snapshotLines, ← liveAt_liveAt later (s.contents key)]
  have distinct := s.liveUpdates_distinct fun _ => now
  cases live : liveAt now (s.contents key) with
  | none => rw [overlay_effectiveAt_untouched t (KindServerImpl.untouched_liveUpdates live)]
  | some c =>
      rw [overlay_effectiveAt t distinct (KindServerImpl.mem_liveUpdates.mpr ⟨rfl, live⟩)]
      simp only [Option.any_some, liveAt_some]
      split
      · rfl
      · rename_i live
        simp [liveAt_some, live]

theorem Serving.step {s : KindServerImpl} (serving : Serving s) (event : UInt64 × Event)
    (clock : UInt64) : Serving (lifeStep (clock, s) event).2 := by
  obtain ⟨now, event⟩ := event
  obtain ⟨pairs, held⟩ := serving.whole
  cases event with
  | restart => exact ⟨serving.leader, serving.hasSnapshot, serving.whole⟩
  | op op =>
      have kept : SameSettings s (op.exec s now) := KindServerImpl.exec_settings serving.leader op
      refine ⟨kept.isReplica.trans serving.leader, kept.hasSnapshot.trans serving.hasSnapshot, ?_⟩
      by_cases running : op = .checkpoint
      · subst running
        obtain ⟨lines, heldLines⟩ := Option.isSome_iff_exists.mp serving.hasSnapshot
        refine ⟨[], ?_⟩
        simp [lifeStep, Op.exec, KindServerImpl.saveSnapshotAndTruncateWal, heldLines, held,
          Wal.truncate, Wal.written]
      · cases logs : op.command s now with
        | none =>
            have quiet := KindServerImpl.exec_unlogged serving.leader running logs
            exact ⟨pairs, quiet.wal.trans held⟩
        | some c =>
            have logged := KindServerImpl.exec_logged serving.leader logs
            refine ⟨pairs ++ [(s.globalVersion + 1, c)], ?_⟩
            rw [← Wal.append_written]
            simp [lifeStep, logged.wal, held]

/-! ## One step -/

variable {s : KindServerImpl} {clock now : UInt64}

theorem agrees_unlogged {s' : KindServerImpl} (agrees : Agrees (clock, s)) (later : clock ≤ now)
    (quiet : Unlogged s s' now) : Agrees (now, s') := by
  intro t afterNow key
  have sameFiles : (s'.restart t).contents = (s.restart t).contents := by
    rw [KindServerImpl.contents_restart, KindServerImpl.contents_restart,
      KindServerImpl.onDisk, quiet.snapshotFile, quiet.wal]
    rfl
  rw [sameFiles, agrees t (UInt64.le_trans later afterNow), quiet.liveAt afterNow]

theorem agrees_checkpoint (serving : Serving s) : Agrees (now, s.saveSnapshotAndTruncateWal now) := by
  intro t afterNow key
  obtain ⟨file, held⟩ := Option.isSome_iff_exists.mp serving.hasSnapshot
  obtain ⟨wal, heldWal, _⟩ := serving.readable
  have disk : (s.saveSnapshotAndTruncateWal now).onDisk =
      (s.snapshotLines now).flatMap SnapshotLine.updates := by
    simp [KindServerImpl.onDisk, KindServerImpl.saveSnapshotAndTruncateWal, held, heldWal, fileUpdates,
      walUpdates, Wal.truncate]
  have sameTree : (s.saveSnapshotAndTruncateWal now).contents = s.contents := by
    simp only [KindServerImpl.saveSnapshotAndTruncateWal, held]
    rfl
  rw [KindServerImpl.contents_restart, disk, sameTree, overlay_snapshotLines s afterNow]

theorem agrees_restart (agrees : Agrees (clock, s)) (later : clock ≤ now) :
    Agrees (now, s.restart now) := by
  intro t afterNow key
  have sameFiles : (s.restart now).restart t = s.restart t := rfl
  rw [sameFiles, agrees t (UInt64.le_trans later afterNow)]
  exact (liveAt_congr_later afterNow (agrees now later key)).symm

/-- A write keeps the agreement exactly if no deadline gets shorter by it. -/
theorem agrees_logged_iff {s' : KindServerImpl} {c : WalCommand} (serving : Serving s)
    (agrees : Agrees (clock, s)) (later : clock ≤ now) (logged : Logged s s' c)
    (distinct : c.keys.Nodup) :
    Agrees (now, s') ↔ ∀ key old new, s.contents key = some old → (key, some new) ∈ c.updates →
      ∀ t, now ≤ t → isExpired new.2 t = true → isExpired old.2 t = true := by
  have disk : ∀ t key, (s'.restart t).contents key =
      overlay (s.restart t).contents (effectiveAt t c.updates) key := by
    intro t key
    rw [KindServerImpl.contents_restart, KindServerImpl.contents_restart,
      onDisk_logged serving logged, effectiveAt_append,
      overlay_append]
  have agreed : ∀ t, now ≤ t → ∀ key,
      liveAt t ((s.restart t).contents key) = liveAt t (s.contents key) :=
    fun t afterNow => agrees t (UInt64.le_trans later afterNow)
  constructor
  · intro agrees' key old new held member t afterNow expired
    have same := agrees' t afterNow key
    simp only [disk, logged.contents, overlay_effectiveAt t distinct member,
      overlay_of_mem distinct member, Option.any_some, expired, if_true, agreed t afterNow key,
      held, liveAt_some] at same
    by_contra live
    simp [live] at same
  · intro keeps t afterNow key
    simp only [disk, logged.contents]
    by_cases named : key ∈ c.keys
    · obtain ⟨⟨k, written⟩, member, rfl⟩ := List.mem_map.mp named
      rw [overlay_effectiveAt t distinct member, overlay_of_mem distinct member]
      split
      · rename_i expired
        cases written with
        | none => cases expired
        | some new =>
            have newExpired : isExpired new.2 t = true := expired
            rw [agreed t afterNow, liveAt_some, if_pos newExpired]
            apply liveAt_eq_none.mpr
            intro old held
            exact keeps k old new held member t afterNow newExpired
      · rfl
    · rw [overlay_effectiveAt_untouched t named, overlay_untouched named, agreed t afterNow]

theorem agrees_step_iff (event : UInt64 × Event) (serving : Serving s)
    (agrees : Agrees (clock, s)) (later : clock ≤ event.1) :
    Agrees (lifeStep (clock, s) event) ↔ KeepsDeadline (clock, s) event := by
  obtain ⟨now, event⟩ := event
  cases event with
  | restart => exact iff_of_true (agrees_restart agrees later) trivial
  | op op =>
      by_cases running : op = .checkpoint
      · subst running
        refine iff_of_true (agrees_checkpoint serving) ?_
        intro c logs
        cases logs
      · cases logs : op.command s now with
        | none =>
            refine iff_of_true ?_ ?_
            · exact agrees_unlogged agrees later
                (KindServerImpl.exec_unlogged serving.leader running logs)
            · intro c same
              simp only [logs] at same
              cases same
        | some c =>
            have exact := agrees_logged_iff serving agrees later
              (KindServerImpl.exec_logged serving.leader logs)
              (KindServerImpl.command_keys_nodup logs)
            refine exact.trans ?_
            simp [KeepsDeadline, logs]

/-! ## Runs -/

theorem clocked (events : List (UInt64 × Event)) (cs : Clocked)
    (ordered : (cs.1 :: events.map Prod.fst).Pairwise (· ≤ ·)) :
    StepsMeet lifeStep (fun cs event => cs.1 ≤ event.1) cs events := by
  induction events generalizing cs with
  | nil => trivial
  | cons event rest ih =>
      obtain ⟨first, later⟩ := List.pairwise_cons.mp ordered
      exact ⟨first event.1 (List.mem_cons_self ..), ih (lifeStep cs event) later⟩

/-- After every part of a run a restart agrees with the tree, exactly if it does
so at the start and no write of the run makes a deadline earlier. -/
theorem recovery_agrees_iff (s : KindServerImpl) (start : UInt64) (serving : Serving s)
    (events : List (UInt64 × Event))
    (ordered : (start :: events.map Prod.fst).Pairwise (· ≤ ·)) :
    (∀ past, past <+: events → Agrees (run lifeStep (start, s) past)) ↔
      Agrees (start, s) ∧ StepsMeet lifeStep KeepsDeadline (start, s) events := by
  let Inv (cs : Clocked) : Prop := Serving cs.2 ∧ Agrees cs
  have step : ∀ (cs : Clocked) event, cs.1 ≤ event.1 → Inv cs →
      (Inv (lifeStep cs event) ↔ KeepsDeadline cs event) := by
    intro cs event later holds
    rw [← agrees_step_iff event holds.1 holds.2 later]
    exact and_iff_right (holds.1.step event cs.1)
  have served : ∀ past, Serving (run lifeStep (start, s) past).2 :=
    fun past => run_invariant_of_forall (P := fun cs => Serving cs.2)
      (fun cs event serving => serving.step event cs.1) past (start, s) serving
  have exact : Agrees (start, s) → ((∀ past, past <+: events →
      Inv (run lifeStep (start, s) past)) ↔
        StepsMeet lifeStep KeepsDeadline (start, s) events) := fun agrees =>
    run_invariant_iff step events (start, s) (clocked events (start, s) ordered) ⟨serving, agrees⟩
  constructor
  · intro agrees
    have atStart : Agrees (start, s) := agrees [] List.nil_prefix
    exact ⟨atStart, (exact atStart).mp fun past prefixed => ⟨served past, agrees past prefixed⟩⟩
  · intro ⟨atStart, meets⟩ past prefixed
    exact ((exact atStart).mpr meets past prefixed).2

theorem serving_fresh (reg : SchemaRegistry) :
    Serving (KindServerImpl.fresh reg true true false) :=
  ⟨rfl, rfl, [], rfl⟩

/-- Files that a server created itself agree with its empty tree. -/
theorem agrees_fresh (reg : SchemaRegistry) (start : UInt64) :
    Agrees (start, KindServerImpl.fresh reg true true false) := by
  intro t _ key
  have sameContents : (KindServerImpl.fresh reg true true false).contents =
      ((KindServerImpl.fresh reg true true false).restart t).contents := by
    rw [KindServerImpl.fresh, KindServerImpl.contents_new, KindServerImpl.contents_restart]
    rfl
  rw [sameContents]

end Runs

/-! ## A shortened deadline -/

/-- A record without deadline, overwritten by one that expires at 5. -/
def shortened : List (UInt64 × Event) :=
  [(0, .op (.put { key := "a", value := [1], ttlMs := none })),
   (0, .op (.put { key := "a", value := [2], ttlMs := some 5 }))]

theorem expired_overwrite_resurrects :
    ¬ ∀ [Serde] (reg : SchemaRegistry) (events : List (UInt64 × Event)),
      (0 :: events.map Prod.fst).Pairwise (· ≤ ·) →
      Agrees (run lifeStep (0, .fresh reg true true false) events) := by
  intro claim
  let _ : Serde := SerdeJson.instSerde
  let s := (run lifeStep (0, .fresh .new true true false) shortened).2
  have logged : s.wal = some (Wal.append (Wal.append [] 1 (.put "a" [1] none))
      2 (.put "a" [2] (some 5))) := rfl
  have disk : s.onDisk = [("a", some ([1], none)), ("a", some ([2], some 5))] := by
    rw [KindServerImpl.onDisk, logged, Option.getD_some, fileUpdates_append, fileUpdates_append]
    · rfl
    · rfl
    · rw [Wal.readAllCommands_append]
      rfl
  have same := claim .new shortened (by decide) 6 (by decide) "a"
  have recovered : (s.restart 6).contents "a" = some ([1], none) := by
    rw [KindServerImpl.contents_restart, disk]
    decide
  have held : s.contents "a" = some ([2], some 5) := by decide
  rw [recovered, held] at same
  exact absurd same (by decide)

open SerdeJson in
theorem recovery_agrees_shortened :
    (∀ past, past <+: shortened → Agrees (run lifeStep (0, .fresh .new true true false) past)) ↔
      Agrees (0, .fresh .new true true false) ∧
        StepsMeet lifeStep KeepsDeadline (0, .fresh .new true true false) shortened :=
  recovery_agrees_iff (.fresh .new true true false) 0 (serving_fresh .new) shortened (by decide)

end KindDb.Durability
