import KindDb.SerdeJson
import KindDb.Server.Checkpoint

/-! # A crash during a checkpoint

The writer is flushed when it is dropped, after the rename and the truncation.
A crash in between loses what it still buffers, and the log that could replace
it is gone or about to go.  `recovers_iff` is exact at every point of the
checkpoint. -/
set_option autoImplicit false

namespace KindDb.CheckpointCrash

open KindDb.Lib KindDb.Lib.Overlay KindDb.Lib.Runs KindDb.Schema KindDb.Checkpoint

section Crash
variable [Serde]

/-- Once the temporary file is in place, every record the writer still buffers
is of a key that the log on disk mentions. -/
def Covered (st : KindServerImpl × Checkpoint) : Prop :=
  st.2.stage = .renamed ∨ st.2.stage = .truncated →
    ∀ r ∈ records st.2.writer.buf, r.key ∈ touched (walUpdates (st.1.wal.getD []))

/-! ## How far the writer is -/

omit [Serde] in
/-- The writer holds, each once, the records of the tree up to the cursor. -/
structure WrittenTo (s : KindServerImpl) (passed : String → Bool) (w : BufWriter Piece) : Prop where
  nodup : (records w.contents).Nodup
  mem_iff : ∀ key record, { key, record } ∈ records w.contents ↔
    s.tree[key]? = some record ∧ passed key = true

variable {s : KindServerImpl}

omit [Serde] in
theorem writtenTo_new : WrittenTo s (fun key => !SortedMap.above none key) BufWriter.new :=
  ⟨List.nodup_nil, fun key record => by simp [records, SortedMap.above]⟩

theorem WrittenTo.writeln {cursor : Option String} {w : BufWriter Piece} {key : String}
    {record : DbRecord} (written : WrittenTo s (fun k => !SortedMap.above cursor k) w)
    (next : SortedMap.nextAbove s.tree cursor = some (key, record)) :
    WrittenTo s (fun k => !SortedMap.above (some key) k) (Checkpoint.writeln w { key, record }) := by
  obtain ⟨held, isAbove, _⟩ := SortedMap.nextAbove_some next
  have perm := records_writeln w { key, record }
  refine ⟨perm.nodup_iff.mpr ?_, fun k r => ?_⟩
  · refine List.nodup_append.mpr ⟨written.nodup, List.nodup_singleton _, ?_⟩
    intro old member new isNew same
    rw [List.mem_singleton.mp isNew] at same
    subst same
    have := ((written.mem_iff key record).mp member).2
    simp [isAbove] at this
  · rw [perm.mem_iff, List.mem_append, written.mem_iff, List.mem_singleton]
    simp only [Bool.not_eq_true', SnapshotRecord.mk.injEq]
    constructor
    · intro either
      rcases either with ⟨found, passed⟩ | ⟨rfl, rfl⟩
      · exact ⟨found, (SortedMap.nextAbove_passed next found).mpr (Or.inl passed)⟩
      · exact ⟨held, (SortedMap.nextAbove_passed next held).mpr (Or.inr rfl)⟩
    · intro ⟨found, passed⟩
      rcases (SortedMap.nextAbove_passed next found).mp passed with before | same
      · exact Or.inl ⟨found, before⟩
      · subst same
        rw [held] at found
        exact Or.inr ⟨rfl, (Option.some.inj found).symm⟩

/-- Where the checkpoint of a server `s` that nothing else changes can be. -/
def Progress (s : KindServerImpl) (st : KindServerImpl × Checkpoint) : Prop :=
  match st.2.stage with
  | .begin => st.1 = s
  | .writing cursor =>
      st.1 = s ∧ WrittenTo s (fun key => !SortedMap.above cursor key) st.2.writer
  | .renamed => WrittenTo s (fun _ => true) st.2.writer ∧
      st.1.snapshotFile = some (lines st.2.writer.file) ∧ st.1.wal = s.wal
  | .truncated => WrittenTo s (fun _ => true) st.2.writer ∧
      st.1.snapshotFile = some (lines st.2.writer.file) ∧ st.1.wal = s.wal.map Wal.truncate
  | .finished => st.1 = s ∨ (WrittenTo s (fun _ => true) st.2.writer ∧ st.2.writer.buf = [] ∧
      st.1.snapshotFile = some (lines st.2.writer.file) ∧ st.1.wal = s.wal.map Wal.truncate)

theorem Progress.step (ttlFree : TtlFree s) {st st' : KindServerImpl × Checkpoint} {now : UInt64}
    (progress : Progress s st) (stepped : Checkpoint.step st now = some st') : Progress s st' := by
  obtain ⟨s₁, stage, w⟩ := st
  cases stage with
  | begin =>
      obtain rfl : s₁ = s := progress
      simp only [Checkpoint.step] at stepped
      split at stepped
      · cases Option.some.inj stepped
        exact ⟨rfl, writtenTo_new⟩
      · cases Option.some.inj stepped
        exact Or.inl rfl
  | writing cursor =>
      obtain ⟨rfl, written⟩ := progress
      simp only [Checkpoint.step] at stepped
      cases next : SortedMap.nextAbove s₁.tree cursor with
      | some entry =>
          obtain ⟨key, record⟩ := entry
          have deadline := ttlFree.tree key record (SortedMap.nextAbove_some next).1
          simp only [next, deadline, isExpired_none, Bool.false_eq_true, if_false] at stepped
          cases Option.some.inj stepped
          exact ⟨rfl, written.writeln next⟩
      | none =>
          simp only [next] at stepped
          cases Option.some.inj stepped
          refine ⟨⟨written.nodup, fun key record => ?_⟩, rfl, rfl⟩
          rw [written.mem_iff]
          refine and_congr_right fun held => ?_
          cases isAbove : SortedMap.above cursor key with
          | false => rfl
          | true =>
              rw [SortedMap.nextAbove_none next key isAbove] at held
              cases held
  | renamed =>
      obtain ⟨written, file, wal⟩ := progress
      cases Option.some.inj stepped
      exact ⟨written, file, congrArg (Option.map Wal.truncate) wal⟩
  | truncated =>
      obtain ⟨written, file, wal⟩ := progress
      cases Option.some.inj stepped
      refine Or.inr ⟨⟨?_, ?_⟩, rfl, rfl, wal⟩
      · rw [BufWriter.contents_flushBuf]
        exact written.nodup
      · rw [BufWriter.contents_flushBuf]
        exact written.mem_iff
  | finished => cases stepped

/-! ## What the files recover -/

omit [Serde] in
/-- What the file of a complete writer holds for a key is the record of the tree. -/
theorem WrittenTo.in_file {w : BufWriter Piece} (written : WrittenTo s (fun _ => true) w)
    {key : String} {held : Option Content}
    (member : (key, held) ∈ (records w.file).map fun r => (r.key, some r.record.content)) :
    ∃ record, s.tree[key]? = some record ∧ held = some record.content ∧
      ({ key, record } : SnapshotRecord) ∈ records w.file := by
  obtain ⟨⟨k, record⟩, inFile, same⟩ := List.mem_map.mp member
  cases same
  have inContents : { key := k, record } ∈ records w.contents := by
    rw [BufWriter.contents, records_append]
    exact List.mem_append_left _ inFile
  exact ⟨record, ((written.mem_iff k record).mp inContents).1, rfl, inFile⟩

omit [Serde] in
/-- The file of a complete writer under a log recovers the tree exactly if the
log mentions every record that is not in the file. -/
theorem overlay_written_iff {w : BufWriter Piece} (written : WrittenTo s (fun _ => true) w)
    {logged : List (Update String Content)}
    (agrees : ∀ key ∈ touched logged, overlay (fun _ => none) logged key = s.contents key) :
    (∀ key, overlay (fun _ => none)
      ((records w.file).map (fun r => (r.key, some r.record.content)) ++ logged) key =
        s.contents key) ↔
      ∀ r ∈ records w.buf, r.key ∈ touched logged := by
  have split : ∀ r, r ∈ records w.contents ↔ r ∈ records w.file ∨ r ∈ records w.buf := by
    intro r
    rw [BufWriter.contents, records_append, List.mem_append]
  constructor
  · intro recovered r inBuf
    by_contra absent
    obtain ⟨key, record⟩ := r
    have held := ((written.mem_iff key record).mp ((split _).mpr (Or.inr inBuf))).1
    have same := recovered key
    rw [overlay_append, overlay_untouched absent, KindServerImpl.contents, held] at same
    by_cases named : key ∈ touched ((records w.file).map fun r => (r.key, some r.record.content))
    · obtain ⟨other, heldOther, _, inFile⟩ := written.in_file (mem_of_overlay named same)
      rw [held] at heldOther
      cases Option.some.inj heldOther
      have nodup := written.nodup
      rw [BufWriter.contents, records_append] at nodup
      exact (List.nodup_append.mp nodup).2.2 _ inFile _ inBuf rfl
    · rw [overlay_untouched named] at same
      cases same
  · intro covered key
    rw [overlay_append]
    by_cases mentioned : key ∈ touched logged
    · rw [overlay_touched mentioned _ (fun _ => none), agrees key mentioned]
    · rw [overlay_untouched mentioned, KindServerImpl.contents]
      by_cases named :
          key ∈ touched ((records w.file).map fun r => (r.key, some r.record.content))
      · obtain ⟨record, held, equal, _⟩ := written.in_file (mem_of_overlay named rfl)
        rw [equal, held]
        rfl
      · rw [overlay_untouched named]
        cases held : s.tree[key]? with
        | none => rfl
        | some record =>
            exfalso
            rcases (split _).mp ((written.mem_iff key record).mpr ⟨held, rfl⟩) with inFile | inBuf
            · exact named (List.mem_map.mpr ⟨_, List.mem_map.mpr ⟨_, inFile, rfl⟩, rfl⟩)
            · exact mentioned (covered _ inBuf)

/-- The contents a restart recovers from a complete writer's file and a log. -/
theorem recovers_written_iff (ttlFree : TtlFree s) {w : BufWriter Piece}
    (written : WrittenTo s (fun _ => true) w) {s₁ : KindServerImpl} (wal : Option WalFile)
    (fromDisk : ∀ u ∈ walUpdates (wal.getD []), u ∈ s.onDisk)
    (agrees : ∀ key ∈ touched (walUpdates (wal.getD [])),
      overlay (fun _ => none) (walUpdates (wal.getD [])) key = s.contents key)
    (file : s₁.snapshotFile = some (lines w.file)) (log : s₁.wal = wal) (t : UInt64) :
    Recovers s₁ t s.contents ↔
      ∀ r ∈ records w.buf, r.key ∈ touched (walUpdates (wal.getD [])) := by
  have disk : s₁.onDisk = (records w.file).map (fun r => (r.key, some r.record.content)) ++
      walUpdates (wal.getD []) := by
    rw [KindServerImpl.onDisk, file, log, Option.getD_some, fileUpdates, updates_lines]
  have free : ∀ u ∈ s₁.onDisk, ∀ held, u.2 = some held → held.2 = none := by
    intro u member held content
    rw [disk] at member
    rcases List.mem_append.mp member with inFile | logged
    · obtain ⟨record, inTree, equal, _⟩ := written.in_file inFile
      rw [content] at equal
      cases Option.some.inj equal
      exact ttlFree.tree u.1 record inTree
    · exact ttlFree.disk u (fromDisk u logged) held content
  rw [← overlay_written_iff written agrees]
  unfold Recovers
  rw [KindServerImpl.contents_restart, effectiveAt_of_deadlineFree free, disk]

/-- At every point of a checkpoint that runs alone, the files on disk recover
the tree exactly if what is still buffered is covered by the log. -/
theorem recovers_iff (s : KindServerImpl) (ttlFree : TtlFree s)
    (recovers : ∀ t, Recovers s t s.contents) (readings : List UInt64)
    (st : KindServerImpl × Checkpoint)
    (ran : runFrom Checkpoint.step (s, .start) readings = some st) (t : UInt64) :
    Recovers st.1 t s.contents ↔ Covered st := by
  have progress : Progress s st :=
    runFrom_invariant (P := Progress s) (C := fun _ _ => True)
      (fun _ _ _ _ stepped progress => progress.step ttlFree stepped) readings _ _
      (eachMeets_of_forall (fun _ _ => trivial) ..) ran rfl
  obtain ⟨s₁, stage, w⟩ := st
  unfold Covered
  cases stage with
  | begin =>
      obtain rfl : s₁ = s := progress
      exact iff_of_true (recovers t) (by simp)
  | writing cursor =>
      obtain rfl : s₁ = s := progress.1
      exact iff_of_true (recovers t) (by simp)
  | renamed =>
      obtain ⟨written, file, walKept⟩ := progress
      have logged : ∀ u ∈ walUpdates (s.wal.getD []), u ∈ s.onDisk :=
        fun u member => List.mem_append_right _ member
      have replayed : ∀ key ∈ touched (walUpdates (s.wal.getD [])),
          overlay (fun _ => none) (walUpdates (s.wal.getD [])) key = s.contents key := by
        intro key mentioned
        rw [← recovers t key, KindServerImpl.contents_restart,
          effectiveAt_of_deadlineFree ttlFree.disk, KindServerImpl.onDisk, fileUpdates,
          overlay_append]
        exact overlay_touched mentioned _ _
      refine (recovers_written_iff ttlFree written s.wal logged replayed file walKept t).trans ?_
      dsimp only at walKept
      simp [walKept]
  | truncated =>
      obtain ⟨written, file, walEmptied⟩ := progress
      have emptied : walUpdates ((s.wal.map Wal.truncate).getD []) = [] := by
        cases s.wal <;> rfl
      refine (recovers_written_iff ttlFree written (s.wal.map Wal.truncate) (by simp [emptied])
        (by simp [emptied, touched]) file walEmptied t).trans ?_
      dsimp only at walEmptied
      simp [walEmptied]
  | finished =>
      refine iff_of_true ?_ (by simp)
      rcases progress with same | ⟨written, flushed, file, walEmptied⟩
      · obtain rfl : s₁ = s := same
        exact recovers t
      · have emptied : walUpdates ((s.wal.map Wal.truncate).getD []) = [] := by
          cases s.wal <;> rfl
        refine (recovers_written_iff ttlFree written (s.wal.map Wal.truncate) (by simp [emptied])
          (by simp [emptied, touched]) file walEmptied t).mpr ?_
        dsimp only at flushed
        simp [flushed, records]

end Crash

/-! ## A crash after the truncation -/

open SerdeJson

/-- A server that holds one record, in the tree and in the log. -/
def oneRecord : KindServerImpl :=
  ((KindServerImpl.fresh .new true true false).put { key := "a", value := [1], ttlMs := none } 0).2

theorem onDisk_oneRecord : oneRecord.onDisk = [("a", some ([1], none))] := by
  have logged : oneRecord.wal = some (Wal.append [] 1 (.put "a" [1] none)) := rfl
  rw [KindServerImpl.onDisk, logged, Option.getD_some, fileUpdates_append _ rfl]
  rfl

theorem contents_oneRecord (key : String) :
    oneRecord.contents key = overlay (fun _ => none) [("a", some ([1], none))] key := by
  have logged := @KindServerImpl.put_logged _ (.fresh .new true true false) 0 rfl
    { key := "a", value := [1], ttlMs := none }
  refine (logged.contents key).trans (overlay_congr _ ?_)
  simp [KindServerImpl.contents, KindServerImpl.fresh, KindServerImpl.new, Recovery.recover,
    Recovery.empty]

theorem ttlFree_oneRecord : TtlFree oneRecord := by
  have onlyOne : ∀ u ∈ [("a", some (([1], none) : Content))], ∀ held, u.2 = some held →
      held.2 = none := by
    intro u member held content
    cases List.mem_singleton.mp member
    cases Option.some.inj content
    rfl
  refine ⟨fun key r held => ?_, onDisk_oneRecord ▸ onlyOne⟩
  have content := contents_oneRecord key
  rw [KindServerImpl.contents, held] at content
  by_cases same : key ∈ touched [("a", some (([1], none) : Content))]
  · exact onlyOne _ (mem_of_overlay same content.symm) r.content rfl
  · rw [overlay_untouched same] at content
    cases content

theorem recovers_oneRecord (t : UInt64) : Recovers oneRecord t oneRecord.contents := by
  intro key
  rw [KindServerImpl.contents_restart, effectiveAt_of_deadlineFree ttlFree_oneRecord.disk,
    onDisk_oneRecord, contents_oneRecord]

/-- Begin, write "a", rename, truncate. -/
def cutShort : List UInt64 := [0, 0, 0, 0]

theorem crash_after_truncation_loses :
    ¬ ∀ (s : KindServerImpl), TtlFree s → (∀ t, Recovers s t s.contents) →
      ∀ readings st, runFrom Checkpoint.step (s, .start) readings = some st →
      ∀ t, Recovers st.1 t s.contents := by
  intro claim
  have ran : (runFrom Checkpoint.step (oneRecord, .start) cutShort).isSome = true := by
    decide
  obtain ⟨st, reached⟩ := Option.isSome_iff_exists.mp ran
  have recovered := claim oneRecord ttlFree_oneRecord recovers_oneRecord cutShort st reached 0 "a"
  have lost : (runFrom Checkpoint.step (oneRecord, .start) cutShort).map
      (fun st => (st.1.restart 0).contents "a") = some none := by decide
  have held : oneRecord.contents "a" = some ([1], none) := by decide
  rw [reached, Option.map_some, recovered, held] at lost
  exact absurd lost (by decide)

theorem recovers_iff_oneRecord : ∃ st,
    runFrom Checkpoint.step (oneRecord, .start) cutShort = some st ∧
      (Recovers st.1 0 oneRecord.contents ↔ Covered st) := by
  have ran : (runFrom Checkpoint.step (oneRecord, .start) cutShort).isSome = true := by
    decide
  obtain ⟨st, reached⟩ := Option.isSome_iff_exists.mp ran
  exact ⟨st, reached, recovers_iff oneRecord ttlFree_oneRecord recovers_oneRecord cutShort st
    reached 0⟩

end KindDb.CheckpointCrash
