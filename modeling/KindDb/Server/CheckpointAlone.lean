import KindDb.Server.SnapshotBytes

/-! # A checkpoint that runs alone

Nothing changes the server while the checkpoint runs, but its clock moves on:
every turn of the loop judges expiry by a reading of its own.  `Progress` is
the invariant of such a checkpoint, with any bound of its readings; `finishes`
says that it takes a step for every entry of the tree and four more. -/
set_option autoImplicit false

namespace KindDb.Checkpoint

open KindDb.Lib KindDb.Lib.Runs KindDb.SnapshotBytes

def ofEntry (entry : String × DbRecord) : SnapshotRecord := { key := entry.1, record := entry.2 }

variable [Serde]

/-- The writer has taken the records `done`: of the entries visited, in their
order, all but some that have expired by `t`. -/
structure Written (t : UInt64) (visited : List (String × DbRecord)) (w : BufWriter Piece)
    (done : List SnapshotRecord) : Prop where
  sublist : done.Sublist (visited.map ofEntry)
  live : ∀ entry ∈ visited, isExpired entry.2.expiresAt t = false → ofEntry entry ∈ done
  perm : (records w.contents).Perm done
  inOrder : (∀ r ∈ done, 0 < sizeOf (.json r)) → w.contents = done.flatMap pieces

variable {t : UInt64} {visited : List (String × DbRecord)} {w : BufWriter Piece}
  {done : List SnapshotRecord}

theorem written_new : Written t [] BufWriter.new [] :=
  ⟨List.Sublist.refl _, by simp, List.Perm.refl _, fun _ => rfl⟩

theorem contents_writeln (positive : ∀ p ∈ w.contents, 0 < sizeOf p) {r : SnapshotRecord}
    (text : 0 < sizeOf (.json r)) : (writeln w r).contents = w.contents ++ pieces r := by
  have room : 0 < defaultBufSize := by decide
  have buffered : ∀ {w : BufWriter Piece}, (∀ p ∈ w.contents, 0 < sizeOf p) →
      ∀ p ∈ w.buf, 0 < sizeOf p :=
    fun positive p member => positive p (List.mem_append_right _ member)
  have first := BufWriter.contents_writeAll_of_pos room w (.json r) (buffered positive)
  have still : ∀ p ∈ (w.writeAll sizeOf defaultBufSize (.json r)).contents, 0 < sizeOf p := by
    intro p member
    rw [first] at member
    rcases List.mem_append.mp member with old | new
    · exact positive p old
    · rw [List.mem_singleton.mp new]
      exact text
  rw [writeln, BufWriter.contents_writeAll_of_pos room _ .newline (buffered still), first,
    List.append_assoc]
  rfl

/-- A record whose turn it is gets written, unless it has expired. -/
theorem Written.turn (written : Written t visited w done) (entry : String × DbRecord)
    {now : UInt64} (passed : now ≤ t) :
    ∃ done', Written t (visited ++ [entry])
      (if isExpired entry.2.expiresAt now then w else writeln w (ofEntry entry)) done' := by
  cases expired : isExpired entry.2.expiresAt now with
  | true =>
      refine ⟨done, ?_, fun other member live => ?_, written.perm, written.inOrder⟩
      · rw [List.map_append]
        exact written.sublist.trans (List.sublist_append_left _ _)
      · rcases List.mem_append.mp member with old | new
        · exact written.live other old live
        · rw [List.mem_singleton.mp new, isExpired_later passed expired] at live
          cases live
  | false =>
      refine ⟨done ++ [ofEntry entry], ?_, fun other member live => ?_, ?_, fun positive => ?_⟩
      · rw [List.map_append]
        exact written.sublist.append (List.Sublist.refl _)
      · rcases List.mem_append.mp member with old | new
        · exact List.mem_append_left _ (written.live other old live)
        · rw [List.mem_singleton.mp new]
          exact List.mem_append_right _ (List.mem_singleton_self _)
      · exact (records_writeln w (ofEntry entry)).trans (written.perm.append_right _)
      · have before : ∀ r ∈ done, 0 < sizeOf (.json r) :=
          fun r member => positive r (List.mem_append_left _ member)
        have contents := written.inOrder before
        have texts : ∀ p ∈ w.contents, 0 < sizeOf p := by
          intro p member
          rw [contents] at member
          obtain ⟨r, inDone, inPieces⟩ := List.mem_flatMap.mp member
          simp only [pieces, List.mem_cons, List.not_mem_nil, or_false] at inPieces
          rcases inPieces with rfl | rfl
          · exact before r inDone
          · exact Nat.one_pos
        have last := positive (ofEntry entry) (List.mem_append_right _ (List.mem_singleton_self _))
        rw [if_neg (by simp), contents_writeln texts last, contents, List.flatMap_append,
          List.flatMap_singleton]

theorem Written.flushed (written : Written t visited w done) : Written t visited w.flushBuf done :=
  ⟨written.sublist, written.live, by rw [BufWriter.contents_flushBuf]; exact written.perm,
    by rw [BufWriter.contents_flushBuf]; exact written.inOrder⟩

/-! ## What was written is in the tree -/

variable {s : KindServerImpl}

omit [Serde] in
theorem mem_entries {entry : String × DbRecord} :
    entry ∈ s.tree.toList ↔ s.tree[entry.1]? = some entry.2 :=
  Std.ExtTreeMap.mem_toList_iff_getElem?_eq_some

theorem Written.distinct (written : Written t s.tree.toList w done) :
    (done.map (·.key)).Nodup := by
  have keys := written.sublist.map (·.key)
  rw [List.map_map] at keys
  exact (SortedMap.nodup_keys_toList s.tree).sublist keys

theorem Written.in_tree (written : Written t s.tree.toList w done) {r : SnapshotRecord}
    (member : r ∈ done) : s.tree[r.key]? = some r.record := by
  obtain ⟨entry, listed, rfl⟩ := List.mem_map.mp (written.sublist.subset member)
  exact mem_entries.mp listed

/-! ## The run -/

/-- Where a checkpoint of `s` can be whose readings do not pass `t`. -/
def Progress (s : KindServerImpl) (t : UInt64) (st : KindServerImpl × Checkpoint) : Prop :=
  match st.2.stage with
  | .begin => st.1 = s
  | .writing cursor => st.1 = s ∧ ∃ visited rest done, s.tree.toList = visited ++ rest ∧
      cursor = visited.getLast?.map Prod.fst ∧ Written t visited st.2.writer done
  | .renamed => st.1 = { s with snapshotFile := some (lines st.2.writer.file) } ∧
      ∃ done, Written t s.tree.toList st.2.writer done
  | .truncated => st.1 = { s with
        snapshotFile := some (lines st.2.writer.file)
        wal := s.wal.map Wal.truncate } ∧
      ∃ done, Written t s.tree.toList st.2.writer done
  | .finished => (s.snapshotFile = none ∧ st.1 = s) ∨ (st.1 = { s with
        snapshotFile := some (lines st.2.writer.file)
        wal := s.wal.map Wal.truncate } ∧ st.2.writer.buf = [] ∧
      ∃ done, Written t s.tree.toList st.2.writer done)

theorem Progress.step {st st' : KindServerImpl × Checkpoint} {now : UInt64}
    (progress : Progress s t st) (passed : now ≤ t)
    (stepped : Checkpoint.step st now = some st') : Progress s t st' := by
  obtain ⟨s₁, stage, w⟩ := st
  cases stage with
  | begin =>
      obtain rfl : s₁ = s := progress
      simp only [Checkpoint.step] at stepped
      cases file : s₁.snapshotFile with
      | none =>
          simp only [file] at stepped
          cases Option.some.inj stepped
          exact Or.inl ⟨file, rfl⟩
      | some old =>
          simp only [file] at stepped
          cases Option.some.inj stepped
          exact ⟨rfl, [], s₁.tree.toList, [], rfl, rfl, written_new⟩
  | writing cursor =>
      obtain ⟨rfl, visited, rest, done, split, atCursor, written⟩ := progress
      simp only [Checkpoint.step, atCursor, SortedMap.nextAbove_split split] at stepped
      cases rest with
      | nil =>
          simp only [List.head?_nil] at stepped
          cases Option.some.inj stepped
          rw [List.append_nil] at split
          exact ⟨rfl, done, split ▸ written⟩
      | cons entry rest =>
          simp only [List.head?_cons] at stepped
          cases Option.some.inj stepped
          obtain ⟨done', written'⟩ := written.turn entry passed
          refine ⟨rfl, visited ++ [entry], rest, done', by simp [split], ?_, written'⟩
          rw [List.getLast?_concat]
          rfl
  | renamed =>
      obtain ⟨same, written⟩ := progress
      dsimp only at same
      subst same
      cases Option.some.inj stepped
      exact ⟨rfl, written⟩
  | truncated =>
      obtain ⟨same, done, written⟩ := progress
      dsimp only at same
      subst same
      cases Option.some.inj stepped
      exact Or.inr ⟨rfl, rfl, done, written.flushed⟩
  | finished => cases stepped

theorem progress_run {readings : List UInt64} (passed : ∀ now ∈ readings, now ≤ t)
    {st : KindServerImpl × Checkpoint} (ran : runFrom step (s, .start) readings = some st) :
    Progress s t st :=
  runFrom_invariant (P := Progress s t) (C := fun _ now => now ≤ t)
    (fun _ _ _ early stepped progress => progress.step early stepped) readings _ _
    (eachMeets_of_labels (fun now member _ => passed now member) _) ran rfl

/-- From within the loop: a step for each entry to come, the rename, the
truncation and the drop of the writer. -/
theorem finishes_writing {visited rest : List (String × DbRecord)}
    (split : s.tree.toList = visited ++ rest) (w : BufWriter Piece) {readings : List UInt64}
    (enough : readings.length = rest.length + 3) :
    ∃ st, runFrom step (s, { stage := .writing (visited.getLast?.map Prod.fst), writer := w })
      readings = some st ∧ st.2.stage = .finished := by
  induction rest generalizing visited w readings with
  | nil =>
      obtain ⟨first, second, third, rfl⟩ := List.length_eq_three.mp enough
      simp only [runFrom, step, SortedMap.nextAbove_split split, List.head?_nil]
      exact ⟨_, rfl, rfl⟩
  | cons entry rest ih =>
      cases readings with
      | nil => cases enough
      | cons now readings =>
          simp only [List.length_cons] at enough
          have next : s.tree.toList = (visited ++ [entry]) ++ rest := by simp [split]
          have fewer : readings.length = rest.length + 3 := by omega
          obtain ⟨st, ran, finished⟩ := ih next
            (if isExpired entry.2.expiresAt now then w else writeln w (ofEntry entry)) fewer
          refine ⟨st, ?_, finished⟩
          rw [List.getLast?_concat] at ran
          simp only [runFrom, step, SortedMap.nextAbove_split split, List.head?_cons]
          exact ran

theorem finishes (hasFile : s.snapshotFile.isSome = true) {readings : List UInt64}
    (enough : readings.length = s.tree.toList.length + 4) :
    ∃ st, runFrom step (s, .start) readings = some st ∧ st.2.stage = .finished := by
  cases readings with
  | nil => cases enough
  | cons now readings =>
      obtain ⟨old, file⟩ := Option.isSome_iff_exists.mp hasFile
      have split : s.tree.toList = [] ++ s.tree.toList := rfl
      have rest := finishes_writing split BufWriter.new (Nat.succ.inj enough)
      simp only [runFrom, step, Checkpoint.start, file]
      exact rest

end KindDb.Checkpoint
