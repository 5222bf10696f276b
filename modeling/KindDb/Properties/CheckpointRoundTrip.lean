import KindDb.Properties.RecoveredIndex
import KindDb.SerdeJson
import KindDb.Server.CheckpointAlone
import KindDb.Server.Versions

/-! # A completed checkpoint, read again

A checkpoint skips what has expired when its turn comes, a recovery what has
expired when the file is read.  Later readings skip more, so what comes back
from a completed checkpoint is what is live then: the records as they were,
exact indexes, and the highest of the recovered versions. -/
set_option autoImplicit false

namespace KindDb.CheckpointRoundTrip

open KindDb.Lib KindDb.Lib.Overlay KindDb.Lib.Runs KindDb.Schema KindDb.SnapshotBytes
open KindDb.Recovery KindDb.Checkpoint

section RoundTrip
variable [Serde]

/-- The state `s'` is what is left of `s` at `t`. -/
structure Reloaded (s s' : KindServerImpl) (t : UInt64) : Prop where
  tree : ∀ key : String, s'.tree[key]? = (s.tree[key]?).filter fun r => !isExpired r.expiresAt t
  indexes : IndexExactness.IndexExact s'
  globalVersion : IsGreatest
    (insert 0 {version | ∃ (key : String) (r : DbRecord), s'.tree[key]? = some r ∧
      r.version = version}) s'.globalVersion

omit [Serde] in
/-- What a checkpoint leaves alone. -/
structure Untouched (s s' : KindServerImpl) : Prop where
  tree : s'.tree = s.tree
  indexes : s'.indexes = s.indexes
  cache : s'.cache = s.cache

/-! ## Loading the records of a checkpoint -/

variable {reg : SchemaRegistry} {t : UInt64}

/-- The records that are not skipped, as updates of the tree. -/
def loaded (t : UInt64) (done : List SnapshotRecord) : List (Update String DbRecord) :=
  (done.filter fun r => !isExpired r.record.expiresAt t).map fun r => (r.key, some r.record)

theorem tree_load (done : List SnapshotRecord) (st : Recovery) (key : String) :
    ((done.map .record).foldl (loadSnapshotLine reg t) st).tree[key]? =
      overlay (fun k => st.tree[k]?) (loaded t done) key := by
  induction done generalizing st with
  | nil => rfl
  | cons first rest ih =>
      rw [List.map_cons, List.foldl_cons, ih]
      cases expired : isExpired first.record.expiresAt t with
      | true => simp [loaded, loadSnapshotLine, expired]
      | false =>
          have kept : loaded t (first :: rest) =
              (first.key, some first.record) :: loaded t rest := by
            simp [loaded, expired]
          rw [kept, overlay_cons]
          apply overlay_congr
          simp only [loadSnapshotLine, expired, insertRecord, SortedMap.lookup_insert,
            Function.update_apply, Bool.false_eq_true, if_false, eq_comm (a := key)]

variable {s : KindServerImpl} {w : BufWriter Piece} {done : List SnapshotRecord}

theorem loaded_tree (written : Written t s.tree.toList w done) (key : String) :
    overlay (fun _ => none) (loaded t done) key =
      (s.tree[key]?).filter fun r => !isExpired r.expiresAt t := by
  have distinct : (touched (loaded t done)).Nodup := by
    rw [touched, loaded, List.map_map]
    exact written.distinct.sublist (List.filter_sublist.map _)
  cases held : (s.tree[key]?).filter fun r => !isExpired r.expiresAt t with
  | some r =>
      obtain ⟨inTree, live⟩ := Option.filter_eq_some_iff.mp held
      rw [Bool.not_eq_true'] at live
      apply overlay_of_mem distinct
      refine List.mem_map.mpr ⟨{ key, record := r }, List.mem_filter.mpr ⟨?_, by simp [live]⟩, rfl⟩
      exact written.live (key, r) (mem_entries.mpr inTree) live
  | none =>
      apply overlay_untouched
      intro named
      obtain ⟨update, member, same⟩ := List.mem_map.mp named
      obtain ⟨r, kept, rfl⟩ := List.mem_map.mp member
      obtain ⟨inDone, live⟩ := List.mem_filter.mp kept
      dsimp only at same
      rw [← same, written.in_tree inDone, Option.filter_some, if_pos live] at held
      cases held

theorem recover_truncated (snapshot : List SnapshotLine) (wal : Option WalFile) :
    recover reg t snapshot ((wal.map Wal.truncate).getD []) =
      snapshot.foldl (loadSnapshotLine reg t) empty := by
  cases wal <;> rfl

theorem tree_reloaded (written : Written t s.tree.toList w done) (key : String) :
    ((done.map .record).foldl (loadSnapshotLine reg t) empty).tree[key]? =
      (s.tree[key]?).filter fun r => !isExpired r.expiresAt t := by
  rw [tree_load, ← loaded_tree written key]
  apply overlay_congr
  simp [empty]

theorem loads_iff (written : Written t s.tree.toList w done) (r : SnapshotRecord) :
    Loads (done.map .record) t r ↔
      ((done.map .record).foldl (loadSnapshotLine reg t) empty).tree[r.key]? = some r.record := by
  rw [tree_reloaded written, Option.filter_eq_some_iff, Bool.not_eq_true', Loads]
  refine and_congr_left fun live => ?_
  rw [List.mem_map_of_injective fun _ _ => SnapshotLine.record.inj]
  exact ⟨written.in_tree,
    fun held => written.live (r.key, r.record) (mem_entries.mpr held) live⟩

/-- The counter is the highest version that was loaded. -/
theorem maxVer_reloaded (written : Written t s.tree.toList w done) :
    IsGreatest (insert 0 {version | ∃ (key : String) (r : DbRecord),
      ((done.map .record).foldl (loadSnapshotLine reg t) empty).tree[key]? = some r ∧
        r.version = version}) ((done.map .record).foldl (loadSnapshotLine reg t) empty).maxVer := by
  have counter := fun n => @le_maxVer_load _ reg t n (done.map .record) empty
  constructor
  · rcases (counter _).mp le_rfl with zero | ⟨r, loads, le⟩
    · exact Or.inl (Nat.le_zero.mp zero)
    · refine Or.inr ⟨r.key, r.record, (loads_iff written r).mp loads, Nat.le_antisymm ?_ le⟩
      exact (counter _).mpr (Or.inr ⟨r, loads, le_rfl⟩)
  · rintro version (rfl | ⟨key, record, held, rfl⟩)
    · exact Nat.zero_le _
    · exact (counter _).mpr (Or.inr ⟨{ key, record }, (loads_iff written _).mpr held, le_rfl⟩)

/-- One record for each key: no value is overwritten while the file is loaded. -/
theorem nothingClobbered (distinct : (done.map (·.key)).Nodup) (wal : Option WalFile) :
    RecoveredIndex.NothingClobbered reg (some (done.map .record)) (wal.map Wal.truncate) t := by
  intro key term
  apply IndexReplay.not_clobbers_of_distinct
  have emptied : walUpdates ((wal.map Wal.truncate).getD []) = [] := by
    cases wal <;> rfl
  have keys : touched (done.flatMap fun r => SnapshotLine.updates (.record r)) =
      done.map (·.key) := by
    rw [show (fun r => SnapshotLine.updates (.record r)) =
      fun r : SnapshotRecord => [(r.key, some r.record.content)] from rfl, ← List.map_eq_flatMap,
      touched, List.map_map]
    rfl
  rw [fileUpdates, Option.getD_some, emptied, List.append_nil, List.flatMap_map]
  rw [← keys] at distinct
  exact distinct.sublist (List.filter_sublist.map _)

/-- The files of a completed checkpoint: the written records and no log. -/
theorem reloaded (written : Written t s.tree.toList w done) (wal : Option WalFile)
    (reg : SchemaRegistry) (isReplica : Bool) :
    Reloaded s (KindServerImpl.new (some (done.map .record)) reg (wal.map Wal.truncate) isReplica t)
      t := by
  have recovered := @recover_truncated _ reg t (done.map .record) wal
  refine ⟨fun key => ?_, ?_, ?_⟩
  · simp only [KindServerImpl.new, Option.getD_some, recovered]
    exact tree_reloaded written key
  · rw [IndexExactness.indexExact_iff]
    apply (RecoveredIndex.exact_contents_iff _).mp
    exact (RecoveredIndex.exact_new_iff ..).mpr (nothingClobbered written.distinct wal)
  · simp only [KindServerImpl.new, Option.getD_some, recovered]
    exact maxVer_reloaded written

/-! ## The whole way -/

variable [SnapshotJson]

/-- A checkpoint that runs alone takes a step for each entry and four more.
Once it has returned the server is as before but for its files, the snapshot
file is what the bytes on disk are read as, and a recovery at any later time
finds what is live then. -/
theorem checkpoint_round_trip (s : KindServerImpl) (hasFile : s.snapshotFile.isSome = true)
    (legible : ∀ (key : String) record, s.tree[key]? = some record → Legible { key, record })
    (readings : List UInt64) (t : UInt64) (saved : ∀ now ∈ readings, now ≤ t)
    (reg : SchemaRegistry) (isReplica : Bool) :
    (readings.length = s.tree.toList.length + 4 →
      ∃ st, runFrom Checkpoint.step (s, .start) readings = some st ∧ st.2.stage = .finished) ∧
    ∀ st, runFrom Checkpoint.step (s, .start) readings = some st → st.2.stage = .finished →
      Untouched s st.1 ∧ st.1.snapshotFile = some (parse (bytes st.2.writer.file)) ∧
        Reloaded s (KindServerImpl.new st.1.snapshotFile reg st.1.wal isReplica t) t := by
  refine ⟨finishes hasFile, fun st ran finished => ?_⟩
  have progress := progress_run saved ran
  rw [Progress, finished] at progress
  rcases progress with ⟨none, _⟩ | ⟨same, flushed, done, written⟩
  · rw [none] at hasFile
    cases hasFile
  · have legibleDone : ∀ r ∈ done, Legible r := fun r member => legible r.key r.record
      (written.in_tree member)
    have file : st.2.writer.file = done.flatMap pieces := by
      rw [← written.inOrder fun r member => (legibleDone r member).sizeOf_pos, BufWriter.contents,
        flushed, List.append_nil]
    have read : Checkpoint.lines st.2.writer.file = done.map .record := by
      rw [Checkpoint.lines, file, records_pieces]
    rw [same]
    refine ⟨⟨rfl, rfl, rfl⟩, ?_, ?_⟩
    · rw [read, file, parse_lines legibleDone]
    · rw [read]
      exact reloaded written s.wal reg isReplica

end RoundTrip

/-! ## A record that lives on and one that does not -/

open SerdeJson

def lasting : SnapshotRecord :=
  { key := "a", record := { value := [1], expiresAt := none, version := 1 } }

def passing : SnapshotRecord :=
  { key := "b", record := { value := [2], expiresAt := some 5, version := 2 } }

local instance instSnapshotJson : SnapshotJson where
  recordFromStr := fun line => [lasting, passing].find? fun r =>
    decide (snapshotRecordToString r = line)

def twoRecords : KindServerImpl :=
  { KindServerImpl.fresh .new true true false with
    tree := ((∅ : Tree).insert lasting.key lasting.record).insert passing.key passing.record
    globalVersion := 2 }

theorem text_lasting : snapshotRecordToString lasting =
    "\x7b\"key\":\"a\",\"record\":\x7b\"value\":[1],\"expires_at\":null,\"version\":1\x7d\x7d" := by
  decide +kernel

theorem text_passing : snapshotRecordToString passing =
    "\x7b\"key\":\"b\",\"record\":\x7b\"value\":[2],\"expires_at\":5,\"version\":2\x7d\x7d" := by
  decide +kernel

theorem legible_twoRecords (key : String) (record : DbRecord)
    (held : twoRecords.tree[key]? = some record) : Legible { key, record } := by
  simp only [twoRecords, SortedMap.lookup_insert] at held
  split at held
  · rename_i same
    cases Option.some.inj held
    rw [← same, show ({ key := passing.key, record := passing.record } : SnapshotRecord) = passing
      from rfl]
    refine ⟨?_, ⟨((snapshotRecordToString passing).toList.drop 1).dropLast, ?_⟩, ?_⟩
    · rw [show Serde.snapshotRecordToString passing = _ from text_passing]
      decide
    · rw [show Serde.snapshotRecordToString passing = _ from text_passing, text_passing]
      rfl
    · refine (List.find?_cons_of_neg ?_).trans (List.find?_cons_of_pos (by
        simp [Serde.snapshotRecordToString]))
      rw [show Serde.snapshotRecordToString passing = _ from text_passing, text_lasting]
      decide
  · split at held
    · rename_i same
      cases Option.some.inj held
      rw [← same, show ({ key := lasting.key, record := lasting.record } : SnapshotRecord) = lasting
        from rfl]
      refine ⟨?_, ⟨((snapshotRecordToString lasting).toList.drop 1).dropLast, ?_⟩, ?_⟩
      · rw [show Serde.snapshotRecordToString lasting = _ from text_lasting]
        decide
      · rw [show Serde.snapshotRecordToString lasting = _ from text_lasting, text_lasting]
        rfl
      · exact List.find?_cons_of_pos (by simp [Serde.snapshotRecordToString])
    · simp at held

/-- The deadline 5 is still to come when the records are written, at 3, and
past when they are read, at 10. -/
theorem checkpoint_round_trip_two : ∃ st,
    runFrom Checkpoint.step (twoRecords, .start) (List.replicate 6 3) = some st ∧
      Untouched twoRecords st.1 ∧
      Reloaded twoRecords (KindServerImpl.new st.1.snapshotFile .new st.1.wal false 10) 10 := by
  obtain ⟨completes, returned⟩ := checkpoint_round_trip twoRecords rfl legible_twoRecords
    (List.replicate 6 3) 10 (by simp) .new false
  obtain ⟨st, ran, finished⟩ := completes (by decide)
  obtain ⟨untouched, _, reloaded⟩ := returned st ran finished
  exact ⟨st, ran, untouched, reloaded⟩

end KindDb.CheckpointRoundTrip
