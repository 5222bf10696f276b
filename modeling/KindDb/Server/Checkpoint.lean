import KindDb.Lib.BufWriter
import KindDb.Server.Effects

/-! # A checkpoint step by step

`save_snapshot_and_truncate_wal` as a machine whose steps are one turn of its
loop, the rename, the truncation and the drop of the writer, all under the WAL
mutex.  The loop moves a cursor over the tree as it is at that moment.  The
temporary file becomes the snapshot file by the rename, so what the writer
still buffers reaches the snapshot file later.  All I/O succeeds. -/
set_option autoImplicit false

namespace KindDb

open KindDb.Lib KindDb.Lib.Overlay KindDb.Lib.Runs KindDb.Cache

/-- What one `write_all` of a `writeln!` writes. -/
inductive Piece
  | json (r : SnapshotRecord)
  | newline
deriving Repr

inductive CheckpointStage
  | begin
  | writing (cursor : Option String)
  | renamed
  | truncated
  | finished
deriving Repr, DecidableEq

structure Checkpoint where
  stage : CheckpointStage
  writer : BufWriter Piece
deriving Repr

namespace Checkpoint

def start : Checkpoint := { stage := .begin, writer := .new }

variable [Serde]

def sizeOf : Piece → Nat
  | .json r => (Serde.snapshotRecordToString r).utf8ByteSize
  | .newline => 1

def defaultBufSize : Nat := 8 * 1024

def writeln (w : BufWriter Piece) (r : SnapshotRecord) : BufWriter Piece :=
  (w.writeAll sizeOf defaultBufSize (.json r)).writeAll sizeOf defaultBufSize .newline

omit [Serde] in
/-- The records in a list of pieces; the last may lack its newline. -/
def records (pieces : List Piece) : List SnapshotRecord :=
  pieces.filterMap fun p => match p with
    | .json r => some r
    | .newline => none

omit [Serde] in
/-- What `new` reads in a file of these pieces. -/
def lines (pieces : List Piece) : List SnapshotLine := (records pieces).map .record

/-- One step, on the server whose tree and files it works on. -/
def step (st : KindServerImpl × Checkpoint) (now : UInt64) : Option (KindServerImpl × Checkpoint) :=
  let (s, c) := st
  match c.stage with
  | .begin =>
      match s.snapshotFile with
      | some _ => some (s, { stage := .writing none, writer := .new })
      | none => some (s, { c with stage := .finished })
  | .writing cursor =>
      match SortedMap.nextAbove s.tree cursor with
      | some (key, record) =>
          let writer := if isExpired record.expiresAt now then c.writer
            else writeln c.writer { key, record }
          some (s, { stage := .writing (some key), writer })
      | none =>
          some ({ s with snapshotFile := some (lines c.writer.file) }, { c with stage := .renamed })
  | .renamed => some ({ s with wal := s.wal.map Wal.truncate }, { c with stage := .truncated })
  | .truncated =>
      let writer := c.writer.flushBuf
      some ({ s with snapshotFile := some (lines writer.file) }, { stage := .finished, writer })
  | .finished => none

theorem finished_of_step {st : KindServerImpl × Checkpoint} {now : UInt64}
    (stops : step st now = none) : st.2.stage = .finished := by
  obtain ⟨s, stage, w⟩ := st
  cases stage with
  | finished => rfl
  | begin | writing =>
      simp only [step] at stops
      split at stops <;> cases stops
  | renamed | truncated => cases stops

/-! ## What the files are good for -/

/-- No deadline in the tree or in the files. -/
structure TtlFree (s : KindServerImpl) : Prop where
  tree : ∀ (key : String) r, s.tree[key]? = some r → r.expiresAt = none
  disk : ∀ u ∈ s.onDisk, ∀ held, u.2 = some held → held.2 = none

/-- The files recover to the tree. -/
def Recovers (s : KindServerImpl) (t : UInt64) (contents : String → Option Content) : Prop :=
  ∀ key, (s.restart t).contents key = contents key

/-! ## What a checkpoint writes -/

omit [Serde] in
theorem records_append (first second : List Piece) :
    records (first ++ second) = records first ++ records second :=
  List.filterMap_append

theorem records_writeln (w : BufWriter Piece) (r : SnapshotRecord) :
    (records (writeln w r).contents).Perm (records w.contents ++ [r]) := by
  have second := (@BufWriter.contents_writeAll _ sizeOf defaultBufSize
    (w.writeAll sizeOf defaultBufSize (.json r)) .newline).filterMap fun p => match p with
      | .json r => some r
      | .newline => none
  have first := (@BufWriter.contents_writeAll _ sizeOf defaultBufSize
    w (.json r)).filterMap fun p => match p with
      | .json r => some r
      | .newline => none
  refine second.trans ?_
  rw [List.filterMap_append]
  simp only [List.filterMap_cons, List.filterMap_nil, List.append_nil]
  refine first.trans ?_
  rw [List.filterMap_append]
  exact List.Perm.refl _

omit [Serde] in
theorem updates_lines (pieces : List Piece) :
    (lines pieces).flatMap SnapshotLine.updates =
      (records pieces).map fun r => (r.key, some r.record.content) := by
  rw [lines, List.flatMap_map]
  exact List.map_eq_flatMap.symm

end Checkpoint

end KindDb
