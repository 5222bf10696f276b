import KindDb.Server.Checkpoint
import KindDb.WalBytes

/-! # The bytes of the snapshot file

The snapshot file as the file it is: a JSON text and a line feed for every
record, read again line by line.  `Legible` is what the reader relies on for a
text that `serde_json` wrote; a file of legible lines is read as the records
that went into it (`parse_lines`). -/
set_option autoImplicit false

namespace KindDb

open KindDb.Lib.Utf8Lines

/-- The function of `serde_json` on the lines of a snapshot. -/
class SnapshotJson where
  /-- `serde_json::from_str::<SnapshotRecord>` -/
  recordFromStr : String → Option SnapshotRecord

namespace SnapshotBytes

variable [Serde] [SnapshotJson]

omit [Serde] in
def parseLine : Option String → SnapshotLine
  | none => .skipped
  | some line =>
      if WalBytes.isBlank line then .skipped
      else match SnapshotJson.recordFromStr line with
        | some r => .record r
        | none => .skipped

omit [Serde] in
def parse (file : Bytes) : List SnapshotLine := (lines file).map parseLine

omit [SnapshotJson] in
def bytesOf : Piece → Bytes
  | .json r => utf8 (Serde.snapshotRecordToString r)
  | .newline => utf8 "\n"

omit [SnapshotJson] in
def bytes (pieces : List Piece) : Bytes := pieces.flatMap bytesOf

omit [Serde] [SnapshotJson] in
/-- What one `writeln!` writes. -/
def pieces (r : SnapshotRecord) : List Piece := [.json r, .newline]

/-- The JSON text of a record: an object on one line, read back as what it was. -/
structure Legible (r : SnapshotRecord) : Prop where
  oneLine : '\n' ∉ (Serde.snapshotRecordToString r).toList
  compact : ∃ inner, (Serde.snapshotRecordToString r).toList = '\x7b' :: inner ++ ['\x7d']
  roundTrip : SnapshotJson.recordFromStr (Serde.snapshotRecordToString r) = some r

section Lines
variable {r : SnapshotRecord}

theorem Legible.parseLine_text (legible : Legible r) :
    parseLine (some (Serde.snapshotRecordToString r)) = .record r := by
  obtain ⟨inner, whole⟩ := legible.compact
  simp only [parseLine, WalBytes.not_blank whole, legible.roundTrip]
  rfl

/-- A text of an object takes room in the buffer. -/
theorem Legible.sizeOf_pos (legible : Legible r) : 0 < Checkpoint.sizeOf (.json r) := by
  obtain ⟨inner, whole⟩ := legible.compact
  rw [Checkpoint.sizeOf]
  by_contra zero
  have empty : Serde.snapshotRecordToString r = "" :=
    String.utf8ByteSize_eq_zero_iff.mp (Nat.eq_zero_of_not_pos zero)
  rw [empty] at whole
  cases whole

omit [SnapshotJson] in
theorem bytes_pieces (rest : List Piece) : bytes (pieces r ++ rest) =
    utf8 (Serde.snapshotRecordToString r ++ "\n") ++ bytes rest := by
  rw [utf8_append, bytes, List.flatMap_append]
  rfl

theorem parse_lines {done : List SnapshotRecord} (legible : ∀ r ∈ done, Legible r) :
    parse (bytes (done.flatMap pieces)) = done.map .record := by
  induction done with
  | nil => rfl
  | cons first rest ih =>
      have here := legible first List.mem_cons_self
      obtain ⟨inner, whole⟩ := here.compact
      have noReturn : (Serde.snapshotRecordToString first).toList.getLast? ≠ some '\r' := by
        rw [whole, List.getLast?_concat]
        decide
      have later := ih fun r member => legible r (List.mem_cons_of_mem _ member)
      rw [parse] at later
      rw [List.flatMap_cons, bytes_pieces, parse, lines_line here.oneLine noReturn, List.map_cons,
        here.parseLine_text, later, List.map_cons]

omit [Serde] [SnapshotJson] in
theorem records_pieces (done : List SnapshotRecord) :
    Checkpoint.records (done.flatMap pieces) = done := by
  induction done with
  | nil => rfl
  | cons first rest ih =>
      rw [List.flatMap_cons, Checkpoint.records_append, ih]
      rfl

end Lines

end SnapshotBytes

end KindDb
