import KindDb.Serde

/-! # The write-ahead log

A WAL file is the list of its lines, each given as what the readers make of
it: an error of `lines()`, a blank line, an envelope, a command of the old
format, or neither.  The readers do not mind whether the last line is ended;
`append` does, so a log that goes on growing here is one whose last line is
ended, as it is after every append (`written`).  The bytes, also of a log that a
crash cut off, are in `WalBytes`. -/
set_option autoImplicit false

namespace KindDb

inductive WalLine
  | notUtf8
  | blank
  | envelope (envelope : WalEnvelope)
  | oldFormat (cmd : WalCommand)
  | unparsed
deriving Repr

abbrev WalFile := List WalLine

namespace Wal

variable [Serde]

def crcOf (command : WalCommand) : UInt32 := Serde.crc32 (Serde.commandToString command)

/-- The record is a line of its own if the file is empty or ends with a line
feed (`WalBytes.parse_append`); behind a torn line it is lost with the line
(`ReopenedLog`). -/
def append (file : WalFile) (txId : Nat) (command : WalCommand) : WalFile :=
  file ++ [.envelope { c := command, k := crcOf command, txId }]

/-- What the appends of these records make of an empty file. -/
def written (pairs : List (Nat × WalCommand)) : WalFile :=
  pairs.foldl (fun file logged => append file logged.1 logged.2) []

def truncate (_ : WalFile) : WalFile := []

/-- `none` is the `Err` of a line that is not UTF-8. -/
def readAllCommands : WalFile → Option (List (Nat × WalCommand))
  | [] => some []
  | .notUtf8 :: _ => none
  | .blank :: rest => readAllCommands rest
  | .envelope e :: rest =>
      if crcOf e.c = e.k then (readAllCommands rest).map ((e.txId, e.c) :: ·)
      else readAllCommands rest
  | .oldFormat cmd :: rest => (readAllCommands rest).map ((0, cmd) :: ·)
  | .unparsed :: rest => readAllCommands rest

def readFromTxId (startTxId : Nat) : WalFile → Option (List (Nat × WalEnvelope))
  | [] => some []
  | .notUtf8 :: _ => none
  | .envelope e :: rest =>
      if startTxId ≤ e.txId ∧ crcOf e.c = e.k then
        (readFromTxId startTxId rest).map ((e.txId, e) :: ·)
      else readFromTxId startTxId rest
  | .blank :: rest => readFromTxId startTxId rest
  | .oldFormat _ :: rest => readFromTxId startTxId rest
  | .unparsed :: rest => readFromTxId startTxId rest

@[simp] theorem readAllCommands_nil : readAllCommands [] = some [] := rfl

/-- Two pieces of a log are read one after the other. -/
theorem readAllCommands_pieces (first second : WalFile) :
    readAllCommands (first ++ second) = (readAllCommands first).bind fun commands =>
      (readAllCommands second).map (commands ++ ·) := by
  induction first with
  | nil => simp [readAllCommands]
  | cons line rest ih =>
      cases line with
      | notUtf8 => rfl
      | envelope e =>
          simp only [List.cons_append, readAllCommands, ih]
          by_cases intact : crcOf e.c = e.k
          · cases readAllCommands rest <;> cases readAllCommands second <;> simp [intact]
          · simp [intact]
      | oldFormat cmd =>
          simp only [List.cons_append, readAllCommands, ih]
          cases readAllCommands rest <;> cases readAllCommands second <;> simp
      | blank => simpa only [List.cons_append, readAllCommands] using ih
      | unparsed => simpa only [List.cons_append, readAllCommands] using ih

/-- An appended command is read back last, after all that was readable before. -/
theorem readAllCommands_append (file : WalFile) (txId : Nat) (command : WalCommand) :
    readAllCommands (append file txId command) =
      (readAllCommands file).map (· ++ [(txId, command)]) := by
  have last : readAllCommands [.envelope { c := command, k := crcOf command, txId }] =
      some [(txId, command)] := by
    rw [readAllCommands, if_pos rfl]
    rfl
  rw [append, readAllCommands_pieces, last]
  cases readAllCommands file <;> rfl

theorem append_written (pairs : List (Nat × WalCommand)) (txId : Nat) (command : WalCommand) :
    append (written pairs) txId command = written (pairs ++ [(txId, command)]) := by
  rw [written, written, List.foldl_concat]

theorem readAllCommands_written (pairs : List (Nat × WalCommand)) :
    readAllCommands (written pairs) = some pairs := by
  induction pairs using List.reverseRecOn with
  | nil => rfl
  | append_singleton pairs logged ih =>
      rw [← append_written, readAllCommands_append, ih]
      rfl

theorem readFromTxId_append (startTxId : Nat) (file : WalFile) (txId : Nat) (command : WalCommand) :
    readFromTxId startTxId (append file txId command) = (readFromTxId startTxId file).map
      (· ++ if startTxId ≤ txId then [(txId, { c := command, k := crcOf command, txId })] else []) := by
  unfold append
  induction file with
  | nil => by_cases included : startTxId ≤ txId <;> simp [readFromTxId, included]
  | cons line rest ih =>
      cases line with
      | notUtf8 => rfl
      | envelope e =>
          simp only [List.cons_append, readFromTxId, ih]
          by_cases sent : startTxId ≤ e.txId ∧ crcOf e.c = e.k
          · cases readFromTxId startTxId rest <;> simp [sent]
          · simp [sent]
      | oldFormat cmd => simpa only [List.cons_append, readFromTxId] using ih
      | blank => simpa only [List.cons_append, readFromTxId] using ih
      | unparsed => simpa only [List.cons_append, readFromTxId] using ih

/-- Both readers take the same lines; the old format has no id to start from. -/
theorem readFromTxId_eq {startTxId : Nat} (positive : 0 < startTxId) (file : WalFile) :
    readFromTxId startTxId file = (readAllCommands file).map fun commands =>
      (commands.filter (startTxId ≤ ·.1)).map fun logged =>
        (logged.1, { c := logged.2, k := crcOf logged.2, txId := logged.1 }) := by
  induction file with
  | nil => rfl
  | cons line rest ih =>
      cases line with
      | notUtf8 => rfl
      | envelope e =>
          obtain ⟨c, k, txId⟩ := e
          simp only [readFromTxId, readAllCommands, ih]
          by_cases intact : crcOf c = k
          · subst intact
            by_cases sent : startTxId ≤ txId <;> cases readAllCommands rest <;> simp [sent]
          · simp [intact]
      | oldFormat cmd =>
          simp only [readFromTxId, readAllCommands, ih]
          cases readAllCommands rest <;> simp [Nat.not_le.mpr positive]
      | blank => simpa only [readFromTxId, readAllCommands] using ih
      | unparsed => simpa only [readFromTxId, readAllCommands] using ih

end Wal

end KindDb
