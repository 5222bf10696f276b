import KindDb.Lib.Utf8Lines
import KindDb.Wal

/-! # The bytes of the log

The log as the file it is.  `parse` makes of the bytes the lines that the
readers of `Wal` go through; `append` writes an envelope and a line feed behind
whatever is there.  What the readers rely on for the text of an envelope that
`serde_json` wrote is `Faithful`. -/
set_option autoImplicit false

namespace KindDb

open KindDb.Lib.Utf8Lines

/-- The functions of `serde_json` on the lines of the log. -/
class WalJson where
  /-- `serde_json::to_string` on an envelope -/
  envelopeToString : WalEnvelope → String
  /-- `serde_json::from_str::<WalEnvelope>` -/
  envelopeFromStr : String → Option WalEnvelope
  /-- `serde_json::from_str::<WalCommand>` -/
  commandFromStr : String → Option WalCommand

namespace WalBytes

/-- `char::is_whitespace` -/
def isWhitespace (c : Char) : Bool :=
  let v := c.toNat
  (9 ≤ v && v ≤ 13) || v == 0x20 || v == 0x85 || v == 0xA0 || v == 0x1680 ||
    (0x2000 ≤ v && v ≤ 0x200A) || v == 0x2028 || v == 0x2029 || v == 0x202F || v == 0x205F ||
    v == 0x3000

/-- `line.trim().is_empty()` -/
def isBlank (line : String) : Bool := line.toList.all isWhitespace

variable [Serde] [WalJson]

def parseLine : Option String → WalLine
  | none => .notUtf8
  | some line =>
      if isBlank line then .blank
      else match WalJson.envelopeFromStr line with
        | some envelope => .envelope envelope
        | none => match WalJson.commandFromStr line with
          | some cmd => .oldFormat cmd
          | none => .unparsed

def parse (file : Bytes) : WalFile := (lines file).map parseLine

def readAllCommands (file : Bytes) : Option (List (Nat × WalCommand)) :=
  Wal.readAllCommands (parse file)

/-- The loop of `read_from_tx_id` over the lines. -/
def linesFrom (startTxId : Nat) : List (Option String) → Option (List (Nat × String))
  | [] => some []
  | none :: _ => none
  | some line :: rest =>
      if isBlank line then linesFrom startTxId rest
      else match WalJson.envelopeFromStr line with
        | some envelope =>
            if startTxId ≤ envelope.txId then
              if Wal.crcOf envelope.c = envelope.k then
                (linesFrom startTxId rest).map ((envelope.txId, line) :: ·)
              else linesFrom startTxId rest
            else linesFrom startTxId rest
        | none => linesFrom startTxId rest

def readFromTxId (startTxId : Nat) (file : Bytes) : Option (List (Nat × String)) :=
  linesFrom startTxId (lines file)

/-- What a replica makes of a record: the id of the message, the command of the payload. -/
def received (txId : Nat) (payload : Bytes) : Option (Nat × WalCommand) :=
  (decode payload).bind fun jsonStr =>
    (WalJson.envelopeFromStr jsonStr).map fun envelope => (txId, envelope.c)

def envelopeOf (logged : Nat × WalCommand) : WalEnvelope :=
  { c := logged.2, k := Wal.crcOf logged.2, txId := logged.1 }

def text (logged : Nat × WalCommand) : String := WalJson.envelopeToString (envelopeOf logged)

def append (file : Bytes) (logged : Nat × WalCommand) : Bytes :=
  file ++ utf8 (text logged ++ "\n")

def appendAll (file : Bytes) (pairs : List (Nat × WalCommand)) : Bytes := pairs.foldl append file

/-- The JSON text of an envelope: an object on one line, read back as what it was. -/
structure Legible (logged : Nat × WalCommand) : Prop where
  oneLine : '\n' ∉ (text logged).toList
  noReturn : (text logged).toList.getLast? ≠ some '\r'
  opens : ∃ rest, (text logged).toList = '\x7b' :: rest
  roundTrip : WalJson.envelopeFromStr (text logged) = some (envelopeOf logged)

/-- The JSON text of an envelope: compact, on one line, read back as what it
was, and not readable before its last character is there. -/
structure Faithful (logged : Nat × WalCommand) : Prop where
  oneLine : '\n' ∉ (text logged).toList
  compact : ∃ inner, (text logged).toList = '\x7b' :: inner ++ ['\x7d']
  roundTrip : WalJson.envelopeFromStr (text logged) = some (envelopeOf logged)
  torn : ∀ torn : String, torn.toList <+: (text logged).toList → torn ≠ text logged →
    WalJson.envelopeFromStr torn = none ∧ WalJson.commandFromStr torn = none

/-! ## Lines that are read -/

omit [Serde] [WalJson] in
/-- A line that starts like an object is not blank. -/
theorem not_blank {line : String} {rest : List Char} (opens : line.toList = '\x7b' :: rest) :
    isBlank line = false := by
  rw [isBlank, opens]
  rfl

omit [WalJson] in
theorem readAllCommands_envelope (e : WalEnvelope) (intact : Wal.crcOf e.c = e.k)
    (rest : WalFile) : Wal.readAllCommands (.envelope e :: rest) =
      (Wal.readAllCommands rest).map ((e.txId, e.c) :: ·) := by
  rw [Wal.readAllCommands, if_pos intact]

/-- A line that nothing can be made of is skipped. -/
theorem read_unparsed {line : String} (noEnvelope : WalJson.envelopeFromStr line = none)
    (noCommand : WalJson.commandFromStr line = none) (rest : WalFile) :
    Wal.readAllCommands (parseLine (some line) :: rest) = Wal.readAllCommands rest := by
  simp only [parseLine, noEnvelope, noCommand]
  cases isBlank line <;> rfl

namespace Legible
variable {logged : Nat × WalCommand}

theorem parseLine_text (legible : Legible logged) :
    parseLine (some (text logged)) = .envelope (envelopeOf logged) := by
  obtain ⟨rest, starts⟩ := legible.opens
  simp only [parseLine, not_blank starts, legible.roundTrip]
  rfl

/-- A line of its own is read back as what was appended. -/
theorem parse_line (legible : Legible logged) (rest : Bytes) :
    parse (utf8 (text logged ++ "\n") ++ rest) = .envelope (envelopeOf logged) :: parse rest := by
  rw [parse, lines_line legible.oneLine legible.noReturn, List.map_cons, legible.parseLine_text]
  rfl

theorem read_line (legible : Legible logged) (rest : Bytes) :
    readAllCommands (utf8 (text logged ++ "\n") ++ rest) =
      (readAllCommands rest).map (logged :: ·) := by
  rw [readAllCommands, legible.parse_line, readAllCommands_envelope _ rfl]
  rfl

end Legible

namespace Faithful
variable {logged : Nat × WalCommand}

theorem legible (faithful : Faithful logged) : Legible logged := by
  obtain ⟨inner, whole⟩ := faithful.compact
  refine ⟨faithful.oneLine, ?_, ⟨_, whole⟩, faithful.roundTrip⟩
  rw [whole, List.getLast?_concat]
  decide

/-- What the beginning of a line without its line feed is read as. -/
theorem read_torn (faithful : Faithful logged) {torn : Bytes} (begins : torn <+: utf8 (text logged)) :
    readAllCommands torn =
      if (decode torn).isSome then some (if torn = utf8 (text logged) then [logged] else [])
      else none := by
  have whole : 10 ∉ torn := fun member =>
    faithful.oneLine (lineFeed_mem_utf8.mp (begins.subset member))
  by_cases nothing : torn = []
  · subst nothing
    have notWhole : [] ≠ utf8 (text logged) := by
      obtain ⟨inner, whole⟩ := faithful.compact
      intro same
      have decoded := decode_utf8 (text logged)
      rw [← same, show ([] : Bytes) = utf8 "" from rfl, decode_utf8, Option.some.injEq] at decoded
      rw [← decoded] at whole
      cases whole
    rw [if_neg notWhole]
    rfl
  · rw [readAllCommands, parse, lines_rest whole nothing, List.map_singleton]
    cases decoded : decode torn with
    | none => rfl
    | some line =>
        have same := decode_eq_some_iff.mp decoded
        by_cases complete : line = text logged
        · subst complete
          rw [faithful.legible.parseLine_text, readAllCommands_envelope _ rfl, ← same]
          simp [Wal.readAllCommands, envelopeOf]
        · have other : torn ≠ utf8 (text logged) := by
            intro equal
            rw [equal, decode_utf8, Option.some.injEq] at decoded
            exact complete decoded.symm
          obtain ⟨noEnvelope, noCommand⟩ := faithful.torn line
            (isPrefix_of_decode begins decoded) complete
          rw [if_neg other, read_unparsed noEnvelope noCommand]
          rfl

end Faithful

/-! ## Whole files -/

theorem appendAll_eq (file : Bytes) (pairs : List (Nat × WalCommand)) :
    appendAll file pairs = file ++ appendAll [] pairs := by
  induction pairs generalizing file with
  | nil => rw [appendAll, appendAll, List.foldl_nil, List.foldl_nil, List.append_nil]
  | cons logged rest ih =>
      have step : ∀ file, appendAll file (logged :: rest) = appendAll (append file logged) rest :=
        fun _ => rfl
      rw [step, step, ih, ih (append [] logged), append, append, List.nil_append,
        List.append_assoc]

theorem appendAll_cons (logged : Nat × WalCommand) (rest : List (Nat × WalCommand)) :
    appendAll [] (logged :: rest) = utf8 (text logged ++ "\n") ++ appendAll [] rest :=
  appendAll_eq ([] ++ utf8 (text logged ++ "\n")) rest

/-- All that was appended to an empty file is read back, and what follows. -/
theorem read_appendAll {pairs : List (Nat × WalCommand)} (legible : ∀ p ∈ pairs, Legible p)
    (rest : Bytes) : readAllCommands (appendAll [] pairs ++ rest) =
      (readAllCommands rest).map (pairs ++ ·) := by
  induction pairs with
  | nil => simp [appendAll]
  | cons logged later ih =>
      rw [appendAll_cons, List.append_assoc, (legible logged List.mem_cons_self).read_line,
        ih fun p member => legible p (List.mem_cons_of_mem _ member), Option.map_map]
      rfl

theorem read_log {pairs : List (Nat × WalCommand)} (legible : ∀ p ∈ pairs, Legible p) :
    readAllCommands (appendAll [] pairs) = some pairs := by
  have read := read_appendAll legible []
  rwa [List.append_nil, show readAllCommands [] = some [] from rfl, Option.map_some,
    List.append_nil] at read

/-- A record appended where no line is open is one more line. -/
theorem parse_append {file : Bytes} (ends : file = [] ∨ file.getLast? = some 10)
    {logged : Nat × WalCommand} (legible : Legible logged) :
    parse (append file logged) = Wal.append (parse file) logged.1 logged.2 := by
  have line := legible.parse_line []
  rw [List.append_nil] at line
  rw [append, parse, lines_append ends, List.map_append]
  exact congrArg (parse file ++ ·) line

/-- Every append ends its line. -/
theorem append_ends (file : Bytes) (logged : Nat × WalCommand) :
    (append file logged).getLast? = some 10 := by
  rw [append, utf8_append, ← List.append_assoc]
  exact List.getLast?_concat

/-- The bytes of a log that was only appended to are the lines that the log is
modelled by elsewhere. -/
theorem parse_appendAll {pairs : List (Nat × WalCommand)} (legible : ∀ p ∈ pairs, Legible p) :
    parse (appendAll [] pairs) = Wal.written pairs := by
  have ends : ∀ pairs, appendAll [] pairs = [] ∨ (appendAll [] pairs).getLast? = some 10 := by
    intro pairs
    rcases List.eq_nil_or_concat' pairs with rfl | ⟨before, last, rfl⟩
    · exact Or.inl rfl
    · rw [appendAll, List.foldl_concat]
      exact Or.inr (append_ends _ last)
  induction pairs using List.reverseRecOn with
  | nil => rfl
  | append_singleton pairs logged ih =>
      have before := ih fun p member => legible p (List.mem_append_left _ member)
      have line : Legible logged := legible logged (List.mem_append_right _ List.mem_cons_self)
      rw [← Wal.append_written, ← before, ← parse_append (ends pairs) line, appendAll, appendAll,
        List.foldl_concat]

/-- Where a log can end: behind some whole lines, or in the next one. -/
theorem take_appendAll (pairs : List (Nat × WalCommand)) (n : Nat) :
    ∃ done torn, (appendAll [] pairs).take n = appendAll [] done ++ torn ∧ done <+: pairs ∧
      (torn = [] ∨ ∃ logged ∈ pairs, torn <+: utf8 (text logged)) := by
  induction pairs generalizing n with
  | nil => exact ⟨[], [], List.take_nil, List.nil_prefix, Or.inl rfl⟩
  | cons logged rest ih =>
      rw [appendAll_cons]
      have length : (utf8 (text logged ++ "\n")).length = (utf8 (text logged)).length + 1 := by
        rw [utf8_append, List.length_append]
        rfl
      by_cases through : (utf8 (text logged)).length + 1 ≤ n
      · obtain ⟨more, rfl⟩ := Nat.exists_eq_add_of_le through
        obtain ⟨done, torn, split, begins, tornOf⟩ := ih more
        refine ⟨logged :: done, torn, ?_, (List.prefix_cons_inj logged).mpr begins,
          tornOf.imp_right fun ⟨p, member, begins⟩ => ⟨p, List.mem_cons_of_mem _ member, begins⟩⟩
        rw [← length, List.take_length_add_append, split, appendAll_cons, List.append_assoc]
      · refine ⟨[], (utf8 (text logged)).take n, ?_, List.nil_prefix,
          Or.inr ⟨logged, List.mem_cons_self, List.take_prefix ..⟩⟩
        rw [utf8_append, List.append_assoc, List.take_append_of_le_length (by omega)]
        rfl

/-- A log that was only appended to is a text. -/
theorem appendAll_utf8 (pairs : List (Nat × WalCommand)) :
    ∃ whole : String, appendAll [] pairs = utf8 whole := by
  induction pairs with
  | nil => exact ⟨"", rfl⟩
  | cons logged rest ih =>
      obtain ⟨whole, same⟩ := ih
      exact ⟨text logged ++ "\n" ++ whole, by rw [appendAll_cons, same, ← utf8_append]⟩

end WalBytes

end KindDb
