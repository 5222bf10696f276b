import KindDb.Properties.TornTail

/-! # A record that was altered in the file

The checksum of a record covers its command and not its transaction id.  A line
that was altered and still parses, with the checksum that was stored, is
skipped if and only if the command was altered; with another id alone it is
accepted as that id's. -/
set_option autoImplicit false

namespace KindDb.CorruptRecord

open KindDb.Lib.Utf8Lines KindDb.WalBytes

section Altered
variable [Serde] [WalJson]

/-- What a line between two pieces of a log adds to what is read. -/
theorem read_between {before after altered : Bytes} {line : String}
    {commands₁ commands₂ : List (Nat × WalCommand)}
    (ends : before = [] ∨ before.getLast? = some 10)
    (readBefore : readAllCommands before = some commands₁)
    (readAfter : readAllCommands after = some commands₂)
    (seen : lines (altered ++ [10]) = [some line]) :
    readAllCommands (before ++ (altered ++ [10]) ++ after) =
      (Wal.readAllCommands [parseLine (some line)]).map fun added =>
        commands₁ ++ added ++ commands₂ := by
  have endsLine : altered ++ [10] = [] ∨ (altered ++ [10]).getLast? = some 10 := by
    rw [List.getLast?_concat]
    exact Or.inr rfl
  rw [readAllCommands, parse, List.append_assoc, lines_append ends, lines_append endsLine, seen,
    List.map_append, List.map_append, Wal.readAllCommands_pieces, Wal.readAllCommands_pieces]
  change ((readAllCommands before).bind fun commands =>
    (((Wal.readAllCommands [parseLine (some line)]).bind fun added =>
      (readAllCommands after).map (added ++ ·)).map (commands ++ ·))) = _
  rw [readBefore, readAfter]
  cases Wal.readAllCommands [parseLine (some line)] <;> simp

/-- An altered line of a record that still parses with the stored checksum. -/
structure Alteration (logged : Nat × WalCommand) (altered : Bytes) (e : WalEnvelope) : Prop where
  /-- the text is one line, and it parses -/
  parses : ∃ line, lines (altered ++ [10]) = [some line] ∧
    WalJson.envelopeFromStr line = some e
  /-- `serde_json` makes nothing of a blank text -/
  blank : ∀ line, isBlank line = true → WalJson.envelopeFromStr line = none
  sameChecksum : e.k = Wal.crcOf logged.2
  different : (e.txId, e.c) ≠ logged

/-- The reader parses the line, which is not blank. -/
theorem Alteration.read {logged : Nat × WalCommand} {altered : Bytes} {e : WalEnvelope}
    (alteration : Alteration logged altered e) :
    ∃ line, lines (altered ++ [10]) = [some line] ∧ parseLine (some line) = .envelope e := by
  obtain ⟨line, seen, parsed⟩ := alteration.parses
  have visible : isBlank line = false := by
    cases blank : isBlank line with
    | false => rfl
    | true =>
        rw [alteration.blank line blank] at parsed
        cases parsed
  exact ⟨line, seen, by simp [parseLine, visible, parsed]⟩

/-- Two payloads with one checksum are the same payload, and a payload is read
back as the command it was written from. -/
structure NoCollision (c c' : WalCommand) : Prop where
  crc : Serde.crc32 (Serde.commandToString c) = Serde.crc32 (Serde.commandToString c') →
    Serde.commandToString c = Serde.commandToString c'
  roundTrip : WalJson.commandFromStr (Serde.commandToString c) = some c
  roundTrip' : WalJson.commandFromStr (Serde.commandToString c') = some c'

theorem NoCollision.crcOf_eq {c c' : WalCommand} (none : NoCollision c c') :
    Wal.crcOf c = Wal.crcOf c' ↔ c = c' := by
  constructor
  · intro same
    have text := none.crc same
    have back := none.roundTrip
    rw [text, none.roundTrip'] at back
    exact (Option.some.inj back).symm
  · rintro rfl
    rfl

/-- The log is read as if the altered line were not there exactly if the command
was altered. -/
theorem altered_skipped_iff {logged : Nat × WalCommand} {before after altered : Bytes}
    {e : WalEnvelope} (ends : before = [] ∨ before.getLast? = some 10)
    (readableBefore : (readAllCommands before).isSome = true)
    (readableAfter : (readAllCommands after).isSome = true)
    (alteration : Alteration logged altered e) (noCollision : NoCollision e.c logged.2) :
    readAllCommands (before ++ (altered ++ [10]) ++ after) = readAllCommands (before ++ after) ↔
      e.c ≠ logged.2 := by
  obtain ⟨commands₁, readBefore⟩ := Option.isSome_iff_exists.mp readableBefore
  obtain ⟨commands₂, readAfter⟩ := Option.isSome_iff_exists.mp readableAfter
  obtain ⟨line, seen, read⟩ := alteration.read
  have without : readAllCommands (before ++ after) = some (commands₁ ++ commands₂) := by
    rw [readAllCommands, parse, lines_append ends, List.map_append, Wal.readAllCommands_pieces]
    change ((readAllCommands before).bind fun commands =>
      (readAllCommands after).map (commands ++ ·)) = _
    rw [readBefore, readAfter]
    rfl
  rw [read_between ends readBefore readAfter seen, without, read, Wal.readAllCommands,
    alteration.sameChecksum, ne_eq, ← noCollision.crcOf_eq]
  by_cases same : Wal.crcOf e.c = Wal.crcOf logged.2
  · rw [if_pos same]
    refine iff_of_false (fun equal => ?_) (not_not.mpr same)
    have lengths := congrArg List.length (Option.some.inj equal)
    simp at lengths
  · rw [if_neg same]
    exact iff_of_true (by simp) same

end Altered

/-! ## Another id, another key -/

open SerdeJson TornTail

def original : Nat × WalCommand := (1, .delete "a")

/-- The record with another transaction id. -/
def renumbered : WalEnvelope :=
  { c := .delete "a", k := Wal.crcOf (.delete "a"), txId := 2 }

/-- The record with another key. -/
def forged : WalEnvelope :=
  { c := .delete "b", k := Wal.crcOf (.delete "a"), txId := 1 }

/-- Reads the altered texts and the payloads. -/
local instance instWalJson : WalJson :=
  { jsonOf [forged, renumbered] with
    commandFromStr := fun line =>
      [WalCommand.delete "a", .delete "b"].find? fun c => commandToString c = line }

theorem text_renumbered : envelopeToString renumbered =
    "\x7b\"c\":\x7b\"Delete\":\x7b\"key\":\"a\"\x7d\x7d,\"k\":3303037480,\"tx_id\":2\x7d" := by
  decide +kernel

theorem text_forged : envelopeToString forged =
    "\x7b\"c\":\x7b\"Delete\":\x7b\"key\":\"b\"\x7d\x7d,\"k\":3303037480,\"tx_id\":1\x7d" := by
  decide +kernel

theorem reads_renumbered :
    WalJson.envelopeFromStr (envelopeToString renumbered) = some renumbered := by
  have differ : envelopeToString forged ≠ envelopeToString renumbered := by
    rw [text_forged, text_renumbered]
    decide
  refine (List.find?_cons_of_neg ?_).trans (List.find?_cons_of_pos (by simp))
  rw [decide_eq_true_eq]
  exact differ

theorem reads_forged : WalJson.envelopeFromStr (envelopeToString forged) = some forged :=
  List.find?_cons_of_pos (by simp)

theorem blank_unread (line : String) (blank : isBlank line = true) :
    WalJson.envelopeFromStr line = none := by
  refine List.find?_eq_none.mpr fun e known => ?_
  rw [decide_eq_true_eq]
  rintro rfl
  have visible : isBlank (envelopeToString e) = false := by
    simp only [List.mem_cons, List.not_mem_nil, or_false] at known
    rcases known with rfl | rfl
    · rw [text_forged]
      decide
    · rw [text_renumbered]
      decide
  rw [blank] at visible
  cases visible

theorem alteration_forged : Alteration original (utf8 (envelopeToString forged)) forged := by
  refine ⟨⟨envelopeToString forged, ?_, reads_forged⟩, blank_unread, rfl,
    by simp [forged, original]⟩
  have line : lines (utf8 (envelopeToString forged ++ "\n") ++ []) =
      some (envelopeToString forged) :: lines [] :=
    lines_line (by rw [text_forged]; decide) (by rw [text_forged]; decide) []
  rwa [utf8_append, List.append_nil] at line

theorem alteration_renumbered :
    Alteration original (utf8 (envelopeToString renumbered)) renumbered := by
  refine ⟨⟨envelopeToString renumbered, ?_, reads_renumbered⟩, blank_unread, rfl,
    by simp [renumbered, original]⟩
  have line : lines (utf8 (envelopeToString renumbered ++ "\n") ++ []) =
      some (envelopeToString renumbered) :: lines [] :=
    lines_line (by rw [text_renumbered]; decide) (by rw [text_renumbered]; decide) []
  rwa [utf8_append, List.append_nil] at line

theorem noCollision_forged : NoCollision forged.c original.2 := by
  refine ⟨fun same => ?_, ?_, ?_⟩
  · exact absurd same (by decide +kernel)
  · rfl
  · rfl

theorem forged_skipped :
    readAllCommands ([] ++ (utf8 (envelopeToString forged) ++ [10]) ++ []) =
        readAllCommands ([] ++ []) ↔ forged.c ≠ original.2 :=
  altered_skipped_iff (Or.inl rfl) rfl rfl alteration_forged noCollision_forged

theorem renumbered_accepted :
    ¬ ∀ [Serde] [WalJson] (logged : Nat × WalCommand) (altered : Bytes) (e : WalEnvelope),
      Alteration logged altered e → NoCollision e.c logged.2 →
        ∀ commands, readAllCommands (altered ++ [10]) = some commands →
          (e.txId, e.c) ∉ commands := by
  intro claim
  have noCollision : NoCollision renumbered.c original.2 := ⟨fun _ => rfl, rfl, rfl⟩
  obtain ⟨line, seen, read⟩ := alteration_renumbered.read
  have alone := @read_between _ _ [] [] _ _ [] [] (Or.inl rfl) rfl rfl seen
  have accepted : Wal.readAllCommands [.envelope renumbered] = some [(2, .delete "a")] := by
    rw [readAllCommands_envelope renumbered rfl]
    rfl
  rw [read, accepted, List.nil_append, List.append_nil] at alone
  exact claim original _ renumbered alteration_renumbered noCollision _ alone (by simp [renumbered])

end KindDb.CorruptRecord
