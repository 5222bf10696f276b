import KindDb.Properties.ReopenedLog

/-! # The writer of the log and its two readers

What was appended to an empty log is what recovery reads back.  The reader that
serves replicas fails for the same files as that of recovery, whatever they
hold, and what it sends is, when the replica has decoded it, what recovery
reads from the given id on. -/
set_option autoImplicit false

namespace KindDb.LogReaders

open KindDb.Lib.Utf8Lines KindDb.WalBytes

section Readers
variable [Serde] [WalJson]

omit [Serde] in
/-- A line that is sent arrives as what it parses to. -/
theorem received_line {line : String} {envelope : WalEnvelope}
    (parsed : WalJson.envelopeFromStr line = some envelope) :
    received envelope.txId (utf8 line) = some (envelope.txId, envelope.c) := by
  rw [received, decode_utf8, Option.bind_some, parsed, Option.map_some]

/-- The commands from an id on, as a replica receives them. -/
def arriving (startTxId : Nat) (commands : List (Nat × WalCommand)) :
    List (Option (Nat × WalCommand)) :=
  (commands.filter (startTxId ≤ ·.1)).map some

theorem linesFrom_received {startTxId : Nat} (positive : 1 ≤ startTxId)
    (fileLines : List (Option String)) :
    (linesFrom startTxId fileLines).map (List.map fun sent => received sent.1 (utf8 sent.2)) =
      (Wal.readAllCommands (fileLines.map parseLine)).map (arriving startTxId) := by
  induction fileLines with
  | nil => rfl
  | cons line rest ih =>
      cases line with
      | none => rfl
      | some line =>
          rw [List.map_cons]
          cases blank : isBlank line with
          | true =>
              have skipped : parseLine (some line) = .blank := by simp [parseLine, blank]
              rw [skipped, Wal.readAllCommands, linesFrom, if_pos blank, ih]
          | false =>
              have visible : ¬ isBlank line = true := by simp [blank]
              rw [linesFrom, if_neg visible]
              cases parsed : WalJson.envelopeFromStr line with
              | none =>
                  -- no envelope: the old format has the id 0, before every start
                  dsimp only
                  rw [ih]
                  cases old : WalJson.commandFromStr line with
                  | none =>
                      have unparsed : parseLine (some line) = .unparsed := by
                        simp [parseLine, blank, parsed, old]
                      rw [unparsed, Wal.readAllCommands]
                  | some cmd =>
                      have oldFormat : parseLine (some line) = .oldFormat cmd := by
                        simp [parseLine, blank, parsed, old]
                      rw [oldFormat, Wal.readAllCommands, Option.map_map]
                      congr 1
                      funext commands
                      have before : ¬ startTxId ≤ 0 := by omega
                      simp [arriving, before]
              | some envelope =>
                  have read : parseLine (some line) = .envelope envelope := by
                    simp [parseLine, blank, parsed]
                  rw [read, Wal.readAllCommands]
                  dsimp only
                  by_cases intact : Wal.crcOf envelope.c = envelope.k
                  · rw [if_pos intact, if_pos intact, Option.map_map]
                    by_cases asked : startTxId ≤ envelope.txId
                    · have taken : arriving startTxId ∘ (fun commands : List (Nat × WalCommand) =>
                          (envelope.txId, envelope.c) :: commands) =
                          (fun sent => some (envelope.txId, envelope.c) :: sent) ∘
                            arriving startTxId := by
                        funext commands
                        simp [arriving, asked]
                      rw [if_pos asked, taken, ← Option.map_map, ← ih, Option.map_map,
                        Option.map_map]
                      congr 1
                      funext sent
                      simp [received_line parsed]
                    · have dropped : arriving startTxId ∘ (fun commands : List (Nat × WalCommand) =>
                          (envelope.txId, envelope.c) :: commands) = arriving startTxId := by
                        funext commands
                        simp [arriving, asked]
                      rw [if_neg asked, dropped, ih]
                  · rw [if_neg intact, if_neg intact, ite_self, ih]

/-- Recovery reads back what was appended; the readers fail together, and the
records sent arrive as the commands that recovery reads from the start on. -/
theorem readers_agree :
    (∀ pairs : List (Nat × WalCommand), (∀ p ∈ pairs, Legible p) →
      readAllCommands (appendAll [] pairs) = some pairs) ∧
    ∀ (file : Bytes) (startTxId : Nat), 1 ≤ startTxId →
      (readFromTxId startTxId file = none ↔ readAllCommands file = none) ∧
      ∀ records, readFromTxId startTxId file = some records →
        ∃ commands, readAllCommands file = some commands ∧
          records.map (fun sent => received sent.1 (utf8 sent.2)) =
            (commands.filter (startTxId ≤ ·.1)).map some := by
  refine ⟨fun pairs legible => read_log legible, fun file startTxId positive => ?_⟩
  have same : (readFromTxId startTxId file).map
      (List.map fun sent => received sent.1 (utf8 sent.2)) =
        (readAllCommands file).map (arriving startTxId) :=
    linesFrom_received positive (lines file)
  constructor
  · constructor
    · intro failed
      rw [failed] at same
      exact Option.map_eq_none_iff.mp same.symm
    · intro failed
      rw [failed] at same
      exact Option.map_eq_none_iff.mp same
  · intro records sent
    rw [sent, Option.map_some] at same
    obtain ⟨commands, found, arrived⟩ := Option.map_eq_some_iff.mp same.symm
    exact ⟨commands, found, arrived.symm⟩

end Readers

/-! ## Two records, and the second asked for -/

open SerdeJson ReopenedLog

local instance instWalJsonBoth : WalJson := ReopenedLog.instWalJson

theorem readers_agree_both :
    readAllCommands (appendAll [] [first, second]) = some [first, second] ∧
      ∃ records, readFromTxId 2 (appendAll [] [first, second]) = some records ∧
        records.map (fun sent => received sent.1 (utf8 sent.2)) = [some second] := by
  obtain ⟨reads, sends⟩ := readers_agree
  have read := reads [first, second] fun p member => (faithful_both p member).legible
  obtain ⟨fails, received⟩ := sends (appendAll [] [first, second]) 2 (by decide)
  refine ⟨read, ?_⟩
  cases found : readFromTxId 2 (appendAll [] [first, second]) with
  | none =>
      rw [fails.mp found] at read
      cases read
  | some records =>
      obtain ⟨commands, same, arrived⟩ := received records found
      cases Option.some.inj (same.symm.trans read)
      exact ⟨records, rfl, arrived⟩

end KindDb.LogReaders
