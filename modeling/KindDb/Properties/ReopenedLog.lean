import KindDb.Properties.TornTail

/-! # Appending to a log that a crash cut off

`Wal::new` opens the file for appending and leaves it as it is.  If it ends
within a line, the first record appended becomes the end of that line, and
neither of the two is read again. -/
set_option autoImplicit false

namespace KindDb.ReopenedLog

open KindDb.Lib.Utf8Lines KindDb.WalBytes

section Reopening
variable [Serde] [WalJson]

/-- Behind the beginning of one object, or a whole one, the next object does
not make up a JSON text. -/
def Separate (logged next : Nat × WalCommand) : Prop :=
  ∀ torn : String, torn ≠ "" → torn.toList <+: (text logged).toList →
    WalJson.envelopeFromStr (torn ++ text next) = none ∧
      WalJson.commandFromStr (torn ++ text next) = none

/-- A record appended in the middle of a line is lost with the line. -/
theorem read_glued {logged next : Nat × WalCommand} (separate : Separate logged next)
    (faithful : Faithful logged) (faithfulNext : Faithful next) {torn : String}
    (nonempty : torn ≠ "") (begins : torn.toList <+: (text logged).toList) (rest : Bytes) :
    readAllCommands (utf8 torn ++ (utf8 (text next ++ "\n") ++ rest)) = readAllCommands rest := by
  obtain ⟨inner, compact⟩ := faithfulNext.compact
  obtain ⟨noEnvelope, noCommand⟩ := separate torn nonempty begins
  have oneLine : '\n' ∉ (torn ++ text next).toList := by
    rw [String.toList_append, List.mem_append, not_or]
    exact ⟨fun member => faithful.oneLine (begins.subset member), faithfulNext.oneLine⟩
  have last : (torn ++ text next).toList.getLast? ≠ some '\r' := by
    rw [String.toList_append, compact, ← List.append_assoc, List.getLast?_concat]
    decide
  have glued : utf8 torn ++ (utf8 (text next ++ "\n") ++ rest) =
      utf8 (torn ++ text next ++ "\n") ++ rest := by
    rw [← List.append_assoc, ← utf8_append, String.append_assoc]
  rw [glued, readAllCommands, parse, lines_line oneLine last, List.map_cons,
    read_unparsed noEnvelope noCommand]
  rfl

/-- What a file that decodes ends with tells where the log was cut. -/
theorem ends_whole_iff {done : List (Nat × WalCommand)} {torn : Bytes}
    {logged : Nat × WalCommand} (faithful : Faithful logged)
    (begins : torn <+: utf8 (text logged)) :
    (appendAll [] done ++ torn = [] ∨ (appendAll [] done ++ torn).getLast? = some 10) ↔
      torn = [] := by
  constructor
  · intro ends
    by_contra nonempty
    rcases ends with nothing | last
    · exact nonempty (List.append_eq_nil_iff.mp nothing).2
    · rw [List.getLast?_append_of_ne_nil _ nonempty] at last
      have member := begins.subset (List.mem_of_getLast? last)
      exact faithful.oneLine (lineFeed_mem_utf8.mp member)
  · rintro rfl
    rw [List.append_nil]
    rcases List.eq_nil_or_concat' done with rfl | ⟨before, last, rfl⟩
    · exact Or.inl rfl
    · right
      rw [appendAll, List.foldl_append]
      exact append_ends _ last

/-- Records appended to a log that ends at a character boundary are read back
behind what was read before exactly if the log is empty or ends a line. -/
theorem reopened_read_iff (pairs : List (Nat × WalCommand)) (faithful : ∀ p ∈ pairs, Faithful p)
    (n : Nat) (boundary : (decode ((appendAll [] pairs).take n)).isSome = true)
    (next : Nat × WalCommand) (later : List (Nat × WalCommand))
    (faithfulLater : ∀ p ∈ next :: later, Faithful p) (separate : ∀ p ∈ pairs, Separate p next) :
    let kept := (appendAll [] pairs).take n
    readAllCommands (appendAll kept (next :: later)) =
        (readAllCommands kept).map (· ++ next :: later) ↔
      kept = [] ∨ kept.getLast? = some 10 := by
  obtain ⟨done, torn, split, begins, tornOf⟩ := take_appendAll pairs n
  dsimp only
  have legibleDone : ∀ p ∈ done, Legible p :=
    fun p member => (faithful p (begins.subset member)).legible
  have legibleLater : ∀ p ∈ next :: later, Legible p :=
    fun p member => (faithfulLater p member).legible
  rw [split] at boundary ⊢
  rw [appendAll_eq, List.append_assoc, read_appendAll legibleDone, read_appendAll legibleDone]
  have ends : (appendAll [] done ++ torn = [] ∨ (appendAll [] done ++ torn).getLast? = some 10) ↔
      torn = [] := by
    rcases tornOf with rfl | ⟨logged, member, begins⟩
    · exact ends_whole_iff (faithfulLater next List.mem_cons_self) List.nil_prefix
    · exact ends_whole_iff (faithful logged member) begins
  rw [ends]
  by_cases nothing : torn = []
  · subst nothing
    refine iff_of_true ?_ rfl
    rw [List.nil_append, read_log legibleLater]
    simp [readAllCommands, parse]
  · obtain ⟨logged, member, begins⟩ := tornOf.resolve_left nothing
    obtain ⟨before, same⟩ := appendAll_utf8 done
    rw [same, decode_append_isSome] at boundary
    have read := (faithful logged member).read_torn begins
    rw [if_pos boundary] at read
    obtain ⟨line, decoded⟩ := Option.isSome_iff_exists.mp boundary
    have bytes := decode_eq_some_iff.mp decoded
    have nonempty : line ≠ "" := by
      rintro rfl
      exact nothing bytes.symm
    have glued := read_glued (separate logged member) (faithful logged member)
      (faithfulLater next List.mem_cons_self) nonempty (isPrefix_of_decode begins decoded)
      (appendAll [] later)
    rw [bytes, read_log fun p inLater => legibleLater p (List.mem_cons_of_mem _ inLater)] at glued
    refine iff_of_false (fun equal => ?_) nothing
    rw [appendAll_cons, glued, read, Option.map_some, Option.map_some, Option.map_some,
      Option.some.injEq] at equal
    have lengths := congrArg List.length equal
    simp only [List.length_append, List.length_cons] at lengths
    omega

end Reopening

/-! ## A log cut after one byte -/

open SerdeJson TornTail

def first : Nat × WalCommand := (1, .delete "a")

def second : Nat × WalCommand := (2, .delete "b")

local instance instWalJson : WalJson := jsonOf [envelopeOf first, envelopeOf second]

theorem text_first :
    text first = "\x7b\"c\":\x7b\"Delete\":\x7b\"key\":\"a\"\x7d\x7d,\"k\":3303037480,\"tx_id\":1\x7d" := by
  decide +kernel

theorem text_second :
    text second = "\x7b\"c\":\x7b\"Delete\":\x7b\"key\":\"b\"\x7d\x7d,\"k\":3595957702,\"tx_id\":2\x7d" := by
  decide +kernel

theorem length_texts : ∀ p ∈ [first, second], (text p).toList.length = 53 := by
  intro p member
  simp only [List.mem_cons, List.not_mem_nil, or_false] at member
  rcases member with rfl | rfl
  · rw [text_first]
    rfl
  · rw [text_second]
    rfl

/-- Nothing but the two texts is read. -/
theorem unread {line : String} (other : ∀ p ∈ [first, second], line ≠ text p) :
    WalJson.envelopeFromStr line = none := by
  refine List.find?_eq_none.mpr fun e known => ?_
  obtain ⟨p, member, rfl⟩ := List.mem_map.mp (show e ∈ [first, second].map envelopeOf from known)
  rw [decide_eq_true_eq]
  exact (other p member).symm

theorem faithful_both : ∀ p ∈ [first, second], Faithful p := by
  have torn : ∀ p ∈ [first, second], ∀ torn : String, torn.toList <+: (text p).toList →
      torn ≠ text p → WalJson.envelopeFromStr torn = none := by
    intro p member torn begins other
    refine unread fun q inBoth same => other ?_
    have length : torn.toList.length = (text p).toList.length := by
      rw [same, length_texts q inBoth, length_texts p member]
    exact String.toList_inj.mp (begins.eq_of_length length)
  intro p member
  refine ⟨?_, ⟨((text p).toList.drop 1).dropLast, ?_⟩, ?_,
    fun line begins other => ⟨torn p member line begins other, rfl⟩⟩
  all_goals
    simp only [List.mem_cons, List.not_mem_nil, or_false] at member
    rcases member with rfl | rfl
  · rw [text_first]
    decide
  · rw [text_second]
    decide
  · rw [text_first]
    rfl
  · rw [text_second]
    rfl
  · exact List.find?_cons_of_pos (by simp [text, WalJson.envelopeToString])
  · refine (List.find?_cons_of_neg ?_).trans
      (List.find?_cons_of_pos (by simp [text, WalJson.envelopeToString]))
    have differ : text first ≠ text second := by
      rw [text_first, text_second]
      decide
    rw [decide_eq_true_eq]
    exact differ

theorem separate_first : ∀ p ∈ [first], Separate p second := by
  intro p member torn nonempty begins
  refine ⟨unread fun q inBoth same => nonempty ?_, rfl⟩
  have lengths := congrArg (fun line : String => line.toList.length) same
  simp only [String.toList_append, List.length_append, length_texts q inBoth,
    length_texts second (by simp)] at lengths
  exact String.toList_eq_nil_iff.mp (List.length_eq_zero_iff.mp (by omega))

theorem reopened_read_whole :
    let kept := (appendAll [] [first]).take 54
    readAllCommands (appendAll kept [second]) = (readAllCommands kept).map (· ++ [second]) := by
  refine (reopened_read_iff [first] (fun p member => faithful_both p ?_) 54 ?_ second []
    (fun p member => faithful_both p ?_) separate_first).mpr ?_
  · exact List.mem_append_left [second] member
  · decide +kernel
  · exact List.mem_append_right [first] member
  · exact Or.inr (by decide +kernel)

theorem appended_record_lost :
    ¬ ∀ [Serde] [WalJson] (pairs : List (Nat × WalCommand)), (∀ p ∈ pairs, Faithful p) →
      ∀ n, (decode ((appendAll [] pairs).take n)).isSome = true →
      ∀ next later, (∀ p ∈ next :: later, Faithful p) → (∀ p ∈ pairs, Separate p next) →
        readAllCommands (appendAll ((appendAll [] pairs).take n) (next :: later)) =
          (readAllCommands ((appendAll [] pairs).take n)).map (· ++ next :: later) := by
  intro claim
  have read := claim [first] (fun p member => faithful_both p (List.mem_append_left [second] member))
    1 (by decide +kernel) second []
    (fun p member => faithful_both p (List.mem_append_right [first] member)) separate_first
  have lost : (readAllCommands (appendAll ((appendAll [] [first]).take 1) [second])).map
      List.length = some 0 := by decide +kernel
  have before : (readAllCommands ((appendAll [] [first]).take 1)).map List.length = some 0 := by
    decide +kernel
  rw [read, Option.map_map] at lost
  obtain ⟨commands, found, length⟩ := Option.map_eq_some_iff.mp before
  rw [found, Option.map_some, Option.some.injEq] at lost
  simp [length] at lost

end KindDb.ReopenedLog
