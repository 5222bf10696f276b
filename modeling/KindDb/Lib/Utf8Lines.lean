import Mathlib

/-! # The lines of a file

`lines` is the reader that splits at line feeds and decodes every line as
UTF-8, with `none` for a line that is not; a file that does not end with a line
feed has its rest as last line.  A text that is written and read back is its
own only decoding (`decode_eq_some_iff`), and a beginning of it that decodes is
a beginning of the text (`isPrefix_of_decode`).  Texts compare as their bytes
do (`utf8_lt_utf8`). -/
set_option autoImplicit false

namespace KindDb.Lib.Utf8Lines

/-! ## Texts as bytes -/

def utf8 (text : String) : List UInt8 := text.toList.flatMap String.utf8EncodeChar

def decode (bytes : List UInt8) : Option String := String.fromUTF8? bytes.toByteArray

theorem toByteArray_utf8 (text : String) : (utf8 text).toByteArray = text.toByteArray :=
  String.utf8Encode_toList

@[simp] theorem utf8_empty : utf8 "" = [] := rfl

theorem utf8_append (first second : String) :
    utf8 (first ++ second) = utf8 first ++ utf8 second := by
  rw [utf8, String.toList_append, List.flatMap_append, utf8, utf8]

theorem decode_eq_some_iff {bytes : List UInt8} {text : String} :
    decode bytes = some text ↔ utf8 text = bytes := by
  unfold decode String.fromUTF8?
  rw [← List.toByteArray_inj, toByteArray_utf8]
  by_cases valid : bytes.toByteArray.IsValidUTF8
  · rw [dif_pos valid, Option.some.injEq, ← String.toByteArray_inj]
    exact eq_comm
  · rw [dif_neg valid]
    refine ⟨nofun, fun same => absurd ?_ valid⟩
    rw [← same]
    exact text.isValidUTF8

@[simp] theorem decode_utf8 (text : String) : decode (utf8 text) = some text :=
  decode_eq_some_iff.mpr rfl

theorem isPrefix_of_append {text whole : String} {rest : List UInt8}
    (same : utf8 text ++ rest = utf8 whole) : text.toList <+: whole.toList := by
  refine List.isPrefix_of_utf8Encode_append_eq_utf8Encode rest.toByteArray ?_
  rw [String.utf8Encode_toList, String.utf8Encode_toList, ← toByteArray_utf8, ← toByteArray_utf8,
    ← same, List.toByteArray_append]

/-- The bytes at the beginning of a text that decode do so to a beginning of it. -/
theorem isPrefix_of_decode {bytes : List UInt8} {text whole : String}
    (begins : bytes <+: utf8 whole) (decoded : decode bytes = some text) :
    text.toList <+: whole.toList := by
  obtain ⟨rest, same⟩ := begins
  rw [← decode_eq_some_iff.mp decoded] at same
  exact isPrefix_of_append same

/-- A text before some bytes does not change whether they decode. -/
theorem decode_append_isSome (text : String) (bytes : List UInt8) :
    (decode (utf8 text ++ bytes)).isSome = (decode bytes).isSome := by
  rw [Bool.eq_iff_iff, Option.isSome_iff_exists, Option.isSome_iff_exists]
  constructor
  · intro ⟨whole, decoded⟩
    have same := decode_eq_some_iff.mp decoded
    obtain ⟨tail, split⟩ := isPrefix_of_append same.symm
    refine ⟨String.ofList tail, decode_eq_some_iff.mpr ?_⟩
    have parts : whole = text ++ String.ofList tail := by
      rw [← String.toList_inj, String.toList_append, String.toList_ofList, split]
    rw [parts, utf8_append] at same
    exact List.append_cancel_left same
  · intro ⟨tail, decoded⟩
    refine ⟨text ++ tail, decode_eq_some_iff.mpr ?_⟩
    rw [utf8_append, decode_eq_some_iff.mp decoded]

/-- The byte of the line feed encodes nothing else. -/
theorem lineFeed_mem_utf8 {text : String} : 10 ∈ utf8 text ↔ '\n' ∈ text.toList := by
  have only : ∀ c : Char, (10 : UInt8) ∈ String.utf8EncodeChar c ↔ c = '\n' := by
    intro c
    constructor
    · intro member
      have lower : c.val.toNat = 10 := by
        unfold String.utf8EncodeChar at member
        dsimp only at member
        have byte : ∀ n : Nat, (10 : UInt8) = UInt8.ofNat n → n % 256 = 10 := by
          intro n same
          simpa using (congrArg UInt8.toNat same).symm
        split_ifs at member <;> simp only [List.mem_cons, List.not_mem_nil, or_false] at member
        · have := byte _ member
          omega
        · rcases member with same | same <;> have := byte _ same <;> omega
        · rcases member with same | same | same <;> have := byte _ same <;> omega
        · rcases member with same | same | same | same <;> have := byte _ same <;> omega
      exact Char.ext (UInt32.toNat_inj.mp lower)
    · rintro rfl
      decide
  simp only [utf8, List.mem_flatMap, only]
  exact ⟨fun ⟨c, member, same⟩ => same ▸ member, fun member => ⟨'\n', member, rfl⟩⟩

/-! ## The order of the bytes -/

theorem cons_less {a b : Nat} {rest rest' : List UInt8} (bound : b < 256) (most : a ≤ b)
    (tie : a = b → rest < rest') : UInt8.ofNat a :: rest < UInt8.ofNat b :: rest' := by
  apply List.cons_lt_cons_iff.mpr
  rcases Nat.lt_or_eq_of_le most with smaller | same
  · left
    have boundA : a < 256 := by omega
    rw [UInt8.lt_iff_toNat_lt, UInt8.toNat_ofNat_of_lt' boundA, UInt8.toNat_ofNat_of_lt' bound]
    exact smaller
  · exact Or.inr ⟨congrArg UInt8.ofNat same, tie same⟩

/-- The bytes of a smaller character are smaller at a place that both have. -/
theorem utf8EncodeChar_less {c d : Char} (less : c < d) (rest rest' : List UInt8) :
    String.utf8EncodeChar c ++ rest < String.utf8EncodeChar d ++ rest' := by
  have smaller : c.val.toNat < d.val.toNat := UInt32.lt_iff_toNat_lt.mp less
  have bound : d.val.toNat < 1114112 := by
    rcases d.valid with low | ⟨_, high⟩ <;> omega
  unfold String.utf8EncodeChar
  dsimp only
  generalize c.val.toNat = m at *
  generalize d.val.toNat = n at *
  -- encodings of different lengths differ in the first byte; within one length
  -- the bytes are the digits of the code point, the highest first
  split_ifs <;> simp only [List.cons_append, List.nil_append] <;>
    refine cons_less (by omega) (by omega) fun tie => ?_
  all_goals try omega
  · apply cons_less (by omega) (by omega)
    omega
  · apply cons_less (by omega) (by omega)
    intro tie'
    apply cons_less (by omega) (by omega)
    omega
  · apply cons_less (by omega) (by omega)
    intro tie'
    apply cons_less (by omega) (by omega)
    intro tie''
    apply cons_less (by omega) (by omega)
    omega

theorem flatMap_less {first second : List Char} (less : first < second) :
    first.flatMap String.utf8EncodeChar < second.flatMap String.utf8EncodeChar := by
  induction first generalizing second with
  | nil =>
      cases second with
      | nil => exact absurd less (List.not_lt_nil _)
      | cons d second =>
          obtain ⟨byte, bytes, encoded⟩ : ∃ byte bytes, String.utf8EncodeChar d = byte :: bytes :=
            List.exists_cons_of_ne_nil String.utf8EncodeChar_ne_nil
          rw [List.flatMap_cons, encoded]
          exact List.nil_lt_cons _ _
  | cons c first ih =>
      cases second with
      | nil => exact absurd less (List.not_lt_nil _)
      | cons d second =>
          rw [List.flatMap_cons, List.flatMap_cons]
          rcases List.cons_lt_cons_iff.mp less with smaller | ⟨rfl, smaller⟩
          · exact utf8EncodeChar_less smaller _ _
          · exact List.append_left_lt (ih smaller)

/-- To compare texts character by character is to compare their bytes. -/
theorem utf8_lt_utf8 {first second : String} : utf8 first < utf8 second ↔ first < second := by
  constructor
  · intro less
    rcases lt_trichotomy first second with smaller | rfl | greater
    · exact smaller
    · exact absurd less (List.lt_irrefl _)
    · exact absurd less (List.lt_asymm (flatMap_less greater))
  · exact flatMap_less

/-! ## Splitting -/

/-- The lines with their line feeds. -/
def rawLines : List UInt8 → List (List UInt8)
  | [] => []
  | byte :: rest =>
      if byte = 10 then [byte] :: rawLines rest
      else match rawLines rest with
        | [] => [[byte]]
        | line :: later => (byte :: line) :: later

/-- A line without its line feed, or its carriage return and line feed. -/
def chomp (text : String) : String :=
  match text.toList.reverse with
  | '\n' :: '\r' :: rest => String.ofList rest.reverse
  | '\n' :: rest => String.ofList rest.reverse
  | _ => text

def lines (file : List UInt8) : List (Option String) :=
  (rawLines file).map fun line => (decode line).map chomp

theorem rawLines_line {line : List UInt8} (whole : 10 ∉ line) (rest : List UInt8) :
    rawLines (line ++ 10 :: rest) = (line ++ [10]) :: rawLines rest := by
  induction line with
  | nil => simp [rawLines]
  | cons byte line ih =>
      obtain ⟨other, later⟩ := not_or.mp (mt List.mem_cons.mpr whole)
      rw [List.cons_append, rawLines, if_neg (Ne.symm other), ih later]
      rfl

theorem rawLines_rest {line : List UInt8} (whole : 10 ∉ line) (nonempty : line ≠ []) :
    rawLines line = [line] := by
  induction line with
  | nil => exact absurd rfl nonempty
  | cons byte line ih =>
      obtain ⟨other, later⟩ := not_or.mp (mt List.mem_cons.mpr whole)
      rw [rawLines, if_neg (Ne.symm other)]
      cases line with
      | nil => rfl
      | cons next line => rw [ih later (List.cons_ne_nil next line)]

/-- What ends with a line feed is read apart from what follows. -/
theorem rawLines_append {first : List UInt8} (ends : first = [] ∨ first.getLast? = some 10)
    (rest : List UInt8) : rawLines (first ++ rest) = rawLines first ++ rawLines rest := by
  induction first with
  | nil => rfl
  | cons byte first ih =>
      have last : (byte :: first).getLast? = some 10 := ends.resolve_left (List.cons_ne_nil _ _)
      rw [List.cons_append, rawLines, rawLines]
      by_cases feed : byte = 10
      · have endsToo : first = [] ∨ first.getLast? = some 10 := by
          cases first with
          | nil => exact Or.inl rfl
          | cons next first => exact Or.inr (by simpa using last)
        rw [if_pos feed, if_pos feed, ih endsToo, List.cons_append]
      · rw [if_neg feed, if_neg feed]
        cases first with
        | nil => exact absurd (Option.some.inj last) feed
        | cons next first =>
            have lines : rawLines (next :: first) ≠ [] := by
              rw [rawLines]
              split
              · exact List.cons_ne_nil _ _
              · split <;> exact List.cons_ne_nil _ _
            obtain ⟨line, later, split⟩ := List.exists_cons_of_ne_nil lines
            rw [ih (Or.inr (by simpa using last)), split]
            rfl

theorem lines_append {first : List UInt8} (ends : first = [] ∨ first.getLast? = some 10)
    (rest : List UInt8) : lines (first ++ rest) = lines first ++ lines rest := by
  rw [lines, rawLines_append ends, List.map_append]
  rfl

/-- The first line of a file, when the text of the line ends with neither
character that is taken off. -/
theorem lines_line {text : String} (whole : '\n' ∉ text.toList)
    (kept : text.toList.getLast? ≠ some '\r') (rest : List UInt8) :
    lines (utf8 (text ++ "\n") ++ rest) = some text :: lines rest := by
  have feed : utf8 "\n" = [10] := rfl
  have chomped : chomp (text ++ "\n") = text := by
    unfold chomp
    rw [String.toList_append, List.reverse_append]
    have last : text.toList.reverse.head? ≠ some '\r' := by
      rwa [List.head?_reverse]
    have back : String.ofList text.toList.reverse.reverse = text := by
      rw [List.reverse_reverse, String.ofList_toList]
    change (match '\n' :: text.toList.reverse with
      | '\n' :: '\r' :: rest => String.ofList rest.reverse
      | '\n' :: rest => String.ofList rest.reverse
      | _ => text ++ "\n") = text
    split
    · rename_i rest same
      rw [(List.cons.inj same).2] at last
      exact absurd rfl last
    · rename_i same
      rw [← (List.cons.inj same).2]
      exact back
    · rename_i _ other
      exact absurd rfl (other _)
  rw [lines, utf8_append, feed, List.append_assoc, List.singleton_append,
    rawLines_line (mt lineFeed_mem_utf8.mp whole), List.map_cons, ← feed, ← utf8_append,
    decode_utf8, Option.map_some, chomped]
  rfl

/-- A rest without a line feed is read as it is. -/
theorem lines_rest {line : List UInt8} (whole : 10 ∉ line) (nonempty : line ≠ []) :
    lines line = [decode line] := by
  rw [lines, rawLines_rest whole nonempty, List.map_singleton]
  cases decoded : decode line with
  | none => rfl
  | some text =>
      have unchanged : chomp text = text := by
        unfold chomp
        have noFeed : '\n' ∉ text.toList.reverse := by
          rw [List.mem_reverse, ← lineFeed_mem_utf8, decode_eq_some_iff.mp decoded]
          exact whole
        split
        · rename_i same
          rw [same] at noFeed
          exact absurd List.mem_cons_self noFeed
        · rename_i same
          rw [same] at noFeed
          exact absurd List.mem_cons_self noFeed
        · rfl
      rw [Option.map_some, unchanged]

@[simp] theorem lines_nil : lines [] = [] := rfl

end KindDb.Lib.Utf8Lines
