import KindDb.SerdeJson
import KindDb.WalBytes

/-! # Reading a log that ends anywhere

The beginning of a log file holds whole lines and then a beginning of one.  The
reader skips that last piece when it is text and no JSON; when it ends inside
a character the line is not text and the reader fails for the whole file. -/
set_option autoImplicit false

namespace KindDb.TornTail

open KindDb.Lib.Utf8Lines KindDb.WalBytes

section Tearing
variable [Serde] [WalJson]

/-- The pairs whose text, the first of which starts at `offset`, lies within
the first `n` bytes. -/
def wholeWithin (n : Nat) : Nat → List (Nat × WalCommand) → List (Nat × WalCommand)
  | _, [] => []
  | offset, logged :: rest =>
      let last := offset + (utf8 (text logged)).length
      if last ≤ n then logged :: wholeWithin n (last + 1) rest else wholeWithin n (last + 1) rest

theorem wholeWithin_beyond {n offset : Nat} (beyond : n < offset)
    (pairs : List (Nat × WalCommand)) : wholeWithin n offset pairs = [] := by
  induction pairs generalizing offset with
  | nil => rfl
  | cons logged rest ih =>
      rw [wholeWithin, if_neg (by omega)]
      exact ih (by omega)

theorem length_line (logged : Nat × WalCommand) :
    (utf8 (text logged ++ "\n")).length = (utf8 (text logged)).length + 1 := by
  rw [utf8_append, List.length_append]
  rfl

/-- What the first `n` bytes of a log are read as. -/
theorem read_take {pairs : List (Nat × WalCommand)} (faithful : ∀ p ∈ pairs, Faithful p)
    (offset n : Nat) :
    readAllCommands ((appendAll [] pairs).take n) =
      if (decode ((appendAll [] pairs).take n)).isSome then
        some (wholeWithin (offset + n) offset pairs)
      else none := by
  induction pairs generalizing offset n with
  | nil =>
      rw [show appendAll [] [] = [] from rfl, List.take_nil]
      rfl
  | cons logged rest ih =>
      have first := faithful logged List.mem_cons_self
      have others := ih fun p member => faithful p (List.mem_cons_of_mem _ member)
      rw [appendAll_cons, wholeWithin]
      by_cases through : (utf8 (text logged)).length + 1 ≤ n
      · obtain ⟨more, rfl⟩ := Nat.exists_eq_add_of_le through
        have split : (utf8 (text logged ++ "\n") ++ appendAll [] rest).take
            ((utf8 (text logged)).length + 1 + more) =
              utf8 (text logged ++ "\n") ++ (appendAll [] rest).take more := by
          rw [← length_line, List.take_length_add_append]
        rw [split, first.legible.read_line, others (offset + (utf8 (text logged)).length + 1) more,
          decode_append_isSome]
        rw [if_pos (by omega : offset + (utf8 (text logged)).length ≤
          offset + ((utf8 (text logged)).length + 1 + more))]
        rw [show offset + (utf8 (text logged)).length + 1 + more =
          offset + ((utf8 (text logged)).length + 1 + more) by omega]
        split <;> rfl
      · have within : n ≤ (utf8 (text logged)).length := by omega
        have torn : (utf8 (text logged ++ "\n") ++ appendAll [] rest).take n =
            (utf8 (text logged)).take n := by
          rw [utf8_append, List.append_assoc, List.take_append_of_le_length within]
        have complete : (utf8 (text logged)).take n = utf8 (text logged) ↔
            offset + (utf8 (text logged)).length ≤ offset + n := by
          rw [List.take_eq_self_iff]
          omega
        rw [torn, first.read_torn (List.take_prefix ..)]
        rw [wholeWithin_beyond (by omega), if_congr complete rfl rfl]

/-- The first bytes of a log are read as exactly the pairs they hold the whole
text of, if they do not end inside a character; else they are not read. -/
theorem torn_read_iff (pairs : List (Nat × WalCommand)) (faithful : ∀ p ∈ pairs, Faithful p)
    (n : Nat) :
    readAllCommands ((appendAll [] pairs).take n) = some (wholeWithin n 0 pairs) ↔
      (decode ((appendAll [] pairs).take n)).isSome = true := by
  have read := read_take faithful 0 n
  rw [Nat.zero_add] at read
  rw [read]
  split
  · exact iff_of_true rfl ‹_›
  · exact iff_of_false nofun ‹_›

end Tearing

/-! ## A key with an accent -/

open SerdeJson

def envelopeToString (e : WalEnvelope) : String :=
  "\x7b\"c\":" ++ commandToString e.c ++ ",\"k\":" ++ toString e.k.toNat ++ ",\"tx_id\":" ++
    toString e.txId ++ "\x7d"

/-- The functions of `serde_json` on the texts of some envelopes and on all
their pieces. -/
@[reducible] def jsonOf (known : List WalEnvelope) : WalJson where
  envelopeToString := envelopeToString
  envelopeFromStr := fun line => known.find? fun e => envelopeToString e = line
  commandFromStr := fun _ => none

def accented : Nat × WalCommand := (1, .delete "é")

local instance instWalJson : WalJson := jsonOf [envelopeOf accented]

theorem text_accented :
    text accented =
      "\x7b\"c\":\x7b\"Delete\":\x7b\"key\":\"é\"\x7d\x7d,\"k\":2660777709,\"tx_id\":1\x7d" := by
  decide +kernel

theorem faithful_accented : ∀ p ∈ [accented], Faithful p := by
  intro p member
  cases List.mem_singleton.mp member
  have read : ∀ line : String, WalJson.envelopeFromStr line =
      if text accented = line then some (envelopeOf accented) else none := by
    intro line
    change [envelopeOf accented].find? (fun e => envelopeToString e = line) = _
    rw [List.find?_singleton]
    simp only [decide_eq_true_eq]
    rfl
  refine ⟨?_, ⟨((text accented).toList.drop 1).dropLast, ?_⟩, ?_, fun torn _ other => ⟨?_, rfl⟩⟩
  · rw [text_accented]
    decide
  · rw [text_accented]
    rfl
  · rw [read, if_pos rfl]
  · rw [read, if_neg (Ne.symm other)]

/-- The JSON text is there to its last byte, its line feed is not. -/
theorem torn_read_complete :
    readAllCommands ((appendAll [] [accented]).take 54) = some (wholeWithin 54 0 [accented]) := by
  refine (torn_read_iff [accented] faithful_accented 54).mpr ?_
  decide +kernel

theorem cut_inside_character_fails :
    ¬ ∀ [Serde] [WalJson] (pairs : List (Nat × WalCommand)), (∀ p ∈ pairs, Faithful p) →
      ∀ n < (appendAll [] pairs).length,
        readAllCommands ((appendAll [] pairs).take n) = some (wholeWithin n 0 pairs) := by
  intro claim
  have read := claim [accented] faithful_accented 24 (by decide +kernel)
  rw [show readAllCommands ((appendAll [] [accented]).take 24) = none by decide +kernel] at read
  cases read

end KindDb.TornTail
