import KindDb.Schema.Registry

/-! # The lexer of the schema language

The lexer is the text that is left to read: where `Lexer` moves its position,
`nextToken` drops what was passed.  Unknown characters and unknown `@` words
are passed over.  An identifier consists of letters, digits and `_`, so that no
identifier contains a colon (`identifier_colonFree`). -/
set_option autoImplicit false

namespace KindDb.Schema

/-- The character classes of `char` and the lowercase mapping of `str`, which
follow the Unicode tables. -/
class UnicodeTables where
  isWhitespace : Char → Bool
  isAlphabetic : Char → Bool
  isNumeric : Char → Bool
  toLowercase : String → String
  isAlphabetic_ascii : ∀ c : Char, c.val < 128 → isAlphabetic c = c.isAlpha
  isNumeric_ascii : ∀ c : Char, c.val < 128 → isNumeric c = c.isDigit

inductive Token
  | keyword (word : String)
  | identifier (id : String)
  | stringLiteral (s : String)
  | lBrace | rBrace | lParen | rParen | comma | colon | atIndexed | atPrefix | lBracket | rBracket
deriving Repr, DecidableEq

/-- The tokens of one character. -/
def punctuation : Char → Option Token
  | '\x7b' => some .lBrace
  | '\x7d' => some .rBrace
  | '(' => some .lParen
  | ')' => some .rParen
  | '[' => some .lBracket
  | ']' => some .rBracket
  | ',' => some .comma
  | ':' => some .colon
  | _ => none

theorem length_dropWhile_le (test : Char → Bool) (input : List Char) :
    (input.dropWhile test).length ≤ input.length :=
  (List.dropWhile_sublist test).length_le

theorem length_of_skipped {test : Char → Bool} {input rest : List Char} {c : Char}
    (skipped : input.dropWhile test = c :: rest) : rest.length < input.length := by
  have := length_dropWhile_le test input
  rw [skipped, List.length_cons] at this
  omega

section Lexer
variable [UnicodeTables]

open UnicodeTables

def isAlphanumeric (c : Char) : Bool := isAlphabetic c || isNumeric c

/-- The characters an identifier goes on with. -/
def isWordChar (c : Char) : Bool := isAlphanumeric c || c == '_'

theorem wordRest_le {c : Char} {rest : List Char}
    (starts : (isAlphabetic c || c == '_') = true) :
    ((c :: rest).dropWhile isWordChar).length ≤ rest.length := by
  have goesOn : isWordChar c = true := by
    rcases Bool.or_eq_true_iff.mp starts with letter | underscore
    · simp [isWordChar, isAlphanumeric, letter]
    · simp [isWordChar, underscore]
  rw [List.dropWhile_cons_of_pos goesOn]
  exact length_dropWhile_le isWordChar rest

def nextToken (input : List Char) : Option (Token × List Char) :=
  match _skipped : input.dropWhile isWhitespace with
  | [] => none
  | c :: rest =>
      match punctuation c with
      | some token => some (token, rest)
      | none =>
          if c = '\x22' then
            let after := rest.dropWhile (· ≠ '\x22')
            some (.stringLiteral (String.ofList (rest.takeWhile (· ≠ '\x22'))), after.drop 1)
          else if c = '@' then
            let after := rest.dropWhile isAlphanumeric
            if rest.takeWhile isAlphanumeric = "indexed".toList then some (.atIndexed, after)
            else if rest.takeWhile isAlphanumeric = "prefix".toList then some (.atPrefix, after)
            else nextToken after
          else if isAlphabetic c || c == '_' then
            let word := String.ofList ((c :: rest).takeWhile isWordChar)
            let after := (c :: rest).dropWhile isWordChar
            if word = "type" ∨ word = "enum" then some (.keyword word, after)
            else some (.identifier word, after)
          else nextToken rest
termination_by input.length
decreasing_by
  · exact (length_dropWhile_le isAlphanumeric rest).trans_lt (length_of_skipped _skipped)
  · exact length_of_skipped _skipped

/-- What is left after a token is shorter. -/
theorem nextToken_shorter {input rest : List Char} {token : Token}
    (read : nextToken input = some (token, rest)) : rest.length < input.length := by
  fun_induction nextToken input with
  | case1 => cases read
  | case2 input c left skipped =>
      cases read
      exact length_of_skipped skipped
  | case3 input left after skipped =>
      have same : after.drop 1 = rest := congrArg Prod.snd (Option.some.inj read)
      have shorter : after.length ≤ left.length := length_dropWhile_le _ left
      have := length_of_skipped skipped
      rw [← same, List.length_drop]
      omega
  | case4 input left after _ skipped =>
      have same : after = rest := congrArg Prod.snd (Option.some.inj read)
      rw [← same]
      exact (length_dropWhile_le isAlphanumeric left).trans_lt (length_of_skipped skipped)
  | case5 input left after _ _ skipped =>
      have same : after = rest := congrArg Prod.snd (Option.some.inj read)
      rw [← same]
      exact (length_dropWhile_le isAlphanumeric left).trans_lt (length_of_skipped skipped)
  | case6 input left after _ _ skipped _ _ ih =>
      exact (ih read).trans
        ((length_dropWhile_le isAlphanumeric left).trans_lt (length_of_skipped skipped))
  | case7 input c left skipped _ _ _ starts word after =>
      have same : after = rest := congrArg Prod.snd (Option.some.inj read)
      rw [← same]
      exact (wordRest_le starts).trans_lt (length_of_skipped skipped)
  | case8 input c left skipped _ _ _ starts word after =>
      have same : after = rest := congrArg Prod.snd (Option.some.inj read)
      rw [← same]
      exact (wordRest_le starts).trans_lt (length_of_skipped skipped)
  | case9 input c left skipped _ _ _ _ ih => exact (ih read).trans (length_of_skipped skipped)

/-! ## Identifiers -/

theorem isWordChar_colon : isWordChar ':' = false := by
  simp [isWordChar, isAlphanumeric, isAlphabetic_ascii ':' (by decide),
    isNumeric_ascii ':' (by decide), Char.isAlpha, Char.isUpper, Char.isLower, Char.isDigit]

def ColonFree (s : String) : Prop := ':' ∉ s.toList

theorem colonFree_word (input : List Char) :
    ColonFree (String.ofList (input.takeWhile isWordChar)) := by
  unfold ColonFree
  rw [String.toList_ofList]
  intro member
  have := List.mem_takeWhile_imp member
  rw [isWordChar_colon] at this
  cases this

theorem identifier_colonFree {input rest : List Char} {id : String}
    (read : nextToken input = some (.identifier id, rest)) : ColonFree id := by
  fun_induction nextToken input with
  | case1 => cases read
  | case2 input c left skipped token found =>
      cases read
      unfold punctuation at found
      split at found <;> cases found
  | case3 => cases read
  | case4 => cases read
  | case5 => cases read
  | case6 input left after _ _ skipped _ _ ih => exact ih read
  | case7 => cases read
  | case8 input c left skipped _ _ _ starts word after =>
      have same : word = id :=
        Token.identifier.inj (congrArg Prod.fst (Option.some.inj read))
      rw [← same]
      exact colonFree_word (c :: left)
  | case9 input c left skipped _ _ _ _ ih => exact ih read

/-- All the tokens of a text; the parser takes them one by one. -/
def tokens (input : List Char) : List Token :=
  match _read : nextToken input with
  | none => []
  | some (token, rest) => token :: tokens rest
termination_by input.length
decreasing_by exact nextToken_shorter _read

theorem identifier_of_mem_tokens {input : List Char} {id : String}
    (member : .identifier id ∈ tokens input) : ColonFree id := by
  fun_induction tokens input with
  | case1 => cases member
  | case2 input token rest read ih =>
      rcases List.mem_cons.mp member with rfl | later
      · exact identifier_colonFree read
      · exact ih later

end Lexer

end KindDb.Schema
