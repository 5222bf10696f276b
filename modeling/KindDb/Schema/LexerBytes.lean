import KindDb.Lib.Paths
import KindDb.Schema.Lexer

/-! # The lexer on the bytes of its input

`Lexer` holds a position in bytes, and a slice that does not begin and end on
boundaries of characters panics.  The machine below takes one turn of one loop
of `next_token` at a time; `nextToken` is what it computes. -/
set_option autoImplicit false

namespace KindDb.Schema

open KindDb.Lib.Paths

/-! ## Slices -/

/-- `len()` of a text with these characters. -/
def byteLen (chars : List Char) : Nat := (chars.map Char.utf8Size).sum

/-- `input[pos..]`; `none` is the panic. -/
def sliceFrom : List Char → Nat → Option (List Char)
  | chars, 0 => some chars
  | [], _ + 1 => none
  | c :: rest, pos + 1 =>
      if c.utf8Size ≤ pos + 1 then sliceFrom rest (pos + 1 - c.utf8Size) else none

/-- `input[..len]` -/
def sliceTo : List Char → Nat → Option (List Char)
  | _, 0 => some []
  | [], _ + 1 => none
  | c :: rest, len + 1 =>
      if c.utf8Size ≤ len + 1 then (sliceTo rest (len + 1 - c.utf8Size)).map (c :: ·) else none

/-- `input[start..stop]` -/
def slice (input : List Char) (start stop : Nat) : Option (List Char) :=
  if start ≤ stop then (sliceFrom input start).bind fun rest => sliceTo rest (stop - start)
  else none

/-- `input[pos..].chars().next().unwrap()` -/
def charAt (input : List Char) (pos : Nat) : Option Char := (sliceFrom input pos).bind List.head?

theorem byteLen_append (first second : List Char) :
    byteLen (first ++ second) = byteLen first + byteLen second := by
  simp [byteLen]

theorem byteLen_cons (c : Char) (rest : List Char) :
    byteLen (c :: rest) = c.utf8Size + byteLen rest := by
  simp [byteLen]

theorem sliceFrom_append (front back : List Char) :
    sliceFrom (front ++ back) (byteLen front) = some back := by
  induction front with
  | nil =>
      change sliceFrom back 0 = some back
      cases back <;> rfl
  | cons c front ih =>
      obtain ⟨size, positive⟩ := Nat.exists_eq_add_of_le' c.utf8Size_pos
      rw [byteLen_cons, positive, List.cons_append, Nat.add_right_comm, sliceFrom, if_pos (by omega),
        positive]
      rw [show size + byteLen front + 1 - (size + 1) = byteLen front by omega, ih]

theorem sliceTo_append (front back : List Char) :
    sliceTo (front ++ back) (byteLen front) = some front := by
  induction front with
  | nil =>
      change sliceTo back 0 = some []
      cases back <;> rfl
  | cons c front ih =>
      obtain ⟨size, positive⟩ := Nat.exists_eq_add_of_le' c.utf8Size_pos
      rw [byteLen_cons, positive, List.cons_append, Nat.add_right_comm, sliceTo, if_pos (by omega),
        positive]
      rw [show size + byteLen front + 1 - (size + 1) = byteLen front by omega, ih]
      rfl

theorem slice_middle (front middle back : List Char) :
    slice (front ++ (middle ++ back)) (byteLen front) (byteLen front + byteLen middle) =
      some middle := by
  rw [slice, if_pos (Nat.le_add_right _ _), sliceFrom_append, Option.bind_some,
    Nat.add_sub_cancel_left, sliceTo_append]

theorem charAt_split {input front rest : List Char} {c : Char}
    (split : input = front ++ c :: rest) : charAt input (byteLen front) = some c := by
  rw [charAt, split, sliceFrom_append]
  rfl

/-- A position between two characters, or at an end. -/
def Boundary (input : List Char) (pos : Nat) : Prop :=
  ∃ front back, input = front ++ back ∧ byteLen front = pos

/-- A slice panics exactly off the boundaries. -/
theorem boundary_iff {input : List Char} {pos : Nat} :
    Boundary input pos ↔ (sliceFrom input pos).isSome := by
  constructor
  · rintro ⟨front, back, rfl, rfl⟩
    rw [sliceFrom_append]
    rfl
  · intro sliced
    fun_induction sliceFrom input pos with
    | case1 chars => exact ⟨[], chars, rfl, rfl⟩
    | case2 => cases sliced
    | case3 c rest pos fits ih =>
        obtain ⟨front, back, rfl, same⟩ := ih sliced
        refine ⟨c :: front, back, rfl, ?_⟩
        rw [byteLen_cons, same]
        omega
    | case4 => cases sliced

theorem Boundary.le {input : List Char} {pos : Nat} (boundary : Boundary input pos) :
    pos ≤ byteLen input := by
  obtain ⟨front, back, rfl, rfl⟩ := boundary
  rw [byteLen_append]
  omega

/-! ## The machine -/

/-- The loops of `next_token` that look for the end of a token. -/
inductive Scan
  | literal
  | atWord
  | word
deriving Repr, DecidableEq

/-- Where a call of `next_token` stands. -/
inductive Point
  | skipWhitespace
  | dispatch
  | scan (loop : Scan) (stop : Nat)
  /-- behind the text of a literal -/
  | closing (word : List Char)
  | returned (token : Option Token)
deriving Repr, DecidableEq

structure LexerState where
  pos : Nat
  point : Point
deriving Repr, DecidableEq

section Machine
variable [UnicodeTables]

open UnicodeTables

namespace Scan

def goesOn : Scan → Char → Bool
  | literal, c => c ≠ '\x22'
  | atWord, c => isAlphanumeric c
  | word, c => isAlphanumeric c || c == '_'

/-- What follows a loop, with the text it has found. -/
def found : Scan → List Char → Point
  | literal, text => .closing text
  | atWord, text =>
      if text = "@indexed".toList then .returned (some .atIndexed)
      else if text = "@prefix".toList then .returned (some .atPrefix)
      else .skipWhitespace
  | word, text =>
      if String.ofList text = "type" ∨ String.ofList text = "enum" then
        .returned (some (.keyword (String.ofList text)))
      else .returned (some (.identifier (String.ofList text)))

def finish (input : List Char) (loop : Scan) (pos stop : Nat) : Option LexerState :=
  (slice input pos stop).map fun text => { pos := stop, point := loop.found text }

end Scan

/-- `none` is a panic, or the end of the call. -/
def LexerState.step (input : List Char) (s : LexerState) : Option LexerState :=
  match s.point with
  | .skipWhitespace =>
      if s.pos < byteLen input then
        (charAt input s.pos).map fun c =>
          if isWhitespace c then { s with pos := s.pos + c.utf8Size }
          else { s with point := .dispatch }
      else some { s with point := .dispatch }
  | .dispatch =>
      if byteLen input ≤ s.pos then some { s with point := .returned none }
      else (charAt input s.pos).map fun c =>
        match punctuation c with
        | some token => { pos := s.pos + 1, point := .returned (some token) }
        | none =>
            if c = '\x22' then { pos := s.pos + 1, point := .scan .literal (s.pos + 1) }
            else if c = '@' then { s with point := .scan .atWord (s.pos + 1) }
            else if isAlphabetic c || c == '_' then { s with point := .scan .word s.pos }
            else { pos := s.pos + c.utf8Size, point := .skipWhitespace }
  | .scan loop stop =>
      if stop < byteLen input then
        (charAt input stop).bind fun c =>
          if loop.goesOn c then some { s with point := .scan loop (stop + c.utf8Size) }
          else loop.finish input s.pos stop
      else loop.finish input s.pos stop
  | .closing text =>
      if s.pos < byteLen input then
        (charAt input s.pos).map fun c =>
          { pos := if c = '\x22' then s.pos + 1 else s.pos
            point := .returned (some (.stringLiteral (String.ofList text))) }
      else some { s with point := .returned (some (.stringLiteral (String.ofList text))) }
  | .returned _ => none

/-! ## What a call does -/

/-- The position, and the end of the token that is looked for, are boundaries. -/
structure LexerState.Safe (input : List Char) (s : LexerState) : Prop where
  pos : Boundary input s.pos
  stop : ∀ loop stop, s.point = .scan loop stop → Boundary input stop ∧ s.pos ≤ stop

/-- The state behind some characters. -/
abbrev behind (front : List Char) (point : Point) : LexerState := { pos := byteLen front, point }

/-- A run of the machine on safe states. -/
abbrev Lexes (input : List Char) : LexerState → LexerState → Prop :=
  Path (LexerState.step input) (LexerState.Safe input)

variable {input : List Char}

omit [UnicodeTables] in
theorem safe_behind {front back : List Char} (split : input = front ++ back) {point : Point}
    (notScan : ∀ loop stop, point ≠ .scan loop stop) : (behind front point).Safe input :=
  ⟨⟨front, back, split, rfl⟩, fun loop stop same => absurd same (notScan loop stop)⟩

omit [UnicodeTables] in
theorem safe_scan {front middle back : List Char} (split : input = front ++ (middle ++ back))
    (loop : Scan) {stop : Nat} (reached : stop = byteLen (front ++ middle)) :
    (behind front (.scan loop stop)).Safe input := by
  refine ⟨⟨front, middle ++ back, split, rfl⟩, fun _ _ same => ?_⟩
  cases same
  refine ⟨⟨front ++ middle, back, by rw [split, List.append_assoc], reached.symm⟩, ?_⟩
  rw [reached, byteLen_append]
  exact Nat.le_add_right _ _

omit [UnicodeTables] in
theorem behind_lt {front : List Char} {c : Char} {rest : List Char}
    (split : input = front ++ c :: rest) : byteLen front < byteLen input := by
  rw [split, byteLen_append, byteLen_cons]
  have := c.utf8Size_pos
  omega

omit [UnicodeTables] in
theorem behind_not_lt {front : List Char} (split : input = front ++ []) :
    ¬ byteLen front < byteLen input := by
  rw [split, List.append_nil]
  exact Nat.lt_irrefl _

omit [UnicodeTables] in
theorem split_next {front : List Char} {c : Char} {rest : List Char}
    (split : input = front ++ c :: rest) : input = (front ++ [c]) ++ rest := by
  rw [split, List.append_assoc]
  rfl

omit [UnicodeTables] in
theorem byteLen_concat (front : List Char) (c : Char) :
    byteLen (front ++ [c]) = byteLen front + c.utf8Size := by
  rw [byteLen_append, byteLen_cons]
  rfl

/-- The loop of `skip_whitespace`. -/
theorem lexes_skip {front back : List Char} (split : input = front ++ back) :
    Lexes input (behind front .skipWhitespace)
      (behind (front ++ back.takeWhile isWhitespace) .dispatch) := by
  induction back generalizing front with
  | nil =>
      rw [List.takeWhile_nil, List.append_nil]
      refine .move (safe_behind split (by simp)) ?_ (.done (safe_behind split (by simp)))
      exact if_neg (behind_not_lt split)
  | cons c rest ih =>
      have inside := behind_lt split
      have moved : (behind front .skipWhitespace).step input =
          some (if isWhitespace c then behind (front ++ [c]) .skipWhitespace
            else behind front .dispatch) := by
        rw [LexerState.step]
        simp only [behind, inside, if_true, charAt_split split, Option.map_some, byteLen_concat]
      refine .move (safe_behind split (by simp)) moved ?_
      cases space : isWhitespace c with
      | true =>
          rw [List.takeWhile_cons_of_pos space, if_pos rfl]
          have later := ih (split_next split)
          rwa [List.append_assoc] at later
      | false =>
          rw [List.takeWhile_cons_of_neg (by simp [space]), List.append_nil]
          exact .done (safe_behind split (by simp))

/-- The loop behind a token that has begun with `middle`. -/
theorem lexes_scan (loop : Scan) {front middle back : List Char}
    (split : input = front ++ (middle ++ back)) {stop : Nat}
    (reached : stop = byteLen (front ++ middle)) :
    Lexes input (behind front (.scan loop stop))
      (behind front (.scan loop (byteLen (front ++ (middle ++ back.takeWhile loop.goesOn))))) := by
  induction back generalizing middle stop with
  | nil =>
      rw [List.takeWhile_nil, List.append_nil, ← reached]
      exact .done (safe_scan split loop reached)
  | cons c rest ih =>
      have splitHere : input = (front ++ middle) ++ c :: rest := by rw [split, List.append_assoc]
      have inside : stop < byteLen input := by
        rw [reached]
        exact behind_lt splitHere
      have here : charAt input stop = some c := by
        rw [reached]
        exact charAt_split splitHere
      cases passes : loop.goesOn c with
      | true =>
          have moved : (behind front (.scan loop stop)).step input =
              some (behind front (.scan loop (stop + c.utf8Size))) := by
            rw [LexerState.step]
            simp only [behind, inside, if_true, here, Option.bind_some, passes]
          have splitNext : input = front ++ ((middle ++ [c]) ++ rest) := by
            rw [split, List.append_assoc]
            rfl
          have reachedNext : stop + c.utf8Size = byteLen (front ++ (middle ++ [c])) := by
            rw [← List.append_assoc, byteLen_concat, reached]
          have later := ih splitNext reachedNext
          rw [List.append_assoc] at later
          rw [List.takeWhile_cons_of_pos passes]
          exact .move (safe_scan split loop reached) moved later
      | false =>
          rw [List.takeWhile_cons_of_neg (by simp [passes]), List.append_nil, ← reached]
          exact .done (safe_scan split loop reached)

/-- The end of a loop, before a character it does not go on with. -/
theorem step_finish (loop : Scan) {front middle back : List Char}
    (split : input = front ++ (middle ++ back))
    (ends : ∀ c, back.head? = some c → loop.goesOn c = false) :
    (behind front (.scan loop (byteLen (front ++ middle)))).step input =
      some (behind (front ++ middle) (loop.found middle)) := by
  have finish : loop.finish input (byteLen front) (byteLen (front ++ middle)) =
      some (behind (front ++ middle) (loop.found middle)) := by
    rw [Scan.finish, split, byteLen_append, slice_middle, Option.map_some, ← byteLen_append]
  rw [LexerState.step]
  dsimp only
  cases back with
  | nil =>
      rw [← List.append_assoc] at split
      rw [if_neg (behind_not_lt split), finish]
  | cons c rest =>
      have splitHere : input = (front ++ middle) ++ c :: rest := by rw [split, List.append_assoc]
      rw [if_pos (behind_lt splitHere), charAt_split splitHere, Option.bind_some, ends c rfl,
        finish]
      rfl

/-- A loop from where a token begins to what is found there. -/
theorem lexes_token (loop : Scan) {front middle back : List Char}
    (split : input = front ++ (middle ++ back)) {stop : Nat}
    (reached : stop = byteLen (front ++ middle)) {t : LexerState}
    (rest : Lexes input (behind (front ++ (middle ++ back.takeWhile loop.goesOn))
      (loop.found (middle ++ back.takeWhile loop.goesOn))) t) :
    Lexes input (behind front (.scan loop stop)) t := by
  have whole : input = front ++ ((middle ++ back.takeWhile loop.goesOn) ++
      back.dropWhile loop.goesOn) := by
    rw [List.append_assoc, List.takeWhile_append_dropWhile, split]
  have ends : ∀ c, (back.dropWhile loop.goesOn).head? = some c → loop.goesOn c = false := by
    intro c first
    have stopped := List.head?_dropWhile_not loop.goesOn back
    rw [first] at stopped
    exact stopped
  exact (lexes_scan loop split reached).trans
    (.move (safe_scan whole loop rfl) (step_finish loop whole ends) rest)

/-! ### Single steps -/

section Dispatch
variable {front rest : List Char} {c : Char}

theorem step_dispatch (split : input = front ++ c :: rest) :
    (behind front .dispatch).step input = some (match punctuation c with
      | some token => behind (front ++ [c]) (.returned (some token))
      | none =>
          if c = '\x22' then behind (front ++ [c]) (.scan .literal (byteLen (front ++ [c])))
          else if c = '@' then behind front (.scan .atWord (byteLen (front ++ [c])))
          else if isAlphabetic c || c == '_' then behind front (.scan .word (byteLen front))
          else behind (front ++ [c]) .skipWhitespace) := by
  have inside : ¬ byteLen input ≤ byteLen front := Nat.not_le.mpr (behind_lt split)
  rw [LexerState.step]
  simp only [behind, inside, if_false, charAt_split split, Option.map_some, byteLen_concat]
  cases mark : punctuation c with
  | some token =>
      have single : c.utf8Size = 1 := by
        unfold punctuation at mark
        split at mark <;> first | rfl | cases mark
      rw [single]
  | none =>
      dsimp only
      split_ifs with quote at_
      · rw [quote]
        rfl
      · rw [at_]
        rfl
      · rfl
      · rfl

/-- Behind a literal stands its closing quote, or nothing. -/
theorem step_closing {text after : List Char} (split : input = front ++ after)
    (quote : ∀ c, after.head? = some c → c = '\x22') :
    (behind front (.closing text)).step input =
      some (behind (front ++ after.take 1)
        (.returned (some (.stringLiteral (String.ofList text))))) := by
  rw [LexerState.step]
  cases after with
  | nil =>
      simp only [behind, behind_not_lt split, if_false, List.take_nil, List.append_nil]
  | cons c rest =>
      obtain rfl := quote c rfl
      have next : byteLen (front ++ ('\x22' :: rest).take 1) = byteLen front + 1 :=
        byteLen_concat front '\x22'
      simp only [behind, behind_lt split, if_true, charAt_split split, Option.map_some, next]

end Dispatch

/-! ### Whole calls -/

theorem lexes_to_char {front back rest : List Char} {c : Char} (split : input = front ++ back)
    (skipped : back.dropWhile isWhitespace = c :: rest) :
    ∃ before, input = before ++ c :: rest ∧ ∀ next t,
      (behind before .dispatch).step input = some next → Lexes input next t →
        Lexes input (behind front .skipWhitespace) t := by
  have here : input = (front ++ back.takeWhile isWhitespace) ++ c :: rest := by
    rw [← skipped, List.append_assoc, List.takeWhile_append_dropWhile, split]
  exact ⟨_, here, fun next t moved later =>
    (lexes_skip split).trans (.move (safe_behind here (by simp)) moved later)⟩

omit [UnicodeTables] in
theorem found_atWord (word : List Char) :
    Scan.found .atWord ('@' :: word) =
      if word = "indexed".toList then .returned (some .atIndexed)
      else if word = "prefix".toList then .returned (some .atPrefix)
      else .skipWhitespace := by
  have indexed : "@indexed".toList = '@' :: "indexed".toList := rfl
  have keyPrefix : "@prefix".toList = '@' :: "prefix".toList := rfl
  simp only [Scan.found, indexed, keyPrefix, List.cons.injEq, true_and]

theorem step_at {before rest : List Char} (here : input = before ++ '@' :: rest) :
    (behind before .dispatch).step input =
      some (behind before (.scan .atWord (byteLen (before ++ ['@'])))) := by
  have mark : punctuation '@' = none := rfl
  rw [step_dispatch here, mark]
  rfl

/-- The word behind an `@`, with what is left of the input. -/
theorem lexes_atWord {before rest : List Char} (here : input = before ++ '@' :: rest) :
    input = (before ++ '@' :: rest.takeWhile isAlphanumeric) ++ rest.dropWhile isAlphanumeric ∧
      ∀ t, Lexes input (behind (before ++ '@' :: rest.takeWhile isAlphanumeric)
          (Scan.found .atWord ('@' :: rest.takeWhile isAlphanumeric))) t →
        Lexes input (behind before (.scan .atWord (byteLen (before ++ ['@'])))) t := by
  refine ⟨?_, fun t later => ?_⟩
  · rw [List.append_assoc, List.cons_append, List.takeWhile_append_dropWhile]
    exact here
  · have inside : input = before ++ (['@'] ++ rest) := here
    exact lexes_token .atWord inside rfl later

/-- The word that begins here, with what is left of the input. -/
theorem lexes_word {before : List Char} {c : Char} {rest : List Char}
    (here : input = before ++ c :: rest) :
    input = (before ++ (c :: rest).takeWhile isWordChar) ++ (c :: rest).dropWhile isWordChar ∧
      ∀ t, Lexes input (behind (before ++ (c :: rest).takeWhile isWordChar)
          (Scan.found .word ((c :: rest).takeWhile isWordChar))) t →
        Lexes input (behind before (.scan .word (byteLen before))) t := by
  refine ⟨?_, fun t later => ?_⟩
  · rw [List.append_assoc, List.takeWhile_append_dropWhile]
    exact here
  · have inside : input = before ++ ([] ++ c :: rest) := here
    exact lexes_token .word inside (by rw [List.append_nil]) later

/-- A call from a boundary returns what `nextToken` reads there, and moves behind it. -/
theorem lexes_nextToken {front back : List Char} (split : input = front ++ back) :
    ∃ front' rest token, input = front' ++ rest ∧
      nextToken back = token.map (fun t => (t, rest)) ∧
      Lexes input (behind front .skipWhitespace) (behind front' (.returned token)) := by
  fun_induction nextToken back generalizing front with
  | case1 back skipped =>
      have whole : input = (front ++ back.takeWhile isWhitespace) ++ [] := by
        rw [← skipped, List.append_assoc, List.takeWhile_append_dropWhile, split]
      refine ⟨front ++ back.takeWhile isWhitespace, [], none, whole, rfl, ?_⟩
      refine (lexes_skip split).trans (.move (safe_behind whole (by simp)) ?_
        (.done (safe_behind whole (by simp))))
      rw [List.append_nil] at whole
      rw [LexerState.step, ← whole]
      exact if_pos le_rfl
  | case2 back c rest skipped token mark =>
      obtain ⟨before, here, lexes⟩ := lexes_to_char split skipped
      have next := split_next here
      refine ⟨before ++ [c], rest, some token, next, rfl,
        lexes _ _ ?_ (.done (safe_behind next (by simp)))⟩
      rw [step_dispatch here, mark]
  | case3 back rest after skipped =>
      have mark : punctuation '\x22' = none := rfl
      obtain ⟨before, here, lexes⟩ := lexes_to_char split skipped
      have inside : input = (before ++ ['\x22']) ++ ([] ++ rest) := split_next here
      have behindText : input = ((before ++ ['\x22']) ++ rest.takeWhile (· ≠ '\x22')) ++ after := by
        rw [List.append_assoc _ (rest.takeWhile _), List.takeWhile_append_dropWhile]
        exact inside
      have whole : input = (((before ++ ['\x22']) ++ rest.takeWhile (· ≠ '\x22')) ++
          after.take 1) ++ after.drop 1 := by
        rw [List.append_assoc _ (after.take 1), List.take_append_drop]
        exact behindText
      have quote : ∀ c, after.head? = some c → c = '\x22' := by
        intro c first
        have stopped := List.head?_dropWhile_not (· ≠ '\x22') rest
        rw [first] at stopped
        simpa using stopped
      refine ⟨_, after.drop 1, some _, whole, rfl, lexes _ _ ?_ (lexes_token .literal inside
        (by rw [List.append_nil]) (.move ?_ (step_closing behindText quote) (.done ?_)))⟩
      · rw [step_dispatch here, mark]
        rfl
      · exact safe_behind behindText (by simp [Scan.found])
      · exact safe_behind whole (by simp)
  | case4 back rest after word skipped =>
      obtain ⟨before, here, lexes⟩ := lexes_to_char split skipped
      obtain ⟨whole, toWord⟩ := lexes_atWord here
      rw [found_atWord, if_pos word] at toWord
      exact ⟨_, after, some .atIndexed, whole, rfl,
        lexes _ _ (step_at here) (toWord _ (.done (safe_behind whole (by simp))))⟩
  | case5 back rest after other word skipped =>
      obtain ⟨before, here, lexes⟩ := lexes_to_char split skipped
      obtain ⟨whole, toWord⟩ := lexes_atWord here
      rw [found_atWord, if_neg other, if_pos word] at toWord
      exact ⟨_, after, some .atPrefix, whole, rfl,
        lexes _ _ (step_at here) (toWord _ (.done (safe_behind whole (by simp))))⟩
  | case6 back rest after other other' skipped _ _ =>
      rename_i ih
      obtain ⟨before, here, lexes⟩ := lexes_to_char split skipped
      obtain ⟨whole, toWord⟩ := lexes_atWord here
      rw [found_atWord, if_neg other, if_neg other'] at toWord
      obtain ⟨front', left, token, last, read, called⟩ := ih whole
      exact ⟨front', left, token, last, read, lexes _ _ (step_at here) (toWord _ called)⟩
  | case7 back c rest skipped mark noQuote noAt starts word after =>
      rename_i isKeyword
      obtain ⟨before, here, lexes⟩ := lexes_to_char split skipped
      obtain ⟨whole, toWord⟩ := lexes_word here
      rw [Scan.found, if_pos isKeyword] at toWord
      refine ⟨_, after, some (.keyword word), whole, rfl,
        lexes _ _ ?_ (toWord _ (.done (safe_behind whole (by simp))))⟩
      rw [step_dispatch here, mark]
      exact congrArg some (by rw [if_neg noQuote, if_neg noAt, if_pos starts])
  | case8 back c rest skipped mark noQuote noAt starts word after =>
      rename_i noKeyword
      obtain ⟨before, here, lexes⟩ := lexes_to_char split skipped
      obtain ⟨whole, toWord⟩ := lexes_word here
      rw [Scan.found, if_neg noKeyword] at toWord
      refine ⟨_, after, some (.identifier word), whole, rfl,
        lexes _ _ ?_ (toWord _ (.done (safe_behind whole (by simp))))⟩
      rw [step_dispatch here, mark]
      exact congrArg some (by rw [if_neg noQuote, if_neg noAt, if_pos starts])
  | case9 back c rest skipped mark noQuote noAt noStart ih =>
      obtain ⟨before, here, lexes⟩ := lexes_to_char split skipped
      obtain ⟨front', left, token, last, read, called⟩ := ih (split_next here)
      refine ⟨front', left, token, last, read, lexes _ _ ?_ called⟩
      rw [step_dispatch here, mark]
      exact congrArg some (by rw [if_neg noQuote, if_neg noAt, if_neg noStart])

omit [UnicodeTables] in
/-- Less that is left, more that is passed. -/
theorem byteLen_lt {front front' back back' : List Char}
    (same : front ++ back = front' ++ back') (fewer : back'.length < back.length) :
    byteLen front < byteLen front' := by
  have lengths := congrArg List.length same
  rw [List.length_append, List.length_append] at lengths
  obtain ⟨between, rfl⟩ : front <+: front' :=
    List.prefix_of_prefix_length_le ⟨back, same⟩ ⟨back', rfl⟩ (by omega)
  cases between with
  | nil =>
      rw [List.append_nil] at lengths
      omega
  | cons c rest =>
      rw [byteLen_append, byteLen_cons]
      have := c.utf8Size_pos
      omega

/-- What holds of a call of `next_token` that begins at a position. -/
structure LexerCall (input : List Char) (pos : Nat) (final : LexerState) (token : Option Token) :
    Prop where
  ends : StateTransition.Reaches (LexerState.step input) { pos, point := .skipWhitespace } final
  returned : final.point = .returned token
  safe : ∀ s, StateTransition.Reaches (LexerState.step input) { pos, point := .skipWhitespace } s →
    s.Safe input ∧ s.pos ≤ byteLen input
  moves : ∀ s, StateTransition.Reaches (LexerState.step input) { pos, point := .skipWhitespace } s →
    s ≠ final → ∃ next, s.step input = some next
  progress : token ≠ none → pos < final.pos
  reads : ∃ back rest, sliceFrom input pos = some back ∧ sliceFrom input final.pos = some rest ∧
    nextToken back = token.map fun t => (t, rest)

/-- Every call from a boundary ends, without a panic and without leaving the
boundaries, and behind the token it returns. -/
theorem call_of_boundary {pos : Nat} (boundary : Boundary input pos) :
    ∃ final token, LexerCall input pos final token := by
  obtain ⟨front, back, split, rfl⟩ := boundary
  obtain ⟨front', rest, token, split', read, lexes⟩ := lexes_nextToken split
  have ended : (behind front' (.returned token)).step input = none := rfl
  refine ⟨_, token, lexes.reaches, rfl, fun s reached => ?_, fun s reached other =>
    lexes.moves ended reached other, fun found => ?_, back, rest, ?_, ?_, read⟩
  · have safe := (lexes.of_reaches ended reached).1
    exact ⟨safe, safe.pos.le⟩
  · obtain ⟨t, rfl⟩ := Option.ne_none_iff_exists'.mp found
    exact byteLen_lt (split.symm.trans split') (nextToken_shorter read)
  · rw [split, sliceFrom_append]
  · rw [split', sliceFrom_append]

end Machine

end KindDb.Schema
