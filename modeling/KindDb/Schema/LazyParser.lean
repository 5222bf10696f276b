import KindDb.Schema.LexerBytes
import KindDb.Schema.Parser

/-! # The parser as it draws on the lexer

`Parser` holds one token and asks the lexer for the next when it has used it.
Its loops test for a closing brace only; here they get so many turns, and `none`
is a loop that has not ended.  With a turn for every token they do what the
functions on lists of tokens do. -/
set_option autoImplicit false

namespace KindDb.Schema

section Tokens
variable [UnicodeTables]

theorem tokens_of_none {input : List Char} (read : nextToken input = none) : tokens input = [] := by
  rw [tokens]
  split
  · rfl
  · next read' =>
      rw [read] at read'
      cases read'

theorem tokens_of_some {input rest : List Char} {token : Token}
    (read : nextToken input = some (token, rest)) : tokens input = token :: tokens rest := by
  rw [tokens]
  split
  · next read' =>
      rw [read] at read'
      cases read'
  · next read' =>
      rw [read] at read'
      cases read'
      rfl

/-- Every token takes a character at least. -/
theorem length_tokens_le (input : List Char) : (tokens input).length ≤ input.length := by
  fun_induction tokens input with
  | case1 => exact Nat.zero_le _
  | case2 input token rest read ih =>
      have shorter := nextToken_shorter read
      rw [List.length_cons]
      omega

end Tokens

structure Parser where
  /-- the text behind the position of the lexer -/
  lexer : List Char
  currentToken : Option Token
  /-- how many tokens the lexer has returned -/
  drawn : Nat

/-- A method of the parser: what it returns, and the parser it leaves. -/
def ParseM (α : Type) : Type := Parser → Option (Except String α × Parser)

namespace ParseM

instance : Monad ParseM where
  pure a := fun p => some (.ok a, p)
  bind x f := fun p =>
    match x p with
    | none => none
    | some (.error e, q) => some (.error e, q)
    | some (.ok a, q) => f a q

theorem bind_eq {α β : Type} (x : ParseM α) (f : α → ParseM β) (p : Parser) : (x >>= f) p =
    match x p with
    | none => none
    | some (.error e, q) => some (.error e, q)
    | some (.ok a, q) => f a q := rfl

def fail {α : Type} (e : String) : ParseM α := fun p => some (.error e, p)

/-- A loop without a turn left. -/
def spent {α : Type} : ParseM α := fun _ => none

end ParseM

namespace Parser
variable [UnicodeTables]

open ParseM

def advance (p : Parser) : Parser :=
  match nextToken p.lexer with
  | none => { p with lexer := [], currentToken := none }
  | some (token, rest) => { lexer := rest, currentToken := some token, drawn := p.drawn + 1 }

def new (input : List Char) : Parser := advance { lexer := input, currentToken := none, drawn := 0 }

def current : ParseM (Option Token) := fun p => some (.ok p.currentToken, p)

def next : ParseM Unit := fun p => some (.ok (), p.advance)

def expectIdentifier : ParseM String := do
  match ← current with
  | some (.identifier id) =>
      next
      return id
  | _ => fail "Expected identifier"

def matchToken (expected : Token) : ParseM Unit := do
  if (← current) = some expected then next
  else fail ("Expected " ++ expected.debug)

def parseDataType : Nat → ParseM DataType
  | 0 => spent
  | turns + 1 => do
      if (← current) = some .lBracket then
        next
        let inner ← parseDataType turns
        matchToken .rBracket
        return .array inner
      else
        let typeName ← expectIdentifier
        return namedDataType typeName

def separator : ParseM Unit := do
  let token ← current
  if token = some .comma then next
  else if token = some .rBrace then pure ()
  else fail "Expected comma or \x7d"

def parseField (turns : Nat) : ParseM FieldDefinition := do
  let isIndexed := decide ((← current) = some .atIndexed)
  if isIndexed then next
  let name ← expectIdentifier
  matchToken .colon
  let dataType ← parseDataType turns
  separator
  return { name, dataType, isIndexed }

def parseVariant : ParseM String := do
  let variant ← expectIdentifier
  separator
  return variant

/-- `while self.current_token != Some(Token::RBrace)` -/
def untilRBrace {α : Type} (item : ParseM α) : Nat → ParseM (List α)
  | 0 => spent
  | turns + 1 => do
      if (← current) = some .rBrace then return []
      else
        let a ← item
        let as ← untilRBrace item turns
        return a :: as

def parseBody {α : Type} (item : ParseM α) (turns : Nat) : ParseM (String × List α) := do
  let name ← expectIdentifier
  matchToken .lBrace
  let items ← untilRBrace item turns
  matchToken .rBrace
  return (name, items)

def parsePrefix : ParseM (Option String) := do
  if (← current) = some .atPrefix then
    next
    matchToken .lParen
    match ← current with
    | some (.stringLiteral s) =>
        next
        matchToken .rParen
        return some s
    | _ => fail "Expected string literal after @prefix("
  else return none

def parseNode (turns : Nat) : ParseM SchemaNode := do
  let keyPrefix ← parsePrefix
  match ← current with
  | some (.keyword "type") =>
      next
      let (name, fields) ← parseBody (parseField turns) turns
      return .type { name, fields, keyPrefix }
  | some (.keyword "enum") =>
      next
      let (name, variants) ← parseBody parseVariant turns
      return .enum { name, variants }
  | _ => fail "Expected keyword 'type' or 'enum'"

/-- `while self.current_token.is_some()` -/
def parseNodes (inner : Nat) : Nat → ParseM (List SchemaNode)
  | 0 => spent
  | turns + 1 => do
      if (← current) = none then return []
      else
        let node ← parseNode inner
        let nodes ← parseNodes inner turns
        return node :: nodes

def parse (turns : Nat) : ParseM (List SchemaNode) := parseNodes turns turns

/-! ## The tokens ahead -/

/-- The current token and those the lexer still returns. -/
def ahead (p : Parser) : Tokens :=
  match p.currentToken with
  | none => []
  | some token => token :: tokens p.lexer

/-- How many tokens there are, drawn or not. -/
def total (p : Parser) : Nat := p.drawn + (tokens p.lexer).length

theorem total_advance (p : Parser) : p.advance.total = p.total := by
  unfold total advance
  cases read : nextToken p.lexer with
  | none => rw [tokens_of_none read, tokens_of_none (by rw [nextToken]; rfl)]
  | some found =>
      obtain ⟨token, rest⟩ := found
      rw [tokens_of_some read, List.length_cons]
      dsimp only
      omega

theorem ahead_advance (p : Parser) : p.advance.ahead = tokens p.lexer := by
  unfold ahead advance
  cases read : nextToken p.lexer with
  | none => rw [tokens_of_none read]
  | some found => rw [tokens_of_some read]

/-- The method ends as the function on the tokens ahead does. -/
def Yields {α : Type} (x : ParseM α) (p : Parser) (result : Except String (α × Tokens)) : Prop :=
  ∃ q, q.total = p.total ∧
    match result with
    | .ok (a, rest) => x p = some (.ok a, q) ∧ q.ahead = rest
    | .error e => x p = some (.error e, q)

section Rules
variable {α β : Type} {p : Parser}

theorem yields_pure (a : α) : Yields (pure a) p (.ok (a, p.ahead)) := ⟨p, rfl, rfl, rfl⟩

theorem yields_fail (e : String) : Yields (fail e : ParseM α) p (.error e) := ⟨p, rfl, rfl⟩

theorem Yields.bind {x : ParseM α} {f : α → ParseM β} {result : Except String (α × Tokens)}
    {g : α × Tokens → Except String (β × Tokens)} (first : Yields x p result)
    (then_ : ∀ a q, result = .ok (a, q.ahead) → Yields (f a) q (g (a, q.ahead))) :
    Yields (x >>= f) p (result >>= g) := by
  obtain ⟨q, same, ended⟩ := first
  cases result with
  | error e =>
      have bound : (x >>= f) p = some (.error e, q) := by rw [bind_eq, ended]
      exact ⟨q, same, bound⟩
  | ok found =>
      obtain ⟨a, rest⟩ := found
      obtain ⟨ended, rfl⟩ := ended
      obtain ⟨r, same', ended'⟩ := then_ a q rfl
      have bound : (x >>= f) p = f a q := by rw [bind_eq, ended]
      refine ⟨r, same'.trans same, ?_⟩
      rw [bound]
      exact ended'

theorem Yields.bindUnit {x : ParseM Unit} {f : Unit → ParseM β} {result : Except String Tokens}
    {g : Tokens → Except String (β × Tokens)}
    (first : Yields x p (result.map fun rest => ((), rest)))
    (then_ : ∀ q, result = .ok q.ahead → Yields (f ()) q (g q.ahead)) :
    Yields (x >>= f) p (result >>= g) := by
  have same : (result.map fun rest => ((), rest)) >>= (fun found => g found.2) = result >>= g := by
    cases result <;> rfl
  rw [← same]
  apply first.bind
  intro a q read
  apply then_ q
  cases result with
  | error e => cases read
  | ok rest =>
      cases read
      rfl

theorem yields_current {f : Option Token → ParseM β} {result : Except String (β × Tokens)}
    (then_ : Yields (f p.currentToken) p result) : Yields (current >>= f) p result := then_

theorem yields_next {f : Unit → ParseM β} {result : Except String (β × Tokens)}
    (then_ : Yields (f ()) p.advance result) : Yields (next >>= f) p result := by
  obtain ⟨q, same, ended⟩ := then_
  exact ⟨q, same.trans (total_advance p), ended⟩

theorem ahead_none (held : p.currentToken = none) : p.ahead = [] := by rw [ahead, held]

theorem ahead_some {token : Token} (held : p.currentToken = some token) :
    p.ahead = token :: p.advance.ahead := by
  rw [ahead_advance, ahead, held]

theorem head?_ahead : p.ahead.head? = p.currentToken := by
  cases held : p.currentToken with
  | none => rw [ahead_none held, List.head?_nil]
  | some token => rw [ahead_some held, List.head?_cons]

theorem ahead_ne_cons {token : Token} (other : p.currentToken ≠ some token) (rest : Tokens)
    (same : p.ahead = token :: rest) : False := by
  rw [← head?_ahead, same] at other
  exact other rfl

end Rules

/-! ## The methods -/

variable {p : Parser}

theorem yields_expectIdentifier : Yields expectIdentifier p (Schema.expectIdentifier p.ahead) := by
  unfold expectIdentifier
  apply yields_current
  cases held : p.currentToken with
  | none =>
      rw [ahead_none held]
      exact yields_fail _
  | some token =>
      rw [ahead_some held]
      cases token with
      | identifier id => exact yields_next (yields_pure id)
      | _ => exact yields_fail _

theorem yields_matchToken (expected : Token) : Yields (matchToken expected) p
    ((Schema.matchToken expected p.ahead).map fun rest => ((), rest)) := by
  unfold matchToken
  apply yields_current
  cases held : p.currentToken with
  | none =>
      rw [ahead_none held]
      exact yields_fail _
  | some token =>
      rw [ahead_some held, Schema.matchToken]
      by_cases same : token = expected
      · rw [if_pos (congrArg some same), if_pos same]
        exact ⟨p.advance, total_advance p, rfl, rfl⟩
      · rw [if_neg (fun equal => same (Option.some.inj equal)), if_neg same]
        exact yields_fail _

theorem yields_separator : Yields separator p
    ((Schema.separator p.ahead).map fun rest => ((), rest)) := by
  unfold separator
  apply yields_current
  cases held : p.currentToken with
  | none =>
      rw [ahead_none held]
      exact yields_fail _
  | some token =>
      rw [ahead_some held]
      cases token with
      | comma => exact ⟨p.advance, total_advance p, rfl, rfl⟩
      | rBrace => exact ⟨p, rfl, rfl, ahead_some held⟩
      | _ => exact yields_fail _

theorem yields_parseDataType {turns : Nat} (enough : p.ahead.length < turns) :
    Yields (parseDataType turns) p (Schema.parseDataType p.ahead) := by
  induction turns generalizing p with
  | zero => exact absurd enough (Nat.not_lt_zero _)
  | succ turns ih =>
      unfold parseDataType
      apply yields_current
      by_cases bracket : p.currentToken = some .lBracket
      · have ahead := ahead_some bracket
        rw [ahead, List.length_cons] at enough
        rw [if_pos bracket, ahead, Schema.parseDataType]
        apply yields_next
        apply (ih (by omega)).bind
        intro inner q _
        apply (yields_matchToken .rBracket).bindUnit
        intro r _
        exact yields_pure _
      · have named : Schema.parseDataType p.ahead =
            Schema.expectIdentifier p.ahead >>= fun found =>
              return (namedDataType found.1, found.2) := by
          rw [Schema.parseDataType]
          exact ahead_ne_cons bracket
        rw [if_neg bracket, named]
        apply yields_expectIdentifier.bind
        intro typeName q _
        exact yields_pure _

theorem yields_parseVariant : Yields parseVariant p (Schema.parseVariant p.ahead) := by
  apply yields_expectIdentifier.bind
  intro variant q _
  apply yields_separator.bindUnit
  intro r _
  exact yields_pure _

theorem yields_parseField {turns : Nat} (enough : p.ahead.length < turns) :
    Yields (parseField turns) p (Schema.parseField p.ahead) := by
  have rest : ∀ (isIndexed : Bool) (q : Parser), q.ahead.length < turns →
      Yields (do
        let name ← expectIdentifier
        matchToken .colon
        let dataType ← parseDataType turns
        separator
        return ({ name, dataType, isIndexed } : FieldDefinition)) q (do
        let named ← Schema.expectIdentifier q.ahead
        let rest ← Schema.matchToken .colon named.2
        let typed ← Schema.parseDataType rest
        let rest ← Schema.separator typed.2
        return ({ name := named.1, dataType := typed.1, isIndexed }, rest)) := by
    intro isIndexed q enough
    apply yields_expectIdentifier.bind
    intro name q' named
    have shorter : q'.ahead.length < turns := by
      rw [suffix_expectIdentifier named, List.length_cons] at enough
      omega
    apply (yields_matchToken .colon).bindUnit
    intro r colon
    have shorter' : r.ahead.length < turns := by
      rw [suffix_matchToken colon, List.length_cons] at shorter
      omega
    apply (yields_parseDataType shorter').bind
    intro dataType r' _
    apply yields_separator.bindUnit
    intro t _
    exact yields_pure _
  unfold parseField
  apply yields_current
  by_cases mark : p.currentToken = some .atIndexed
  · have ahead := ahead_some mark
    have marked : indexedMark p.ahead = (true, p.advance.ahead) := by rw [ahead, indexedMark]
    rw [ahead, List.length_cons] at enough
    rw [Schema.parseField, marked, decide_eq_true mark, if_pos rfl]
    exact yields_next (rest true p.advance (by omega))
  · have unmarked : indexedMark p.ahead = (false, p.ahead) := by
      rw [indexedMark]
      exact ahead_ne_cons mark
    rw [Schema.parseField, unmarked, decide_eq_false mark, if_neg (by simp)]
    exact rest false p enough

/-! ## The loops -/

section Loops
variable {α : Type} {item : ParseM α} {r : Reader α} {bound : Nat}

omit [UnicodeTables] in
theorem untilRBrace_eq (r : Reader α) {toks : Tokens} (opened : toks.head? ≠ some .rBrace) :
    r.untilRBrace toks = do
      let (a, rest) ← r.read toks
      let (as, rest) ← r.untilRBrace rest
      return (a :: as, rest) := by
  rw [Reader.untilRBrace, if_neg opened]
  split <;> next read => rw [read]; rfl

/-- A turn for every token is enough for the loop over the items of a body. -/
theorem yields_untilRBrace
    (each : ∀ {q : Parser}, q.ahead.length < bound → Yields item q (r.read q.ahead))
    {turns : Nat} (enough : p.ahead.length < turns) (inside : p.ahead.length < bound) :
    Yields (untilRBrace item turns) p (r.untilRBrace p.ahead) := by
  induction turns generalizing p with
  | zero => exact absurd enough (Nat.not_lt_zero _)
  | succ turns ih =>
      unfold untilRBrace
      apply yields_current
      by_cases closed : p.currentToken = some .rBrace
      · rw [if_pos closed, Reader.untilRBrace, if_pos (head?_ahead.trans closed)]
        exact yields_pure _
      · rw [if_neg closed, untilRBrace_eq r (head?_ahead ▸ closed)]
        apply (each inside).bind
        intro a q read
        have shorter := (r.consumes read).shorter
        apply (ih (by omega) (by omega)).bind
        intro as q' _
        exact yields_pure _

theorem yields_parseBody
    (each : ∀ {q : Parser}, q.ahead.length < bound → Yields item q (r.read q.ahead))
    (inside : p.ahead.length < bound) :
    Yields (parseBody item bound) p (Schema.parseBody r p.ahead) := by
  apply yields_expectIdentifier.bind
  intro name q named
  rw [suffix_expectIdentifier named, List.length_cons] at inside
  apply (yields_matchToken .lBrace).bindUnit
  intro q' opened
  rw [suffix_matchToken opened, List.length_cons] at inside
  apply (yields_untilRBrace each (by omega) (by omega)).bind
  intro items t _
  apply (yields_matchToken .rBrace).bindUnit
  intro t' _
  exact yields_pure _

end Loops

theorem yields_parsePrefix : Yields parsePrefix p (Schema.parsePrefix p.ahead) := by
  unfold parsePrefix
  apply yields_current
  by_cases mark : p.currentToken = some .atPrefix
  · rw [if_pos mark, ahead_some mark, Schema.parsePrefix]
    apply yields_next
    apply (yields_matchToken .lParen).bindUnit
    intro q _
    apply yields_current
    cases held : q.currentToken with
    | none =>
        rw [ahead_none held]
        exact yields_fail _
    | some token =>
        rw [ahead_some held]
        cases token with
        | stringLiteral s =>
            apply yields_next
            apply (yields_matchToken .rParen).bindUnit
            intro t _
            exact yields_pure _
        | _ => exact yields_fail _
  · have plain : Schema.parsePrefix p.ahead = .ok (none, p.ahead) := by
      rw [Schema.parsePrefix]
      exact ahead_ne_cons mark
    rw [if_neg mark, plain]
    exact yields_pure _

theorem yields_parseNode {turns : Nat} (enough : p.ahead.length < turns) :
    Yields (parseNode turns) p (Schema.parseNode p.ahead) := by
  apply yields_parsePrefix.bind
  intro keyPrefix q read
  have inside : q.ahead.length < turns :=
    Nat.lt_of_le_of_lt (suffix_parsePrefix read).length_le enough
  apply yields_current
  change Yields _ q (Schema.parseDeclaration keyPrefix q.ahead)
  cases held : q.currentToken with
  | none =>
      rw [ahead_none held]
      exact yields_fail _
  | some token =>
      have ahead := ahead_some held
      rw [ahead, List.length_cons] at inside
      rw [ahead]
      cases token with
      | keyword word =>
          by_cases isType : word = "type"
          · subst isType
            apply yields_next
            apply (yields_parseBody (r := fieldReader) yields_parseField (by omega)).bind
            intro body t _
            exact yields_pure _
          · by_cases isEnum : word = "enum"
            · subst isEnum
              apply yields_next
              apply (yields_parseBody (r := variantReader) (fun _ => yields_parseVariant)
                (by omega)).bind
              intro body t _
              exact yields_pure _
            · have refused : Schema.parseDeclaration keyPrefix
                  (.keyword word :: q.advance.ahead) =
                    .error "Expected keyword 'type' or 'enum'" := by
                unfold Schema.parseDeclaration
                split
                · next same => exact absurd (Token.keyword.inj (List.cons.inj same).1) isType
                · next same => exact absurd (Token.keyword.inj (List.cons.inj same).1) isEnum
                · rfl
              rw [refused]
              split
              · next same => exact absurd (Token.keyword.inj (Option.some.inj same)) isType
              · next same => exact absurd (Token.keyword.inj (Option.some.inj same)) isEnum
              · exact yields_fail _
      | _ => exact yields_fail _

omit [UnicodeTables] in
theorem parse_eq {toks : Tokens} (goesOn : toks ≠ []) :
    Schema.parse toks = do
      let (node, rest) ← Schema.parseNode toks
      let nodes ← Schema.parse rest
      return node :: nodes := by
  have reads : nodeReader.read toks = Schema.parseNode toks := rfl
  rw [Schema.parse, Reader.untilEnd, if_neg goesOn, ← reads]
  split <;> next read => rw [read]; rfl

/-- A turn for every token is enough for the loop over the nodes, which stops
where no tokens are left. -/
theorem yields_parseNodes {inner turns : Nat} (enough : p.ahead.length < turns)
    (inside : p.ahead.length < inner) : Yields (parseNodes inner turns) p
      ((Schema.parse p.ahead).map fun nodes => (nodes, [])) := by
  induction turns generalizing p with
  | zero => exact absurd enough (Nat.not_lt_zero _)
  | succ turns ih =>
      unfold parseNodes
      apply yields_current
      by_cases ended : p.currentToken = none
      · rw [if_pos ended]
        have empty := yields_pure (p := p) ([] : List SchemaNode)
        rw [ahead_none ended] at empty ⊢
        rw [Schema.parse, Reader.untilEnd, if_pos rfl]
        exact empty
      · have goesOn : p.ahead ≠ [] := by
          intro empty
          rw [← head?_ahead, empty] at ended
          exact ended rfl
        have turn : (Schema.parse p.ahead).map (fun nodes => (nodes, ([] : Tokens))) = do
            let (node, rest) ← Schema.parseNode p.ahead
            let (nodes, rest) ← (Schema.parse rest).map fun nodes => (nodes, ([] : Tokens))
            return (node :: nodes, rest) := by
          rw [parse_eq goesOn]
          cases Schema.parseNode p.ahead with
          | error e => rfl
          | ok found =>
              obtain ⟨node, rest⟩ := found
              change (Except.map _ (Schema.parse rest >>= _)) = Except.map _ (Schema.parse rest) >>= _
              cases Schema.parse rest <;> rfl
        rw [if_neg ended, turn]
        apply (yields_parseNode inside).bind
        intro node q read
        have shorter := (consumes_parseNode read).shorter
        apply (ih (by omega) (by omega)).bind
        intro nodes q' _
        exact yields_pure _

/-! ## A text -/

theorem new_facts (input : List Char) :
    (new input).ahead = tokens input ∧ (new input).total = (tokens input).length := by
  refine ⟨ahead_advance _, (total_advance _).trans ?_⟩
  exact Nat.zero_add _

/-- With a turn for every character the parser ends, and says what the tokens of
the text say; it has drawn no more tokens than there are characters. -/
theorem parse_ends (input : List Char) {turns : Nat} (enough : input.length < turns) :
    ∃ q, parse turns (new input) = some (Schema.parse (tokens input), q) ∧
      q.drawn ≤ input.length := by
  obtain ⟨ahead, total⟩ := new_facts input
  have few := length_tokens_le input
  have short : (new input).ahead.length < turns := by
    rw [ahead]
    omega
  obtain ⟨q, same, ended⟩ := yields_parseNodes short short
  rw [ahead] at ended
  have drawn : q.drawn ≤ input.length := by
    have all : q.drawn ≤ q.total := Nat.le_add_right _ _
    omega
  refine ⟨q, ?_, drawn⟩
  cases read : Schema.parse (tokens input) with
  | error e =>
      rw [read] at ended
      exact ended
  | ok nodes =>
      rw [read] at ended
      exact ended.1

/-- Every call of the lexer from a boundary, the one it begins with and those
where earlier calls have left it, ends safely and with progress; and the parser
ends within the tokens of the text. -/
theorem text_ends (input : String) :
    (∀ pos, Boundary input.toList pos → ∃ final token, LexerCall input.toList pos final token) ∧
      ∀ turns, input.toList.length < turns → ∃ q, parse turns (new input.toList) =
          some (Schema.parse (tokens input.toList), q) ∧ q.drawn ≤ input.toList.length :=
  ⟨fun _ boundary => call_of_boundary boundary, fun _ enough => parse_ends input.toList enough⟩

end Parser

end KindDb.Schema
