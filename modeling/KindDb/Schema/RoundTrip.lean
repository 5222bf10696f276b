import KindDb.Schema.ParserExact

/-! # Printing and parsing

What is written in the schema language is read back: the tokens of a text with
white space between them are the tokens it was written from
(`tokens_written`), and the tokens printed for a list of nodes parse to that
list (`parse_print`). -/
set_option autoImplicit false

namespace KindDb.Schema

open KindDb.Lib

/-! ## Texts of tokens -/

namespace Token

def text : Token → List Char
  | .keyword word => word.toList
  | .identifier id => id.toList
  | .stringLiteral s => '\x22' :: (s.toList ++ ['\x22'])
  | .lBrace => ['\x7b']
  | .rBrace => ['\x7d']
  | .lParen => ['(']
  | .rParen => [')']
  | .comma => [',']
  | .colon => [':']
  | .atIndexed => '@' :: "indexed".toList
  | .atPrefix => '@' :: "prefix".toList
  | .lBracket => ['[']
  | .rBracket => [']']

end Token

section Texts
variable [UnicodeTables]

open UnicodeTables

/-- What is documented of white space: which ASCII characters it is, and that
no letter and no digit is. -/
structure WhitespaceTable : Prop where
  ascii : ∀ c : Char, c.val < 128 →
    isWhitespace c = (c == ' ' || (0x09 ≤ c.val && c.val ≤ 0x0d))
  notAlphanumeric : ∀ c : Char, isWhitespace c = true → isAlphanumeric c = false

def Blank (gap : List Char) : Prop := ∀ c ∈ gap, isWhitespace c = true

/-- The rule for identifiers, and not a keyword. -/
def IsName (s : String) : Prop :=
  (∃ first rest, s.toList = first :: rest ∧ (isAlphabetic first || first == '_') = true ∧
    ∀ c ∈ rest, isWordChar c = true) ∧ s ≠ "type" ∧ s ≠ "enum"

/-- The tokens that a text can be read as. -/
def Token.Writable : Token → Prop
  | .keyword word => word = "type" ∨ word = "enum"
  | .identifier id => IsName id
  | .stringLiteral s => '\x22' ∉ s.toList
  | _ => True

/-- The tokens with some white space between any two of them. -/
inductive Written : Tokens → List Char → Prop
  | nil : Written [] []
  | last (token : Token) : Written [token] token.text
  | cons (token : Token) {next : Token} {rest : Tokens} {gap text : List Char} (blank : Blank gap)
      (apart : gap ≠ []) (later : Written (next :: rest) text) :
      Written (token :: next :: rest) (token.text ++ (gap ++ text))

/-! ## One token -/

variable {input rest : List Char}

/-- The text is at its end, or goes on with white space. -/
def Ends (rest : List Char) : Prop := ∀ c, rest.head? = some c → isWhitespace c = true

omit [UnicodeTables] in
theorem takeWhile_ends {test : Char → Bool} {word : List Char}
    (all : ∀ c ∈ word, test c = true) (ends : ∀ c, rest.head? = some c → test c = false) :
    (word ++ rest).takeWhile test = word ∧ (word ++ rest).dropWhile test = rest := by
  rw [List.takeWhile_append_of_pos all, List.dropWhile_append_of_pos all]
  cases rest with
  | nil => simp
  | cons c rest =>
      have stops := ends c rfl
      simp [stops]

theorem skip_blank {gap : List Char} {c : Char} (blank : Blank gap)
    (visible : isWhitespace c = false) :
    (gap ++ c :: rest).dropWhile isWhitespace = c :: rest := by
  rw [List.dropWhile_append_of_pos blank, List.dropWhile_cons_of_neg (by simp [visible])]

theorem nextToken_blank {gap : List Char} (blank : Blank gap) : nextToken gap = none := by
  have skipped : gap.dropWhile isWhitespace = [] := List.dropWhile_eq_nil_iff.mpr blank
  rw [nextToken]
  split
  · rfl
  · rename_i c rest again
    rw [skipped] at again
    cases again

/-- The character that is not skipped decides. -/
theorem nextToken_of_skipped {c : Char} (skipped : input.dropWhile isWhitespace = c :: rest) :
    nextToken input =
      match punctuation c with
      | some token => some (token, rest)
      | none =>
          if c = '\x22' then
            some (.stringLiteral (String.ofList (rest.takeWhile (· ≠ '\x22'))),
              (rest.dropWhile (· ≠ '\x22')).drop 1)
          else if c = '@' then
            if rest.takeWhile isAlphanumeric = "indexed".toList then
              some (.atIndexed, rest.dropWhile isAlphanumeric)
            else if rest.takeWhile isAlphanumeric = "prefix".toList then
              some (.atPrefix, rest.dropWhile isAlphanumeric)
            else nextToken (rest.dropWhile isAlphanumeric)
          else if isAlphabetic c || c == '_' then
            let word := String.ofList ((c :: rest).takeWhile isWordChar)
            if word = "type" ∨ word = "enum" then
              some (.keyword word, (c :: rest).dropWhile isWordChar)
            else some (.identifier word, (c :: rest).dropWhile isWordChar)
          else nextToken rest := by
  rw [nextToken]
  split
  · rename_i again
    rw [skipped] at again
    cases again
  · rename_i c' rest' again
    rw [skipped] at again
    cases again
    rfl

theorem visible_ascii (table : WhitespaceTable) {c : Char} (ascii : c.val < 128)
    (other : (c == ' ' || (0x09 ≤ c.val && c.val ≤ 0x0d)) = false) : isWhitespace c = false := by
  rw [table.ascii c ascii, other]

theorem Ends.notAlphanumeric (table : WhitespaceTable) (ends : Ends rest) :
    ∀ c, rest.head? = some c → isAlphanumeric c = false :=
  fun c first => table.notAlphanumeric c (ends c first)

theorem Ends.notWordChar (table : WhitespaceTable) (ends : Ends rest) :
    ∀ c, rest.head? = some c → isWordChar c = false := by
  intro c first
  have underscore : c ≠ '_' := by
    rintro rfl
    have visible := visible_ascii table (c := '_') (by decide) (by decide)
    rw [ends '_' first] at visible
    cases visible
  simp [isWordChar, ends.notAlphanumeric table c first, underscore]

/-- A letter or a digit of ASCII. -/
def Plain (c : Char) : Prop := c.val < 128 ∧ (c.isAlpha || c.isDigit) = true

instance (c : Char) : Decidable (Plain c) :=
  inferInstanceAs (Decidable (c.val < 128 ∧ (c.isAlpha || c.isDigit) = true))

theorem alphanumeric_of_plain {word : List Char} (plain : ∀ c ∈ word, Plain c) :
    ∀ c ∈ word, isAlphanumeric c = true := by
  intro c member
  obtain ⟨ascii, either⟩ := plain c member
  rw [isAlphanumeric, isAlphabetic_ascii c ascii, isNumeric_ascii c ascii, either]

theorem wordRest_of_plain {word : List Char} (plain : ∀ c ∈ word, Plain c) :
    ∀ c ∈ word, isWordChar c = true := by
  intro c member
  rw [isWordChar, alphanumeric_of_plain plain c member, Bool.true_or]

theorem starts_of_letter {c : Char} (ascii : c.val < 128) (letter : c.isAlpha = true) :
    (isAlphabetic c || c == '_') = true := by
  rw [isAlphabetic_ascii c ascii, letter, Bool.true_or]

/-- A letter of ASCII with letters and digits behind it, and no keyword. -/
def isPlainName (name : String) : Bool :=
  match name.toList with
  | [] => false
  | first :: others => decide (first.val < 128) && first.isAlpha &&
      others.all (fun c => decide (Plain c)) && name != "type" && name != "enum"

theorem isName_of_plain {name : String} (plain : isPlainName name = true) : IsName name := by
  unfold isPlainName at plain
  split at plain
  · cases plain
  · rename_i first others text
    simp only [Bool.and_eq_true, decide_eq_true_eq, List.all_eq_true, bne_iff_ne] at plain
    obtain ⟨⟨⟨⟨ascii, letter⟩, plain⟩, noType⟩, noEnum⟩ := plain
    exact ⟨⟨first, others, text, starts_of_letter ascii letter, wordRest_of_plain plain⟩,
      noType, noEnum⟩

/-- What begins a name is none of the other characters the lexer looks for. -/
theorem name_begins (table : WhitespaceTable) {c : Char}
    (starts : (isAlphabetic c || c == '_') = true) :
    isWhitespace c = false ∧ punctuation c = none ∧ c ≠ '\x22' ∧ c ≠ '@' := by
  have apart : ∀ d : Char, d.val < 128 → (d.isAlpha || d == '_') = false → c ≠ d := by
    rintro d ascii other rfl
    rw [isAlphabetic_ascii c ascii, other] at starts
    cases starts
  refine ⟨?_, ?_, apart _ (by decide) (by decide), apart _ (by decide) (by decide)⟩
  · cases space : isWhitespace c with
    | false => rfl
    | true =>
        rcases Bool.or_eq_true_iff.mp starts with letter | underscore
        · have digitless := table.notAlphanumeric c space
          simp [isAlphanumeric, letter] at digitless
        · rw [beq_iff_eq.mp underscore] at space
          rw [visible_ascii table (by decide) (by decide)] at space
          cases space
  · unfold punctuation
    split
    case h_9 => rfl
    all_goals exact absurd rfl (apart _ (by decide) (by decide))

theorem wordChar_of_starts {c : Char} (starts : (isAlphabetic c || c == '_') = true) :
    isWordChar c = true := by
  rcases Bool.or_eq_true_iff.mp starts with letter | underscore
  · simp [isWordChar, isAlphanumeric, letter]
  · simp [isWordChar, underscore]

/-- A word is read up to the white space after it. -/
theorem nextToken_word (table : WhitespaceTable) {gap : List Char} (blank : Blank gap)
    {word : String} {first : Char} {others : List Char} (same : word.toList = first :: others)
    (starts : (isAlphabetic first || first == '_') = true)
    (goesOn : ∀ c ∈ others, isWordChar c = true) (ends : Ends rest) :
    nextToken (gap ++ (word.toList ++ rest)) =
      if word = "type" ∨ word = "enum" then some (.keyword word, rest)
      else some (.identifier word, rest) := by
  obtain ⟨visible, noPunctuation, noQuote, noAt⟩ := name_begins table starts
  have all : ∀ c ∈ word.toList, isWordChar c = true := by
    rw [same]
    exact List.forall_mem_cons.mpr ⟨wordChar_of_starts starts, goesOn⟩
  obtain ⟨taken, left⟩ := takeWhile_ends all (ends.notWordChar table)
  rw [same, List.cons_append] at taken left
  have skipped : (gap ++ (word.toList ++ rest)).dropWhile isWhitespace =
      first :: (others ++ rest) := by
    rw [same, List.cons_append]
    exact skip_blank blank visible
  rw [nextToken_of_skipped skipped, noPunctuation]
  dsimp only
  rw [if_neg noQuote, if_neg noAt, if_pos starts, taken, left, ← same, String.ofList_toList]

theorem nextToken_text (table : WhitespaceTable) {gap : List Char} (blank : Blank gap)
    {token : Token} (writable : token.Writable) (ends : Ends rest) :
    nextToken (gap ++ (token.text ++ rest)) = some (token, rest) := by
  have at_ : isWhitespace '@' = false := visible_ascii table (by decide) (by decide)
  have noPunctuation : punctuation '@' = none := rfl
  cases token with
  | keyword word =>
      rcases writable with rfl | rfl
      · have same : "type".toList = 't' :: ['y', 'p', 'e'] := rfl
        rw [Token.text, nextToken_word table blank same (starts_of_letter (by decide) (by decide))
          (wordRest_of_plain (by simp [Plain])) ends]
        rfl
      · have same : "enum".toList = 'e' :: ['n', 'u', 'm'] := rfl
        rw [Token.text, nextToken_word table blank same (starts_of_letter (by decide) (by decide))
          (wordRest_of_plain (by simp [Plain])) ends]
        rfl
  | identifier id =>
      obtain ⟨⟨first, others, same, starts, goesOn⟩, noType, noEnum⟩ := writable
      rw [Token.text, nextToken_word table blank same starts goesOn ends,
        if_neg (not_or.mpr ⟨noType, noEnum⟩)]
  | stringLiteral s =>
      have visible : isWhitespace '\x22' = false := visible_ascii table (by decide) (by decide)
      have all : ∀ c ∈ s.toList, decide (c ≠ '\x22') = true := by
        intro c member
        rw [decide_eq_true_eq]
        rintro rfl
        exact writable member
      have closes : ∀ c, ('\x22' :: rest).head? = some c → decide (c ≠ '\x22') = false := by
        rintro c same
        cases same
        decide
      obtain ⟨taken, left⟩ := takeWhile_ends all closes
      rw [Token.text, List.cons_append, List.append_assoc,
        nextToken_of_skipped (skip_blank blank visible)]
      change some (Token.stringLiteral (String.ofList ((s.toList ++ '\x22' :: rest).takeWhile _)),
        ((s.toList ++ '\x22' :: rest).dropWhile _).drop 1) = _
      rw [taken, left, String.ofList_toList]
      rfl
  | atIndexed =>
      have plain : ∀ c ∈ "indexed".toList, Plain c := by simp [Plain]
      obtain ⟨taken, left⟩ := takeWhile_ends (alphanumeric_of_plain plain)
        (ends.notAlphanumeric table)
      rw [Token.text, List.cons_append, nextToken_of_skipped (skip_blank blank at_), noPunctuation]
      dsimp only
      rw [if_neg (by decide), if_pos rfl, taken, left, if_pos rfl]
  | atPrefix =>
      have plain : ∀ c ∈ "prefix".toList, Plain c := by simp [Plain]
      obtain ⟨taken, left⟩ := takeWhile_ends (alphanumeric_of_plain plain)
        (ends.notAlphanumeric table)
      rw [Token.text, List.cons_append, nextToken_of_skipped (skip_blank blank at_), noPunctuation]
      dsimp only
      rw [if_neg (by decide), if_pos rfl, taken, left, if_neg (by decide), if_pos rfl]
  | lBrace | rBrace | lParen | rParen | comma | colon | lBracket | rBracket =>
      rw [Token.text, List.cons_append, List.nil_append]
      refine (nextToken_of_skipped (skip_blank blank ?_)).trans rfl
      exact visible_ascii table (by decide) (by decide)

/-! ## All of them -/

theorem tokens_eq (input : List Char) :
    tokens input = match nextToken input with
      | none => []
      | some (token, rest) => token :: tokens rest := by
  rw [tokens]
  split
  · rename_i nothing
    rw [nothing]
  · rename_i token rest read
    rw [read]

theorem tokens_blank {gap : List Char} (blank : Blank gap) : tokens gap = [] := by
  rw [tokens_eq, nextToken_blank blank]

theorem Blank.ends {gap : List Char} (blank : Blank gap) : Ends gap := by
  intro c first
  exact blank c (List.mem_of_mem_head? first)

theorem tokens_written (table : WhitespaceTable) {toks : Tokens} {text gap trail : List Char}
    (writable : ∀ token ∈ toks, token.Writable) (written : Written toks text) (blank : Blank gap)
    (blankTrail : Blank trail) : tokens (gap ++ (text ++ trail)) = toks := by
  induction written generalizing gap with
  | nil =>
      apply tokens_blank
      exact List.forall_mem_append.mpr ⟨blank, blankTrail⟩
  | last token =>
      have first := writable token List.mem_cons_self
      rw [tokens_eq, nextToken_text table blank first blankTrail.ends]
      dsimp only
      rw [tokens_blank blankTrail]
  | @cons token next rest between text blankBetween apart later ih =>
      obtain ⟨first, others⟩ := List.forall_mem_cons.mp writable
      have ends : Ends (between ++ (text ++ trail)) := by
        intro c starts
        rw [List.head?_append_of_ne_nil _ apart] at starts
        exact blankBetween c (List.mem_of_mem_head? starts)
      rw [List.append_assoc, List.append_assoc, tokens_eq, nextToken_text table blank first ends]
      dsimp only
      rw [ih others blankBetween]

/-- The text consists of the tokens, with white space around them. -/
def Spells (sdl : String) (toks : Tokens) : Prop :=
  ∃ lead text trail, Blank lead ∧ Written toks text ∧ Blank trail ∧
    sdl.toList = lead ++ (text ++ trail)

/-! ## Printing nodes -/

def DataType.phrase : DataType → DataTypePhrase
  | .string => .named "String"
  | .u16 => .named "U16"
  | .u32 => .named "U32"
  | .u64 => .named "U64"
  | .i32 => .named "I32"
  | .i64 => .named "I64"
  | .f64 => .named "F64"
  | .boolean => .named "Boolean"
  | .custom name => .named name
  | .array inner => .array inner.phrase

def FieldDefinition.phrase (fieldDef : FieldDefinition) : FieldPhrase :=
  { isIndexed := fieldDef.isIndexed, name := fieldDef.name, type := fieldDef.dataType.phrase }

/-- `trailing` tells whether a comma stands after the last item. -/
def SchemaNode.phrase (trailing : Bool) : SchemaNode → NodePhrase
  | .type t =>
      { keyPrefix := t.keyPrefix, name := t.name
        body := .type (.ofList trailing (t.fields.map FieldDefinition.phrase)) }
  | .enum e => { keyPrefix := none, name := e.name, body := .enum (.ofList trailing e.variants) }

def print (trailing : SchemaNode → Bool) (nodes : List SchemaNode) : Tokens :=
  nodes.flatMap fun node => (node.phrase (trailing node)).tokens

/-! ## What can be printed -/

def DataType.Printable : DataType → Prop
  | .custom name => IsName name ∧ name ∉ builtinTypes.map Prod.fst
  | .array inner => inner.Printable
  | _ => True

/-- Names are names, and a prefix holds no quote. -/
def SchemaNode.Printable : SchemaNode → Prop
  | .type t => IsName t.name ∧
      (∀ fieldDef ∈ t.fields, IsName fieldDef.name ∧ fieldDef.dataType.Printable) ∧
      ∀ s, t.keyPrefix = some s → '\x22' ∉ s.toList
  | .enum e => IsName e.name ∧ ∀ variant ∈ e.variants, IsName variant

theorem isName_builtin : ∀ entry ∈ builtinTypes, IsName entry.1 := by
  have plain : (builtinTypes.all fun entry => isPlainName entry.1) = true := by decide
  exact fun entry member => isName_of_plain (List.all_eq_true.mp plain entry member)

theorem dataType_phrase {dataType : DataType} (printable : dataType.Printable) :
    dataType.phrase.dataType = dataType := by
  induction dataType with
  | custom name =>
      have absent : builtinTypes.lookup name = none := by
        rw [List.lookup_eq_none_iff]
        intro entry member
        rw [bne_iff_ne]
        rintro rfl
        exact printable.2 (List.mem_map_of_mem member)
      rw [DataType.phrase, DataTypePhrase.dataType, absent]
      rfl
  | array inner ih => rw [DataType.phrase, DataTypePhrase.dataType, ih printable]
  | string | u16 | u32 | u64 | i32 | i64 | f64 | boolean => rfl

theorem writable_dataType {dataType : DataType} (printable : dataType.Printable) :
    ∀ token ∈ dataType.phrase.tokens, token.Writable := by
  have builtin : ∀ (id : String) (named : DataType), (id, named) ∈ builtinTypes →
      ∀ token ∈ (DataTypePhrase.named id).tokens, token.Writable := by
    intro id named member token inside
    rw [List.mem_singleton.mp inside]
    exact isName_builtin (id, named) member
  induction dataType with
  | custom name =>
      intro token inside
      rw [List.mem_singleton.mp inside]
      exact printable.1
  | array inner ih =>
      intro token inside
      rcases List.mem_cons.mp inside with rfl | inside
      · trivial
      · rcases List.mem_append.mp inside with within | last
        · exact ih printable token within
        · rw [List.mem_singleton.mp last]
          trivial
  | string | u16 | u32 | u64 | i32 | i64 | f64 | boolean =>
      exact builtin _ _ (by simp [builtinTypes]; rfl)

theorem writable_field {fieldDef : FieldDefinition} (name : IsName fieldDef.name)
    (printable : fieldDef.dataType.Printable) :
    ∀ token ∈ fieldDef.phrase.tokens, token.Writable := by
  intro token inside
  rcases List.mem_append.mp inside with mark | inside
  · split at mark
    · rw [List.mem_singleton.mp mark]
      trivial
    · cases mark
  · rcases List.mem_cons.mp inside with rfl | inside
    · exact name
    · rcases List.mem_cons.mp inside with rfl | inside
      · trivial
      · exact writable_dataType printable token inside

theorem writable_mapping {keyPrefix : Option String}
    (noQuote : ∀ s, keyPrefix = some s → '\x22' ∉ s.toList) :
    ∀ token ∈ prefixTokens keyPrefix, token.Writable := by
  cases keyPrefix with
  | none => exact List.forall_mem_nil _
  | some s => simpa [prefixTokens, Token.Writable] using noQuote s rfl

theorem writable_node {node : SchemaNode} (printable : node.Printable) (trailing : Bool) :
    ∀ token ∈ (node.phrase trailing).tokens, token.Writable := by
  cases node with
  | type t =>
      obtain ⟨name, fields, noQuote⟩ := printable
      have items : ∀ token ∈ (Separated.ofList trailing
          (t.fields.map FieldDefinition.phrase)).yield .comma FieldPhrase.tokens,
            token.Writable := by
        intro token inside
        rcases Separated.mem_yield inside with rfl | ⟨field, listed, inField⟩
        · trivial
        · rw [Separated.toList_ofList] at listed
          obtain ⟨fieldDef, declared, rfl⟩ := List.mem_map.mp listed
          obtain ⟨fieldName, typePrintable⟩ := fields fieldDef declared
          exact writable_field fieldName typePrintable token inField
      simp only [SchemaNode.phrase, NodePhrase.tokens, BodyPhrase.tokens, BodyPhrase.keyword,
        List.forall_mem_append, List.forall_mem_cons]
      exact ⟨writable_mapping noQuote, Or.inl rfl, name, trivial, items, trivial,
        List.forall_mem_nil _⟩
  | enum e =>
      obtain ⟨name, variants⟩ := printable
      have items : ∀ token ∈ (Separated.ofList trailing e.variants).yield .comma variantTokens,
          token.Writable := by
        intro token inside
        rcases Separated.mem_yield inside with rfl | ⟨variant, listed, inVariant⟩
        · trivial
        · rw [Separated.toList_ofList] at listed
          rw [List.mem_singleton.mp inVariant]
          exact variants variant listed
      simp only [SchemaNode.phrase, NodePhrase.tokens, BodyPhrase.tokens, BodyPhrase.keyword,
        List.forall_mem_append, List.forall_mem_cons]
      exact ⟨List.forall_mem_nil _, Or.inr rfl, name, trivial, items, trivial,
        List.forall_mem_nil _⟩

theorem node_phrase {node : SchemaNode} (printable : node.Printable) (trailing : Bool) :
    (node.phrase trailing).node = node := by
  cases node with
  | type t =>
      have fields : (t.fields.map FieldDefinition.phrase).map FieldPhrase.fieldDef = t.fields := by
        rw [List.map_map]
        apply (List.map_congr_left fun fieldDef declared => ?_).trans (List.map_id _)
        have same := dataType_phrase (printable.2.1 fieldDef declared).2
        simp [FieldDefinition.phrase, FieldPhrase.fieldDef, same]
      simp [SchemaNode.phrase, NodePhrase.node, fields]
  | enum e => simp [SchemaNode.phrase, NodePhrase.node]

/-- A text that spells phrases means their nodes. -/
theorem parse_spelled (table : WhitespaceTable) {phrases : List NodePhrase} {sdl : String}
    (writable : ∀ token ∈ phrases.flatMap NodePhrase.tokens, token.Writable)
    (spells : Spells sdl (phrases.flatMap NodePhrase.tokens)) :
    parse (tokens sdl.toList) = .ok (phrases.map NodePhrase.node) := by
  obtain ⟨lead, text, trail, blank, written, blankTrail, same⟩ := spells
  rw [same, tokens_written table writable written blank blankTrail, parse_tokens]

/-- A text that spells a list of printable nodes parses to that list. -/
theorem parse_print (table : WhitespaceTable) {nodes : List SchemaNode}
    (printable : ∀ node ∈ nodes, node.Printable) (trailing : SchemaNode → Bool) {sdl : String}
    (spells : Spells sdl (print trailing nodes)) : parse (tokens sdl.toList) = .ok nodes := by
  have phrases : print trailing nodes =
      (nodes.map fun node => node.phrase (trailing node)).flatMap NodePhrase.tokens := by
    rw [List.flatMap_map]
    rfl
  have meant : (nodes.map fun node => node.phrase (trailing node)).map NodePhrase.node = nodes := by
    rw [List.map_map]
    exact (List.map_congr_left fun node listed =>
      node_phrase (printable node listed) (trailing node)).trans (List.map_id _)
  rw [phrases] at spells
  rw [parse_spelled table ?_ spells, meant]
  rw [← phrases]
  intro token inside
  obtain ⟨node, listed, inNode⟩ := List.mem_flatMap.mp inside
  exact writable_node (printable node listed) (trailing node) token inNode

/-- The tokens with one blank between any two. -/
def spaced : Tokens → List Char
  | [] => []
  | [token] => token.text
  | token :: next :: rest => token.text ++ ([' '] ++ spaced (next :: rest))

theorem written_spaced (table : WhitespaceTable) (toks : Tokens) : Written toks (spaced toks) := by
  have blank : Blank [' '] := by
    intro c member
    rw [List.mem_singleton.mp member, table.ascii ' ' (by decide)]
    rfl
  induction toks with
  | nil => exact .nil
  | cons token toks ih =>
      cases toks with
      | nil => exact .last token
      | cons next rest => exact .cons token blank (List.cons_ne_nil _ _) ih

theorem spells_spaced (table : WhitespaceTable) (toks : Tokens) :
    Spells (String.ofList (spaced toks)) toks :=
  ⟨[], spaced toks, [], List.forall_mem_nil _, written_spaced table toks, List.forall_mem_nil _,
    by simp⟩

end Texts

/-- The classes of the ASCII characters alone. -/
@[reducible] def plainTables : UnicodeTables where
  isWhitespace c := c == ' ' || (0x09 ≤ c.val && c.val ≤ 0x0d)
  isAlphabetic c := c.isUpper || c.isLower
  isNumeric c := 0x30 ≤ c.val && c.val ≤ 0x39
  toLowercase := String.map Char.toLower
  isAlphabetic_ascii := fun _ _ => rfl
  isNumeric_ascii := fun _ _ => rfl

theorem plainTables_whitespace : @WhitespaceTable plainTables := by
  let _ : UnicodeTables := plainTables
  refine ⟨fun c _ => rfl, fun c space => ?_⟩
  change (c.isAlpha || c.isDigit) = false
  rcases Bool.or_eq_true_iff.mp space with blank | control
  · rw [beq_iff_eq.mp blank]
    decide
  · apply Bool.eq_false_iff.mpr
    intro letter
    simp [Char.isAlpha, Char.isUpper, Char.isLower, Char.isDigit, UInt32.le_iff_toNat_le]
      at letter control
    omega

/-- A printable node with one blank between any two tokens. -/
theorem parse_node {node : SchemaNode} (printable : @SchemaNode.Printable plainTables node)
    (trailing : Bool) :
    @parse (@tokens plainTables
      (String.ofList (spaced (node.phrase trailing).tokens)).toList) = .ok [node] := by
  let _ : UnicodeTables := plainTables
  have writable : ∀ token ∈ [node.phrase trailing].flatMap NodePhrase.tokens, token.Writable := by
    rw [List.flatMap_singleton]
    exact writable_node printable trailing
  have read := parse_spelled plainTables_whitespace writable (spells_spaced plainTables_whitespace _)
  rwa [List.map_singleton, node_phrase printable, List.flatMap_singleton] at read

/-- `@prefix("u") type User { @indexed tags: [[Tag]], }` -/
def userNode : SchemaNode :=
  .type { name := "User", keyPrefix := some "u"
          fields := [{ name := "tags", dataType := .array (.array (.custom "Tag")),
                       isIndexed := true }] }

/-- `enum Tag { Red, Green, }` -/
def tagNode : SchemaNode := .enum { name := "Tag", variants := ["Red", "Green"] }

theorem parse_print_user : @parse (@tokens plainTables
    (String.ofList (spaced (print (fun _ => true) [userNode, tagNode]))).toList) =
      .ok [userNode, tagNode] := by
  let _ : UnicodeTables := plainTables
  have plain : ["User", "tags", "Tag", "Red", "Green"].all isPlainName = true := by decide
  have named : ∀ name ∈ ["User", "tags", "Tag", "Red", "Green"], IsName name :=
    fun name listed => isName_of_plain (List.all_eq_true.mp plain name listed)
  have printable : ∀ node ∈ [userNode, tagNode], node.Printable := by
    intro node listed
    rcases List.mem_cons.mp listed with rfl | later
    · refine ⟨named _ (by simp), fun fieldDef declared => ?_, fun s same => ?_⟩
      · rw [List.mem_singleton.mp declared]
        exact ⟨named _ (by simp), named _ (by simp), by decide⟩
      · rw [← Option.some.inj same]
        decide
    · rw [List.mem_singleton.mp later]
      exact ⟨named _ (by simp), fun variant declared => named variant
        (List.mem_append_right ["User", "tags", "Tag"] declared)⟩
  exact parse_print plainTables_whitespace printable (fun _ => true)
    (spells_spaced plainTables_whitespace _)

end KindDb.Schema
