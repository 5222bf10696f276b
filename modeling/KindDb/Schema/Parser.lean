import KindDb.Schema.Lexer

/-! # The parser of the schema language and `load_schema`

The parser is the list of the tokens that are left, its `current_token` the
head.  A `Reader` is a parsing function with the proof that it consumes what it
reads: that is what the loops of `parse` and of the bodies of types and enums
terminate by, and that no token comes from anywhere else. -/
set_option autoImplicit false

namespace KindDb.Schema

open KindDb.Lib

abbrev Tokens := List Token

/-- The name of a token in the errors of `match_token`, which is asked for
single-character tokens only. -/
def Token.debug : Token → String
  | .lBrace => "LBrace"
  | .rBrace => "RBrace"
  | .lParen => "LParen"
  | .rParen => "RParen"
  | .comma => "Comma"
  | .colon => "Colon"
  | .atIndexed => "AtIndexed"
  | .atPrefix => "AtPrefix"
  | .lBracket => "LBracket"
  | .rBracket => "RBracket"
  | .keyword word => "Keyword(\"" ++ word ++ "\")"
  | .identifier id => "Identifier(\"" ++ id ++ "\")"
  | .stringLiteral s => "StringLiteral(\"" ++ s ++ "\")"

inductive SchemaNode
  | type (t : TypeDefinition)
  | enum (e : EnumDefinition)
deriving Repr

/-! ## Single steps -/

def expectIdentifier : Tokens → Except String (String × Tokens)
  | .identifier id :: rest => .ok (id, rest)
  | _ => .error "Expected identifier"

def matchToken (expected : Token) : Tokens → Except String Tokens
  | token :: rest => if token = expected then .ok rest else .error ("Expected " ++ expected.debug)
  | [] => .error ("Expected " ++ expected.debug)

/-- What the name of a data type stands for. -/
def namedDataType : String → DataType
  | "String" => .string
  | "U16" => .u16
  | "U32" => .u32
  | "U64" => .u64
  | "I32" => .i32
  | "I64" => .i64
  | "F64" => .f64
  | "Boolean" => .boolean
  | other => .custom other

def parseDataType : Tokens → Except String (DataType × Tokens)
  | .lBracket :: rest => do
      let (inner, rest) ← parseDataType rest
      let rest ← matchToken .rBracket rest
      return (.array inner, rest)
  | tokens => do
      let (typeName, rest) ← expectIdentifier tokens
      return (namedDataType typeName, rest)

/-- The end of a turn: a comma is consumed, a closing brace is left. -/
def separator : Tokens → Except String Tokens
  | .comma :: rest => .ok rest
  | .rBrace :: rest => .ok (.rBrace :: rest)
  | _ => .error "Expected comma or \x7d"

def indexedMark : Tokens → Bool × Tokens
  | .atIndexed :: rest => (true, rest)
  | tokens => (false, tokens)

/-- One turn of the loop over the fields of a type. -/
def parseField (tokens : Tokens) : Except String (FieldDefinition × Tokens) := do
  let (isIndexed, tokens) := indexedMark tokens
  let (name, rest) ← expectIdentifier tokens
  let rest ← matchToken .colon rest
  let (dataType, rest) ← parseDataType rest
  let rest ← separator rest
  return ({ name, dataType, isIndexed }, rest)

/-- One turn of the loop over the variants of an enum. -/
def parseVariant (tokens : Tokens) : Except String (String × Tokens) := do
  let (variant, rest) ← expectIdentifier tokens
  let rest ← separator rest
  return (variant, rest)

/-! ## What a step leaves -/

theorem bind_ok {α β : Type} {x : Except String α} {f : α → Except String β} {b : β}
    (ok : (x >>= f) = .ok b) : ∃ a, x = .ok a ∧ f a = .ok b := by
  cases x with
  | error e => cases ok
  | ok a => exact ⟨a, rfl, ok⟩

theorem suffix_expectIdentifier {tokens rest : Tokens} {id : String}
    (read : expectIdentifier tokens = .ok (id, rest)) : tokens = .identifier id :: rest := by
  unfold expectIdentifier at read
  split at read
  · cases read
    rfl
  · cases read

theorem suffix_matchToken {expected : Token} {tokens rest : Tokens}
    (read : matchToken expected tokens = .ok rest) : tokens = expected :: rest := by
  cases tokens with
  | nil => cases read
  | cons token left =>
      simp only [matchToken] at read
      split at read
      · rename_i same
        cases read
        rw [same]
      · cases read

theorem suffix_separator {tokens rest : Tokens} (read : separator tokens = .ok rest) :
    rest <:+ tokens := by
  unfold separator at read
  split at read
  · cases read
    exact List.suffix_cons _ _
  · cases read
    exact List.suffix_rfl
  · cases read

/-- Something was read, and what is left was there before. -/
def Consumes (tokens rest : Tokens) : Prop := ∃ token left, tokens = token :: left ∧ rest <:+ left

theorem Consumes.shorter {tokens rest : Tokens} (consumes : Consumes tokens rest) :
    rest.length < tokens.length := by
  obtain ⟨token, left, rfl, suffix⟩ := consumes
  exact Nat.lt_succ_of_le suffix.length_le

theorem Consumes.suffix {tokens rest : Tokens} (consumes : Consumes tokens rest) :
    rest <:+ tokens := by
  obtain ⟨token, left, rfl, suffix⟩ := consumes
  exact suffix.trans (List.suffix_cons _ _)

theorem consumes_parseDataType {tokens rest : Tokens} {dataType : DataType}
    (read : parseDataType tokens = .ok (dataType, rest)) : Consumes tokens rest := by
  fun_induction parseDataType tokens generalizing dataType rest with
  | case1 left ih =>
      obtain ⟨⟨inner, afterInner⟩, readInner, read⟩ := bind_ok read
      obtain ⟨afterBracket, bracket, read⟩ := bind_ok read
      cases read
      refine ⟨_, left, rfl, ?_⟩
      have nested := (ih readInner).suffix
      rw [suffix_matchToken bracket] at nested
      exact (List.suffix_cons _ _).trans nested
  | case2 tokens _ =>
      obtain ⟨⟨id, afterName⟩, named, read⟩ := bind_ok read
      cases read
      exact ⟨_, rest, suffix_expectIdentifier named, List.suffix_rfl⟩

theorem suffix_indexedMark (tokens : Tokens) : (indexedMark tokens).2 <:+ tokens := by
  unfold indexedMark
  split
  · exact List.suffix_cons _ _
  · exact List.suffix_rfl

theorem parseField_ok {tokens rest : Tokens} {fieldDef : FieldDefinition}
    (read : parseField tokens = .ok (fieldDef, rest)) :
    Consumes tokens rest ∧ .identifier fieldDef.name ∈ tokens := by
  obtain ⟨⟨name, afterName⟩, named, read⟩ := bind_ok read
  obtain ⟨afterColon, colon, read⟩ := bind_ok read
  obtain ⟨⟨dataType, afterType⟩, typed, read⟩ := bind_ok read
  obtain ⟨afterTurn, separated, read⟩ := bind_ok read
  cases read
  have marked := suffix_indexedMark tokens
  have named : expectIdentifier (indexedMark tokens).2 = .ok (name, afterName) := named
  rw [suffix_expectIdentifier named] at marked
  have later : rest <:+ afterName := by
    rw [suffix_matchToken colon]
    exact ((suffix_separator separated).trans (consumes_parseDataType typed).suffix).trans
      (List.suffix_cons _ _)
  refine ⟨?_, marked.subset List.mem_cons_self⟩
  cases tokens with
  | nil => exact absurd marked.length_le (by simp)
  | cons token left =>
      refine ⟨token, left, rfl, later.trans ?_⟩
      rcases List.suffix_cons_iff.mp marked with same | inside
      · rw [(List.cons.inj same).2]
      · exact (List.suffix_cons _ _).trans inside

theorem parseVariant_ok {tokens rest : Tokens} {variant : String}
    (read : parseVariant tokens = .ok (variant, rest)) : Consumes tokens rest := by
  obtain ⟨⟨name, afterName⟩, named, read⟩ := bind_ok read
  obtain ⟨afterTurn, separated, read⟩ := bind_ok read
  cases read
  exact ⟨_, afterName, suffix_expectIdentifier named, suffix_separator separated⟩

/-! ## Loops -/

structure Reader (α : Type) where
  read : Tokens → Except String (α × Tokens)
  consumes : ∀ {tokens : Tokens} {a : α} {rest : Tokens}, read tokens = .ok (a, rest) →
    Consumes tokens rest

def fieldReader : Reader FieldDefinition := ⟨parseField, fun read => (parseField_ok read).1⟩

def variantReader : Reader String := ⟨parseVariant, parseVariant_ok⟩

namespace Reader

variable {α : Type}

/-- `while self.current_token != Some(Token::RBrace)` -/
def untilRBrace (r : Reader α) (tokens : Tokens) : Except String (List α × Tokens) :=
  if tokens.head? = some .rBrace then .ok ([], tokens)
  else match _read : r.read tokens with
    | .error e => .error e
    | .ok (a, rest) => do
        let (as, rest) ← r.untilRBrace rest
        return (a :: as, rest)
termination_by tokens.length
decreasing_by exact (r.consumes _read).shorter

/-- `while self.current_token.is_some()` -/
def untilEnd (r : Reader α) (tokens : Tokens) : Except String (List α) :=
  if tokens = [] then .ok []
  else match _read : r.read tokens with
    | .error e => .error e
    | .ok (a, rest) => do
        let as ← r.untilEnd rest
        return a :: as
termination_by tokens.length
decreasing_by exact (r.consumes _read).shorter

/-- Every identifier that is left has the property. -/
def Named (P : String → Prop) (tokens : Tokens) : Prop := ∀ id, .identifier id ∈ tokens → P id

theorem Named.suffix {P : String → Prop} {tokens rest : Tokens} (named : Named P tokens)
    (suffix : rest <:+ tokens) : Named P rest :=
  fun id member => named id (suffix.subset member)

variable {P : String → Prop} {Q : α → Prop} {r : Reader α}

theorem untilRBrace_ok (each : ∀ {tokens a rest}, r.read tokens = .ok (a, rest) →
    Named P tokens → Q a) {tokens rest : Tokens} {as : List α} (named : Named P tokens)
    (read : r.untilRBrace tokens = .ok (as, rest)) : (∀ a ∈ as, Q a) ∧ rest <:+ tokens := by
  fun_induction untilRBrace r tokens generalizing as rest with
  | case1 tokens closed =>
      cases read
      exact ⟨List.forall_mem_nil _, List.suffix_rfl⟩
  | case2 => cases read
  | case3 tokens _ a left first ih =>
      obtain ⟨⟨later, afterLater⟩, readLater, read⟩ := bind_ok read
      cases read
      have consumed := r.consumes first
      obtain ⟨all, suffix⟩ := ih (named.suffix consumed.suffix) readLater
      exact ⟨List.forall_mem_cons.mpr ⟨each first named, all⟩, suffix.trans consumed.suffix⟩

theorem untilEnd_ok (each : ∀ {tokens a rest}, r.read tokens = .ok (a, rest) →
    Named P tokens → Q a) {tokens : Tokens} {as : List α} (named : Named P tokens)
    (read : r.untilEnd tokens = .ok as) : ∀ a ∈ as, Q a := by
  fun_induction untilEnd r tokens generalizing as with
  | case1 =>
      cases read
      exact List.forall_mem_nil _
  | case2 => cases read
  | case3 tokens _ a left first ih =>
      obtain ⟨later, readLater, read⟩ := bind_ok read
      cases read
      exact List.forall_mem_cons.mpr
        ⟨each first named, ih (named.suffix (r.consumes first).suffix) readLater⟩

end Reader

/-! ## Declarations -/

def parsePrefix : Tokens → Except String (Option String × Tokens)
  | .atPrefix :: rest => do
      let rest ← matchToken .lParen rest
      match rest with
      | .stringLiteral s :: rest => do
          let rest ← matchToken .rParen rest
          return (some s, rest)
      | _ => .error "Expected string literal after @prefix("
  | tokens => .ok (none, tokens)

/-- The name and the items of a type or an enum. -/
def parseBody {α : Type} (r : Reader α) (tokens : Tokens) :
    Except String ((String × List α) × Tokens) := do
  let (name, rest) ← expectIdentifier tokens
  let rest ← matchToken .lBrace rest
  let (items, rest) ← r.untilRBrace rest
  let rest ← matchToken .rBrace rest
  return ((name, items), rest)

def parseDeclaration (keyPrefix : Option String) : Tokens → Except String (SchemaNode × Tokens)
  | .keyword "type" :: rest => do
      let ((name, fields), rest) ← parseBody fieldReader rest
      return (.type { name, fields, keyPrefix }, rest)
  | .keyword "enum" :: rest => do
      let ((name, variants), rest) ← parseBody variantReader rest
      return (.enum { name, variants }, rest)
  | _ => .error "Expected keyword 'type' or 'enum'"

def parseNode (tokens : Tokens) : Except String (SchemaNode × Tokens) := do
  let (keyPrefix, rest) ← parsePrefix tokens
  parseDeclaration keyPrefix rest

theorem parsePrefix_ok {tokens rest : Tokens} {keyPrefix : Option String}
    (read : parsePrefix tokens = .ok (keyPrefix, rest)) :
    (∃ s, keyPrefix = some s ∧
      tokens = .atPrefix :: .lParen :: .stringLiteral s :: .rParen :: rest) ∨
    (keyPrefix = none ∧ tokens = rest) := by
  unfold parsePrefix at read
  split at read
  · rename_i left
    obtain ⟨afterParen, opened, read⟩ := bind_ok read
    split at read
    · rename_i s afterLiteral
      obtain ⟨afterClosed, closed, read⟩ := bind_ok read
      cases read
      rw [suffix_matchToken opened, suffix_matchToken closed]
      exact Or.inl ⟨s, rfl, rfl⟩
    · cases read
  · cases read
    exact Or.inr ⟨rfl, rfl⟩

theorem suffix_parsePrefix {tokens rest : Tokens} {keyPrefix : Option String}
    (read : parsePrefix tokens = .ok (keyPrefix, rest)) : rest <:+ tokens := by
  rcases parsePrefix_ok read with ⟨s, _, rfl⟩ | ⟨_, rfl⟩
  · exact List.suffix_append [.atPrefix, .lParen, .stringLiteral s, .rParen] rest
  · exact List.suffix_rfl

theorem parseBody_ok {α : Type} {P : String → Prop} {Q : α → Prop} {r : Reader α}
    (each : ∀ {tokens a rest}, r.read tokens = .ok (a, rest) → Reader.Named P tokens → Q a)
    {tokens rest : Tokens} {name : String} {items : List α} (named : Reader.Named P tokens)
    (read : parseBody r tokens = .ok ((name, items), rest)) :
    P name ∧ (∀ a ∈ items, Q a) ∧ rest <:+ tokens := by
  obtain ⟨⟨id, afterName⟩, readName, read⟩ := bind_ok read
  obtain ⟨afterOpened, opened, read⟩ := bind_ok read
  obtain ⟨⟨as, afterItems⟩, readItems, read⟩ := bind_ok read
  obtain ⟨afterClosed, closed, read⟩ := bind_ok read
  cases read
  have inside : afterOpened <:+ tokens := by
    rw [suffix_expectIdentifier readName, suffix_matchToken opened]
    exact (List.suffix_cons _ _).trans (List.suffix_cons _ _)
  obtain ⟨all, suffix⟩ := Reader.untilRBrace_ok each (named.suffix inside) readItems
  rw [suffix_matchToken closed] at suffix
  refine ⟨named name ?_, all, ((List.suffix_cons _ _).trans suffix).trans inside⟩
  rw [suffix_expectIdentifier readName]
  exact List.mem_cons_self

/-- The names of a type and of its fields have the property. -/
def SchemaNode.Named (P : String → Prop) : SchemaNode → Prop
  | .type t => P t.name ∧ ∀ fieldDef ∈ t.fields, P fieldDef.name
  | .enum _ => True

theorem parseDeclaration_ok {P : String → Prop} {keyPrefix : Option String} {tokens rest : Tokens}
    {node : SchemaNode} (named : Reader.Named P tokens)
    (read : parseDeclaration keyPrefix tokens = .ok (node, rest)) :
    node.Named P ∧ Consumes tokens rest := by
  unfold parseDeclaration at read
  split at read
  · rename_i left
    obtain ⟨⟨⟨name, fields⟩, after⟩, body, read⟩ := bind_ok read
    cases read
    obtain ⟨named, all, suffix⟩ := parseBody_ok
      (fun field named => named _ (parseField_ok field).2)
      (named.suffix (List.suffix_cons _ _)) body
    exact ⟨⟨named, all⟩, _, left, rfl, suffix⟩
  · rename_i left
    obtain ⟨⟨⟨name, variants⟩, after⟩, body, read⟩ := bind_ok read
    cases read
    have noDemand : ∀ {tokens variant rest}, variantReader.read tokens = .ok (variant, rest) →
        Reader.Named P tokens → True := fun _ _ => trivial
    obtain ⟨_, _, suffix⟩ := parseBody_ok noDemand (named.suffix (List.suffix_cons _ _)) body
    exact ⟨trivial, _, left, rfl, suffix⟩
  · cases read

theorem consumes_parseNode {tokens rest : Tokens} {node : SchemaNode}
    (read : parseNode tokens = .ok (node, rest)) : Consumes tokens rest := by
  obtain ⟨⟨keyPrefix, after⟩, prefixed, read⟩ := bind_ok read
  have anyName : Reader.Named (fun _ => True) after := fun _ _ => trivial
  obtain ⟨token, left, same, suffix⟩ := (parseDeclaration_ok anyName read).2
  have inside := suffix_parsePrefix prefixed
  rw [same] at inside
  cases tokens with
  | nil => exact absurd inside.length_le (by simp)
  | cons first others =>
      refine ⟨first, others, rfl, suffix.trans ?_⟩
      rcases List.suffix_cons_iff.mp inside with whole | later
      · rw [(List.cons.inj whole).2]
      · exact (List.suffix_cons _ _).trans later

def nodeReader : Reader SchemaNode := ⟨parseNode, consumes_parseNode⟩

def parse (tokens : Tokens) : Except String (List SchemaNode) := nodeReader.untilEnd tokens

theorem parse_named {P : String → Prop} {tokens : Tokens} {nodes : List SchemaNode}
    (named : Reader.Named P tokens) (read : parse tokens = .ok nodes) :
    ∀ node ∈ nodes, node.Named P := by
  refine Reader.untilEnd_ok (fun node named => ?_) named read
  obtain ⟨⟨keyPrefix, after⟩, prefixed, declared⟩ := bind_ok node
  exact (parseDeclaration_ok (named.suffix (suffix_parsePrefix prefixed)) declared).1

/-! ## `load_schema` -/

namespace SchemaRegistry

variable [UnicodeTables]

def insertNode (reg : SchemaRegistry) : SchemaNode → SchemaRegistry
  | .type t =>
      { reg with
        prefixMap := reg.prefixMap.insert
          (t.keyPrefix.getD (UnicodeTables.toLowercase t.name)) t.name
        types := reg.types.insert t.name t }
  | .enum e => { reg with enums := reg.enums.insert e.name e }

/-- A text that does not parse leaves the registry as it was. -/
def loadSchema (reg : SchemaRegistry) (sdl : String) : Except String Unit × SchemaRegistry :=
  match parse (tokens sdl.toList) with
  | .ok nodes => (.ok (), nodes.foldl insertNode reg)
  | .error e => (.error e, reg)

omit [UnicodeTables] in
/-- Names are free of colons, and a type is found under its own name. -/
structure ColonFreeNames (reg : SchemaRegistry) : Prop where
  typeNames : ∀ keyPrefix name : String, reg.prefixMap[keyPrefix]? = some name → ColonFree name
  fields : ∀ (name : String) (tDef : TypeDefinition), reg.types[name]? = some tDef →
    tDef.name = name ∧ ∀ fieldDef ∈ tDef.fields, ColonFree fieldDef.name

omit [UnicodeTables] in
theorem colonFreeNames_new : ColonFreeNames new :=
  ⟨fun _ _ found => by simp [new] at found, fun _ _ found => by simp [new] at found⟩

theorem ColonFreeNames.insertNode {reg : SchemaRegistry} (free : reg.ColonFreeNames)
    {node : SchemaNode} (named : node.Named ColonFree) : (reg.insertNode node).ColonFreeNames := by
  cases node with
  | enum e => exact ⟨free.typeNames, free.fields⟩
  | type t =>
      refine ⟨fun keyPrefix name found => ?_, fun name tDef found => ?_⟩
      · simp only [SchemaRegistry.insertNode, SortedMap.lookup_insert] at found
        split at found
        · cases found
          exact named.1
        · exact free.typeNames keyPrefix name found
      · simp only [SchemaRegistry.insertNode, SortedMap.lookup_insert] at found
        split at found
        · rename_i same
          cases found
          exact ⟨same, named.2⟩
        · exact free.fields name tDef found

theorem ColonFreeNames.loadSchema {reg : SchemaRegistry} (free : reg.ColonFreeNames)
    (sdl : String) : (reg.loadSchema sdl).2.ColonFreeNames := by
  unfold SchemaRegistry.loadSchema
  cases parsed : parse (tokens sdl.toList) with
  | error e => exact free
  | ok nodes =>
      have named := parse_named (fun id => identifier_of_mem_tokens) parsed
      dsimp only
      clear parsed
      induction nodes generalizing reg with
      | nil => exact free
      | cons node rest ih =>
          obtain ⟨first, later⟩ := List.forall_mem_cons.mp named
          exact ih (free.insertNode first) later

end SchemaRegistry

end KindDb.Schema
