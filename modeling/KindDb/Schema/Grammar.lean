import KindDb.Lib.Phrases
import KindDb.Schema.Parser

/-! # The grammar of the schema language

    node  ::= [@prefix '(' string ')'] ('type' ident '{' fields '}' | 'enum' ident '{' idents '}')
    fields, idents ::= [item (',' item)* [',']]
    field ::= ['@indexed'] ident ':' dtype
    dtype ::= '[' dtype ']' | ident

A phrase is a derivation tree of a nonterminal, with its tokens and what it
stands for.  `parse` accepts a text if and only if it is the tokens of a list of
nodes, with the nodes that these stand for; there is at most one such list. -/
set_option autoImplicit false

namespace KindDb.Schema

open KindDb.Lib

/-! ## Derivation trees -/

def builtinTypes : List (String × DataType) :=
  [("String", .string), ("U16", .u16), ("U32", .u32), ("U64", .u64), ("I32", .i32), ("I64", .i64),
    ("F64", .f64), ("Boolean", .boolean)]

inductive DataTypePhrase
  | named (id : String)
  | array (inner : DataTypePhrase)
deriving Repr, DecidableEq

namespace DataTypePhrase

def tokens : DataTypePhrase → Tokens
  | named id => [.identifier id]
  | array inner => .lBracket :: (inner.tokens ++ [.rBracket])

def dataType : DataTypePhrase → DataType
  | named id => (builtinTypes.lookup id).getD (.custom id)
  | array inner => .array inner.dataType

end DataTypePhrase

structure FieldPhrase where
  isIndexed : Bool
  name : String
  type : DataTypePhrase
deriving Repr, DecidableEq

namespace FieldPhrase

def tokens (p : FieldPhrase) : Tokens :=
  (if p.isIndexed then [.atIndexed] else []) ++ .identifier p.name :: .colon :: p.type.tokens

def fieldDef (p : FieldPhrase) : FieldDefinition :=
  { name := p.name, dataType := p.type.dataType, isIndexed := p.isIndexed }

end FieldPhrase

inductive BodyPhrase
  | type (fields : Separated FieldPhrase)
  | enum (variants : Separated String)

def variantTokens (variant : String) : Tokens := [.identifier variant]

namespace BodyPhrase

def keyword : BodyPhrase → String
  | type _ => "type"
  | enum _ => "enum"

def tokens : BodyPhrase → Tokens
  | type fields => fields.yield .comma FieldPhrase.tokens
  | enum variants => variants.yield .comma variantTokens

end BodyPhrase

structure NodePhrase where
  keyPrefix : Option String
  name : String
  body : BodyPhrase

def prefixTokens : Option String → Tokens
  | some s => [.atPrefix, .lParen, .stringLiteral s, .rParen]
  | none => []

namespace NodePhrase

def tokens (p : NodePhrase) : Tokens :=
  prefixTokens p.keyPrefix ++
    .keyword p.body.keyword :: .identifier p.name :: .lBrace :: (p.body.tokens ++ [.rBrace])

/-- A type keeps its prefix, an enum drops it. -/
def node (p : NodePhrase) : SchemaNode :=
  match p.body with
  | .type fields =>
      .type { name := p.name, fields := fields.toList.map FieldPhrase.fieldDef,
              keyPrefix := p.keyPrefix }
  | .enum variants => .enum { name := p.name, variants := variants.toList }

end NodePhrase

/-! ## A text has one derivation -/

theorem DataTypePhrase.unique : UniquelyRead DataTypePhrase.tokens := by
  intro p
  induction p with
  | named id =>
      intro q rest rest' same
      cases q with
      | named id' =>
          simp only [tokens, List.cons_append, List.nil_append, List.cons.injEq,
            Token.identifier.injEq] at same
          exact ⟨congrArg named same.1, same.2⟩
      | array inner' => simp [tokens] at same
  | array inner ih =>
      intro q rest rest' same
      cases q with
      | named id' => simp [tokens] at same
      | array inner' =>
          simp only [tokens, List.cons_append, List.append_assoc, List.cons.injEq, true_and] at same
          obtain ⟨rfl, later⟩ := ih inner' _ _ same
          exact ⟨rfl, (List.cons.inj later).2⟩

theorem FieldPhrase.unique : UniquelyRead FieldPhrase.tokens := by
  intro p q rest rest' same
  obtain ⟨isIndexed, name, type⟩ := p
  obtain ⟨isIndexed', name', type'⟩ := q
  cases isIndexed <;> cases isIndexed' <;> simp [tokens] at same
  all_goals
    obtain ⟨rfl, later⟩ := same
    obtain ⟨rfl, rest⟩ := DataTypePhrase.unique _ _ _ _ later
    exact ⟨rfl, rest⟩

theorem variantTokens_unique : UniquelyRead variantTokens := by
  intro variant variant' rest rest' same
  simpa [variantTokens] using same

theorem FieldPhrase.begins : Separated.Begins .comma .rBrace FieldPhrase.tokens := by
  rintro ⟨isIndexed, name, type⟩
  cases isIndexed with
  | true => exact ⟨.atIndexed, _, rfl, by simp, by simp⟩
  | false => exact ⟨.identifier name, _, rfl, by simp, by simp⟩

theorem variantTokens_begins : Separated.Begins .comma .rBrace variantTokens :=
  fun variant => ⟨.identifier variant, [], rfl, by simp, by simp⟩

theorem NodePhrase.unique : UniquelyRead NodePhrase.tokens := by
  intro p q rest rest' same
  obtain ⟨keyPrefix, name, body⟩ := p
  obtain ⟨keyPrefix', name', body'⟩ := q
  -- the prefix, the keyword and the name; then the items up to the brace
  have front : keyPrefix = keyPrefix' ∧ body.keyword = body'.keyword ∧ name = name' ∧
      body.tokens ++ .rBrace :: rest = body'.tokens ++ .rBrace :: rest' := by
    cases keyPrefix <;> cases keyPrefix' <;> simp [tokens, prefixTokens] at same
    · exact ⟨rfl, same⟩
    · exact ⟨congrArg some same.1, same.2⟩
  obtain ⟨rfl, sameKeyword, rfl, items⟩ := front
  cases body with
  | type fields =>
      cases body' with
      | type fields' =>
          obtain ⟨rfl, rest⟩ := Separated.unique FieldPhrase.unique FieldPhrase.begins
            (by simp) items
          exact ⟨rfl, rest⟩
      | enum variants' => simp [BodyPhrase.keyword] at sameKeyword
  | enum variants =>
      cases body' with
      | type fields' => simp [BodyPhrase.keyword] at sameKeyword
      | enum variants' =>
          obtain ⟨rfl, rest⟩ := Separated.unique variantTokens_unique variantTokens_begins
            (by simp) items
          exact ⟨rfl, rest⟩

end KindDb.Schema
