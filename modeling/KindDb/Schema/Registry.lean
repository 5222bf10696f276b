import KindDb.Serde
import KindDb.Lib.SortedMap

/-! # The schema registry and the index keys of a record -/
set_option autoImplicit false

namespace KindDb.Schema

open KindDb.Lib

inductive DataType
  | string | u16 | u32 | u64 | i32 | i64 | f64 | boolean
  | custom (name : String)
  | array (inner : DataType)
deriving Repr, DecidableEq

structure FieldDefinition where
  name : String
  dataType : DataType
  isIndexed : Bool
deriving Repr, DecidableEq

structure TypeDefinition where
  name : String
  fields : List FieldDefinition
  keyPrefix : Option String
deriving Repr, DecidableEq

structure EnumDefinition where
  name : String
  variants : List String
deriving Repr, DecidableEq

structure SchemaRegistry where
  types : SortedMap String TypeDefinition
  enums : SortedMap String EnumDefinition
  prefixMap : SortedMap String String

namespace SchemaRegistry

def new : SchemaRegistry := { types := ∅, enums := ∅, prefixMap := ∅ }

def indexedFieldsForPrefix (reg : SchemaRegistry) (pfx : String) : Option (List FieldDefinition) :=
  match reg.prefixMap[pfx]? with
  | none => none
  | some typeName =>
      match reg.types[typeName]? with
      | none => none
      | some tDef =>
          let indexed := tDef.fields.filter (·.isIndexed)
          if indexed.isEmpty then none else some indexed

end SchemaRegistry

/-- `key.split(':').next()`: the text before the first colon, or all of it. -/
def typePrefix (key : String) : String := String.ofList (key.toList.takeWhile (· ≠ ':'))

variable [Serde]

/-- `extract_index_keys`; the closure `extract_keys` of `KindServerImpl::new`
has the same body. -/
def extractIndexKeys (reg : SchemaRegistry) (key : String) (val : Bytes) : List String :=
  match reg.indexedFieldsForPrefix (typePrefix key) with
  | none => []
  | some indexedFields =>
      match Serde.valueFromSlice val with
      | some (.object obj) =>
          match reg.prefixMap[typePrefix key]? with
          | some typeName => indexedFields.filterMap fun fieldDef =>
              ((obj.lookup fieldDef.name).bind Json.indexText).map fun vStr =>
                typeName ++ ":" ++ fieldDef.name ++ ":" ++ vStr
          | none => []
      | _ => []

/-- Where an index key comes from. -/
theorem mem_extractIndexKeys {reg : SchemaRegistry} {key ik : String} {val : Bytes}
    (member : ik ∈ extractIndexKeys reg key val) :
    ∃ typeName tDef fieldDef obj v vStr, reg.prefixMap[typePrefix key]? = some typeName ∧
      reg.types[typeName]? = some tDef ∧ fieldDef ∈ tDef.fields ∧ fieldDef.isIndexed = true ∧
      Serde.valueFromSlice val = some (.object obj) ∧ obj.lookup fieldDef.name = some v ∧
      v.indexText = some vStr ∧ ik = typeName ++ ":" ++ fieldDef.name ++ ":" ++ vStr := by
  unfold extractIndexKeys SchemaRegistry.indexedFieldsForPrefix at member
  cases mapped : reg.prefixMap[typePrefix key]? with
  | none => simp [mapped] at member
  | some typeName =>
      cases defined : reg.types[typeName]? with
      | none => simp [mapped, defined] at member
      | some tDef =>
          simp only [mapped, defined] at member
          split at member
          · cases member
          · rename_i indexedFields fields
            split at fields
            · cases fields
            · cases fields
              split at member
              · rename_i obj parsed
                obtain ⟨fieldDef, listed, found⟩ := List.mem_filterMap.mp member
                obtain ⟨inType, indexed⟩ := List.mem_filter.mp listed
                obtain ⟨vStr, text, same⟩ := Option.map_eq_some_iff.mp found
                obtain ⟨v, looked, text⟩ := Option.bind_eq_some_iff.mp text
                exact ⟨typeName, tDef, fieldDef, obj, v, vStr, rfl, defined, inType, indexed,
                  parsed, looked, text, same.symm⟩
              · cases member

end KindDb.Schema
