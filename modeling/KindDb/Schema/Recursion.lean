import KindDb.Schema.Validate

/-! # The recursion of the validation

The calls that `validate` and `validate_field` make, as a relation.  A type may
refer to itself, and the call for a custom type passes its value on as it is; but
two calls in a row go down into the value.  A call of `validate` therefore nests
at most twice as deep as its value, and one level more, whatever the schema. -/
set_option autoImplicit false

namespace KindDb.Schema

theorem forEach_congr {α : Type} {check check' : α → Verdict} {list : List α}
    (same : ∀ a ∈ list, check a = check' a) : forEach check list = forEach check' list := by
  induction list with
  | nil => rfl
  | cons first rest ih =>
      rw [forEach, forEach, same first List.mem_cons_self,
        ih fun a member => same a (List.mem_cons_of_mem _ member)]

inductive ValidateCall
  | validate (typeName : String) (data : Json)
  | validateField (fieldName : String) (dataType : DataType) (val : Json)

namespace ValidateCall

/-- A call, and one that it may make. -/
inductive Makes (reg : SchemaRegistry) : ValidateCall → ValidateCall → Prop
  | field {typeName : String} {tDef : TypeDefinition} {obj : List (String × Json)}
      {fieldDef : FieldDefinition} {val : Json} (registered : reg.types[typeName]? = some tDef)
      (declared : fieldDef ∈ tDef.fields) (found : obj.lookup fieldDef.name = some val) :
      Makes reg (.validate typeName (.object obj))
        (.validateField fieldDef.name fieldDef.dataType val)
  | custom {fieldName customType : String} {tDef : TypeDefinition} {val : Json}
      (noEnum : reg.enums[customType]? = none) (registered : reg.types[customType]? = some tDef) :
      Makes reg (.validateField fieldName (.custom customType) val) (.validate customType val)
  | item {fieldName : String} {inner : DataType} {arr : List Json} {item : Json × Nat}
      (member : item ∈ arr.zipIdx) :
      Makes reg (.validateField fieldName (.array inner) (.array arr))
        (.validateField (fieldName ++ "[" ++ toString item.2 ++ "]") inner item.1)

/-- The verdict of a call that may nest so deep. -/
def evaluate (reg : SchemaRegistry) (limit : Nat) : ValidateCall → Verdict
  | .validate typeName data => reg.validateFuel limit typeName data
  | .validateField fieldName dataType val => reg.validateFieldFuel limit fieldName dataType val

def levels : ValidateCall → Nat
  | .validate _ data => 2 * data.depth + 1
  | .validateField _ _ val => 2 * val.depth + 2

variable {reg : SchemaRegistry} {call callee : ValidateCall}

theorem evaluate_isSome {limit : Nat} (enough : call.levels ≤ limit) :
    (call.evaluate reg limit).isSome := by
  cases call with
  | validate typeName data =>
      exact (SchemaRegistry.fuel_terminates limit).1 typeName data enough
  | validateField fieldName dataType val =>
      exact (SchemaRegistry.fuel_terminates limit).2 fieldName dataType val enough

/-- Every call takes fewer levels than the call that makes it. -/
theorem levels_of_makes (makes : Makes reg call callee) : callee.levels < call.levels := by
  cases makes with
  | field registered declared found =>
      have deeper := Json.depth_field found
      rw [levels, levels, Json.depth]
      omega
  | custom noEnum registered =>
      rw [levels, levels]
      omega
  | item member =>
      have deeper := Json.depth_item (List.fst_mem_of_mem_zipIdx member)
      rw [levels, levels, Json.depth]
      omega

theorem chain_le {nested : List ValidateCall} (chain : (call :: nested).IsChain (Makes reg)) :
    (call :: nested).length ≤ call.levels := by
  induction nested generalizing call with
  | nil => cases call <;> exact Nat.succ_pos _
  | cons callee nested ih =>
      obtain ⟨makes, chain⟩ := List.isChain_cons_cons.mp chain
      have shorter := ih chain
      have lower := levels_of_makes makes
      rw [List.length_cons]
      omega

/-- The verdict of a call rests on the calls it may make, and on no others. -/
theorem evaluate_congr {limit limit' : Nat} (same : ∀ callee, Makes reg call callee →
    callee.evaluate reg limit = callee.evaluate reg limit') :
    call.evaluate reg (limit + 1) = call.evaluate reg (limit' + 1) := by
  cases call with
  | validate typeName data =>
      rw [evaluate, evaluate, SchemaRegistry.validateFuel, SchemaRegistry.validateFuel]
      cases registered : reg.types[typeName]? with
      | none => rfl
      | some tDef =>
          cases data with
          | object obj =>
              apply forEach_congr
              intro fieldDef declared
              cases found : obj.lookup fieldDef.name with
              | none => rfl
              | some val => exact same _ (.field registered declared found)
          | _ => rfl
  | validateField fieldName dataType val =>
      cases dataType with
      | custom customType =>
          rw [evaluate, evaluate, SchemaRegistry.validateFieldFuel,
            SchemaRegistry.validateFieldFuel]
          cases noEnum : reg.enums[customType]? with
          | some enumDef => rfl
          | none =>
              cases registered : reg.types[customType]? with
              | none => rfl
              | some tDef => exact same _ (.custom noEnum registered)
      | array inner =>
          cases val with
          | array arr =>
              rw [evaluate, evaluate, SchemaRegistry.validateFieldFuel,
                SchemaRegistry.validateFieldFuel]
              apply forEach_congr
              intro item member
              exact same _ (.item member)
          | _ => rfl
      | _ => rfl

/-- Beyond its levels the limit makes no difference to a call. -/
theorem evaluate_enough {limit limit' : Nat} (enough : call.levels ≤ limit)
    (enough' : call.levels ≤ limit') : call.evaluate reg limit = call.evaluate reg limit' := by
  induction limit generalizing call limit' with
  | zero => cases call <;> cases enough
  | succ limit ih =>
      cases limit' with
      | zero => cases call <;> cases enough'
      | succ limit' =>
          apply evaluate_congr
          intro callee makes
          have lower := levels_of_makes makes
          apply ih <;> omega

/-- The verdict of a call. -/
def verdict (reg : SchemaRegistry) (call : ValidateCall) : Except ValidationError Unit :=
  (call.evaluate reg call.levels).get (evaluate_isSome le_rfl)

theorem evaluate_eq {limit : Nat} (enough : call.levels ≤ limit) :
    call.evaluate reg limit = some (call.verdict reg) := by
  rw [evaluate_enough enough le_rfl, verdict, Option.some_get]

theorem verdict_validate (typeName : String) (data : Json) :
    (validate typeName data).verdict reg = reg.validate typeName data := rfl

/-- Whatever the schema refers to, a call ends with its verdict within levels
that are linear in the depth of its value, and no chain of calls nests deeper. -/
theorem validation_ends (reg : SchemaRegistry) (call : ValidateCall) :
    (∀ limit, call.levels ≤ limit → call.evaluate reg limit = some (call.verdict reg)) ∧
      ∀ nested : List ValidateCall, (call :: nested).IsChain (Makes reg) →
        (call :: nested).length ≤ call.levels :=
  ⟨fun _ enough => evaluate_eq enough, fun _ chain => chain_le chain⟩

end ValidateCall

end KindDb.Schema
