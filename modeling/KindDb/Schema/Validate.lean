import KindDb.Schema.Registry

/-! # Validation against the schema

`validate` and `validate_field` call each other, and a type may refer to
itself; the recursion is on the depth of calls that is left, and `none` is its
end.  Twice the nesting depth of the value is always enough
(`validateFuel_terminates`), whatever the schema. -/
set_option autoImplicit false

namespace KindDb.Schema

open KindDb.Lib

inductive ValidationError
  | typeNotFound (typeName : String)
  | fieldMissing (field : String)
  | invalidType (field expected : String)
  | invalidEnumVariant (field variant : String)
deriving Repr, DecidableEq

end KindDb.Schema

namespace KindDb

/-! ## JSON values -/

def JsonNumber.isI64 : JsonNumber → Bool
  | .posInt n => n.toNat ≤ 2 ^ 63 - 1
  | .negInt _ => true
  | .float _ => false

def JsonNumber.isU64 : JsonNumber → Bool
  | .posInt _ => true
  | _ => false

def JsonNumber.isF64 : JsonNumber → Bool
  | .float _ => true
  | _ => false

namespace Json

def isString : Json → Bool
  | .string _ => true
  | _ => false

def isBoolean : Json → Bool
  | .bool _ => true
  | _ => false

def isI64 : Json → Bool
  | .number n => n.isI64
  | _ => false

def isU64 : Json → Bool
  | .number n => n.isU64
  | _ => false

def isF64 : Json → Bool
  | .number n => n.isF64
  | _ => false

mutual

/-- How deep arrays and objects are nested. -/
def depth : Json → Nat
  | .array items => itemsDepth items + 1
  | .object fields => fieldsDepth fields + 1
  | _ => 0

def itemsDepth : List Json → Nat
  | [] => 0
  | item :: rest => max item.depth (itemsDepth rest)

def fieldsDepth : List (String × Json) → Nat
  | [] => 0
  | (_, value) :: rest => max value.depth (fieldsDepth rest)

end

theorem depth_item {items : List Json} {item : Json} (member : item ∈ items) :
    item.depth ≤ itemsDepth items := by
  induction items with
  | nil => cases member
  | cons first rest ih =>
      rw [itemsDepth]
      rcases List.mem_cons.mp member with rfl | later
      · exact le_max_left _ _
      · exact (ih later).trans (le_max_right _ _)

theorem depth_field {fields : List (String × Json)} {name : String} {value : Json}
    (found : fields.lookup name = some value) : value.depth ≤ fieldsDepth fields := by
  induction fields with
  | nil => cases found
  | cons first rest ih =>
      obtain ⟨key, held⟩ := first
      rw [fieldsDepth]
      rw [List.lookup_cons] at found
      split at found
      · cases Option.some.inj found
        exact le_max_left _ _
      · exact (ih found).trans (le_max_right _ _)

end Json

end KindDb

namespace KindDb.Schema

open KindDb.Lib

/-- The verdict of a call, if the depth of calls was enough for it. -/
abbrev Verdict := Option (Except ValidationError Unit)

/-- A loop that stops at the first error. -/
def forEach {α : Type} (check : α → Verdict) : List α → Verdict
  | [] => some (.ok ())
  | a :: rest =>
      match check a with
      | some (.ok ()) => forEach check rest
      | stopped => stopped

namespace SchemaRegistry

variable (reg : SchemaRegistry)

mutual

def validateFuel : Nat → String → Json → Verdict
  | 0, _, _ => none
  | fuel + 1, typeName, data =>
      match reg.types[typeName]? with
      | none => some (.error (.typeNotFound typeName))
      | some tDef =>
          match data with
          | .object obj => forEach (fun fieldDef =>
              match obj.lookup fieldDef.name with
              | none => some (.error (.fieldMissing fieldDef.name))
              | some val => validateFieldFuel fuel fieldDef.name fieldDef.dataType val) tDef.fields
          | _ => some (.error (.invalidType "root" "Object"))

def validateFieldFuel : Nat → String → DataType → Json → Verdict
  | 0, _, _, _ => none
  | fuel + 1, fieldName, dataType, val =>
      match dataType with
      | .string => some (if val.isString then .ok () else .error (.invalidType fieldName "String"))
      | .u16 | .u32 | .u64 | .i32 | .i64 => some
          (if val.isI64 || val.isU64 then .ok () else .error (.invalidType fieldName "Integer"))
      | .f64 => some (if val.isF64 || val.isI64 || val.isU64 then .ok ()
          else .error (.invalidType fieldName "Float"))
      | .boolean => some
          (if val.isBoolean then .ok () else .error (.invalidType fieldName "Boolean"))
      | .custom customType =>
          match reg.enums[customType]? with
          | some enumDef =>
              match val with
              | .string s => some (if s ∈ enumDef.variants then .ok ()
                  else .error (.invalidEnumVariant fieldName s))
              | _ => some (.error (.invalidType fieldName "String (Enum Variant)"))
          | none =>
              match reg.types[customType]? with
              | some _ => validateFuel fuel customType val
              | none => some (.error (.typeNotFound customType))
      | .array inner =>
          match val with
          | .array arr => forEach (fun item =>
              validateFieldFuel fuel (fieldName ++ "[" ++ toString item.2 ++ "]") inner item.1)
                arr.zipIdx
          | _ => some (.error (.invalidType fieldName "Array"))

end

/-! ## The depth of calls -/

theorem forEach_isSome {α : Type} {check : α → Verdict} {list : List α}
    (each : ∀ a ∈ list, (check a).isSome) : (forEach check list).isSome := by
  induction list with
  | nil => rfl
  | cons first rest ih =>
      unfold forEach
      split
      · exact ih fun a member => each a (List.mem_cons_of_mem _ member)
      · exact each first List.mem_cons_self

variable {reg}

theorem fuel_terminates (fuel : Nat) :
    (∀ typeName data, 2 * data.depth + 1 ≤ fuel → (reg.validateFuel fuel typeName data).isSome) ∧
    ∀ fieldName dataType val, 2 * val.depth + 2 ≤ fuel →
      (reg.validateFieldFuel fuel fieldName dataType val).isSome := by
  induction fuel with
  | zero => exact ⟨fun _ _ short => by omega, fun _ _ _ short => by omega⟩
  | succ fuel ih =>
      refine ⟨fun typeName data enough => ?_, fun fieldName dataType val enough => ?_⟩
      · unfold validateFuel
        split
        · rfl
        · split
          · rename_i obj
            refine forEach_isSome fun fieldDef _ => ?_
            split
            · rfl
            · rename_i val found
              have := Json.depth_field found
              refine ih.2 _ _ _ ?_
              rw [Json.depth] at enough
              omega
          · rfl
      · unfold validateFieldFuel
        split
        case h_9 =>
          split
          · split <;> rfl
          · split
            · exact ih.1 _ _ (by omega)
            · rfl
        case h_10 =>
          split
          · rename_i arr
            refine forEach_isSome fun item member => ih.2 _ _ _ ?_
            have := Json.depth_item (List.fst_mem_of_mem_zipIdx member)
            rw [Json.depth] at enough
            omega
          · rfl
        all_goals rfl

/-- A depth of calls linear in the nesting of the value is enough. -/
theorem validateFuel_terminates (typeName : String) (data : Json) :
    (reg.validateFuel (2 * data.depth + 1) typeName data).isSome :=
  (fuel_terminates _).1 typeName data le_rfl

variable (reg)

def validate (typeName : String) (data : Json) : Except ValidationError Unit :=
  (reg.validateFuel (2 * data.depth + 1) typeName data).get (validateFuel_terminates typeName data)

end SchemaRegistry

end KindDb.Schema
