import KindDb.Schema.RoundTrip
import KindDb.Schema.Validate

/-! # Validation is conformance up to the ranges

`Conforms` says what it means for a JSON value to be of a registered type, with
the integers that a field may hold as a parameter.  `validate` accepts the
values that conform when every integer will do; it is conformance with the
ranges of the integer types exactly for the values whose integers, wherever an
integer type is declared, lie in its range. -/
set_option autoImplicit false

namespace KindDb

/-- The value of a number that is written without fraction and exponent. -/
def JsonNumber.integer : JsonNumber → Option Int
  | .posInt n => some n.toNat
  | .negInt n => some n.toInt
  | .float _ => none

theorem JsonNumber.isInteger_iff (n : JsonNumber) :
    (n.isI64 || n.isU64) = true ↔ ∃ i, n.integer = some i := by
  cases n <;> simp [JsonNumber.isI64, JsonNumber.isU64, JsonNumber.integer]

theorem JsonNumber.isNumber (n : JsonNumber) : (n.isF64 || n.isI64 || n.isU64) = true := by
  cases n <;> simp [JsonNumber.isF64, JsonNumber.isI64, JsonNumber.isU64]

end KindDb

namespace KindDb.Schema

open KindDb.Lib

namespace DataType

def IsInteger : DataType → Prop
  | .u16 | .u32 | .u64 | .i32 | .i64 => True
  | _ => False

/-- The range of an integer type. -/
def InRange : DataType → Int → Prop
  | .u16, i => 0 ≤ i ∧ i < 2 ^ 16
  | .u32, i => 0 ≤ i ∧ i < 2 ^ 32
  | .u64, i => 0 ≤ i ∧ i < 2 ^ 64
  | .i32, i => -2 ^ 31 ≤ i ∧ i < 2 ^ 31
  | .i64, i => -2 ^ 63 ≤ i ∧ i < 2 ^ 63
  | _, _ => False

end DataType

section Conformance
variable (reg : SchemaRegistry)

mutual

/-- A value of a registered type: an object with all of the declared fields. -/
inductive Conforms (fits : DataType → Int → Prop) : String → Json → Prop
  | object {typeName : String} {tDef : TypeDefinition} {obj : List (String × Json)}
      (registered : reg.types[typeName]? = some tDef)
      (present : ∀ fieldDef ∈ tDef.fields, (obj.lookup fieldDef.name).isSome)
      (conform : ∀ fieldDef ∈ tDef.fields, ∀ val, obj.lookup fieldDef.name = some val →
        FieldConforms fits fieldDef.dataType val) :
      Conforms fits typeName (.object obj)

inductive FieldConforms (fits : DataType → Int → Prop) : DataType → Json → Prop
  | string (s : String) : FieldConforms fits .string (.string s)
  | integer {dataType : DataType} {n : JsonNumber} {i : Int} (isInteger : dataType.IsInteger)
      (value : n.integer = some i) (fit : fits dataType i) :
      FieldConforms fits dataType (.number n)
  | number (n : JsonNumber) : FieldConforms fits .f64 (.number n)
  | boolean (b : Bool) : FieldConforms fits .boolean (.bool b)
  | variant {name s : String} {enumDef : EnumDefinition}
      (isEnum : reg.enums[name]? = some enumDef) (listed : s ∈ enumDef.variants) :
      FieldConforms fits (.custom name) (.string s)
  | nested {name : String} {val : Json} (noEnum : reg.enums[name]? = none)
      (conforms : Conforms fits name val) : FieldConforms fits (.custom name) val
  | array {inner : DataType} {items : List Json}
      (each : ∀ item ∈ items, FieldConforms fits inner item) :
      FieldConforms fits (.array inner) (.array items)

end

/-- The value holds the integer at a place of the integer type. -/
inductive IntegerAt (dataType : DataType) (i : Int) : DataType → Json → Prop
  | here {n : JsonNumber} (isInteger : dataType.IsInteger) (value : n.integer = some i) :
      IntegerAt dataType i dataType (.number n)
  | item {inner : DataType} {items : List Json} {item : Json} (member : item ∈ items)
      (within : IntegerAt dataType i inner item) : IntegerAt dataType i (.array inner) (.array items)
  | field {name : String} {tDef : TypeDefinition} {fieldDef : FieldDefinition}
      {obj : List (String × Json)} {val : Json} (noEnum : reg.enums[name]? = none)
      (registered : reg.types[name]? = some tDef) (declared : fieldDef ∈ tDef.fields)
      (found : obj.lookup fieldDef.name = some val)
      (within : IntegerAt dataType i fieldDef.dataType val) :
      IntegerAt dataType i (.custom name) (.object obj)

/-- The integers of an object that is read as a value of a registered type. -/
def HoldsInteger (typeName : String) (data : Json) (dataType : DataType) (i : Int) : Prop :=
  ∃ tDef fieldDef obj val, reg.types[typeName]? = some tDef ∧ fieldDef ∈ tDef.fields ∧
    data = .object obj ∧ obj.lookup fieldDef.name = some val ∧
    IntegerAt reg dataType i fieldDef.dataType val

end Conformance

/-- Conformance when the ranges do not count. -/
abbrev AnyInteger : DataType → Int → Prop := fun _ _ => True

variable {reg : SchemaRegistry}

/-! ## Conformance is shape and ranges -/

theorem FieldConforms.mono {fits fits' : DataType → Int → Prop}
    (weaker : ∀ dataType i, fits dataType i → fits' dataType i) {dataType : DataType} {val : Json}
    (conforms : FieldConforms reg fits dataType val) : FieldConforms reg fits' dataType val := by
  induction conforms using FieldConforms.rec
    (motive_1 := fun typeName data _ => Conforms reg fits' typeName data) with
  | object registered present _ ih => exact .object registered present ih
  | string s => exact .string s
  | integer isInteger value fit => exact .integer isInteger value (weaker _ _ fit)
  | number n => exact .number n
  | boolean b => exact .boolean b
  | variant isEnum listed => exact .variant isEnum listed
  | nested noEnum _ ih => exact .nested noEnum ih
  | array _ ih => exact .array ih

theorem inRange_of_integerAt {dataType dataType' : DataType} {i : Int} {val : Json}
    (held : IntegerAt reg dataType i dataType' val)
    (conforms : FieldConforms reg DataType.InRange dataType' val) : dataType.InRange i := by
  induction held with
  | here isInteger value =>
      cases conforms with
      | integer _ value' fit =>
          rw [value] at value'
          rw [Option.some.inj value']
          exact fit
      | number n => cases isInteger
      | nested => cases isInteger
  | item member _ ih =>
      cases conforms with
      | array each => exact ih (each _ member)
  | field noEnum registered declared found _ ih =>
      cases conforms with
      | nested _ conforms =>
          cases conforms with
          | object registered' present conform =>
              rw [registered] at registered'
              cases registered'
              exact ih (conform _ declared _ found)

theorem fieldConforms_of_ranges {dataType : DataType} {val : Json}
    (conforms : FieldConforms reg AnyInteger dataType val)
    (ranges : ∀ dataType' i, IntegerAt reg dataType' i dataType val → dataType'.InRange i) :
    FieldConforms reg DataType.InRange dataType val := by
  induction conforms using FieldConforms.rec
    (motive_1 := fun typeName data _ =>
      (∀ dataType' i, HoldsInteger reg typeName data dataType' i → dataType'.InRange i) →
        Conforms reg DataType.InRange typeName data) with
  | object registered present _ ih =>
      rename_i ranges
      refine .object registered present fun fieldDef declared val found => ?_
      apply ih fieldDef declared val found
      intro dataType' i within
      exact ranges dataType' i ⟨_, fieldDef, _, val, registered, declared, rfl, found, within⟩
  | string s => exact .string s
  | integer isInteger value _ => exact .integer isInteger value (ranges _ _ (.here isInteger value))
  | number n => exact .number n
  | boolean b => exact .boolean b
  | variant isEnum listed => exact .variant isEnum listed
  | nested noEnum _ ih =>
      refine .nested noEnum (ih fun dataType' i held => ?_)
      obtain ⟨tDef, fieldDef, obj, val, registered, declared, rfl, found, within⟩ := held
      exact ranges dataType' i (.field noEnum registered declared found within)
  | array _ ih =>
      refine .array fun item member => ?_
      apply ih item member
      intro dataType' i within
      exact ranges dataType' i (.item member within)

/-- To conform is to have the shape and to keep to the ranges. -/
theorem conforms_iff {typeName : String} {data : Json} :
    Conforms reg DataType.InRange typeName data ↔ Conforms reg AnyInteger typeName data ∧
      ∀ dataType i, HoldsInteger reg typeName data dataType i → dataType.InRange i := by
  constructor
  · intro conforms
    cases conforms with
    | object registered present conform =>
        refine ⟨.object registered present fun fieldDef declared val found => ?_, ?_⟩
        · exact (conform fieldDef declared val found).mono fun _ _ _ => trivial
        · rintro dataType i ⟨tDef, fieldDef, obj, val, registered', declared, same, found, within⟩
          rw [registered] at registered'
          cases registered'
          cases same
          exact inRange_of_integerAt within (conform fieldDef declared val found)
  · rintro ⟨conforms, ranges⟩
    cases conforms with
    | object registered present conform =>
        refine .object registered present fun fieldDef declared val found => ?_
        apply fieldConforms_of_ranges (conform fieldDef declared val found)
        intro dataType i within
        exact ranges dataType i ⟨_, fieldDef, _, val, registered, declared, rfl, found, within⟩

/-! ## What `validate` accepts -/

theorem forEach_ok {α : Type} {check : α → Verdict} {conforms : α → Prop} {list : List α}
    (each : ∀ a ∈ list, ∀ verdict, check a = some verdict → (verdict = .ok () ↔ conforms a))
    {verdict : Except ValidationError Unit} (checked : forEach check list = some verdict) :
    verdict = .ok () ↔ ∀ a ∈ list, conforms a := by
  induction list generalizing verdict with
  | nil =>
      cases checked
      simp
  | cons first rest ih =>
      unfold forEach at checked
      have here := each first List.mem_cons_self
      split at checked
      · rename_i passed
        rw [ih (fun a member => each a (List.mem_cons_of_mem _ member)) checked,
          List.forall_mem_cons, and_iff_right ((here _ passed).mp rfl)]
      · rename_i failed
        rw [List.forall_mem_cons, ← here verdict checked]
        refine ⟨fun ok => absurd (ok ▸ checked) failed, fun both => both.1⟩

section Leaves
variable {val : Json}

theorem string_iff : FieldConforms reg AnyInteger .string val ↔ val.isString = true := by
  constructor
  · intro conforms
    cases conforms with
    | string s => rfl
    | integer isInteger => cases isInteger
  · intro isString
    cases val with
    | string s => exact .string s
    | null | bool | number | array | object => cases isString

theorem integer_iff {dataType : DataType} (isInteger : dataType.IsInteger) :
    FieldConforms reg AnyInteger dataType val ↔ (val.isI64 || val.isU64) = true := by
  constructor
  · intro conforms
    cases conforms with
    | @integer _ n i _ value => exact n.isInteger_iff.mpr ⟨i, value⟩
    | string | number | boolean | variant | nested | array => cases isInteger
  · intro integer
    cases val with
    | number n =>
        obtain ⟨i, value⟩ := n.isInteger_iff.mp integer
        exact .integer isInteger value trivial
    | null | bool | string | array | object => cases integer

theorem f64_iff : FieldConforms reg AnyInteger .f64 val ↔
    (val.isF64 || val.isI64 || val.isU64) = true := by
  constructor
  · intro conforms
    cases conforms with
    | number n => exact n.isNumber
    | integer isInteger => cases isInteger
  · intro isNumber
    cases val with
    | number n => exact .number n
    | null | bool | string | array | object => cases isNumber

theorem boolean_iff : FieldConforms reg AnyInteger .boolean val ↔ val.isBoolean = true := by
  constructor
  · intro conforms
    cases conforms with
    | boolean b => rfl
    | integer isInteger => cases isInteger
  · intro isBoolean
    cases val with
    | bool b => exact .boolean b
    | null | number | string | array | object => cases isBoolean

theorem ok_iff {test : Bool} {error : ValidationError} :
    (if test then Except.ok () else .error error) = .ok () ↔ test = true := by
  cases test <;> simp

end Leaves

/-- Nothing conforms to a type that is not registered. -/
theorem not_conforms {fits : DataType → Int → Prop} {typeName : String} {data : Json}
    (unregistered : reg.types[typeName]? = none) : ¬ Conforms reg fits typeName data := by
  intro conforms
  cases conforms with
  | object registered => simp [unregistered] at registered

/-- What the calls with some depth left accept. -/
def TypeExact (reg : SchemaRegistry) (fuel : Nat) : Prop :=
  ∀ typeName data verdict, reg.validateFuel fuel typeName data = some verdict →
    (verdict = .ok () ↔ Conforms reg AnyInteger typeName data)

def FieldExact (reg : SchemaRegistry) (fuel : Nat) : Prop :=
  ∀ fieldName dataType val verdict,
    reg.validateFieldFuel fuel fieldName dataType val = some verdict →
      (verdict = .ok () ↔ FieldConforms reg AnyInteger dataType val)

theorem typeExact_step {fuel : Nat} (fields : FieldExact reg fuel) : TypeExact reg (fuel + 1) := by
  intro typeName data verdict checked
  unfold SchemaRegistry.validateFuel at checked
  cases registered : reg.types[typeName]? with
  | none =>
      rw [registered] at checked
      cases checked
      exact iff_of_false (by simp) (not_conforms registered)
  | some tDef =>
      rw [registered] at checked
      cases data with
      | object obj =>
          have each : verdict = .ok () ↔ ∀ fieldDef ∈ tDef.fields, ∃ val,
              obj.lookup fieldDef.name = some val ∧
                FieldConforms reg AnyInteger fieldDef.dataType val := by
            refine forEach_ok (fun fieldDef _ verdict' checked' => ?_) checked
            cases found : obj.lookup fieldDef.name with
            | none =>
                simp only [found, Option.some.injEq] at checked'
                rw [← checked']
                simp
            | some val =>
                simp only [found] at checked'
                rw [fields _ _ _ _ checked']
                simp
          rw [each]
          constructor
          · intro each
            refine .object registered (fun fieldDef declared => ?_)
              fun fieldDef declared val found => ?_
            · obtain ⟨val, found, _⟩ := each fieldDef declared
              rw [found]
              rfl
            · obtain ⟨val', found', conforms⟩ := each fieldDef declared
              rw [found] at found'
              cases found'
              exact conforms
          · intro conforms fieldDef declared
            cases conforms with
            | object registered' present conform =>
                rw [registered] at registered'
                cases registered'
                obtain ⟨val, found⟩ := Option.isSome_iff_exists.mp (present fieldDef declared)
                exact ⟨val, found, conform fieldDef declared val found⟩
      | null | bool | number | string | array =>
          cases checked
          refine iff_of_false (by simp) fun conforms => ?_
          cases conforms

/-- An enum's variant, or a value of the type of that name. -/
theorem custom_exact {fuel : Nat} (types : TypeExact reg fuel) {fieldName name : String}
    {val : Json} {verdict : Except ValidationError Unit}
    (checked : reg.validateFieldFuel (fuel + 1) fieldName (.custom name) val = some verdict) :
    verdict = .ok () ↔ FieldConforms reg AnyInteger (.custom name) val := by
  unfold SchemaRegistry.validateFieldFuel at checked
  dsimp only at checked
  cases isEnum : reg.enums[name]? with
  | some enumDef =>
      rw [isEnum] at checked
      cases val with
      | string s =>
          cases checked
          by_cases listed : s ∈ enumDef.variants
          · simp only [listed, if_true, true_iff]
            exact .variant isEnum listed
          · rw [if_neg listed]
            refine iff_of_false (by simp) fun conforms => ?_
            cases conforms with
            | variant isEnum' listed' =>
                rw [isEnum] at isEnum'
                cases isEnum'
                exact listed listed'
            | nested noEnum => simp [isEnum] at noEnum
      | number n =>
          cases checked
          refine iff_of_false (by simp) fun conforms => ?_
          cases conforms with
          | integer isInteger => cases isInteger
          | nested noEnum => simp [isEnum] at noEnum
      | null | bool | array | object =>
          cases checked
          refine iff_of_false (by simp) fun conforms => ?_
          cases conforms with
          | nested noEnum => simp [isEnum] at noEnum
  | none =>
      rw [isEnum] at checked
      have nested : FieldConforms reg AnyInteger (.custom name) val ↔
          Conforms reg AnyInteger name val := by
        constructor
        · intro conforms
          cases conforms with
          | integer isInteger => cases isInteger
          | variant isEnum' => simp [isEnum] at isEnum'
          | nested _ conforms => exact conforms
        · exact fun conforms => .nested isEnum conforms
      rw [nested]
      cases registered : reg.types[name]? with
      | some tDef =>
          rw [registered] at checked
          exact types name val verdict checked
      | none =>
          rw [registered] at checked
          cases checked
          exact iff_of_false (by simp) (not_conforms registered)

theorem fieldExact_step {fuel : Nat} (types : TypeExact reg fuel) (fields : FieldExact reg fuel) :
    FieldExact reg (fuel + 1) := by
  intro fieldName dataType val verdict checked
  unfold SchemaRegistry.validateFieldFuel at checked
  cases dataType with
  | string =>
      cases checked
      rw [ok_iff, string_iff]
  | u16 | u32 | u64 | i32 | i64 =>
      cases checked
      exact ok_iff.trans (integer_iff (by trivial)).symm
  | f64 =>
      cases checked
      rw [ok_iff, f64_iff]
  | boolean =>
      cases checked
      rw [ok_iff, boolean_iff]
  | custom name => exact custom_exact types checked
  | array inner =>
      cases val with
      | array items =>
          have each : verdict = .ok () ↔ ∀ item ∈ items.zipIdx,
              FieldConforms reg AnyInteger inner item.1 :=
            forEach_ok (fun item _ verdict' checked' => fields _ _ _ _ checked') checked
          rw [each]
          constructor
          · intro each
            refine .array fun item member => ?_
            obtain ⟨i, inside, rfl⟩ := List.getElem_of_mem member
            exact each (items[i], i) (List.mem_zipIdx_iff_getElem?.mpr (by simp [inside]))
          · intro conforms item member
            cases conforms with
            | array each => exact each item.1 (List.fst_mem_of_mem_zipIdx member)
      | number n =>
          cases checked
          refine iff_of_false (by simp) fun conforms => ?_
          cases conforms with
          | integer isInteger => cases isInteger
      | null | bool | string | object =>
          cases checked
          refine iff_of_false (by simp) fun conforms => ?_
          cases conforms

/-- A call that comes to a verdict accepts exactly the values of the right shape. -/
theorem fuel_exact (fuel : Nat) : TypeExact reg fuel ∧ FieldExact reg fuel := by
  induction fuel with
  | zero =>
      constructor
      · intro typeName data verdict checked
        cases checked
      · intro fieldName dataType val verdict checked
        cases checked
  | succ fuel ih =>
      exact ⟨typeExact_step ih.2, fieldExact_step ih.1 ih.2⟩

theorem validate_ok_iff (typeName : String) (data : Json) :
    reg.validate typeName data = .ok () ↔ Conforms reg AnyInteger typeName data := by
  have exact : ∀ fuel, TypeExact reg fuel := fun fuel => (fuel_exact fuel).1
  exact exact _ typeName data _ (Option.some_get _).symm

/-- Validation is conformance exactly for the values that are not of the shape of
the type, or keep to the ranges of their integers. -/
theorem validate_conforms_iff (typeName : String) (data : Json) :
    (reg.validate typeName data = .ok () ↔ Conforms reg DataType.InRange typeName data) ↔
      (Conforms reg AnyInteger typeName data →
        ∀ dataType i, HoldsInteger reg typeName data dataType i → dataType.InRange i) := by
  rw [validate_ok_iff, conforms_iff]
  constructor
  · intro same shape
    exact (same.mp shape).2
  · intro ranges
    exact ⟨fun shape => ⟨shape, ranges shape⟩, fun both => both.1⟩

/-! ## A port that is none -/

def portField : FieldDefinition := { name := "port", dataType := .u16, isIndexed := false }

def container : TypeDefinition :=
  { name := "Container", fields := [portField], keyPrefix := none }

def portRegistry : SchemaRegistry where
  types := (∅ : SortedMap String TypeDefinition).insert "Container" container
  enums := ∅
  prefixMap := (∅ : SortedMap String String).insert "container" "Container"

theorem load_portRegistry :
    @SchemaRegistry.loadSchema plainTables .new "type Container { port : U16 }" =
      (.ok (), portRegistry) := by
  let _ : UnicodeTables := plainTables
  have printable : (SchemaNode.type container).Printable := by
    refine ⟨isName_of_plain (by decide), fun fieldDef declared => ?_, fun s same => (by cases same)⟩
    rw [List.mem_singleton.mp declared]
    exact ⟨isName_of_plain (by decide), trivial⟩
  have text : "type Container { port : U16 }" =
      String.ofList (spaced ((SchemaNode.type container).phrase false).tokens) := by decide
  have lower : @UnicodeTables.toLowercase plainTables "Container" = "container" := by
    refine String.toList_inj.mp (String.toList_map.trans ?_)
    decide
  rw [SchemaRegistry.loadSchema, text, parse_node printable false]
  simp only [List.foldl_cons, List.foldl_nil, SchemaRegistry.insertNode, container,
    Option.getD_none, lower]
  rfl

/-- The object with the port 70000. -/
def farPort : Json := .object [("port", .number (.posInt 70000))]

theorem farPort_accepted :
    ¬ ∀ (reg : SchemaRegistry) (typeName : String) (data : Json),
      (reg.types[typeName]?).isSome = true →
        (reg.validate typeName data = .ok () ↔ Conforms reg DataType.InRange typeName data) := by
  intro claim
  have accepted : portRegistry.validate "Container" farPort = .ok () := by decide
  have conforms := (claim portRegistry "Container" farPort (by decide)).mp accepted
  have inRange := (conforms_iff.mp conforms).2 .u16 70000
    ⟨container, portField, _, .number (.posInt 70000), by decide, List.mem_singleton_self portField,
      rfl, rfl, .here trivial rfl⟩
  exact absurd inRange.2 (by decide)

end KindDb.Schema
