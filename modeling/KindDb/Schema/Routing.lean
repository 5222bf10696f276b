import KindDb.Lib.Overlay
import KindDb.Schema.RoundTrip
import KindDb.SerdeJson

/-! # Which records find their type

`load_schema` files the types under their prefixes, and a record is routed by
the text of its key before the first colon.  A type gets the records of its
prefix exactly if the prefix holds no colon and no later type is filed under the
same one (`routed_iff`); of all the others the index keys are lost without an
error. -/
set_option autoImplicit false

namespace KindDb.Schema

open KindDb.Lib

/-! ## The text before the first colon -/

theorem colonFree_typePrefix (key : String) : ColonFree (typePrefix key) := by
  rw [ColonFree, typePrefix, String.toList_ofList]
  intro member
  have passed := List.mem_takeWhile_imp member
  simp at passed

theorem typePrefix_of_colonFree {pfx : String} (free : ColonFree pfx) (rest : String) :
    typePrefix (pfx ++ ":" ++ rest) = pfx := by
  have passes : ∀ c ∈ pfx.toList, (c ≠ ':' : Bool) = true := by
    intro c member
    apply decide_eq_true
    rintro rfl
    exact free member
  rw [typePrefix, String.toList_append, String.toList_append, List.append_assoc,
    List.takeWhile_append_of_pos passes]
  simp

/-- An index key begins with the name of its type. -/
theorem indexKey_eq (typeName fieldName text : String) :
    typeName ++ ":" ++ fieldName ++ ":" ++ text =
      typeName ++ ":" ++ (fieldName ++ ":" ++ text) := by
  simp only [String.append_assoc]

/-! ## The prefixes of a loaded schema -/

def typesOf (nodes : List SchemaNode) : List TypeDefinition :=
  nodes.filterMap fun node =>
    match node with
    | .type t => some t
    | .enum _ => none

theorem mem_typesOf {nodes : List SchemaNode} {t : TypeDefinition} (listed : t ∈ typesOf nodes) :
    .type t ∈ nodes := by
  obtain ⟨node, member, same⟩ := List.mem_filterMap.mp listed
  cases node with
  | enum e => cases same
  | type u =>
      cases same
      exact member

section Loading
variable [UnicodeTables]

/-- The prefix under which `load_schema` files a type. -/
def TypeDefinition.filedUnder (t : TypeDefinition) : String :=
  t.keyPrefix.getD (UnicodeTables.toLowercase t.name)

def routes (types : List TypeDefinition) : List (Overlay.Update String String) :=
  types.map fun t => (t.filedUnder, some t.name)

theorem prefixMap_loaded (nodes : List SchemaNode) (reg : SchemaRegistry) (pfx : String) :
    (nodes.foldl SchemaRegistry.insertNode reg).prefixMap[pfx]? =
      Overlay.overlay (fun q : String => reg.prefixMap[q]?) (routes (typesOf nodes)) pfx := by
  induction nodes generalizing reg with
  | nil => rfl
  | cons node rest ih =>
      rw [List.foldl_cons, ih]
      cases node with
      | enum e => rfl
      | type t =>
          have same : routes (typesOf (.type t :: rest)) =
              (t.filedUnder, some t.name) :: routes (typesOf rest) := rfl
          rw [same, Overlay.overlay_cons]
          congr 1
          funext q
          rw [Function.update_apply]
          exact (SortedMap.lookup_insert reg.prefixMap t.filedUnder q t.name).trans
            (if_congr eq_comm rfl rfl)

theorem types_loaded (nodes : List SchemaNode) (reg : SchemaRegistry) (name : String) :
    (nodes.foldl SchemaRegistry.insertNode reg).types[name]? =
      Overlay.overlay (fun n : String => reg.types[n]?)
        ((typesOf nodes).map fun t => (t.name, some t)) name := by
  induction nodes generalizing reg with
  | nil => rfl
  | cons node rest ih =>
      rw [List.foldl_cons, ih]
      cases node with
      | enum e => rfl
      | type t =>
          have same : typesOf (.type t :: rest) = t :: typesOf rest := rfl
          rw [same, List.map_cons, Overlay.overlay_cons]
          congr 1
          funext n
          rw [Function.update_apply]
          exact (SortedMap.lookup_insert reg.types t.name n t).trans (if_congr eq_comm rfl rfl)

/-- Among types of different names, a type is found by its own prefix alone, and
only if it is the last one under it. -/
theorem routed_to_iff {types earlier later : List TypeDefinition} {t : TypeDefinition}
    (split : types = earlier ++ t :: later)
    (distinct : (types.map TypeDefinition.name).Nodup) (pfx : String) :
    Overlay.overlay (fun _ => none) (routes types) pfx = some t.name ↔
      pfx = t.filedUnder ∧ ∀ other ∈ later, other.filedUnder ≠ t.filedUnder := by
  have parts : routes types = routes earlier ++ (t.filedUnder, some t.name) :: routes later := by
    rw [split, routes, List.map_append]
    rfl
  have untouched : t.filedUnder ∉ Overlay.touched (routes later) ↔
      ∀ other ∈ later, other.filedUnder ≠ t.filedUnder := by
    rw [Overlay.touched, routes, List.map_map, List.mem_map, not_exists]
    exact forall_congr' fun other => not_and
  have unnamed : ∀ others : List TypeDefinition, t.name ∉ others.map TypeDefinition.name →
      ∀ p, (p, some t.name) ∉ routes others := by
    intro others absent p member
    obtain ⟨other, listed, same⟩ := List.mem_map.mp member
    exact absent (List.mem_map.mpr ⟨other, listed, Option.some.inj (congrArg Prod.snd same)⟩)
  rw [split, List.map_append, List.map_cons] at distinct
  obtain ⟨notEarlier, notLater⟩ : t.name ∉ earlier.map TypeDefinition.name ∧
      t.name ∉ later.map TypeDefinition.name := by
    have apart := List.nodup_middle.mp distinct
    rw [List.nodup_cons, List.mem_append, not_or] at apart
    exact apart.1
  rw [Overlay.overlay_eq_some_iff, parts, ← untouched]
  constructor
  · rintro ⟨before, after, same, last⟩
    have here : pfx = t.filedUnder := by
      have member : (pfx, some t.name) ∈ routes earlier ++
          (t.filedUnder, some t.name) :: routes later := by
        rw [same]
        exact List.mem_append_right _ List.mem_cons_self
      rcases List.mem_append.mp member with early | late
      · exact absurd early (unnamed earlier notEarlier pfx)
      · rcases List.mem_cons.mp late with equal | late
        · exact congrArg Prod.fst equal
        · exact absurd late (unnamed later notLater pfx)
    subst here
    obtain ⟨_, _, rest⟩ := (List.append_cons_inj_of_notMem (unnamed earlier notEarlier _)
      (unnamed later notLater _)).mp same
    rw [rest]
    exact ⟨rfl, last⟩
  · rintro ⟨rfl, last⟩
    exact ⟨routes earlier, routes later, rfl, last⟩

end Loading

/-! ## Records -/

section Records
variable [Serde]

/-- The index key of a field that the value shows. -/
theorem mem_extractIndexKeys_of {reg : SchemaRegistry} {key typeName text : String} {val : Bytes}
    {tDef : TypeDefinition} {fieldDef : FieldDefinition} {obj : List (String × Json)} {v : Json}
    (routed : reg.prefixMap[typePrefix key]? = some typeName)
    (defined : reg.types[typeName]? = some tDef) (declared : fieldDef ∈ tDef.fields)
    (indexed : fieldDef.isIndexed = true) (parsed : Serde.valueFromSlice val = some (.object obj))
    (held : obj.lookup fieldDef.name = some v) (shown : v.indexText = some text) :
    typeName ++ ":" ++ fieldDef.name ++ ":" ++ text ∈ extractIndexKeys reg key val := by
  have listed : fieldDef ∈ tDef.fields.filter (·.isIndexed) :=
    List.mem_filter.mpr ⟨declared, indexed⟩
  have nonempty : (tDef.fields.filter (·.isIndexed)).isEmpty = false := by
    rw [List.isEmpty_eq_false_iff_exists_mem]
    exact ⟨fieldDef, listed⟩
  unfold extractIndexKeys SchemaRegistry.indexedFieldsForPrefix
  simp only [routed, defined, nonempty, parsed]
  apply List.mem_filterMap.mpr
  refine ⟨fieldDef, listed, ?_⟩
  rw [held, Option.bind_some, shown]
  rfl

variable [UnicodeTables]

/-- A record under the prefix of a type gets the index keys of its type exactly
if the prefix has no colon and is not used again further down. -/
theorem routed_iff {sdl : String} {nodes : List SchemaNode}
    (accepted : parse (tokens sdl.toList) = .ok nodes)
    (distinct : ((typesOf nodes).map TypeDefinition.name).Nodup)
    {earlier later : List TypeDefinition} {t : TypeDefinition}
    (split : typesOf nodes = earlier ++ t :: later) {fieldDef : FieldDefinition}
    (declared : fieldDef ∈ t.fields) (indexed : fieldDef.isIndexed = true) {val : Bytes}
    {obj : List (String × Json)} {v : Json} {text : String}
    (parsed : Serde.valueFromSlice val = some (.object obj))
    (held : obj.lookup fieldDef.name = some v) (shown : v.indexText = some text) (rest : String) :
    t.name ++ ":" ++ fieldDef.name ++ ":" ++ text ∈
        extractIndexKeys (SchemaRegistry.new.loadSchema sdl).2 (t.filedUnder ++ ":" ++ rest) val ↔
      ColonFree t.filedUnder ∧ ∀ other ∈ later, other.filedUnder ≠ t.filedUnder := by
  have free := SchemaRegistry.colonFreeNames_new.loadSchema sdl
  have loaded : (SchemaRegistry.new.loadSchema sdl).2 =
      nodes.foldl SchemaRegistry.insertNode SchemaRegistry.new := by
    rw [SchemaRegistry.loadSchema, accepted]
  rw [loaded] at free ⊢
  have filed : ∀ q : String,
      (nodes.foldl SchemaRegistry.insertNode SchemaRegistry.new).prefixMap[q]? = some t.name ↔
        q = t.filedUnder ∧ ∀ other ∈ later, other.filedUnder ≠ t.filedUnder := by
    intro q
    rw [prefixMap_loaded, ← routed_to_iff split distinct]
    rfl
  have defined : (nodes.foldl SchemaRegistry.insertNode SchemaRegistry.new).types[t.name]? =
      some t := by
    rw [types_loaded]
    apply Overlay.overlay_of_mem
    · rw [Overlay.touched, List.map_map]
      exact distinct
    · rw [split]
      exact List.mem_map.mpr ⟨t, List.mem_append_right _ List.mem_cons_self, rfl⟩
  constructor
  · intro member
    obtain ⟨typeName, tDef, field, _, _, text', routed, _, _, _, _, _, _, same⟩ :=
      mem_extractIndexKeys member
    have named : ColonFree t.name := by
      have listed : t ∈ typesOf nodes := by
        rw [split]
        exact List.mem_append_right _ List.mem_cons_self
      exact (parse_named (fun id => identifier_of_mem_tokens) accepted _ (mem_typesOf listed)).1
    have sameType : t.name = typeName := by
      rw [indexKey_eq, indexKey_eq] at same
      have first := congrArg typePrefix same
      rwa [typePrefix_of_colonFree named, typePrefix_of_colonFree (free.typeNames _ _ routed)]
        at first
    rw [← sameType] at routed
    obtain ⟨under, last⟩ := (filed _).mp routed
    refine ⟨?_, last⟩
    rw [← under]
    exact colonFree_typePrefix _
  · rintro ⟨noColon, last⟩
    refine mem_extractIndexKeys_of ?_ defined declared indexed parsed held shown
    rw [typePrefix_of_colonFree noColon]
    exact (filed _).mpr ⟨rfl, last⟩

end Records

/-! ## Prefixes with and without a colon -/

/-- `@prefix(…) type User { @indexed city: String, }` -/
def cityType (pfx : String) : TypeDefinition where
  name := "User"
  fields := [{ name := "city", dataType := .string, isIndexed := true }]
  keyPrefix := some pfx

def cityPhrase (pfx : String) : NodePhrase := (SchemaNode.type (cityType pfx)).phrase true

def citySchema (pfx : String) : String :=
  String.ofList (spaced ([cityPhrase pfx].flatMap NodePhrase.tokens))

def cityValue : Bytes := "\x7b\"city\":\"Rome\"\x7d".toUTF8.data.toList

theorem parse_city (pfx : String) (noQuote : '\x22' ∉ pfx.toList) :
    @parse (@tokens plainTables (citySchema pfx).toList) = .ok [.type (cityType pfx)] := by
  let _ : UnicodeTables := plainTables
  have printable : (SchemaNode.type (cityType pfx)).Printable := by
    have user : IsName "User" := isName_of_plain (by decide)
    have city : IsName "city" := isName_of_plain (by decide)
    refine ⟨user, fun fieldDef declared => ?_, fun s same => ?_⟩
    · rw [List.mem_singleton.mp declared]
      exact ⟨city, trivial⟩
    · rw [← Option.some.inj same]
      exact noQuote
  rw [citySchema, List.flatMap_singleton]
  exact parse_node printable true

theorem parse_cityValue : @Serde.valueFromSlice SerdeJson.instSerde cityValue =
    some (.object [("city", .string "Rome")]) := by
  rfl

theorem routed_iff_city :
    (cityType "user").name ++ ":" ++ "city" ++ ":" ++ "Rome" ∈
        @extractIndexKeys SerdeJson.instSerde
          (@SchemaRegistry.loadSchema plainTables SchemaRegistry.new (citySchema "user")).2
          (@TypeDefinition.filedUnder plainTables (cityType "user") ++ ":" ++ "1") cityValue ↔
      ColonFree (@TypeDefinition.filedUnder plainTables (cityType "user")) ∧
        ∀ other ∈ ([] : List TypeDefinition), @TypeDefinition.filedUnder plainTables other ≠
          @TypeDefinition.filedUnder plainTables (cityType "user") :=
  @routed_iff SerdeJson.instSerde plainTables (citySchema "user") _ (parse_city "user" (by decide))
    (by decide) [] [] (cityType "user") rfl _ List.mem_cons_self rfl cityValue _ (.string "Rome")
    "Rome" parse_cityValue rfl rfl "1"

/-- A record of a type whose prefix has a colon. -/
theorem colon_prefix_unindexed :
    ¬ ∀ [Serde] [UnicodeTables] (sdl : String) (nodes : List SchemaNode),
      parse (tokens sdl.toList) = .ok nodes → ((typesOf nodes).map TypeDefinition.name).Nodup →
      ∀ t ∈ typesOf nodes, ∀ fieldDef ∈ t.fields, fieldDef.isIndexed = true →
      ∀ (val : Bytes) (obj : List (String × Json)) (v : Json) (text rest : String),
        Serde.valueFromSlice val = some (.object obj) → obj.lookup fieldDef.name = some v →
        v.indexText = some text →
        t.name ++ ":" ++ fieldDef.name ++ ":" ++ text ∈
          extractIndexKeys (SchemaRegistry.new.loadSchema sdl).2 (t.filedUnder ++ ":" ++ rest)
            val := by
  intro claim
  let _ : Serde := SerdeJson.instSerde
  let _ : UnicodeTables := plainTables
  have read := parse_city "app:user" (by decide)
  have member := claim (citySchema "app:user") _ read (by decide) (cityType "app:user")
    List.mem_cons_self _ List.mem_cons_self rfl cityValue _ (.string "Rome") "Rome" "1"
    parse_cityValue rfl rfl
  obtain ⟨typeName, _, _, _, _, _, routed, _⟩ := mem_extractIndexKeys member
  have split : typePrefix ((cityType "app:user").filedUnder ++ ":" ++ "1") = "app" := by decide
  rw [SchemaRegistry.loadSchema, read, split] at routed
  simp [SchemaRegistry.insertNode, SchemaRegistry.new, cityType] at routed

end KindDb.Schema
