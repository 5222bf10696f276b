import KindDb.Properties.IndexExactness
import KindDb.Schema.Parser
import KindDb.Server.Query

/-! # What a query may return

The index key of a request is the text "type:field:value".  Names from the
schema contain no colon, so the two first colons of a filed index key are the
ones that were put there; a request may put its own colons elsewhere, and then
its index key can be that of another field.  `query_sound_iff` says that this
is the only way to get an answer that does not match the request. -/
set_option autoImplicit false

namespace KindDb.QuerySoundness

open KindDb.Lib KindDb.Lib.Runs KindDb.Schema KindDb.IndexExactness KindDb.KindServerImpl

theorem eq_of_split {first first' rest rest' : List Char} (free : ':' ∉ first)
    (free' : ':' ∉ first') (same : first ++ ':' :: rest = first' ++ ':' :: rest') :
    first = first' ∧ rest = rest' := by
  induction first generalizing first' with
  | nil =>
      cases first' with
      | nil => exact ⟨rfl, (List.cons.inj same).2⟩
      | cons c _ => exact absurd ((List.cons.inj same).1 ▸ List.mem_cons_self) free'
  | cons c first ih =>
      cases first' with
      | nil => exact absurd ((List.cons.inj same).1 ▸ List.mem_cons_self) free
      | cons c' first' =>
          obtain ⟨rfl, tails⟩ := List.cons.inj same
          obtain ⟨rfl, rest⟩ := ih (fun member => free (List.mem_cons_of_mem _ member))
            (fun member => free' (List.mem_cons_of_mem _ member)) tails
          exact ⟨rfl, rest⟩

/-- Index keys whose type and field are free of colons say what they are made of. -/
theorem idxKey_inj {typeName field value typeName' field' value' : String}
    (freeType : ColonFree typeName) (freeField : ColonFree field)
    (freeType' : ColonFree typeName') (freeField' : ColonFree field')
    (same : typeName ++ ":" ++ field ++ ":" ++ value =
      typeName' ++ ":" ++ field' ++ ":" ++ value') :
    typeName = typeName' ∧ field = field' ∧ value = value' := by
  have texts := congrArg String.toList same
  simp only [String.toList_append, List.append_assoc] at texts
  obtain ⟨types, rest⟩ := eq_of_split freeType freeType' texts
  obtain ⟨fields, values⟩ := eq_of_split freeField freeField' rest
  exact ⟨String.toList_injective types, String.toList_injective fields,
    String.toList_injective values⟩

section Requests
variable [Serde]

/-- The record belongs to the type of the request, which has the field of the
request as an indexed field, and its value there renders to that of the request. -/
def Sound (reg : SchemaRegistry) (req : QueryRequest) (answer : Record) : Prop :=
  reg.prefixMap[typePrefix answer.key]? = some req.schemaType ∧
    ∃ tDef, reg.types[req.schemaType]? = some tDef ∧ tDef.name = req.schemaType ∧
      ∃ fieldDef ∈ tDef.fields, fieldDef.name = req.field ∧ fieldDef.isIndexed = true ∧
        ∃ obj v, Serde.valueFromSlice answer.value = some (.object obj) ∧
          obj.lookup req.field = some v ∧ v.indexText = some req.value

/-- The keys at the places of the page that the request asks for. -/
def onPage (s : KindServerImpl) (req : QueryRequest) : List String :=
  ((s.filed req.idxKey).drop req.offsetOf).take req.limitOf

variable {s : KindServerImpl} {req : QueryRequest} {clock : String → UInt64}

omit [Serde] in
theorem exists_answer_iff :
    (∃ answer, answer ∈ s.query req clock) ↔ ∃ key ∈ onPage s req, isLive s clock key = true := by
  rw [query_eq]
  simp only [List.mem_filterMap, ← isSome_queried, Option.isSome_iff_exists]
  exact ⟨fun ⟨answer, key, member, found⟩ => ⟨key, member, answer, found⟩,
    fun ⟨key, member, answer, found⟩ => ⟨answer, key, member, found⟩⟩

/-- An answer is a record of the tree that carries the index key. -/
theorem carries_of_answer (exact : IndexExact s) {answer : Record}
    (answered : answer ∈ s.query req clock) :
    req.idxKey ∈ s.extractIndexKeys answer.key answer.value := by
  rw [query_eq] at answered
  obtain ⟨key, paged, found⟩ := List.mem_filterMap.mp answered
  obtain ⟨r, held, _, rfl⟩ := queried_eq_some.mp found
  have filed : PostingIndex.Indexed s.indexes req.idxKey key :=
    mem_filed.mp (List.mem_of_mem_drop (List.mem_of_mem_take paged))
  obtain ⟨r', held', carried⟩ := ((indexExact_iff s).mp exact req.idxKey key).mp filed
  rw [held] at held'
  cases held'
  exact carried

theorem query_sound_iff_of_colonFree (free : s.schemaRegistry.ColonFreeNames)
    (exact : IndexExact s) :
    (∀ answer ∈ s.query req clock, Sound s.schemaRegistry req answer) ↔
      ColonFree req.schemaType ∧ ColonFree req.field ∨
        ∀ key ∈ onPage s req, isLive s clock key = false := by
  constructor
  · intro sound
    by_cases answers : ∃ answer, answer ∈ s.query req clock
    · obtain ⟨answer, answered⟩ := answers
      obtain ⟨mapped, tDef, defined, _, fieldDef, inType, same, _⟩ := sound answer answered
      refine Or.inl ⟨free.typeNames _ _ mapped, ?_⟩
      rw [← same]
      exact (free.fields _ tDef defined).2 fieldDef inType
    · refine Or.inr fun key paged => Bool.eq_false_iff.mpr fun live => answers ?_
      exact exists_answer_iff.mpr ⟨key, paged, live⟩
  · rintro (⟨freeType, freeField⟩ | noneLive) answer answered
    · obtain ⟨typeName, tDef, fieldDef, obj, v, vStr, mapped, defined, inType, indexed, parsed,
        looked, text, same⟩ := mem_extractIndexKeys (carries_of_answer exact answered)
      obtain ⟨ownName, ownFields⟩ := free.fields typeName tDef defined
      obtain ⟨sameType, sameField, sameValue⟩ := idxKey_inj freeType freeField
        (free.typeNames _ _ mapped) (ownFields fieldDef inType) same
      rw [← sameType] at mapped defined ownName
      rw [← sameField] at looked
      rw [← sameValue] at text
      exact ⟨mapped, tDef, defined, ownName, fieldDef, inType, sameField.symm, indexed, obj, v,
        parsed, looked, text⟩
    · obtain ⟨key, paged, live⟩ := exists_answer_iff.mp ⟨answer, answered⟩
      rw [noneLive key paged] at live
      cases live

variable [UnicodeTables]

/-- The registry after some schema texts. -/
def loaded (texts : List String) : SchemaRegistry :=
  texts.foldl (fun reg sdl => (reg.loadSchema sdl).2) SchemaRegistry.new

omit [Serde] in
theorem colonFreeNames_loaded (texts : List String) : (loaded texts).ColonFreeNames := by
  have all : ∀ reg : SchemaRegistry, reg.ColonFreeNames →
      (texts.foldl (fun reg sdl => (reg.loadSchema sdl).2) reg).ColonFreeNames := by
    induction texts with
    | nil => exact fun _ free => free
    | cons sdl rest ih => exact fun reg free => ih _ (free.loadSchema sdl)
  exact all _ SchemaRegistry.colonFreeNames_new

theorem query_sound_iff (texts : List String) (s : KindServerImpl)
    (built : s.schemaRegistry = loaded texts) (exact : IndexExact s) (req : QueryRequest)
    (clock : String → UInt64) :
    (∀ answer ∈ s.query req clock, Sound s.schemaRegistry req answer) ↔
      ColonFree req.schemaType ∧ ColonFree req.field ∨
        ∀ key ∈ onPage s req, isLive s clock key = false :=
  query_sound_iff_of_colonFree (built ▸ colonFreeNames_loaded texts) exact

end Requests

/-! ## A request with its own colon -/

/-- Right on texts of ASCII characters. -/
@[reducible] def asciiTables : UnicodeTables where
  isWhitespace := Char.isWhitespace
  isAlphabetic := Char.isAlpha
  isNumeric := Char.isDigit
  toLowercase := String.map Char.toLower
  isAlphabetic_ascii := fun _ _ => rfl
  isNumeric_ascii := fun _ _ => rfl

def userSchema : String := "type User \x7b @indexed name: String \x7d"

def nameJson : Bytes := "\x7b\"name\":\"x:y\"\x7d".toUTF8.data.toList

/-- Reads the one text that is stored below. -/
@[reducible] def nameSerde : Serde :=
  { SerdeJson.instSerde with
    valueFromSlice := fun val =>
      if val = nameJson then some (.object [("name", .string "x:y")]) else none }

def oneName [Serde] [UnicodeTables] : KindServerImpl :=
  ((KindServerImpl.fresh (loaded [userSchema]) false false false).put
    { key := "user:1", value := nameJson, ttlMs := none } 0).2

theorem oneName_exact [Serde] [UnicodeTables] :
    IndexExact oneName ∧ oneName.schemaRegistry = loaded [userSchema] :=
  ⟨(exact_fresh _ false false).put rfl _ 0, by rw [oneName, put_eq _ rfl]; rfl⟩

theorem query_confuses_fields :
    ¬ ∀ [Serde] [UnicodeTables] (texts : List String) (s : KindServerImpl),
      s.schemaRegistry = loaded texts → s.isReplica = false → IndexExact s →
      ∀ (req : QueryRequest) (now : UInt64), ∀ answer ∈ s.query req (fun _ => now),
        Sound s.schemaRegistry req answer := by
  intro claim
  let _ : Serde := nameSerde
  let _ : UnicodeTables := asciiTables
  let req : QueryRequest :=
    { schemaType := "User", field := "name:x", value := "y", limit := none, offset := none }
  have answered : oneName.query req (fun _ => 0) =
      [{ key := "user:1", value := nameJson, expiresAt := none }] := by
    decide +kernel
  obtain ⟨_, tDef, defined, _, fieldDef, inType, same, _⟩ :=
    claim [userSchema] oneName oneName_exact.2 rfl oneName_exact.1 req 0 _
      (answered ▸ List.mem_cons_self)
  rw [oneName_exact.2] at defined
  have free := ((colonFreeNames_loaded [userSchema]).fields _ tDef defined).2 fieldDef inType
  rw [same] at free
  exact free (by decide)

theorem query_sound_user :
    let _ : Serde := nameSerde
    let _ : UnicodeTables := asciiTables
    ∀ answer ∈ oneName.query
        { schemaType := "User", field := "name", value := "x:y", limit := none, offset := none }
        (fun _ => 0),
      Sound oneName.schemaRegistry
        { schemaType := "User", field := "name", value := "x:y", limit := none, offset := none }
        answer := by
  intro _ _
  refine (query_sound_iff [userSchema] oneName oneName_exact.2 oneName_exact.1 _ _).mpr
    (Or.inl ⟨?_, ?_⟩)
  · unfold ColonFree
    decide
  · unfold ColonFree
    decide

end KindDb.QuerySoundness
