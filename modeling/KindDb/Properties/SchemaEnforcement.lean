import KindDb.Schema.RoundTrip
import KindDb.Schema.Validate
import KindDb.SerdeJson
import KindDb.Server.Effects

/-! # Whether the tree keeps to the schema

A record conforms if its key has no mapped type prefix, or its value is JSON
that `validate` accepts for the mapped type.  None of the writing handlers
calls `validate`, so a run keeps the tree conforming exactly as long as its
requests happen to conform. -/
set_option autoImplicit false

namespace KindDb.SchemaEnforcement

open KindDb.Lib KindDb.Lib.Overlay KindDb.Lib.Runs KindDb.Schema KindDb.KindServerImpl

variable [Serde]

/-- A value that may stand under a key, as far as the schema goes. -/
def Conforms (reg : SchemaRegistry) (key : String) (val : Bytes) : Prop :=
  ∀ typeName, reg.prefixMap[typePrefix key]? = some typeName →
    ∃ json, Serde.valueFromSlice val = some json ∧ reg.validate typeName json = .ok ()

def Enforced (reg : SchemaRegistry) (s : KindServerImpl) : Prop :=
  ∀ (key : String) r, s.tree[key]? = some r → Conforms reg key r.value

/-- The puts that an operation is about to carry out conform. -/
def WritesConform (reg : SchemaRegistry) (s : KindServerImpl) (event : UInt64 × Op) : Prop :=
  ∀ c, event.2.command s event.1 = some c →
    ∀ key val expiresAt, (key, some (val, expiresAt)) ∈ c.updates → Conforms reg key val

/-- What a logged command leaves conforms exactly if its own puts do. -/
theorem enforced_logged_iff {reg : SchemaRegistry} {s s' : KindServerImpl} {c : WalCommand}
    (enforced : Enforced reg s) (logged : Logged s s' c) (distinct : c.keys.Nodup) :
    Enforced reg s' ↔
      ∀ key val expiresAt, (key, some (val, expiresAt)) ∈ c.updates → Conforms reg key val := by
  constructor
  · intro after key val expiresAt written
    have held : s'.contents key = some (val, expiresAt) := by
      rw [logged.contents, overlay_of_mem distinct written]
    obtain ⟨r, found, content⟩ := Option.map_eq_some_iff.mp held
    have conforms := after key r found
    rwa [show r.value = val from congrArg Prod.fst content] at conforms
  · intro conform key r held
    by_cases written : key ∈ c.keys
    · have content : overlay s.contents c.updates key = some r.content := by
        rw [← logged.contents, contents, held]
        rfl
      exact conform key r.value r.expiresAt (mem_of_overlay written content)
    · exact enforced key r (logged.unwritten written ▸ held)

theorem enforced_step_iff {reg : SchemaRegistry} {s : KindServerImpl} (event : UInt64 × Op)
    (leader : s.isReplica = false) (enforced : Enforced reg s) :
    Enforced reg (serverStep s event) ↔ WritesConform reg s event := by
  rcases @exec_cases _ _ event.1 leader event.2 with ⟨c, logs, logged⟩ | ⟨quiet, _, fewer⟩
  · rw [WritesConform, logs]
    refine (enforced_logged_iff enforced logged (command_keys_nodup logs)).trans ?_
    exact ⟨fun conform c' same => Option.some.inj same ▸ conform, fun conform => conform c rfl⟩
  · refine iff_of_true (fun key r held => enforced key r (fewer key r held)) ?_
    intro c logs
    rw [quiet] at logs
    cases logs

theorem enforced_fresh (reg : SchemaRegistry) (hasSnapshot hasWal : Bool) :
    Enforced reg (.fresh reg hasSnapshot hasWal false) := by
  intro key r held
  cases hasSnapshot <;> cases hasWal <;>
    simp [KindServerImpl.fresh, KindServerImpl.new, Recovery.recover, Recovery.empty] at held

/-- The tree keeps to the schema throughout a run exactly if everything that
the run writes does. -/
theorem enforced_iff (reg : SchemaRegistry) (hasSnapshot hasWal : Bool)
    (events : List (UInt64 × Op)) :
    (∀ past, past <+: events →
      Enforced reg (run serverStep (.fresh reg hasSnapshot hasWal false) past)) ↔
      StepsMeet serverStep (WritesConform reg) (.fresh reg hasSnapshot hasWal false) events := by
  have step : ∀ s event, True → s.isReplica = false ∧ Enforced reg s →
      ((serverStep s event).isReplica = false ∧ Enforced reg (serverStep s event) ↔
        WritesConform reg s event) := by
    intro s event _ ⟨leader, enforced⟩
    rw [← enforced_step_iff event leader enforced]
    exact and_iff_right (leader_step leader event)
  rw [← run_invariant_iff step events _ (stepsMeet_of_forall (fun _ _ => trivial) ..)
    ⟨rfl, enforced_fresh reg hasSnapshot hasWal⟩]
  refine forall_congr' fun past => forall_congr' fun _ => ?_
  exact (and_iff_right (leader_run rfl past)).symm

def userType : TypeDefinition where
  name := "User"
  fields := [{ name := "city", dataType := .string, isIndexed := false }]
  keyPrefix := some "user"

def cityRegistry : SchemaRegistry where
  types := (∅ : SortedMap String TypeDefinition).insert "User" userType
  enums := ∅
  prefixMap := (∅ : SortedMap String String).insert "user" "User"

omit [Serde] in
theorem load_cityRegistry :
    @SchemaRegistry.loadSchema plainTables .new
        "@prefix ( \"user\" ) type User { city : String }" = (.ok (), cityRegistry) := by
  let _ : UnicodeTables := plainTables
  have printable : (SchemaNode.type userType).Printable := by
    refine ⟨isName_of_plain (by decide), fun fieldDef declared => ?_, fun s same => ?_⟩
    · rw [List.mem_singleton.mp declared]
      exact ⟨isName_of_plain (by decide), trivial⟩
    · rw [← Option.some.inj same]
      decide
  have text : "@prefix ( \"user\" ) type User { city : String }" =
      String.ofList (spaced ((SchemaNode.type userType).phrase false).tokens) := by decide
  rw [SchemaRegistry.loadSchema, text, parse_node printable false]
  rfl

/-- A user without the field `city`. -/
def nameless : Bytes := ("\x7b\"name\":\"a\"\x7d").toUTF8.data.toList

omit [Serde] in
theorem put_violates_schema :
    ¬ ∀ [Serde] (reg : SchemaRegistry) (hasSnapshot hasWal : Bool) (events : List (UInt64 × Op)),
      Enforced reg (run serverStep (.fresh reg hasSnapshot hasWal false) events) := by
  intro claim
  let _ : Serde := SerdeJson.instSerde
  have enforced := claim cityRegistry false false
    [(0, .put { key := "user:1", value := nameless, ttlMs := none })]
  let s := run serverStep (.fresh cityRegistry false false false)
    [(0, .put { key := "user:1", value := nameless, ttlMs := none })]
  have held : s.tree["user:1"]? = some { value := nameless, expiresAt := none, version := 1 } := by
    decide
  obtain ⟨json, parsed, valid⟩ := enforced "user:1" _ held "User" (by decide)
  have rejected : (Serde.valueFromSlice nameless).map (fun json =>
      match cityRegistry.validate "User" json with
      | .error (.fieldMissing field) => field
      | _ => "") = some "city" := by decide
  rw [parsed, Option.map_some, valid] at rejected
  exact absurd rejected (by decide)

end KindDb.SchemaEnforcement
