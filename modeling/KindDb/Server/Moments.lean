import KindDb.Server.Pool

/-! # Where a call takes effect

A call takes effect at one of its actions: `put` when it inserts and `delete`
when it removes, `cas` and `commit` when they take their version inside the
section, `begin_transaction` when it loads the version; a call that fails takes
effect when it finds out.  `Plan` says of what a call has still to do how it
serves the call: what is left to write and to reply once it has taken effect. -/
set_option autoImplicit false

namespace KindDb

open KindDb.Lib KindDb.Lib.Overlay

/-- The call has still to take effect. -/
def awaits : List Action → Bool
  | [] => false
  | .treeRemove _ :: _ => true
  | .load :: _ => true
  | .commitFetchAdd :: _ => true
  | .fetchAdd :: rest => inSection rest || awaits rest
  | .insert _ _ _ :: rest => !inSection rest || awaits rest
  | _ :: rest => awaits rest

/-- What the call is going to return if nothing ends it early. -/
def answer : List Action → Option Reply
  | [] => none
  | .reply r :: _ => some r
  | _ :: rest => answer rest

/-- What a call has still to write after it has taken effect. -/
def owedBy (todo : List Action) : List (Update String Content) :=
  if awaits todo then [] else pending Action.written todo

/-- After this the call has only to release the mutex and to return. -/
structure Settles (updates : List (Update String Content)) (reply : Reply)
    (rest : List Action) : Prop where
  effective : awaits rest = false
  written : pending Action.written rest = updates
  answer : answer rest = some reply

def Action.Serves (call : Call) (rest : List Action) : Action → Prop
  | .deleteLookup key => call = .delete key ∧ awaits rest = true
  | .treeRemove key => call = .delete key ∧ Settles [] (.write (.ok true)) rest
  | .compare req => call = .cas req ∧ inSection rest = true ∧ awaits rest = true
  | .check key snapshotVersion => ∃ tx, call = .commit tx ∧ key ∈ tx.writeSet.keys ∧
      snapshotVersion = tx.snapshotVersion ∧ inSection rest = true ∧ awaits rest = true
  | .load => call = .beginTransaction
  | .fetchAdd => inSection rest = true → ∃ req, call = .cas req ∧
      Settles [(req.key, some (req.newValue, none))] (.write (.ok true)) rest
  | .commitFetchAdd => ∃ tx, call = .commit tx ∧ inSection rest = true ∧
      Settles ((Call.commit tx).updates 0) (.commit (.ok ())) rest
  | .lock => awaits rest = false → pending Action.written rest = []
  | .insert key value expiresAt =>
      (inSection rest = true → awaits rest = false) ∧
      (inSection rest = false → ∃ req, call = .put req ∧ key = req.key ∧ value = req.value ∧
        expiresAt = none ∧ Settles [] (.write (.ok true)) rest)
  | .applyWrite _ _ => inSection rest = true ∧ awaits rest = false
  | .reply r => rest = [] ∧ ∀ tx, r ≠ .handle tx
  | _ => True

def Plan (call : Call) : List Action → Prop
  | [] => True
  | action :: rest => action.Serves call rest ∧ Plan call rest

/-! ## The programs -/

theorem plan_ending {call : Call} {now : UInt64} {s : KindServerImpl} {action : Action}
    {ending : List Action} (ends : action.endsEarly now s = some ending) :
    Plan call ending ∧ awaits ending = false ∧ pending Action.written ending = [] := by
  rcases Action.endsEarly_cases ends with rfl | rfl | rfl <;>
    simp [deleteMissed, casFailed, commitFailed, Plan, Action.Serves, awaits, Action.written]

theorem settles_applies {entries : List (String × Option DbRecord)} {reply : Reply}
    {rest : List Action} (settles : Settles [] reply rest) :
    Settles (entries.map fun entry => (entry.1, entry.2.map DbRecord.content)) reply
      (commitApplies entries ++ rest) := by
  refine ⟨?_, ?_, ?_⟩
  · induction entries with
    | nil => exact settles.effective
    | cons entry entries ih => exact ih
  · rw [pending_append, (pending_applies entries).2.2, settles.written, List.append_nil]
  · induction entries with
    | nil => exact settles.answer
    | cons entry entries ih => exact ih

theorem plan_applies {call : Call} {entries : List (String × Option DbRecord)} {reply : Reply}
    {rest : List Action} (locked : inSection rest = true) (settles : Settles [] reply rest)
    (plan : Plan call rest) : Plan call (commitApplies entries ++ rest) := by
  induction entries with
  | nil => exact plan
  | cons entry entries ih =>
      exact ⟨trivial, ⟨(inSection_applies entries rest).trans locked,
        (settles_applies settles).effective⟩, ih⟩

theorem plan_checks {tx : TxHandle} {entries : List (String × Option DbRecord)}
    {rest : List Action} (listed : ∀ entry ∈ entries, entry ∈ tx.writeSet.entries)
    (locked : inSection rest = true) (waits : awaits rest = true)
    (plan : Plan (.commit tx) rest) :
    let todo := (entries.map fun entry => Action.check entry.1 tx.snapshotVersion) ++ rest
    inSection todo = true ∧ awaits todo = true ∧ Plan (.commit tx) todo := by
  induction entries with
  | nil => exact ⟨locked, waits, plan⟩
  | cons entry entries ih =>
      obtain ⟨lockedLater, waitsLater, planLater⟩ :=
        ih fun entry member => listed entry (List.mem_cons_of_mem _ member)
      refine ⟨lockedLater, waitsLater, ⟨tx, rfl, ?_, rfl, lockedLater, waitsLater⟩, planLater⟩
      exact List.mem_map_of_mem (listed entry List.mem_cons_self)

theorem plan_commit (tx : TxHandle) :
    Plan (.commit tx) (commitProgram tx) ∧ awaits (commitProgram tx) = true := by
  let last : List Action := [.unlock, .reply (.commit (.ok ()))]
  have settlesLast : Settles [] (.commit (.ok ())) last := ⟨rfl, rfl, rfl⟩
  have planLast : Plan (.commit tx) last := ⟨trivial, ⟨rfl, nofun⟩, trivial⟩
  let applies : List Action := commitApplies tx.writeSet.entries ++ last
  have locked : inSection applies = true := inSection_applies tx.writeSet.entries last
  have settles : Settles ((Call.commit tx).updates 0) (.commit (.ok ())) applies :=
    settles_applies settlesLast
  let sends : List Action := .append (commitCommand tx) :: .send (commitCommand tx) :: applies
  have planSends : Plan (.commit tx) (.commitFetchAdd :: sends) :=
    ⟨⟨tx, rfl, locked, settles.effective, settles.written, settles.answer⟩, trivial, trivial,
      plan_applies rfl settlesLast planLast⟩
  have all : ∀ entry ∈ tx.writeSet.entries, entry ∈ tx.writeSet.entries := fun _ => id
  obtain ⟨_, waits, plan⟩ := plan_checks all
    (show inSection (.commitFetchAdd :: sends) = true from locked) rfl planSends
  exact ⟨⟨fun effective => absurd (effective.symm.trans waits) Bool.false_ne_true, plan⟩, waits⟩

theorem plan_program {call : Call} (ttlFree : call.TtlFree) (now : UInt64) :
    Plan call (program false now call) ∧ awaits (program false now call) = true := by
  cases call with
  | put req =>
      have free : deadline now req.ttlMs = none := congrArg (deadline now) ttlFree
      have settles : Settles [] (.write (.ok true)) [.watch (putEvent req.key req.value),
          .reply (.write (.ok true))] := ⟨rfl, rfl, rfl⟩
      simp [program, putProgram, free, Plan, Action.Serves, awaits, inSection, settles]
  | delete key =>
      have settles : Settles [] (.write (.ok true)) [.fetchAdd, .lock, .append (.delete key),
          .unlock, .send (.delete key), .watch { key, newValue := none, operationType := "DELETE" },
          .reply (.write (.ok true))] := ⟨rfl, rfl, rfl⟩
      simp [program, deleteProgram, Plan, Action.Serves, awaits, inSection, settles, Action.written]
  | cas req =>
      have free : deadline now req.ttlMs = none := congrArg (deadline now) ttlFree
      have settles : Settles [(req.key, some (req.newValue, none))] (.write (.ok true))
          [.append (.put req.key req.newValue none), .send (.put req.key req.newValue none),
            .insert req.key req.newValue none, .watch (putEvent req.key req.newValue), .unlock,
            .reply (.write (.ok true))] := ⟨rfl, rfl, rfl⟩
      simp [program, casProgram, free, Plan, Action.Serves, awaits, inSection, settles]
  | beginTransaction => exact ⟨⟨rfl, trivial⟩, rfl⟩
  | commit tx => exact plan_commit tx

/-- Whoever has still to write after it has taken effect holds the mutex. -/
theorem Plan.guarded {call : Call} {todo : List Action} (plan : Plan call todo)
    (owes : owedBy todo ≠ []) : inSection todo = true := by
  unfold owedBy at owes
  split at owes
  · exact absurd rfl owes
  rename_i effective
  rw [Bool.not_eq_true] at effective
  induction todo with
  | nil => exact absurd rfl owes
  | cons action rest ih =>
      obtain ⟨serves, later⟩ := plan
      cases action with
      | lock => exact absurd (serves effective) owes
      | unlock => rfl
      | treeRemove | load | commitFetchAdd => cases effective
      | fetchAdd =>
          obtain ⟨outside, effective⟩ := Bool.or_eq_false_iff.mp effective
          exact absurd (outside.symm.trans (ih later effective owes)) Bool.false_ne_true
      | insert key value expiresAt =>
          obtain ⟨inside, _⟩ := Bool.or_eq_false_iff.mp effective
          rw [Bool.not_eq_false'] at inside
          exact inside
      | applyWrite key rec => exact serves.1
      | _ => exact ih later effective owes

/-! ## What has taken effect -/

/-- Updates as records of a version. -/
def records (version : Nat) (updates : List (Update String Content)) :
    List (Update String DbRecord) :=
  updates.map fun u => (u.1, u.2.map fun held => { value := held.1, expiresAt := held.2, version })

@[simp] theorem records_nil (version : Nat) : records version [] = [] := rfl

theorem records_append (version : Nat) (first second : List (Update String Content)) :
    records version (first ++ second) = records version first ++ records version second :=
  List.map_append

@[simp] theorem touched_records (version : Nat) (updates : List (Update String Content)) :
    touched (records version updates) = touched updates := by
  simp [touched, records]

theorem content_records (version : Nat) (updates : List (Update String Content)) :
    (records version updates).map (fun u => (u.1, u.2.map DbRecord.content)) = updates := by
  simp only [records, List.map_map]
  refine (List.map_congr_left fun u _ => ?_).trans (List.map_id _)
  obtain ⟨key, held⟩ := u
  cases held <;> rfl

/-- A record found under a key that the updates name is the one they bring. -/
theorem of_overlay_records {store : String → Option DbRecord} {version : Nat}
    {updates : List (Update String Content)} {key : String} {r : DbRecord}
    (named : key ∈ touched updates) (held : overlay store (records version updates) key = some r) :
    r.version = version ∧ (key, some r.content) ∈ updates := by
  have member := mem_of_overlay (by simpa using named) held
  obtain ⟨⟨key', held'⟩, listed, same⟩ := List.mem_map.mp member
  obtain ⟨content, rfl, rfl⟩ := Option.map_eq_some_iff.mp (congrArg Prod.snd same)
  cases congrArg Prod.fst same
  exact ⟨rfl, listed⟩

theorem Action.treeUpdates_eq (version : Nat) (action : Action) :
    action.treeUpdates version = records version action.written := by
  cases action with
  | applyWrite key rec => cases rec <;> rfl
  | _ => rfl

namespace Thread

/-- The records a call has still to bring to the tree, once it has taken effect. -/
def owedRecords : Option Thread → List (Update String DbRecord)
  | some (.running version todo) => records version (owedBy todo)
  | _ => []

theorem touched_owedRecords (thread : Option Thread) :
    touched (owedRecords thread) = touched (owedBy (todo thread)) := by
  match thread with
  | none => rfl
  | some (.done _) => rfl
  | some (.running version todo) => exact touched_records version (owedBy todo)

end Thread

namespace Pool

variable {κ : Type}

/-- What the holder of the mutex owes to the tree. -/
def owed (pool : Pool κ κ) : List (Update String DbRecord) :=
  match pool.shared.walLock with
  | some holder => Thread.owedRecords (pool.threads holder)
  | none => []

/-- The tree with all writes that have taken effect. -/
def ahead (pool : Pool κ κ) : String → Option DbRecord :=
  overlay (fun key => pool.shared.server.tree[key]?) pool.owed

end Pool

end KindDb
