import KindDb.Lib.Pending
import KindDb.Server.Calls

/-! # How the programs are built

Every call brings the same updates to the log, to the sync channel and to the
tree.  `Disciplined updates todo` collects, for what a call has still to do,
what the interleaving arguments use: what is pending is a final part of the
updates, an action that may end the call comes before all of it, and the log is
written between `lock` and `unlock`. -/
set_option autoImplicit false

namespace KindDb

open KindDb.Lib KindDb.Lib.Overlay

namespace Call

/-- What a call does to the visible store if it succeeds. -/
def updates (now : UInt64) : Call → List (Update String Content)
  | .put req => [(req.key, some (req.value, deadline now req.ttlMs))]
  | .delete key => [(key, none)]
  | .cas req => [(req.key, some (req.newValue, deadline now req.ttlMs))]
  | .beginTransaction => []
  | .commit tx => tx.writeSet.entries.map fun entry => (entry.1, entry.2.map DbRecord.content)

def keys : Call → List String
  | .put req => [req.key]
  | .delete key => [key]
  | .cas req => [req.key]
  | .beginTransaction => []
  | .commit tx => tx.writeSet.keys

@[simp] theorem touched_updates (now : UInt64) (call : Call) :
    touched (call.updates now) = call.keys := by
  cases call <;> simp [touched, updates, keys, WriteSet.keys]

theorem keys_nodup (call : Call) : call.keys.Nodup := by
  cases call with
  | commit tx => exact tx.writeSet.distinct
  | put | delete | cas => exact List.nodup_singleton _
  | beginTransaction => exact List.nodup_nil

end Call

/-! ## What is pending -/

namespace Action

def logged : Action → List (Update String Content)
  | .append command => command.updates
  | _ => []

def sent : Action → List (Update String Content)
  | .send command => command.updates
  | _ => []

def written : Action → List (Update String Content)
  | .treeRemove key => [(key, none)]
  | .insert key value expiresAt => [(key, some (value, expiresAt))]
  | .applyWrite key rec => [(key, rec.map DbRecord.content)]
  | _ => []

theorem content_treeUpdates (version : Nat) (action : Action) :
    (action.treeUpdates version).map (fun u => (u.1, u.2.map DbRecord.content)) =
      action.written := by
  cases action with
  | applyWrite key rec => cases rec <;> rfl
  | _ => rfl

theorem endsEarly_cases {now : UInt64} {s : KindServerImpl} {action : Action}
    {ending : List Action} (ends : action.endsEarly now s = some ending) :
    ending = deleteMissed ∨ ending = casFailed ∨ ending = commitFailed := by
  cases action with
  | deleteLookup key => exact Or.inl (Option.some.inj (Option.ite_none_right_eq_some.mp ends).2).symm
  | compare req =>
      exact Or.inr (Or.inl (Option.some.inj (Option.ite_none_left_eq_some.mp ends).2).symm)
  | check key snapshotVersion =>
      exact Or.inr (Or.inr (Option.some.inj (Option.ite_none_right_eq_some.mp ends).2).symm)
  | _ => cases ends

end Action

def pending (part : Action → List (Update String Content)) (todo : List Action) :
    List (Update String Content) :=
  todo.flatMap part

variable {part : Action → List (Update String Content)}

@[simp] theorem pending_nil : pending part [] = [] := rfl

@[simp] theorem pending_cons (action : Action) (rest : List Action) :
    pending part (action :: rest) = part action ++ pending part rest := rfl

@[simp] theorem pending_append (first second : List Action) :
    pending part (first ++ second) = pending part first ++ pending part second :=
  List.flatMap_append

/-- The next thing to be done with the mutex is to release it. -/
def inSection : List Action → Bool
  | [] => false
  | .lock :: _ => false
  | .unlock :: _ => true
  | _ :: rest => inSection rest

/-! ## The discipline -/

/-- Nothing has been delivered anywhere. -/
structure Undelivered (updates : List (Update String Content)) (todo : List Action) : Prop where
  logged : pending Action.logged todo = updates
  sent : pending Action.sent todo = updates
  written : pending Action.written todo = updates

def Action.Placed (updates : List (Update String Content)) (rest : List Action) : Action → Prop
  | .deleteLookup _ => Undelivered updates rest ∧ inSection rest = false
  | .compare _ => Undelivered updates rest ∧ inSection rest = true
  | .check _ _ => Undelivered updates rest ∧ inSection rest = true
  | .lock => inSection rest = true
  | .unlock => inSection rest = false
  | .append _ => inSection rest = true
  | .load => rest = []
  | .reply _ => rest = []
  | _ => True

def Disciplined (updates : List (Update String Content)) : List Action → Prop
  | [] => True
  | action :: rest =>
      (pending Action.logged (action :: rest) <:+ updates ∧
        pending Action.sent (action :: rest) <:+ updates ∧
        pending Action.written (action :: rest) <:+ updates) ∧
      action.Placed updates rest ∧ Disciplined updates rest

variable {updates : List (Update String Content)}

theorem disciplined_of_undelivered {action : Action} {rest : List Action}
    (undelivered : Undelivered updates (action :: rest)) (placed : action.Placed updates rest)
    (disciplined : Disciplined updates rest) : Disciplined updates (action :: rest) :=
  ⟨⟨undelivered.logged ▸ List.suffix_rfl, undelivered.sent ▸ List.suffix_rfl,
    undelivered.written ▸ List.suffix_rfl⟩, placed, disciplined⟩

theorem inSection_applies (entries : List (String × Option DbRecord)) (rest : List Action) :
    inSection (commitApplies entries ++ rest) = inSection rest := by
  induction entries with
  | nil => rfl
  | cons entry entries ih => exact ih

theorem disciplined_checks (entries : List (String × Option DbRecord)) (snapshotVersion : Nat)
    {rest : List Action} (undelivered : Undelivered updates rest)
    (locked : inSection rest = true) (disciplined : Disciplined updates rest) :
    let todo := (entries.map fun entry => Action.check entry.1 snapshotVersion) ++ rest
    Undelivered updates todo ∧ inSection todo = true ∧ Disciplined updates todo := by
  induction entries with
  | nil => exact ⟨undelivered, locked, disciplined⟩
  | cons entry entries ih =>
      obtain ⟨later, lockedLater, disciplinedLater⟩ := ih
      have now : Undelivered updates (.check entry.1 snapshotVersion ::
          ((entries.map fun entry => Action.check entry.1 snapshotVersion) ++ rest)) :=
        ⟨later.logged, later.sent, later.written⟩
      exact ⟨now, lockedLater, disciplined_of_undelivered now ⟨later, lockedLater⟩ disciplinedLater⟩

theorem pending_applies (entries : List (String × Option DbRecord)) :
    pending Action.logged (commitApplies entries) = [] ∧
      pending Action.sent (commitApplies entries) = [] ∧
      pending Action.written (commitApplies entries) =
        entries.map fun entry => (entry.1, entry.2.map DbRecord.content) := by
  induction entries with
  | nil => exact ⟨rfl, rfl, rfl⟩
  | cons entry entries ih =>
      refine ⟨ih.1, ih.2.1, ?_⟩
      exact congrArg ((entry.1, entry.2.map DbRecord.content) :: ·) ih.2.2

theorem disciplined_applies {entries : List (String × Option DbRecord)} {rest : List Action}
    (final : (entries.map fun entry => (entry.1, entry.2.map DbRecord.content)) <:+ updates)
    (silent : pending Action.logged rest = [] ∧ pending Action.sent rest = [] ∧
      pending Action.written rest = []) (disciplined : Disciplined updates rest) :
    Disciplined updates (commitApplies entries ++ rest) := by
  induction entries with
  | nil => exact disciplined
  | cons entry entries ih =>
      obtain ⟨logged, sent, written⟩ := pending_applies entries
      have nothing : ∀ {list : List (Update String Content)}, list = [] → list <:+ updates :=
        fun empty => empty ▸ List.nil_suffix
      have later := ih ((List.suffix_cons _ _).trans final)
      have write : Disciplined updates
          (.applyWrite entry.1 entry.2 :: (commitApplies entries ++ rest)) := by
        refine ⟨⟨nothing ?_, nothing ?_, ?_⟩, trivial, later⟩
        · simp [Action.logged, logged, silent]
        · simp [Action.sent, sent, silent]
        · simpa [Action.written, written, silent] using final
      exact ⟨write.1, trivial, write⟩

theorem updates_commitCommand (tx : TxHandle) :
    (commitCommand tx).updates =
      tx.writeSet.entries.map fun entry => (entry.1, entry.2.map DbRecord.content) := by
  simp only [commitCommand, WalCommand.updates, List.flatMap_map]
  induction tx.writeSet.entries with
  | nil => rfl
  | cons entry entries ih =>
      obtain ⟨key, rec⟩ := entry
      rw [List.flatMap_cons, ih]
      cases rec <;> rfl

theorem disciplined_commit (tx : TxHandle) (now : UInt64) :
    Undelivered ((Call.commit tx).updates now) (commitProgram tx) ∧
      Disciplined ((Call.commit tx).updates now) (commitProgram tx) := by
  have last : Disciplined ((Call.commit tx).updates now)
      [.unlock, .reply (.commit (.ok ()))] := by
    simp [Disciplined, Action.Placed, inSection, Action.logged, Action.sent, Action.written]
  obtain ⟨logged, sent, written⟩ := pending_applies tx.writeSet.entries
  have applies : Disciplined ((Call.commit tx).updates now)
      (commitApplies tx.writeSet.entries ++ [.unlock, .reply (.commit (.ok ()))]) :=
    disciplined_applies List.suffix_rfl ⟨rfl, rfl, rfl⟩ last
  have locked := inSection_applies tx.writeSet.entries [.unlock, .reply (.commit (.ok ()))]
  have command := updates_commitCommand tx
  have sends : Disciplined ((Call.commit tx).updates now) (.send (commitCommand tx) ::
      (commitApplies tx.writeSet.entries ++ [.unlock, .reply (.commit (.ok ()))])) := by
    refine ⟨⟨?_, ?_, ?_⟩, trivial, applies⟩
    · simp [Action.logged, logged]
    · simp [Action.sent, sent, command, Call.updates]
    · simp [Action.written, written, Call.updates]
  have appends : Disciplined ((Call.commit tx).updates now) (.append (commitCommand tx) ::
      .send (commitCommand tx) ::
      (commitApplies tx.writeSet.entries ++ [.unlock, .reply (.commit (.ok ()))])) := by
    refine ⟨⟨?_, ?_, ?_⟩, locked, sends⟩
    · simp [Action.logged, logged, command, Call.updates]
    · simp [Action.sent, sent, command, Call.updates]
    · simp [Action.written, written, Call.updates]
  have undelivered : Undelivered ((Call.commit tx).updates now) (.commitFetchAdd ::
      .append (commitCommand tx) :: .send (commitCommand tx) ::
      (commitApplies tx.writeSet.entries ++ [.unlock, .reply (.commit (.ok ()))])) := by
    refine ⟨?_, ?_, ?_⟩
    · simp [Action.logged, logged, command, Call.updates]
    · simp [Action.sent, sent, command, Call.updates]
    · simp [Action.written, written, Call.updates]
  obtain ⟨checked, lockedAll, disciplined⟩ := disciplined_checks tx.writeSet.entries
    tx.snapshotVersion undelivered locked
    (disciplined_of_undelivered undelivered trivial appends)
  have all : Undelivered ((Call.commit tx).updates now) (commitProgram tx) :=
    ⟨checked.logged, checked.sent, checked.written⟩
  exact ⟨all, disciplined_of_undelivered all lockedAll disciplined⟩

theorem disciplined_program (now : UInt64) (call : Call) :
    Undelivered (call.updates now) (program false now call) ∧
      Disciplined (call.updates now) (program false now call) := by
  cases call with
  | commit tx => exact disciplined_commit tx now
  | _ =>
      simp [program, putProgram, deleteProgram, casProgram, Disciplined, Action.Placed, inSection,
        Action.logged, Action.sent, Action.written, Call.updates, WalCommand.updates,
        Undelivered.mk]

end KindDb
