import KindDb.Server.Pool
import KindDb.Server.Versions

/-! # What a call does with its version

A call that succeeds takes one version, appends its command to the log under it
and broadcasts it, each once and in this order; a call that fails does nothing
of this.  `Account` says how far a call is, `Account.step` how one action moves
it. -/
set_option autoImplicit false

namespace KindDb

open KindDb.Lib KindDb.Lib.Overlay KindDb.KindServerImpl

namespace Accounting

/-! ## The entries of a program -/

inductive Entry
  | take
  | append (command : WalCommand)
  | send (command : WalCommand)

def entry : Action → Option Entry
  | .fetchAdd => some .take
  | .commitFetchAdd => some .take
  | .append command => some (.append command)
  | .send command => some (.send command)
  | _ => none

def entries (todo : List Action) : List Entry := todo.filterMap entry

def whole (command : WalCommand) : List Entry := [.take, .append command, .send command]

/-- The action may replace the rest of the call. -/
def mayEnd : Action → Bool
  | .deleteLookup _ => true
  | .compare _ => true
  | .check _ _ => true
  | _ => false

def acknowledges : Reply → Bool
  | .write (.ok true) => true
  | .commit (.ok ()) => true
  | _ => false

/-- The reply that the actions lead to, unless the call ends early. -/
def promises : List Action → Bool
  | [] => false
  | .reply r :: _ => acknowledges r
  | .load :: _ => false
  | _ :: rest => promises rest

/-- The entries come in order, a call that may still end early has all of them
ahead, and the reply comes last. -/
def Entered (command : WalCommand) : List Action → Prop
  | [] => True
  | action :: rest =>
      entries (action :: rest) <:+ whole command ∧
        (mayEnd action = true → entries rest = whole command ∧ promises rest = true) ∧
        ((∃ r, action = .reply r) ∨ action = .load → rest = []) ∧ Entered command rest

@[simp] theorem entries_nil : entries [] = [] := rfl

@[simp] theorem entries_cons (action : Action) (rest : List Action) :
    entries (action :: rest) = (entry action).toList ++ entries rest := by
  unfold entries
  rw [List.filterMap_cons]
  cases entry action <;> rfl

theorem entries_cons_plain {action : Action} (plain : entry action = none) (rest : List Action) :
    entries (action :: rest) = entries rest := by
  simp [plain]

variable {command : WalCommand} {rest : List Action}

theorem entered_checks (writes : List (String × Option DbRecord)) (snapshotVersion : Nat)
    (entered : Entered command rest) (ahead : entries rest = whole command)
    (promised : promises rest = true) :
    let todo := (writes.map fun entry => Action.check entry.1 snapshotVersion) ++ rest
    Entered command todo ∧ entries todo = whole command ∧ promises todo = true := by
  induction writes with
  | nil => exact ⟨entered, ahead, promised⟩
  | cons write writes ih =>
      obtain ⟨enteredLater, aheadLater, promisedLater⟩ := ih
      have plain : entry (.check write.1 snapshotVersion) = none := rfl
      have same := entries_cons_plain plain
        ((writes.map fun entry => Action.check entry.1 snapshotVersion) ++ rest)
      refine ⟨⟨?_, fun _ => ⟨aheadLater, promisedLater⟩, by simp, enteredLater⟩, ?_,
        promisedLater⟩
      · exact (same.trans aheadLater).symm ▸ List.suffix_rfl
      · exact same.trans aheadLater

theorem entered_applies (writes : List (String × Option DbRecord))
    (entered : Entered command rest) (suffix : entries rest <:+ whole command) :
    let todo := commitApplies writes ++ rest
    Entered command todo ∧ entries todo = entries rest ∧ promises todo = promises rest := by
  induction writes with
  | nil => exact ⟨entered, rfl, rfl⟩
  | cons write writes ih =>
      obtain ⟨enteredLater, sameLater, promisedLater⟩ := ih
      have suffixLater : entries (commitApplies writes ++ rest) <:+ whole command :=
        sameLater.symm ▸ suffix
      refine ⟨⟨suffixLater, by simp [mayEnd], by simp, suffixLater, by simp [mayEnd], by simp,
        enteredLater⟩, sameLater, promisedLater⟩

/-- The command of a call, its deadline read off the clock. -/
def commandAt (now : UInt64) : Call → Option WalCommand
  | .put req => some (.put req.key req.value (deadline now req.ttlMs))
  | .delete key => some (.delete key)
  | .cas req => some (.put req.key req.newValue (deadline now req.ttlMs))
  | .beginTransaction => none
  | .commit tx => some (commitCommand tx)

theorem entered_commit (tx : TxHandle) :
    Entered (commitCommand tx) (commitProgram tx) ∧
      entries (commitProgram tx) = whole (commitCommand tx) ∧
      promises (commitProgram tx) = true := by
  have last : Entered (commitCommand tx) [.unlock, .reply (.commit (.ok ()))] := by
    simp [Entered, entry, mayEnd]
  obtain ⟨applies, noEntries, promised⟩ := entered_applies tx.writeSet.entries last
    (by simp [entry])
  have tail : entries (commitApplies tx.writeSet.entries ++
      [.unlock, .reply (.commit (.ok ()))]) = [] := noEntries
  have booked : entries (.commitFetchAdd :: .append (commitCommand tx) ::
      .send (commitCommand tx) :: (commitApplies tx.writeSet.entries ++
        [.unlock, .reply (.commit (.ok ()))])) = whole (commitCommand tx) := by
    simpa [entry, whole] using tail
  have entered : Entered (commitCommand tx) (.commitFetchAdd :: .append (commitCommand tx) ::
      .send (commitCommand tx) :: (commitApplies tx.writeSet.entries ++
        [.unlock, .reply (.commit (.ok ()))])) := by
    have sends : entries (.send (commitCommand tx) :: (commitApplies tx.writeSet.entries ++
        [.unlock, .reply (.commit (.ok ()))])) = [.send (commitCommand tx)] := by
      simpa [entry] using tail
    have appends : entries (.append (commitCommand tx) :: .send (commitCommand tx) ::
        (commitApplies tx.writeSet.entries ++ [.unlock, .reply (.commit (.ok ()))])) =
          [.append (commitCommand tx), .send (commitCommand tx)] := by
      simpa [entry] using tail
    refine ⟨booked ▸ List.suffix_rfl, by simp [mayEnd], by simp, ?_, by simp [mayEnd], by simp,
      ?_, by simp [mayEnd], by simp, applies⟩
    · exact appends ▸ List.suffix_cons _ _
    · exact sends ▸ ⟨[.take, .append (commitCommand tx)], rfl⟩
  obtain ⟨checked, ahead, promisedAll⟩ := entered_checks tx.writeSet.entries tx.snapshotVersion
    entered booked promised
  exact ⟨⟨ahead ▸ List.suffix_rfl, by simp [mayEnd], by simp, checked⟩, ahead, promisedAll⟩

theorem entered_program {now : UInt64} {call : Call} (made : commandAt now call = some command) :
    Entered command (program false now call) ∧
      entries (program false now call) = whole command ∧
      promises (program false now call) = true := by
  cases call with
  | commit tx =>
      cases Option.some.inj made
      exact entered_commit tx
  | beginTransaction => cases made
  | put req =>
      cases Option.some.inj made
      refine ⟨?_, rfl, rfl⟩
      simp [program, putProgram, Entered, entry, whole, mayEnd, List.suffix_cons_iff]
  | delete key =>
      cases Option.some.inj made
      refine ⟨?_, rfl, rfl⟩
      simp [program, deleteProgram, Entered, entry, whole, mayEnd, promises,
        acknowledges, List.suffix_cons_iff]
  | cas req =>
      cases Option.some.inj made
      refine ⟨?_, rfl, rfl⟩
      simp [program, casProgram, Entered, entry, whole, mayEnd, promises,
        acknowledges, List.suffix_cons_iff]

theorem entered_early {now : UInt64} {s : KindServerImpl} {action : Action}
    {ending : List Action} (ends : action.endsEarly now s = some ending) :
    mayEnd action = true ∧ (∀ command, Entered command ending) ∧ entries ending = [] ∧
      promises ending = false := by
  have isEnding : mayEnd action = true := by
    cases action <;> first | rfl | cases ends
  refine ⟨isEnding, ?_⟩
  rcases Action.endsEarly_cases ends with rfl | rfl | rfl <;>
    simp [deleteMissed, casFailed, commitFailed, Entered, entry, mayEnd, promises,
      acknowledges]

/-! ## How far a call is -/

/-- A call that makes commands for which `makes` holds, against what was
broadcast; the last argument is the version that the call took and keeps. -/
inductive Account (makes : WalCommand → Prop) (sent : List (Nat × WalCommand)) :
    Option Thread → Option Nat → Prop
  | idle : Account makes sent none none
  | unnumbered {version : Nat} {todo : List Action} {command : WalCommand}
      (entered : Entered command todo) (made : makes command)
      (ahead : entries todo = whole command) (promised : promises todo = true) :
      Account makes sent (some (.running version todo)) none
  | taken {version : Nat} {todo : List Action} {command : WalCommand}
      (entered : Entered command todo) (made : makes command)
      (ahead : entries todo = [.append command, .send command]) (promised : promises todo = true)
      (unsent : version ∉ sent.map Prod.fst) :
      Account makes sent (some (.running version todo)) (some version)
  | logged {version : Nat} {todo : List Action} {command : WalCommand}
      (entered : Entered command todo) (made : makes command)
      (ahead : entries todo = [.send command]) (promised : promises todo = true)
      (unsent : version ∉ sent.map Prod.fst) :
      Account makes sent (some (.running version todo)) (some version)
  | delivered {version : Nat} {todo : List Action} {command : WalCommand}
      (entered : Entered command todo) (made : makes command)
      (ahead : entries todo = []) (promised : promises todo = true)
      (listed : (version, command) ∈ sent) :
      Account makes sent (some (.running version todo)) (some version)
  | failing {version : Nat} {todo : List Action} {command : WalCommand}
      (entered : Entered command todo) (ahead : entries todo = [])
      (promised : promises todo = false) : Account makes sent (some (.running version todo)) none
  | acknowledged {version : Nat} {r : Reply} {command : WalCommand} (made : makes command)
      (good : acknowledges r = true) (listed : (version, command) ∈ sent) :
      Account makes sent (some (.done r)) (some version)
  | refused {r : Reply} (bad : acknowledges r = false) : Account makes sent (some (.done r)) none

/-- The call has appended its command and has still to broadcast it. -/
def HasLogged (thread : Option Thread) (version : Nat) (command : WalCommand) : Prop :=
  ∃ todo, thread = some (.running version todo) ∧ entries todo = [.send command]

section Steps
variable [Serde] {Holder : Type} {me : Holder} {now : UInt64} {sh sh' : Shared Holder}
  {version : Nat} {action : Action} {thread : Thread} {makes : WalCommand → Prop}
  {kept : Option Nat}

/-- Version counter, log and broadcasts are as before. -/
structure SameBooks (s s' : KindServerImpl) : Prop where
  globalVersion : s'.globalVersion = s.globalVersion
  wal : s'.wal = s.wal
  syncTx : s'.syncTx = s.syncTx

theorem effect_plain (effect : action.Effect me now sh version rest sh' thread)
    (plain : entry action = none) :
    SameBooks sh.server sh'.server ∧
      ((∃ r, action = .reply r ∧ thread = .done r) ∨
        (action = .load ∧ thread = .done (.handle sh.server.beginTransaction)) ∨
        (∃ ending, action.endsEarly now sh.server = some ending ∧
          thread = .running version ending) ∨
        (thread = .running version rest ∧ promises (action :: rest) = promises rest)) := by
  have moved := effect.thread
  have onward : action.takesVersion = false → promises (action :: rest) = promises rest →
      thread = .running
        (if action.takesVersion then sh.server.globalVersion + 1 else version)
        ((action.endsEarly now sh.server).getD rest) →
      (∃ ending, action.endsEarly now sh.server = some ending ∧
          thread = .running version ending) ∨
        (thread = .running version rest ∧ promises (action :: rest) = promises rest) := by
    intro takes promised became
    rw [takes] at became
    cases ends : action.endsEarly now sh.server with
    | none => exact Or.inr ⟨by simpa [ends] using became, promised⟩
    | some ending => exact Or.inl ⟨ending, rfl, by simpa [ends] using became⟩
  cases action with
  | fetchAdd => cases plain
  | commitFetchAdd => cases plain
  | append command => cases plain
  | send command => cases plain
  | reply r => exact ⟨⟨effect.globalVersion, effect.wal, effect.syncTx⟩, Or.inl ⟨r, rfl, moved⟩⟩
  | load =>
      exact ⟨⟨effect.globalVersion, effect.wal, effect.syncTx⟩, Or.inr (Or.inl ⟨rfl, moved⟩)⟩
  | _ =>
      exact ⟨⟨effect.globalVersion, effect.wal, effect.syncTx⟩,
        Or.inr (Or.inr (onward rfl rfl moved))⟩

/-- An action without an entry leaves the account as it is. -/
theorem Account.plain {sent : List (Nat × WalCommand)}
    (account : Account makes sent (some (.running version (action :: rest))) kept)
    (effect : action.Effect me now sh version rest sh' thread) (plain : entry action = none) :
    Account makes sent (some thread) kept ∧
      ∀ v c, HasLogged (some thread) v c ↔
        HasLogged (some (.running version (action :: rest))) v c := by
  have same := entries_cons_plain plain rest
  have unlogged : ∀ {thread thread' : Thread},
      (∀ v todo, thread = .running v todo → ∀ c, entries todo ≠ [.send c]) →
      (∀ v todo, thread' = .running v todo → ∀ c, entries todo ≠ [.send c]) →
      ∀ v c, HasLogged (some thread) v c ↔ HasLogged (some thread') v c := by
    intro thread thread' none none' v c
    constructor
    · rintro ⟨todo, became, ahead⟩
      exact absurd ahead (none v todo (Option.some.inj became) c)
    · rintro ⟨todo, became, ahead⟩
      exact absurd ahead (none' v todo (Option.some.inj became) c)
  rcases (effect_plain effect plain).2 with ⟨r, rfl, rfl⟩ | ⟨rfl, rfl⟩ |
    ⟨ending, ends, rfl⟩ | ⟨rfl, promised⟩
  · have noEntries : ∀ {c}, Entered c (.reply r :: rest) → entries (.reply r :: rest) = [] := by
      intro c entered
      rw [entered.2.2.1 (Or.inl ⟨r, rfl⟩)]
      rfl
    cases account with
    | unnumbered entered made ahead promised => cases (noEntries entered).symm.trans ahead
    | taken entered made ahead promised unsent => cases (noEntries entered).symm.trans ahead
    | logged entered made ahead promised unsent => cases (noEntries entered).symm.trans ahead
    | delivered entered made ahead promised listed =>
        refine ⟨.acknowledged made promised listed,
          unlogged (fun v todo became => by cases became) ?_⟩
        rintro v todo ⟨⟩ c
        simp [ahead]
    | failing entered ahead promised =>
        refine ⟨.refused promised, unlogged (fun v todo became => by cases became) ?_⟩
        rintro v todo ⟨⟩ c
        simp [ahead]
  · cases account with
    | unnumbered entered made ahead promised => cases promised
    | taken entered made ahead promised unsent => cases promised
    | logged entered made ahead promised unsent => cases promised
    | delivered entered made ahead promised listed => cases promised
    | failing entered ahead promised =>
        refine ⟨.refused rfl, unlogged (fun v todo became => by cases became) ?_⟩
        rintro v todo ⟨⟩ c
        simp [ahead]
  · have early : ∀ {c}, Entered c (action :: rest) →
        entries (action :: rest) = whole c ∧ promises rest = true := by
      intro c entered
      have ready := entered.2.1 (entered_early ends).1
      exact ⟨same.trans ready.1, ready.2⟩
    cases account with
    | @unnumbered _ _ command entered made ahead promised =>
        obtain ⟨_, disciplined, nothing, failed⟩ := entered_early ends
        refine ⟨.failing (disciplined command) nothing failed, unlogged ?_ ?_⟩
        · rintro v todo ⟨⟩ c
          simp [nothing]
        · rintro v todo ⟨⟩ c
          simp [ahead, whole]
    | taken entered made ahead promised unsent => cases (early entered).1.symm.trans ahead
    | logged entered made ahead promised unsent => cases (early entered).1.symm.trans ahead
    | delivered entered made ahead promised listed => cases (early entered).1.symm.trans ahead
    | failing entered ahead promised => cases (early entered).1.symm.trans ahead
  · refine ⟨?_, fun v c => ?_⟩
    · cases account with
      | unnumbered entered made ahead promised' =>
          exact .unnumbered entered.2.2.2 made (same ▸ ahead) (promised ▸ promised')
      | taken entered made ahead promised' unsent =>
          exact .taken entered.2.2.2 made (same ▸ ahead) (promised ▸ promised') unsent
      | logged entered made ahead promised' unsent =>
          exact .logged entered.2.2.2 made (same ▸ ahead) (promised ▸ promised') unsent
      | delivered entered made ahead promised' listed =>
          exact .delivered entered.2.2.2 made (same ▸ ahead) (promised ▸ promised') listed
      | failing entered ahead promised' =>
          exact .failing entered.2.2.2 (same ▸ ahead) (promised ▸ promised')
    · constructor
      · rintro ⟨todo, became, ahead⟩
        cases Option.some.inj became
        exact ⟨_, rfl, same.trans ahead⟩
      · rintro ⟨todo, became, ahead⟩
        cases Option.some.inj became
        exact ⟨_, rfl, same.symm.trans ahead⟩

/-- What an action does to the books and to the account of its call. -/
inductive Moves (makes : WalCommand → Prop) (s s' : KindServerImpl) (before after : Option Thread)
    (kept : Option Nat) : Prop
  | quiet (same : SameBooks s s') (account : Account makes s.syncTx after kept)
      (logged : ∀ v c, HasLogged after v c ↔ HasLogged before v c)
  | takes (command : WalCommand) (todo : List Action) (none : kept = none)
      (counted : s'.globalVersion = s.globalVersion + 1) (wal : s'.wal = s.wal)
      (syncTx : s'.syncTx = s.syncTx) (thread : after = some (.running (s.globalVersion + 1) todo))
      (entered : Entered command todo) (made : makes command)
      (ahead : entries todo = [.append command, .send command]) (promised : promises todo = true)
      (unlogged : ∀ v c, ¬ HasLogged before v c)
  | appends (version : Nat) (command : WalCommand) (todo : List Action) (held : kept = some version)
      (counted : s'.globalVersion = s.globalVersion)
      (wal : s'.wal = s.wal.map fun file => Wal.append file version command)
      (syncTx : s'.syncTx = s.syncTx) (thread : after = some (.running version todo))
      (ahead : entries todo = [.send command]) (account : Account makes s.syncTx after kept)
      (unsent : version ∉ s.syncTx.map Prod.fst) (unlogged : ∀ v c, ¬ HasLogged before v c)
  | sends (version : Nat) (command : WalCommand) (held : kept = some version)
      (counted : s'.globalVersion = s.globalVersion) (wal : s'.wal = s.wal)
      (syncTx : s'.syncTx = s.syncTx ++ [(version, command)])
      (account : Account makes s'.syncTx after kept)
      (unsent : version ∉ s.syncTx.map Prod.fst) (unlogged : ∀ v c, ¬ HasLogged after v c)
      (logged : ∀ v c, HasLogged before v c ↔ v = version ∧ c = command)

omit [Serde] in
theorem not_logged_of {version : Nat} {todo : List Action}
    (other : ∀ c, entries todo ≠ [.send c]) (v : Nat) (c : WalCommand) :
    ¬ HasLogged (some (.running version todo)) v c := by
  rintro ⟨todo', became, ahead⟩
  cases Option.some.inj became
  exact other c ahead

/-- The order of the entries decides what is left after one of them. -/
theorem Account.takes (account : Account makes sh.server.syncTx
      (some (.running version (action :: rest))) kept)
    (effect : action.Effect me now sh version rest sh' thread)
    (entryOf : entry action = some .take) :
    Moves makes sh.server sh'.server (some (.running version (action :: rest))) (some thread)
      kept := by
  have here : entries (action :: rest) = .take :: entries rest := by simp [entryOf]
  have books : sh'.server.globalVersion = sh.server.globalVersion + 1 ∧
      sh'.server.wal = sh.server.wal ∧ sh'.server.syncTx = sh.server.syncTx ∧
      thread = .running (sh.server.globalVersion + 1) rest ∧
      promises (action :: rest) = promises rest := by
    cases action with
    | fetchAdd =>
        exact ⟨effect.globalVersion, effect.wal, effect.syncTx, effect.thread, rfl⟩
    | commitFetchAdd =>
        exact ⟨effect.globalVersion, effect.wal, effect.syncTx, effect.thread, rfl⟩
    | _ => cases entryOf
  obtain ⟨counted, wal, syncTx, became, promise⟩ := books
  cases account with
  | unnumbered entered made ahead promised =>
      have left := (List.cons.inj (here.symm.trans ahead)).2
      refine .takes _ rest rfl counted wal syncTx (congrArg some became) entered.2.2.2 made left
        (promise ▸ promised) (not_logged_of fun c => ?_)
      rw [ahead]
      simp [whole]
  | taken entered made ahead promised unsent => cases here.symm.trans ahead
  | logged entered made ahead promised unsent => cases here.symm.trans ahead
  | delivered entered made ahead promised listed => cases here.symm.trans ahead
  | failing entered ahead promised => cases here.symm.trans ahead

theorem Account.appends {command : WalCommand} (account : Account makes sh.server.syncTx
      (some (.running version (.append command :: rest))) kept)
    (effect : Action.Effect me now sh version rest (.append command) sh' thread) :
    Moves makes sh.server sh'.server (some (.running version (.append command :: rest)))
      (some thread) kept := by
  have here : entries (.append command :: rest) = .append command :: entries rest := by
    simp [entry]
  have became : thread = .running version rest := effect.thread
  subst became
  cases account with
  | taken entered made ahead promised unsent =>
      obtain ⟨same, left⟩ := List.cons.inj (here.symm.trans ahead)
      cases same
      refine .appends version command rest rfl effect.globalVersion effect.wal effect.syncTx rfl
        left (.logged entered.2.2.2 made left promised unsent) unsent
        (not_logged_of fun c => ?_)
      rw [here]
      simp
  | unnumbered entered made ahead promised => cases here.symm.trans ahead
  | logged entered made ahead promised unsent => cases here.symm.trans ahead
  | delivered entered made ahead promised listed => cases here.symm.trans ahead
  | failing entered ahead promised => cases here.symm.trans ahead

theorem Account.sends {command : WalCommand} (account : Account makes sh.server.syncTx
      (some (.running version (.send command :: rest))) kept)
    (effect : Action.Effect me now sh version rest (.send command) sh' thread) :
    Moves makes sh.server sh'.server (some (.running version (.send command :: rest)))
      (some thread) kept := by
  have here : entries (.send command :: rest) = .send command :: entries rest := by
    simp [entry]
  have became : thread = .running version rest := effect.thread
  subst became
  have sent : sh'.server.syncTx = sh.server.syncTx ++ [(version, command)] := effect.syncTx
  cases account with
  | logged entered made ahead promised unsent =>
      obtain ⟨same, left⟩ := List.cons.inj (here.symm.trans ahead)
      cases same
      have listed : (version, command) ∈ sh'.server.syncTx := by
        rw [sent]
        exact List.mem_append_right _ List.mem_cons_self
      refine .sends version command rfl effect.globalVersion effect.wal sent
        (.delivered entered.2.2.2 made left promised listed) unsent
        (not_logged_of fun c => ?_) fun v c => ?_
      · rw [left]
        simp
      · constructor
        · rintro ⟨todo, same, ahead'⟩
          cases Option.some.inj same
          rw [ahead] at ahead'
          cases ahead'
          exact ⟨rfl, rfl⟩
        · rintro ⟨rfl, rfl⟩
          exact ⟨_, rfl, ahead⟩
  | unnumbered entered made ahead promised => cases here.symm.trans ahead
  | taken entered made ahead promised unsent => cases here.symm.trans ahead
  | delivered entered made ahead promised listed => cases here.symm.trans ahead
  | failing entered ahead promised => cases here.symm.trans ahead

theorem Account.step (account : Account makes sh.server.syncTx
      (some (.running version (action :: rest))) kept)
    (effect : action.Effect me now sh version rest sh' thread) :
    Moves makes sh.server sh'.server (some (.running version (action :: rest))) (some thread)
      kept := by
  cases entryOf : entry action with
  | none =>
      obtain ⟨account', logged⟩ := account.plain effect entryOf
      exact .quiet (effect_plain effect entryOf).1 account' logged
  | some found =>
      cases action with
      | fetchAdd => exact account.takes effect rfl
      | commitFetchAdd => exact account.takes effect rfl
      | append command => exact account.appends effect
      | send command => exact account.sends effect
      | _ => cases entryOf

omit [Serde] in
/-- What the others broadcast does not touch an account. -/
theorem Account.others {sent : List (Nat × WalCommand)} {thread : Option Thread}
    (account : Account makes sent thread kept) {id : Nat} (other : kept ≠ some id)
    (command : WalCommand) : Account makes (sent ++ [(id, command)]) thread kept := by
  have stillUnsent : ∀ {v : Nat}, v ≠ id → v ∉ sent.map Prod.fst →
      v ∉ (sent ++ [(id, command)]).map Prod.fst := by
    intro v different unsent
    simpa [different] using unsent
  cases account with
  | idle => exact .idle
  | unnumbered entered made ahead promised => exact .unnumbered entered made ahead promised
  | taken entered made ahead promised unsent =>
      exact .taken entered made ahead promised
        (stillUnsent (fun same => other (congrArg some same)) unsent)
  | logged entered made ahead promised unsent =>
      exact .logged entered made ahead promised
        (stillUnsent (fun same => other (congrArg some same)) unsent)
  | delivered entered made ahead promised listed =>
      exact .delivered entered made ahead promised (List.mem_append_left _ listed)
  | failing entered ahead promised => exact .failing entered ahead promised
  | acknowledged made good listed => exact .acknowledged made good (List.mem_append_left _ listed)
  | refused bad => exact .refused bad

end Steps

end Accounting

end KindDb
