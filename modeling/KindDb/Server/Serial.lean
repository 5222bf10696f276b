import KindDb.Server.Pool

/-! # One call at a time

A leader that carries out its calls one after the other, each action by action.
What it has broadcast is numbered from one on without a gap, and differs from
its tree by what the running call has still to send and to write. -/
set_option autoImplicit false

namespace KindDb

open KindDb.Lib KindDb.Lib.Overlay KindDb.Lib.Pending

/-! ## Where a program takes its version and sends -/

namespace Action

def isSend : Action → Bool
  | .send _ => true
  | _ => false

def mayEnd : Action → Bool
  | .deleteLookup _ => true
  | .compare _ => true
  | .check _ _ => true
  | _ => false

theorem endsEarly_eq_none {action : Action} (goesOn : action.mayEnd = false) (now : UInt64)
    (s : KindServerImpl) : action.endsEarly now s = none := by
  cases action with
  | deleteLookup | compare | check => cases goesOn
  | _ => rfl

theorem sent_eq_nil {action : Action} (silent : action.isSend = false) : action.sent = [] := by
  cases action with
  | send command => cases silent
  | _ => rfl

end Action

/-- The version of the call is still to be taken. -/
def fetches (todo : List Action) : Bool := todo.any Action.takesVersion

def sends (todo : List Action) : Bool := todo.any Action.isSend

/-- One version is taken, behind all that may end the call, and then one
command is sent, which is all the updates. -/
def Numbered (updates : List (Update String Content)) : List Action → Prop
  | [] => True
  | action :: rest =>
      (action.takesVersion = true → fetches rest = false ∧ sends rest = true) ∧
      (action.isSend = true → action.sent = updates ∧ fetches rest = false ∧ sends rest = false) ∧
      (action.mayEnd = true → fetches rest = true) ∧ Numbered updates rest

variable {updates : List (Update String Content)}

theorem Numbered.sends_of_fetches {todo : List Action} (numbered : Numbered updates todo)
    (fetching : fetches todo = true) : sends todo = true := by
  induction todo with
  | nil => cases fetching
  | cons action rest ih =>
      obtain ⟨takes, _, _, later⟩ := numbered
      unfold sends
      rw [List.any_cons, Bool.or_eq_true]
      right
      rcases Bool.or_eq_true_iff.mp ((List.any_cons ..).symm.trans fetching) with here | behind
      · exact (takes here).2
      · exact ih later behind

theorem Numbered.pending_sent {todo : List Action} (numbered : Numbered updates todo) :
    pending Action.sent todo = if sends todo then updates else [] := by
  induction todo with
  | nil => rfl
  | cons action rest ih =>
      obtain ⟨_, sending, _, later⟩ := numbered
      rw [pending_cons, ih later]
      cases here : action.isSend with
      | true =>
          obtain ⟨all, _, last⟩ := sending here
          simp [sends, here, all, show rest.any Action.isSend = false from last]
      | false => simp [sends, here, Action.sent_eq_nil here]

theorem numbered_append {first second : List Action} (quiet : ∀ a ∈ first,
      a.takesVersion = false ∧ a.isSend = false ∧ (a.mayEnd = true → fetches second = true))
    (numbered : Numbered updates second) : Numbered updates (first ++ second) := by
  induction first with
  | nil => exact numbered
  | cons action rest ih =>
      obtain ⟨takes, sending, ending⟩ := quiet action List.mem_cons_self
      refine ⟨by simp [takes], by simp [sending], fun mayEnd => ?_,
        ih fun a member => quiet a (List.mem_cons_of_mem _ member)⟩
      simp [fetches, show second.any Action.takesVersion = true from ending mayEnd]

theorem numbered_commit (tx : TxHandle) (now : UInt64) :
    Numbered ((Call.commit tx).updates now) (commitProgram tx) := by
  have last : Numbered ((Call.commit tx).updates now)
      (commitApplies tx.writeSet.entries ++ [.unlock, .reply (.commit (.ok ()))]) := by
    refine numbered_append (fun a member => ?_) (by simp [Numbered, Action.takesVersion,
      Action.isSend, Action.mayEnd])
    obtain ⟨entry, _, listed⟩ := List.mem_flatMap.mp member
    simp only [List.mem_cons, List.not_mem_nil, or_false] at listed
    rcases listed with rfl | rfl <;> simp [Action.takesVersion, Action.isSend, Action.mayEnd]
  have quiet : fetches (commitApplies tx.writeSet.entries ++
        [.unlock, .reply (.commit (.ok ()))]) = false ∧
      sends (commitApplies tx.writeSet.entries ++ [.unlock, .reply (.commit (.ok ()))]) = false := by
    simp [fetches, sends, commitApplies, Action.takesVersion, Action.isSend]
  refine ⟨by simp [Action.takesVersion], by simp [Action.isSend], by simp [Action.mayEnd],
    numbered_append (fun a member => ?_) ⟨fun _ => ?_, by simp [Action.isSend],
      by simp [Action.mayEnd], by simp [Action.takesVersion], by simp [Action.isSend],
      by simp [Action.mayEnd], by simp [Action.takesVersion], fun _ => ⟨?_, quiet⟩,
      by simp [Action.mayEnd], last⟩⟩
  · obtain ⟨entry, _, rfl⟩ := List.mem_map.mp member
    simp [Action.takesVersion, Action.isSend, fetches]
  · have silent := quiet.1
    simp only [fetches, sends, List.any_cons, Action.takesVersion, Action.isSend, Bool.false_or,
      Bool.true_or] at silent ⊢
    exact ⟨silent, trivial⟩
  · exact updates_commitCommand tx

theorem numbered_program (now : UInt64) (call : Call) :
    Numbered (call.updates now) (program false now call) := by
  cases call with
  | commit tx => exact numbered_commit tx now
  | _ =>
      simp [program, putProgram, deleteProgram, casProgram, Numbered, fetches, sends,
        Action.takesVersion, Action.isSend, Action.mayEnd, Action.sent, Call.updates,
        WalCommand.updates]

theorem fetches_program (now : UInt64) (call : Call) :
    fetches (program false now call) = true ∨ sends (program false now call) = false := by
  cases call with
  | commit tx => simp [program, commitProgram, fetches, Action.takesVersion]
  | _ =>
      simp [program, putProgram, deleteProgram, casProgram, fetches, sends, Action.takesVersion,
        Action.isSend]

/-- What the version counter is ahead of the broadcasts. -/
def owed (todo : List Action) : Nat := if !fetches todo && sends todo then 1 else 0

theorem Numbered.owed_cons {action : Action} {rest : List Action}
    (numbered : Numbered updates (action :: rest)) :
    owed (action :: rest) + (if action.takesVersion then 1 else 0) =
      owed rest + if action.isSend then 1 else 0 := by
  obtain ⟨takes, sending, _, _⟩ := numbered
  have fetching : fetches (action :: rest) = (action.takesVersion || fetches rest) := rfl
  have sendingAll : sends (action :: rest) = (action.isSend || sends rest) := rfl
  unfold owed
  rw [fetching, sendingAll]
  cases here : action.takesVersion with
  | true =>
      obtain ⟨last, later⟩ := takes here
      cases both : action.isSend with
      | true =>
          rw [(sending both).2.2] at later
          cases later
      | false => simp [last, later]
  | false =>
      cases now : action.isSend with
      | true =>
          obtain ⟨_, none, last⟩ := sending now
          simp [none, last]
      | false => simp

theorem Action.Effect.todo_next [Serde] {Holder : Type} {me : Holder} {now : UInt64}
    {sh sh' : Shared Holder} {version : Nat} {action : Action} {rest : List Action}
    {thread : Thread} (effect : action.Effect me now sh version rest sh' thread)
    (disciplined : Disciplined updates (action :: rest)) :
    Thread.todo (some thread) = (action.endsEarly now sh.server).getD rest := by
  have became := effect.thread
  have placed := disciplined.2.1
  cases action with
  | reply r =>
      rw [show thread = .done r from became]
      exact placed.symm
  | load =>
      rw [show thread = .done (.handle sh.server.beginTransaction) from became]
      exact placed.symm
  | _ => rw [became]; rfl

/-- The version a thread goes on with. -/
theorem Action.Effect.version_next [Serde] {Holder : Type} {me : Holder} {now : UInt64}
    {sh sh' : Shared Holder} {version v : Nat} {action : Action} {rest todo : List Action}
    (effect : action.Effect me now sh version rest sh' (.running v todo)) :
    v = if action.takesVersion then sh.server.globalVersion + 1 else version := by
  have became := effect.thread
  cases action with
  | reply | load => cases became
  | _ => exact (Thread.running.inj became).1

/-! ## The leader -/

structure Serial where
  shared : Shared Unit
  thread : Option Thread

namespace Serial

def todo (l : Serial) : List Action := Thread.todo l.thread

inductive Label
  | call (now : UInt64) (call : Call)
  | act (now : UInt64)

/-- A call starts when the one before is done. -/
def step [Serde] (l : Serial) : Label → Option Serial
  | .call now call =>
      match l.todo with
      | [] =>
          some { l with thread := some (.running 0 (program l.shared.server.isReplica now call)) }
      | _ :: _ => none
  | .act now =>
      match l.thread with
      | some thread =>
          match thread.step () now l.shared with
          | some (shared, next) => some { shared, thread := some next }
          | none => none
      | none => none

variable [Serde] {l l' : Serial}

theorem step_cases {label : Label} (stepped : l.step label = some l') :
    (∃ now call, l.todo = [] ∧
      l' = { l with thread := some (.running 0 (program l.shared.server.isReplica now call)) }) ∨
    ∃ now version action rest shared next,
      l.thread = some (.running version (action :: rest)) ∧
      action.Effect () now l.shared version rest shared next ∧
      l' = { shared, thread := some next } := by
  cases label with
  | call now call =>
      simp only [step] at stepped
      split at stepped
      · exact Or.inl ⟨now, call, ‹_›, (Option.some.inj stepped).symm⟩
      · cases stepped
  | act now =>
      simp only [step] at stepped
      split at stepped
      · rename_i thread running
        split at stepped
        · rename_i shared next taken
          cases thread with
          | done reply => cases taken
          | running version todo =>
              cases todo with
              | nil => cases taken
              | cons action rest =>
                  exact Or.inr ⟨now, version, action, rest, shared, next, running,
                    Action.exec_effect taken, (Option.some.inj stepped).symm⟩
        · cases stepped
      · cases stepped

omit [Serde] in
/-- What carrying out all that was broadcast gives. -/
def sentMap (s : KindServerImpl) : String → Option Content :=
  overlay (fun _ => none) (s.syncTx.flatMap fun logged => logged.2.updates)

omit [Serde] in
structure Coherent (l : Serial) : Prop where
  leads : l.shared.server.isReplica = false
  ids : l.shared.server.syncTx.map Prod.fst = List.range' 1 l.shared.server.syncTx.length
  ordered : ∃ updates, (touched updates).Nodup ∧ Disciplined updates l.todo ∧
    Numbered updates l.todo
  counter : l.shared.server.globalVersion = l.shared.server.syncTx.length + owed l.todo
  version : ∀ version todo, l.thread = some (.running version todo) → fetches todo = false →
    sends todo = true → version = l.shared.server.globalVersion
  balanced : ∀ key, Balanced (sentMap l.shared.server) l.shared.server.contents
    (pending Action.sent l.todo) (pending Action.written l.todo) key
  lastSent : ∀ key ∈ touched (pending Action.written l.todo),
    key ∉ touched (pending Action.sent l.todo) → ∃ logged ∈ l.shared.server.syncTx,
      logged.1 = l.shared.server.globalVersion ∧ key ∈ touched logged.2.updates

theorem coherent_fresh (reg : Schema.SchemaRegistry) (hasSnapshot hasWal : Bool) :
    Coherent ⟨⟨.fresh reg hasSnapshot hasWal false, none⟩, none⟩ := by
  have contents : (KindServerImpl.fresh reg hasSnapshot hasWal false).contents = fun _ => none := by
    cases hasSnapshot <;> cases hasWal <;> rfl
  refine ⟨rfl, rfl, ⟨[], List.nodup_nil, trivial, trivial⟩, ?_, ?_, fun key => ?_, ?_⟩
  · cases hasSnapshot <;> cases hasWal <;> rfl
  · intro version todo running
    cases running
  · rw [contents]
    exact Balanced.start rfl []
  · intro key named
    cases named

omit [Serde] in
theorem Coherent.call (coherent : Coherent l) (idle : l.todo = []) (now : UInt64) (call : Call) :
    Coherent { l with
      thread := some (.running 0 (program l.shared.server.isReplica now call)) } := by
  obtain ⟨undelivered, disciplined⟩ := disciplined_program now call
  have numbered := numbered_program now call
  have balanced := coherent.balanced
  have counter := coherent.counter
  simp only [idle, pending_nil, balanced_nil_iff] at balanced
  rw [idle] at counter
  rw [coherent.leads]
  refine ⟨coherent.leads, coherent.ids, ⟨_, ?_, disciplined, numbered⟩, ?_, ?_, fun key => ?_, ?_⟩
  · rw [Call.touched_updates]
    exact call.keys_nodup
  · rw [counter]
    change _ = _ + owed (program false now call)
    rcases fetches_program now call with fetching | silent
    · simp only [owed, fetching]
      rfl
    · simp only [owed, silent, Bool.and_false]
      rfl
  · intro version todo same fetched sending
    cases same
    rcases fetches_program now call with fetching | silent
    · rw [fetching] at fetched
      cases fetched
    · rw [silent] at sending
      cases sending
  · change Balanced _ _ (pending Action.sent (program false now call))
      (pending Action.written (program false now call)) key
    rw [undelivered.sent, undelivered.written]
    exact Balanced.start (balanced key) _
  · intro key named absent
    change key ∈ touched (pending Action.written (program false now call)) at named
    change key ∉ touched (pending Action.sent (program false now call)) at absent
    rw [undelivered.written] at named
    rw [undelivered.sent] at absent
    exact absurd named absent

omit [Serde] in
theorem quiet_ending {now : UInt64} {s : KindServerImpl} {action : Action}
    {ending : List Action} (ends : action.endsEarly now s = some ending) :
    action.mayEnd = true ∧ action.takesVersion = false ∧ action.isSend = false ∧
      fetches ending = false ∧ sends ending = false ∧ ∀ updates, Numbered updates ending := by
  refine ⟨?_, ?_, ?_, ?_⟩
  · by_contra goesOn
    rw [Action.endsEarly_eq_none (by simpa using goesOn)] at ends
    cases ends
  · cases action with
    | fetchAdd | commitFetchAdd => cases ends
    | _ => rfl
  · cases action with
    | send command => cases ends
    | _ => rfl
  · rcases Action.endsEarly_cases ends with rfl | rfl | rfl <;>
      simp [deleteMissed, casFailed, commitFailed, fetches, sends, Numbered, Action.takesVersion,
        Action.isSend, Action.mayEnd]

theorem sentMap_after {Holder : Type} {me : Holder} {now : UInt64} {sh sh' : Shared Holder}
    {version : Nat} {action : Action} {rest : List Action} {thread : Thread}
    (effect : action.Effect me now sh version rest sh' thread) :
    sentMap sh'.server = overlay (sentMap sh.server) action.sent := by
  have moved := effect.syncTx
  unfold sentMap
  cases action with
  | send command =>
      rw [moved, List.flatMap_append, overlay_append]
      simp [Action.sent]
  | _ => rw [moved]; rfl

theorem syncTx_after {Holder : Type} {me : Holder} {now : UInt64} {sh sh' : Shared Holder}
    {version : Nat} {action : Action} {rest : List Action} {thread : Thread}
    (effect : action.Effect me now sh version rest sh' thread) (silent : action.isSend = false) :
    sh'.server.syncTx = sh.server.syncTx := by
  have moved := effect.syncTx
  cases action with
  | send command => cases silent
  | _ => exact moved

/-- An action that ends the call. -/
theorem Coherent.giveUp (coherent : Coherent l) {now : UInt64} {version : Nat} {action : Action}
    {rest ending : List Action} {shared : Shared Unit} {next : Thread}
    (running : l.thread = some (.running version (action :: rest)))
    (effect : action.Effect () now l.shared version rest shared next)
    (ends : action.endsEarly now l.shared.server = some ending) : Coherent ⟨shared, some next⟩ := by
  obtain ⟨updates, distinct, disciplined, numbered⟩ := coherent.ordered
  have here : l.todo = action :: rest := by rw [Serial.todo, running, Thread.todo_running]
  have counter := coherent.counter
  have balanced := coherent.balanced
  rw [here] at disciplined numbered counter
  simp only [here] at balanced
  obtain ⟨mayEnd, notTaking, notSending, fetched, silent, numbered'⟩ := quiet_ending ends
  have became : todo ⟨shared, some next⟩ = ending := by
    rw [todo, effect.todo_next disciplined, ends]
    rfl
  have fetching := numbered.2.2.1 mayEnd
  obtain ⟨disciplined', goesOn | givesUp⟩ := effect.next disciplined
  · rw [became.symm.trans goesOn, fetching] at fetched
    cases fetched
  change Disciplined updates (todo ⟨shared, some next⟩) at disciplined'
  change GivesUp updates action rest (todo ⟨shared, some next⟩) at givesUp
  rw [became] at disciplined' givesUp
  have version' := effect.globalVersion
  rw [if_neg (by simp [notTaking])] at version'
  have broadcast := syncTx_after effect notSending
  refine ⟨effect.isReplica.trans coherent.leads, ?_, ⟨updates, distinct, ?_, ?_⟩, ?_, ?_,
    fun key => ?_, ?_⟩
  · rw [broadcast]
    exact coherent.ids
  · rw [became]
    exact disciplined'
  · rw [became]
    exact numbered' updates
  · have before : owed (action :: rest) = 0 := by
      simp only [owed, fetches, List.any_cons] at fetching ⊢
      simp [fetching]
    have after : owed ending = 0 := by
      simp only [owed, silent, Bool.and_false]
      rfl
    rw [became, version', counter, before, after, broadcast]
  · rintro version todo same _ sending
    cases same
    rw [show todo = ending from became, silent] at sending
    cases sending
  · rw [became, givesUp.nothing.sent, givesUp.nothing.written, balanced_nil_iff,
      sentMap_after effect, effect.contents, givesUp.silent.2.1, givesUp.silent.2.2, overlay_nil,
      overlay_nil]
    have pair := balanced key
    rw [givesUp.undelivered.sent, givesUp.undelivered.written] at pair
    by_cases named : key ∈ touched updates
    · exact pair.untouched named named
    · have settles := pair.settles
      rwa [overlay_untouched named, overlay_untouched named] at settles
  · intro key named
    rw [became, givesUp.nothing.written] at named
    cases named

section GoOn
variable {now : UInt64} {version : Nat} {action : Action} {rest : List Action}
  {shared : Shared Unit} {next : Thread}

omit [Serde] in
theorem todo_eq (running : l.thread = some (.running version (action :: rest))) :
    l.todo = action :: rest := by
  rw [Serial.todo, running, Thread.todo_running]

/-- A command is sent under the version that was taken last. -/
theorem Coherent.sending (coherent : Coherent l)
    (running : l.thread = some (.running version (action :: rest)))
    (effect : action.Effect () now l.shared version rest shared next)
    (numbered : Numbered updates (action :: rest)) (isSend : action.isSend = true) :
    owed (action :: rest) = 1 ∧ version = l.shared.server.globalVersion ∧
      shared.server.globalVersion = l.shared.server.globalVersion ∧
      ∃ command : WalCommand, command.updates = updates ∧
        shared.server.syncTx = l.shared.server.syncTx ++ [(version, command)] := by
  obtain ⟨all, fetched, _⟩ := numbered.2.1 isSend
  cases action with
  | send command =>
      have owing : owed (.send command :: rest) = 1 := by
        simp only [owed, show fetches (.send command :: rest) = false from fetched, sends,
          List.any_cons, Action.isSend]
        rfl
      exact ⟨owing, coherent.version _ _ running fetched rfl, effect.globalVersion, command, all,
        effect.syncTx⟩
  | _ => cases isSend

theorem Coherent.ids_after (coherent : Coherent l)
    (running : l.thread = some (.running version (action :: rest)))
    (effect : action.Effect () now l.shared version rest shared next)
    (numbered : Numbered updates (action :: rest)) :
    shared.server.syncTx.map Prod.fst = List.range' 1 shared.server.syncTx.length ∧
      shared.server.syncTx.length =
        l.shared.server.syncTx.length + if action.isSend then 1 else 0 := by
  cases here : action.isSend with
  | false =>
      rw [syncTx_after effect here]
      exact ⟨coherent.ids, rfl⟩
  | true =>
      have counter := coherent.counter
      obtain ⟨owing, same, _, command, _, broadcast⟩ :=
        coherent.sending running effect numbered here
      rw [todo_eq running, owing] at counter
      rw [broadcast, List.length_append, List.length_singleton]
      refine ⟨?_, rfl⟩
      rw [List.map_append, coherent.ids, List.range'_concat]
      simp only [List.map_cons, List.map_nil, same, counter]
      rw [Nat.one_mul, Nat.add_comm 1]

/-- What is written and no longer to be sent was sent last. -/
theorem Coherent.lastSent_after (coherent : Coherent l)
    (running : l.thread = some (.running version (action :: rest)))
    (effect : action.Effect () now l.shared version rest shared next)
    (numbered : Numbered updates (action :: rest)) {key : String}
    (written : key ∈ touched (pending Action.written (action :: rest)))
    (inUpdates : key ∈ touched updates) (absent : key ∉ touched (pending Action.sent rest)) :
    ∃ logged ∈ shared.server.syncTx,
      logged.1 = shared.server.globalVersion ∧ key ∈ touched logged.2.updates := by
  cases here : action.isSend with
  | true =>
      obtain ⟨_, same, kept, command, all, broadcast⟩ :=
        coherent.sending running effect numbered here
      refine ⟨(version, command), ?_, same.trans kept.symm, ?_⟩
      · rw [broadcast]
        exact List.mem_append_right _ (List.mem_singleton_self _)
      · rw [all]
        exact inUpdates
  | false =>
      have version' := effect.globalVersion
      have unsent : key ∉ touched (pending Action.sent (action :: rest)) := by
        rw [pending_cons, Action.sent_eq_nil here]
        exact absent
      have notTaking : action.takesVersion = false := by
        by_contra taking
        have fetching : fetches (action :: rest) = true := by
          simp [fetches, eq_true_of_ne_false taking]
        rw [numbered.pending_sent, if_pos (numbered.sends_of_fetches fetching)] at unsent
        exact unsent inUpdates
      rw [if_neg (by simp [notTaking])] at version'
      have lastSent := coherent.lastSent key
      rw [todo_eq running] at lastSent
      obtain ⟨logged, member, last, inLogged⟩ := lastSent written unsent
      refine ⟨logged, ?_, last.trans version'.symm, inLogged⟩
      rw [syncTx_after effect here]
      exact member

/-- An action with which the call goes on. -/
theorem Coherent.goOn (coherent : Coherent l)
    (running : l.thread = some (.running version (action :: rest)))
    (effect : action.Effect () now l.shared version rest shared next)
    (ends : action.endsEarly now l.shared.server = none) : Coherent ⟨shared, some next⟩ := by
  obtain ⟨updates, distinct, disciplined, numbered⟩ := coherent.ordered
  have here := todo_eq running
  have counter := coherent.counter
  have balanced := coherent.balanced
  have current := coherent.version _ _ running
  rw [here] at disciplined numbered counter
  simp only [here] at balanced
  have became : todo ⟨shared, some next⟩ = rest := by
    rw [todo, effect.todo_next disciplined, ends]
    rfl
  have version' := effect.globalVersion
  have owes := numbered.owed_cons
  obtain ⟨ids, length⟩ := coherent.ids_after running effect numbered
  refine ⟨effect.isReplica.trans coherent.leads, ids, ⟨updates, distinct, ?_, ?_⟩, ?_, ?_,
    fun key => ?_, ?_⟩
  · rw [became]
    exact disciplined.2.2
  · rw [became]
    exact numbered.2.2.2
  · rw [became]
    change shared.server.globalVersion = shared.server.syncTx.length + owed rest
    have sum : shared.server.globalVersion =
        l.shared.server.globalVersion + if action.takesVersion then 1 else 0 := by
      rw [version']
      split <;> rfl
    omega
  · intro v todo' same fetched later
    cases same
    rw [show todo' = rest from became] at fetched later
    have taken := effect.version_next
    cases here : action.takesVersion with
    | true =>
        rw [if_pos here] at version' taken
        rw [taken, version']
    | false =>
        rw [if_neg (by simp [here])] at version' taken
        rw [taken, version']
        refine current ?_ ?_
        · simp [fetches, here, show rest.any Action.takesVersion = false from fetched]
        · simp [sends, show rest.any Action.isSend = true from later]
  · rw [became, sentMap_after effect, funext (effect.contents)]
    have ofSent : (touched (pending Action.sent (action :: rest))).Nodup :=
      distinct.sublist (disciplined.1.2.1.sublist.map _)
    have ofWritten : (touched (pending Action.written (action :: rest))).Nodup :=
      distinct.sublist (disciplined.1.2.2.sublist.map _)
    exact ((balanced key).deliver ofSent).deliverSecond ofWritten
  · intro key named absent
    rw [became] at named absent
    have written : key ∈ touched (pending Action.written (action :: rest)) := by
      rw [pending_cons, touched_append]
      exact List.mem_append_right _ named
    exact coherent.lastSent_after running effect numbered written
      ((disciplined.1.2.2.sublist.map _).mem written) absent

end GoOn

theorem Coherent.step (coherent : Coherent l) {label : Label} (stepped : l.step label = some l') :
    Coherent l' := by
  rcases step_cases stepped with ⟨now, call, idle, rfl⟩ |
    ⟨now, version, action, rest, shared, next, running, effect, rfl⟩
  · exact coherent.call idle now call
  · cases ends : action.endsEarly now l.shared.server with
    | some ending => exact coherent.giveUp running effect ends
    | none => exact coherent.goOn running effect ends

end Serial

end KindDb
