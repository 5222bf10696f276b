import KindDb.Server.SyncTask
import KindDb.Server.Versions

/-! # A replica and its leader over any number of connections

The leader is any machine around a server.  The replica connects with its own
version, the sync task of the connection reads the leader's state step by step,
and what it sends arrives in order until the connection breaks, which it may do
at any moment.  `Faithful` says of the machine that its log and its broadcasts
only hold commands it stands by; `follows` says what the replica then does with
a stream that brings no snapshot. -/
set_option autoImplicit false

namespace KindDb.Link

open KindDb.Lib KindDb.Lib.Overlay KindDb.Lib.Runs KindDb.KindServerImpl

structure Machine (Leader Move : Type) where
  server : Leader → KindServerImpl
  step : Leader → Move → Option Leader

structure System (Leader : Type) where
  leader : Leader
  /-- the task that serves the open connection -/
  task : Option SyncTask
  inFlight : List SyncPayload
  replica : KindServerImpl

inductive Label (Move : Type)
  | lead (move : Move)
  | connect
  | task (now : UInt64)
  /-- the receiver of the task has lagged behind, which ends its loop -/
  | lag
  | deliver
  | drop

variable [Serde] {Leader Move : Type}

def step (machine : Machine Leader Move) (sys : System Leader) :
    Label Move → Option (System Leader)
  | .lead move => (machine.step sys.leader move).map fun leader => { sys with leader }
  | .connect =>
      match sys.task with
      | none => some { sys with task := some (.deciding sys.replica.globalVersion), inFlight := [] }
      | some _ => none
  | .task now =>
      match sys.task with
      | none => none
      | some task =>
          (task.step now (machine.server sys.leader)).map fun next =>
            { sys with task := some next.1, inFlight := sys.inFlight ++ next.2 }
  | .lag =>
      match sys.task with
      | some (.forwarding start _) => some { sys with task := some (.ended start) }
      | _ => none
  | .deliver =>
      match sys.inFlight with
      | [] => none
      | payload :: rest =>
          match sys.replica.processPayload payload with
          | some replica => some { sys with replica, inFlight := rest }
          -- the replica leaves the stream and will connect again
          | none => some { sys with task := none, inFlight := [] }
  | .drop => some { sys with task := none, inFlight := [] }

/-- The label does not bring a chunk of a snapshot to the replica. -/
def NoSnapshot (sys : System Leader) : Label Move → Prop
  | .deliver => ∀ chunk rest, sys.inFlight ≠ .snapshot chunk :: rest
  | _ => True

def isPlain (sys : System Leader) : Label Move → Bool
  | .deliver =>
      match sys.inFlight with
      | .snapshot _ :: _ => false
      | _ => true
  | _ => true

omit [Serde] in
theorem noSnapshot_of_plain (sys : System Leader) (label : Label Move)
    (plain : isPlain sys label = true) : NoSnapshot sys label := by
  cases label with
  | deliver =>
      intro chunk rest arriving
      simp [isPlain, arriving] at plain
  | _ => trivial

/-- The leader moves only on its own. -/
theorem leader_step {machine : Machine Leader Move} {sys sys' : System Leader}
    {label : Label Move} (stepped : step machine sys label = some sys') :
    sys'.leader = sys.leader ∨ ∃ move, machine.step sys.leader move = some sys'.leader := by
  cases label with
  | lead move =>
      obtain ⟨leader, moved, rfl⟩ := Option.map_eq_some_iff.mp stepped
      exact Or.inr ⟨move, moved⟩
  | drop =>
      cases Option.some.inj stepped
      exact Or.inl rfl
  | task now =>
      simp only [step] at stepped
      split at stepped
      · cases stepped
      · obtain ⟨_, _, rfl⟩ := Option.map_eq_some_iff.mp stepped
        exact Or.inl rfl
  | connect | lag =>
      simp only [step] at stepped
      split at stepped
      · cases Option.some.inj stepped
        exact Or.inl rfl
      · cases stepped
  | deliver =>
      simp only [step] at stepped
      split at stepped
      · cases stepped
      · split at stepped <;> cases Option.some.inj stepped <;> exact Or.inl rfl

/-! ## What the leader stands by -/

structure Faithful (machine : Machine Leader Move) (Inv : Leader → Prop)
    (Knows : Leader → Nat × WalCommand → Prop) : Prop where
  inv : ∀ leader move leader', machine.step leader move = some leader' → Inv leader → Inv leader'
  keeps : ∀ leader move leader', machine.step leader move = some leader' → Inv leader →
    ∀ entry, Knows leader entry → Knows leader' entry
  logged : ∀ leader, Inv leader → ∀ entry ∈ (machine.server leader).logged, Knows leader entry
  sent : ∀ leader, Inv leader → ∀ entry ∈ (machine.server leader).syncTx, Knows leader entry

/-- A record on its way is one the leader stands by. -/
def Genuine (knows : Nat × WalCommand → Prop) (payload : SyncPayload) : Prop :=
  ∀ record, payload = .walRecord record →
    ∃ envelope, record.payload = some envelope ∧ knows (record.txId, envelope.c)

structure Inv (machine : Machine Leader Move) (LeaderInv : Leader → Prop)
    (Knows : Leader → Nat × WalCommand → Prop) (sys : System Leader) : Prop where
  leader : LeaderInv sys.leader
  inFlight : ∀ payload ∈ sys.inFlight, Genuine (Knows sys.leader) payload

variable {machine : Machine Leader Move} {LeaderInv : Leader → Prop}
  {Knows : Leader → Nat × WalCommand → Prop} {sys sys' : System Leader} {label : Label Move}

omit [Serde] in
theorem genuine_snapshot (knows : Nat × WalCommand → Prop) {payload : SyncPayload}
    (chunk : ∃ records maxTxId, payload = .snapshot { records, maxTxId }) :
    Genuine knows payload := by
  obtain ⟨records, maxTxId, rfl⟩ := chunk
  intro record same
  cases same

/-- A record of the log that the task sends is in the log. -/
theorem mem_logged_of_decideSync {s : KindServerImpl} {lastKnownTxId : Nat}
    {records : List (Nat × WalEnvelope)} (decided : s.decideSync lastKnownTxId = some records)
    {record : Nat × WalEnvelope} (member : record ∈ records) :
    (record.1, record.2.c) ∈ s.logged := by
  have read : ∃ file, s.wal = some file ∧
      ∃ all, Wal.readFromTxId (lastKnownTxId + 1) file = some all ∧ record ∈ all := by
    unfold KindServerImpl.decideSync KindServerImpl.decideSyncFrom at decided
    split at decided
    · cases decided
    · split at decided
      · cases decided
      · rename_i file held
        refine ⟨file, held, ?_⟩
        split at decided
        · cases decided
        · split at decided
          · cases decided
          · cases Option.some.inj decided
            cases member
        · rename_i firstTx envelope rest found
          split at decided
          · cases decided
          · cases Option.some.inj decided
            exact ⟨_, found, member⟩
  obtain ⟨file, held, all, found, listed⟩ := read
  rw [Wal.readFromTxId_eq (Nat.succ_pos _)] at found
  obtain ⟨commands, readAll, rfl⟩ := Option.map_eq_some_iff.mp found
  obtain ⟨logged, kept, rfl⟩ := List.mem_map.mp listed
  unfold KindServerImpl.logged
  rw [held, Option.getD_some, readAll]
  exact (List.mem_filter.mp kept).1

/-- All that a step of the task sends is genuine. -/
theorem genuine_task {knows : Nat × WalCommand → Prop} {s : KindServerImpl} {now : UInt64}
    {task : SyncTask} {next : SyncTask × List SyncPayload} (stepped : task.step now s = some next)
    (logged : ∀ entry ∈ s.logged, knows entry) (sent : ∀ entry ∈ s.syncTx, knows entry)
    {payload : SyncPayload} (member : payload ∈ next.2) : Genuine knows payload := by
  cases task with
  | deciding lastKnownTxId =>
      simp only [SyncTask.step] at stepped
      cases decided : s.decideSync lastKnownTxId with
      | none =>
          rw [decided] at stepped
          cases Option.some.inj stepped
          cases member
      | some records =>
          rw [decided] at stepped
          cases Option.some.inj stepped
          obtain ⟨record, listed, rfl⟩ := List.mem_map.mp member
          intro _ same
          cases same
          exact ⟨record.2, rfl, logged _ (mem_logged_of_decideSync decided listed)⟩
  | loading =>
      cases Option.some.inj stepped
      cases member
  | iterating maxTxId cursor chunk =>
      simp only [SyncTask.step] at stepped
      have carried : Chunking.Carries maxTxId { chunk, sent := [] } := by
        intro payload none
        cases none
      cases found : SortedMap.nextAbove s.tree cursor with
      | some entry =>
          rw [found] at stepped
          cases Option.some.inj stepped
          obtain ⟨records, same⟩ := carried.visit now entry payload member
          exact genuine_snapshot knows ⟨records, maxTxId, same⟩
      | none =>
          rw [found] at stepped
          cases Option.some.inj stepped
          obtain ⟨records, same⟩ := carried.finish payload member
          exact genuine_snapshot knows ⟨records, maxTxId, same⟩
  | subscribing start =>
      cases Option.some.inj stepped
      cases member
  | forwarding start place =>
      simp only [SyncTask.step] at stepped
      cases found : s.syncTx[place]? with
      | none =>
          rw [found] at stepped
          cases stepped
      | some command =>
          rw [found] at stepped
          cases Option.some.inj stepped
          dsimp only at member
          split at member
          · cases member
          · rw [List.mem_singleton.mp member]
            intro record same
            cases same
            exact ⟨_, rfl, sent _ (List.mem_of_getElem? found)⟩
  | ended start => cases stepped

theorem Inv.step (faithful : Faithful machine LeaderInv Knows) (inv : Inv machine LeaderInv Knows sys)
    (stepped : Link.step machine sys label = some sys') :
    Inv machine LeaderInv Knows sys' := by
  cases label with
  | lead move =>
      obtain ⟨leader, moved, rfl⟩ := Option.map_eq_some_iff.mp stepped
      refine ⟨faithful.inv _ _ _ moved inv.leader, fun payload member record same => ?_⟩
      obtain ⟨envelope, parsed, known⟩ := inv.inFlight payload member record same
      exact ⟨envelope, parsed, faithful.keeps _ _ _ moved inv.leader _ known⟩
  | connect =>
      simp only [Link.step] at stepped
      split at stepped
      · cases Option.some.inj stepped
        exact ⟨inv.leader, fun _ member => (by cases member)⟩
      · cases stepped
  | task now =>
      simp only [Link.step] at stepped
      split at stepped
      · cases stepped
      · obtain ⟨next, taken, rfl⟩ := Option.map_eq_some_iff.mp stepped
        refine ⟨inv.leader, fun payload member => ?_⟩
        rcases List.mem_append.mp member with earlier | new
        · exact inv.inFlight payload earlier
        · exact genuine_task taken (faithful.logged _ inv.leader) (faithful.sent _ inv.leader) new
  | lag =>
      simp only [Link.step] at stepped
      split at stepped
      · cases Option.some.inj stepped
        exact ⟨inv.leader, inv.inFlight⟩
      · cases stepped
  | deliver =>
      simp only [Link.step] at stepped
      split at stepped
      · cases stepped
      · rename_i payload rest arriving
        split at stepped
        · cases Option.some.inj stepped
          refine ⟨inv.leader, fun payload' member => inv.inFlight payload' ?_⟩
          rw [arriving]
          exact List.mem_cons_of_mem _ member
        · cases Option.some.inj stepped
          exact ⟨inv.leader, fun _ member => (by cases member)⟩
  | drop =>
      cases Option.some.inj stepped
      exact ⟨inv.leader, fun _ member => (by cases member)⟩

/-! ## What the replica does -/

/-- The commands one after the other. -/
def applyAll (s : KindServerImpl) (commands : List (Nat × WalCommand)) : KindServerImpl :=
  commands.foldl (fun s logged => s.applyCommand logged.1 logged.2) s

theorem globalVersion_applyCommand (s : KindServerImpl) (txId : Nat) (cmd : WalCommand) :
    (s.applyCommand txId cmd).globalVersion = txId := rfl

/-- The replica has carried out the next commands in their order and nothing else. -/
structure Followed (knows : Nat × WalCommand → Prop) (before after : KindServerImpl)
    (commands : List (Nat × WalCommand)) : Prop where
  state : after = applyAll before commands
  ids : commands.map Prod.fst = List.range' (before.globalVersion + 1) commands.length
  version : after.globalVersion = before.globalVersion + commands.length
  known : ∀ entry ∈ commands, knows entry

theorem Followed.refl (knows : Nat × WalCommand → Prop) (s : KindServerImpl) :
    Followed knows s s [] :=
  ⟨rfl, rfl, rfl, fun _ member => (by cases member)⟩

theorem Followed.concat {knows : Nat × WalCommand → Prop} {before after : KindServerImpl}
    {commands : List (Nat × WalCommand)} (followed : Followed knows before after commands)
    {txId : Nat} {command : WalCommand} (next : txId = after.globalVersion + 1)
    (known : knows (txId, command)) :
    Followed knows before (after.applyCommand txId command) (commands ++ [(txId, command)]) := by
  have version := followed.version
  refine ⟨?_, ?_, ?_, fun entry member => ?_⟩
  · rw [followed.state, applyAll, applyAll, List.foldl_append]
    rfl
  · rw [List.map_append, followed.ids, List.length_append, List.length_singleton,
      List.range'_concat, List.map_singleton, next, version]
    congr 2
    omega
  · rw [globalVersion_applyCommand, List.length_append, List.length_singleton]
    omega
  · rcases List.mem_append.mp member with earlier | last
    · exact followed.known entry earlier
    · rw [List.mem_singleton.mp last]
      exact known

/-- One record: a duplicate, a gap that ends the stream, or the next command. -/
theorem Followed.record {knows : Nat × WalCommand → Prop} {before after : KindServerImpl}
    {commands : List (Nat × WalCommand)} (followed : Followed knows before after commands)
    (positive : 0 < after.globalVersion) {record : WalRecord}
    (genuine : Genuine knows (.walRecord record)) {next : KindServerImpl}
    (taken : after.processPayload (.walRecord record) = some next) :
    ∃ commands', Followed knows before next commands' := by
  obtain ⟨envelope, parsed, known⟩ := genuine record rfl
  simp only [KindServerImpl.processPayload] at taken
  split at taken
  · cases Option.some.inj taken
    exact ⟨commands, followed⟩
  · split at taken
    · cases taken
    · rename_i new inOrder
      rw [parsed] at taken
      cases Option.some.inj taken
      have isNext : record.txId = after.globalVersion + 1 := by
        by_contra gap
        exact inOrder ⟨gap, Nat.pos_iff_ne_zero.mp positive⟩
      exact ⟨_, followed.concat isNext known⟩

/-- A replica that receives no snapshot carries out consecutive commands that
the leader stands by, whatever is lost, repeated or broken off. -/
theorem follows (faithful : Faithful machine LeaderInv Knows)
    (inv : Inv machine LeaderInv Knows sys) (positive : 0 < sys.replica.globalVersion)
    {labels : List (Label Move)} (ran : runFrom (step machine) sys labels = some sys')
    (plain : EachMeets (step machine) NoSnapshot sys labels) :
    ∃ commands, Followed (Knows sys'.leader) sys.replica sys'.replica commands := by
  refine (runFrom_invariant (P := fun now => Inv machine LeaderInv Knows now ∧
    ∃ commands, Followed (Knows now.leader) sys.replica now.replica commands) ?_ labels sys sys'
    plain ran ⟨inv, [], Followed.refl _ _⟩).2
  intro now label next noSnapshot stepped here
  obtain ⟨invNow, commands, followed⟩ := here
  refine ⟨invNow.step faithful stepped, ?_⟩
  have unmoved : next.leader = now.leader → next.replica = now.replica →
      ∃ commands, Followed (Knows next.leader) sys.replica next.replica commands := by
    intro leader replica
    rw [leader, replica]
    exact ⟨commands, followed⟩
  cases label with
  | lead move =>
      obtain ⟨leader, moved, rfl⟩ := Option.map_eq_some_iff.mp stepped
      exact ⟨commands, followed.state, followed.ids, followed.version, fun entry member =>
        faithful.keeps _ _ _ moved invNow.leader entry (followed.known entry member)⟩
  | connect =>
      simp only [Link.step] at stepped
      split at stepped
      · cases Option.some.inj stepped
        exact unmoved rfl rfl
      · cases stepped
  | task clock =>
      simp only [Link.step] at stepped
      split at stepped
      · cases stepped
      · obtain ⟨_, _, rfl⟩ := Option.map_eq_some_iff.mp stepped
        exact unmoved rfl rfl
  | lag =>
      simp only [Link.step] at stepped
      split at stepped
      · cases Option.some.inj stepped
        exact unmoved rfl rfl
      · cases stepped
  | drop =>
      cases Option.some.inj stepped
      exact unmoved rfl rfl
  | deliver =>
      simp only [Link.step] at stepped
      split at stepped
      · cases stepped
      · rename_i payload rest arriving
        split at stepped
        · rename_i replica taken
          cases Option.some.inj stepped
          cases payload with
          | snapshot chunk => exact absurd arriving (noSnapshot chunk rest)
          | walRecord record =>
              have here : 0 < now.replica.globalVersion := by
                have := followed.version
                omega
              refine followed.record here (invNow.inFlight _ ?_) taken
              rw [arriving]
              exact List.mem_cons_self
        · cases Option.some.inj stepped
          exact unmoved rfl rfl

end KindDb.Link
