import KindDb.Properties.Durability
import KindDb.Server.SyncTask

/-! # Convergence

A leader that starts empty carries out its calls one after the other while its
sync task serves one replica; the actions of the calls, the steps of the task
and the payloads that the replica takes come in any order.  `Covered` excludes
the two ways in which a replica at the leader's version misses an update: the
snapshot passes a key which the running call has still to write under an id
that the snapshot claims, and the replica at version zero takes a record that
is not the next one after the snapshot. -/
set_option autoImplicit false

namespace KindDb.Convergence

open KindDb.Lib KindDb.Lib.Overlay KindDb.Lib.Runs KindDb.Lib.Pending KindDb.Schema
open KindDb.KindServerImpl KindDb.Serial

/-! ## What the running call adds to the broadcasts -/

section Leader

/-- The command of the running call will have an id above `limit`. -/
def isNew (l : Serial) (limit : Nat) : Bool :=
  fetches l.todo || limit < l.shared.server.globalVersion

/-- What the running call has still to broadcast under an id up to `limit`. -/
def skipped (l : Serial) (limit : Nat) : List (Update String Content) :=
  if isNew l limit then [] else pending Action.sent l.todo

/-- The key is written and its broadcast is to come. -/
def Ahead (l : Serial) (limit : Nat) (key : String) : Prop :=
  isNew l limit = true ∧ key ∈ touched (pending Action.sent l.todo) ∧
    key ∉ touched (pending Action.written l.todo)

variable [Serde] {l l' : Serial} {limit : Nat}

/-- What a step of the leader does to the broadcasts. -/
inductive Broadcasts (l l' : Serial) (limit : Nat) : Prop
  | quiet (syncTx : l'.shared.server.syncTx = l.shared.server.syncTx)
      (skipped : skipped l' limit = skipped l limit)
      (ahead : ∀ key, Ahead l limit key → Ahead l' limit key)
  | sends (command : WalCommand)
      (syncTx : l'.shared.server.syncTx =
        l.shared.server.syncTx ++ [(l.shared.server.globalVersion, command)])
      (fetched : fetches l.todo = false)
      (version : l.shared.server.globalVersion = l.shared.server.syncTx.length + 1)
      (all : pending Action.sent l.todo = command.updates)
      (isNew : isNew l' limit = isNew l limit)
      (nothing : pending Action.sent l'.todo = [])

theorem globalVersion_step {label : Serial.Label}
    (stepped : l.step label = some l') :
    l.shared.server.globalVersion ≤ l'.shared.server.globalVersion := by
  rcases Serial.step_cases stepped with ⟨now, call, idle, rfl⟩ |
    ⟨now, version, action, rest, shared, next, running, effect, rfl⟩
  · exact le_rfl
  · rw [effect.globalVersion]
    split
    · exact Nat.le_succ _
    · exact le_rfl

omit [Serde] in
theorem broadcasts_call (coherent : Coherent l) (idle : l.todo = []) (now : UInt64) (call : Call) :
    Broadcasts l { l with
      thread := some (.running 0 (program l.shared.server.isReplica now call)) } limit := by
  refine .quiet rfl ?_ fun key ahead => ?_
  · have before : skipped l limit = [] := by simp [skipped, idle]
    rw [before]
    rw [coherent.leads]
    rcases fetches_program now call with fetching | silent
    · simp [skipped, isNew, Serial.todo, fetching]
    · unfold skipped
      split
      · rfl
      · exact (numbered_program now call).pending_sent.trans (by simp [silent])
  · obtain ⟨_, named, _⟩ := ahead
    rw [idle] at named
    cases named

theorem broadcasts_giveUp (coherent : Coherent l) {now : UInt64} {version : Nat}
    {action : Action} {rest ending : List Action} {shared : Shared Unit} {next : Thread}
    (running : l.thread = some (.running version (action :: rest)))
    (effect : action.Effect () now l.shared version rest shared next)
    (ends : action.endsEarly now l.shared.server = some ending) :
    Broadcasts l ⟨shared, some next⟩ limit := by
  obtain ⟨updates, _, disciplined, numbered⟩ := coherent.ordered
  have here : l.todo = action :: rest := by rw [Serial.todo, running, Thread.todo_running]
  rw [here] at disciplined numbered
  obtain ⟨mayEnd, _, notSending, fetched, silent, numbered'⟩ := quiet_ending ends
  have became : Serial.todo ⟨shared, some next⟩ = ending := by
    rw [Serial.todo, effect.todo_next disciplined, ends]
    rfl
  have fetching : fetches l.todo = true := by
    rw [here, fetches, List.any_cons, Bool.or_eq_true]
    exact Or.inr (numbered.2.2.1 mayEnd)
  have givesUp : GivesUp updates action rest ending := by
    rcases (effect.next disciplined).2 with goesOn | givesUp
    · rw [became.symm.trans goesOn] at fetched
      exact absurd (numbered.2.2.1 mayEnd) (by simp [fetched])
    · exact became ▸ givesUp
  refine .quiet (syncTx_after effect notSending) ?_ fun key ahead => ?_
  · have before : skipped l limit = [] := by simp [skipped, isNew, fetching]
    rw [before]
    unfold skipped
    rw [became, givesUp.nothing.sent, ite_self]
  · obtain ⟨_, named, written⟩ := ahead
    rw [here, givesUp.undelivered.sent] at named
    rw [here, givesUp.undelivered.written] at written
    exact absurd named written

theorem broadcasts_goOn (coherent : Coherent l) (reached : limit ≤ l.shared.server.globalVersion)
    {now : UInt64} {version : Nat} {action : Action} {rest : List Action}
    {shared : Shared Unit} {next : Thread}
    (running : l.thread = some (.running version (action :: rest)))
    (effect : action.Effect () now l.shared version rest shared next)
    (ends : action.endsEarly now l.shared.server = none) :
    Broadcasts l ⟨shared, some next⟩ limit := by
  obtain ⟨updates, _, disciplined, numbered⟩ := coherent.ordered
  have here : l.todo = action :: rest := by rw [Serial.todo, running, Thread.todo_running]
  have counter := coherent.counter
  have current := coherent.version _ _ running
  rw [here] at disciplined numbered counter
  have became : Serial.todo ⟨shared, some next⟩ = rest := by
    rw [Serial.todo, effect.todo_next disciplined, ends]
    rfl
  have version' := effect.globalVersion
  cases sending : action.isSend with
  | true =>
      obtain ⟨all, fetched, silent⟩ := numbered.2.1 sending
      cases action with
      | send command =>
          have fetchedAll : fetches (.send command :: rest) = false := fetched
          have owing : owed (.send command :: rest) = 1 := by
            simp only [owed, fetchedAll, sends, List.any_cons, Action.isSend]
            rfl
          have same : version = l.shared.server.globalVersion := current fetchedAll rfl
          have nothing : pending Action.sent rest = [] := by
            rw [numbered.2.2.2.pending_sent, silent]
            rfl
          refine .sends command (same ▸ effect.syncTx) (here ▸ fetchedAll)
            (counter.trans (by rw [owing])) ?_ ?_ ?_
          · rw [here, pending_cons, nothing, List.append_nil]
            rfl
          · simp only [isNew, became, here, fetched, fetchedAll]
            exact congrArg (decide <| limit < ·) version'
          · rw [became]
            exact nothing
      | _ => cases sending
  | false =>
      have sameSent : pending Action.sent rest = pending Action.sent (action :: rest) := by
        rw [pending_cons, Action.sent_eq_nil sending, List.nil_append]
      have sameNew : isNew ⟨shared, some next⟩ limit = isNew l limit := by
        simp only [isNew, became, here]
        cases taking : action.takesVersion with
        | true =>
            rw [if_pos taking] at version'
            simp [fetches, taking, version', Nat.lt_succ_of_le reached]
        | false =>
            rw [if_neg (by simp [taking])] at version'
            simp [fetches, taking, version']
      refine .quiet (syncTx_after effect sending) ?_ fun key ahead => ?_
      · simp only [skipped, sameNew, became, here, sameSent]
      · obtain ⟨new, named, written⟩ := ahead
        rw [here] at named written
        refine ⟨sameNew.trans new, ?_, fun later => written ?_⟩
        · rw [became, sameSent]
          exact named
        · rw [became] at later
          rw [pending_cons, touched_append]
          exact List.mem_append_right _ later

theorem broadcasts_step (coherent : Coherent l)
    (reached : limit ≤ l.shared.server.globalVersion) {label : Serial.Label}
    (stepped : l.step label = some l') : Broadcasts l l' limit := by
  rcases Serial.step_cases stepped with ⟨now, call, idle, rfl⟩ |
    ⟨now, version, action, rest, shared, next, running, effect, rfl⟩
  · exact broadcasts_call coherent idle now call
  · cases ends : action.endsEarly now l.shared.server with
    | some ending => exact broadcasts_giveUp coherent running effect ends
    | none => exact broadcasts_goOn coherent reached running effect ends

omit [Serde] in
/-- The id of a broadcast is its place, counted from one. -/
theorem id_of_place (coherent : Coherent l) {place : Nat} {logged : Nat × WalCommand}
    (found : l.shared.server.syncTx[place]? = some logged) : logged.1 = place + 1 := by
  have ids := congrArg (·[place]?) coherent.ids
  simp only [List.getElem?_map, found, Option.map_some] at ids
  have inside : place < l.shared.server.syncTx.length := (List.getElem?_eq_some_iff.mp found).1
  rw [List.getElem?_range' inside] at ids
  have := Option.some.inj ids
  omega

end Leader

/-! ## What the replica is going to hold -/

section Agreement

/-- Where all that is coming has arrived, the replica holds of the key what was
broadcast, unless the running call will broadcast it again. -/
def Agrees (t : UInt64) (l : Serial) (limit : Nat) (store : String → Option Content)
    (coming : List (Update String Content)) (key : String) : Prop :=
  Ahead l limit key ∨ liveAt t (overlay store coming key) =
    liveAt t (overlay (sentMap l.shared.server) (skipped l limit) key)

variable [Serde] {l l' : Serial} {limit start : Nat} {t : UInt64}
  {store : String → Option Content} {brought : List (Update String Content)} {key : String}

omit [Serde] in
theorem Agrees.step (agrees : Agrees t l limit store
      (brought ++ carried (l.shared.server.syncTx.drop start)) key)
    (least : limit ≤ start) (most : start ≤ max limit l.shared.server.syncTx.length)
    (broadcasts : Broadcasts l l' limit) :
    Agrees t l' limit store (brought ++ carried (l'.shared.server.syncTx.drop start)) key := by
  cases broadcasts with
  | quiet syncTx skips ahead =>
      rcases agrees with before | same
      · exact Or.inl (ahead key before)
      · right
        rw [skips, show sentMap l'.shared.server = sentMap l.shared.server by
          rw [sentMap, syncTx, sentMap], syncTx]
        exact same
  | sends command syncTx fetched version all kept nothing =>
      have sent : sentMap l'.shared.server =
          overlay (sentMap l.shared.server) command.updates := by
        unfold sentMap
        rw [syncTx, List.flatMap_append, overlay_append]
        simp
      have skips : skipped l' limit = [] := by simp [skipped, nothing]
      right
      rw [skips, overlay_nil, sent, syncTx]
      cases new : isNew l limit with
      | true =>
          have inside : start ≤ l.shared.server.syncTx.length := by
            have above : limit < l.shared.server.globalVersion := by
              simpa [isNew, fetched] using new
            omega
          rw [List.drop_append_of_le_length inside, carried_append, ← List.append_assoc,
            overlay_append]
          have last : carried [(l.shared.server.globalVersion, command)] = command.updates := by
            simp [carried]
          rw [last]
          by_cases named : key ∈ touched command.updates
          · exact congrArg _ (overlay_touched named _ _)
          · rcases agrees with ahead | same
            · exact absurd (all ▸ ahead.2.1) named
            · rw [overlay_untouched named, overlay_untouched named, same]
              simp [skipped, new]
      | false =>
          have below : l.shared.server.globalVersion ≤ limit := by
            simpa [isNew, fetched] using new
          rw [List.drop_eq_nil_of_le (by rw [List.length_append, List.length_singleton]; omega)]
          rw [List.drop_eq_nil_of_le (by omega)] at agrees
          rcases agrees with ahead | same
          · cases new.symm.trans ahead.1
          · rwa [skipped, new, all] at same

omit [Serde] in
/-- As long as a call has no version, what it has to write it has to broadcast. -/
theorem sent_of_fetches (coherent : Coherent l) (fetching : fetches l.todo = true)
    (written : key ∈ touched (pending Action.written l.todo)) :
    key ∈ touched (pending Action.sent l.todo) := by
  obtain ⟨updates, _, disciplined, numbered⟩ := coherent.ordered
  rw [numbered.pending_sent, if_pos (numbered.sends_of_fetches fetching)]
  have final : pending Action.written l.todo <:+ updates := by
    cases listed : l.todo with
    | nil => exact List.nil_suffix
    | cons action rest =>
        rw [listed] at disciplined
        exact disciplined.1.2.2
  exact (final.sublist.map _).mem written

omit [Serde] in
/-- The task reads a key in the tree and will forward what is broadcast behind
`limit`. -/
theorem agrees_of_read (coherent : Coherent l)
    (read : liveAt t (overlay store brought key) = liveAt t (l.shared.server.contents key))
    (covered : fetches l.todo = false → l.shared.server.globalVersion ≤ limit →
      key ∉ touched (pending Action.written l.todo)) :
    Agrees t l limit store (brought ++ carried (l.shared.server.syncTx.drop limit)) key := by
  have balanced := coherent.balanced key
  by_cases later : key ∈ touched (carried (l.shared.server.syncTx.drop limit))
  · -- it is broadcast again
    right
    have new : isNew l limit = true := by
      by_contra old
      have below : l.shared.server.globalVersion ≤ limit := by
        simp only [isNew, Bool.or_eq_true, decide_eq_true_eq, not_or, not_lt] at old
        exact old.2
      have counter := coherent.counter
      rw [List.drop_eq_nil_of_le (by omega)] at later
      cases later
    have whole : sentMap l.shared.server =
        overlay (overlay (fun _ => none) (carried (l.shared.server.syncTx.take limit)))
          (carried (l.shared.server.syncTx.drop limit)) := by
      rw [← overlay_append, ← carried_append, List.take_append_drop]
      rfl
    rw [overlay_append, skipped, if_pos new, overlay_nil, whole]
    exact congrArg _ (overlay_touched later _ _)
  · have now : liveAt t (overlay store
        (brought ++ carried (l.shared.server.syncTx.drop limit)) key) =
        liveAt t (l.shared.server.contents key) := by
      rw [overlay_append, overlay_untouched later, read]
    cases new : isNew l limit with
    | true =>
        by_cases sending : key ∈ touched (pending Action.sent l.todo)
        · by_cases writing : key ∈ touched (pending Action.written l.todo)
          · right
            rw [now, skipped, if_pos new, overlay_nil, balanced.untouched sending writing]
          · exact Or.inl ⟨new, sending, writing⟩
        · have silent : key ∉ touched (pending Action.written l.todo) := by
            intro writing
            obtain ⟨logged, member, last, named⟩ := coherent.lastSent key writing sending
            obtain ⟨place, found⟩ := List.mem_iff_getElem?.mp member
            have id := id_of_place coherent found
            have above : limit < l.shared.server.globalVersion := by
              by_contra below
              have fetching : fetches l.todo = true := by simpa [isNew, below] using new
              exact sending (sent_of_fetches coherent fetching writing)
            refine later (List.mem_map.mpr ?_)
            obtain ⟨update, inLogged, same⟩ := List.mem_map.mp named
            refine ⟨update, List.mem_flatMap.mpr ⟨logged, ?_, inLogged⟩, same⟩
            refine List.mem_iff_getElem?.mpr ⟨place - limit, ?_⟩
            rw [List.getElem?_drop, show limit + (place - limit) = place by omega]
            exact found
          right
          have settles := balanced.settles
          rw [overlay_untouched sending, overlay_untouched silent] at settles
          rw [now, skipped, if_pos new, overlay_nil, settles]
    | false =>
        have old := new
        simp only [isNew, Bool.or_eq_false_iff, decide_eq_false_iff_not, not_lt] at old
        right
        rw [now, skipped, new, if_neg Bool.false_ne_true, balanced.settles,
          overlay_untouched (covered old.1 old.2)]

end Agreement

/-! ## The system -/

structure System where
  leader : Serial
  task : SyncTask
  inFlight : List SyncPayload
  replica : KindServerImpl
  /-- the replica has left its receive loop -/
  broken : Bool

inductive Label
  | leader (label : Serial.Label)
  | task (now : UInt64)
  /-- the receiver of the task has lagged behind, which ends its loop -/
  | lag
  | deliver

/-- The clock of the task reads at most `t`. -/
def Label.notAfter (t : UInt64) : Label → Prop
  | .task now => now ≤ t
  | _ => True

instance (t : UInt64) : ∀ label : Label, Decidable (label.notAfter t)
  | .task now => inferInstanceAs (Decidable (now ≤ t))
  | .leader _ => isTrue trivial
  | .lag => isTrue trivial
  | .deliver => isTrue trivial

section Protocol
variable [Serde]

/-- The leader and the replica start empty, and the replica has just asked. -/
def begun (leaderReg replicaReg : SchemaRegistry) (leaderFiles replicaFiles : Bool × Bool) :
    System :=
  { leader := ⟨⟨.fresh leaderReg leaderFiles.1 leaderFiles.2 false, none⟩, none⟩
    task := .deciding 0
    inFlight := []
    replica := .fresh replicaReg replicaFiles.1 replicaFiles.2 true
    broken := false }

def step (sys : System) : Label → Option System
  | .leader label => (sys.leader.step label).map fun leader => { sys with leader }
  | .task now =>
      (sys.task.step now sys.leader.shared.server).map fun next =>
        { sys with task := next.1, inFlight := if sys.broken then [] else sys.inFlight ++ next.2 }
  | .lag =>
      match sys.task with
      | .forwarding start _ => some { sys with task := .ended start }
      | _ => none
  | .deliver =>
      match sys.inFlight with
      | [] => none
      | payload :: rest =>
          match sys.replica.processPayload payload with
          | some replica => some { sys with replica, inFlight := rest }
          | none => some { sys with broken := true, inFlight := [] }

/-- All that the task read was sent and has arrived, and no walk through the
tree is under way. -/
def Drained (sys : System) : Prop :=
  sys.inFlight = [] ∧ ∀ maxTxId cursor chunk, sys.task ≠ .iterating maxTxId cursor chunk

/-- The cursor of the task is going to pass the key. -/
def Passes (tree : Tree) (cursor : Option String) (key : String) : Prop :=
  SortedMap.above cursor key = true ∧
    ∀ entry, SortedMap.nextAbove tree cursor = some entry →
      SortedMap.above (some entry.1) key = false

/-- The snapshot does not pass a key that the running call has still to write
under an id up to `max_tx_id`, and the replica takes no record at version zero
but the next one after the snapshot. -/
def Covered (sys : System) : Label → Prop
  | .task _ => ∀ maxTxId cursor chunk, sys.task = .iterating maxTxId cursor chunk →
      fetches sys.leader.todo = false → sys.leader.shared.server.globalVersion ≤ maxTxId →
      ∀ key, Passes sys.leader.shared.server.tree cursor key →
        key ∉ touched (pending Action.written sys.leader.todo)
  | .deliver => ∀ record rest, sys.inFlight = .walRecord record :: rest →
      sys.replica.globalVersion = 0 → record.txId = sys.task.startStreamingTxId + 1
  | _ => True

/-! ## The invariant -/

/-- The replica misses nothing: `inFlight` brings chunks of the snapshot and
then the broadcasts up to place `upTo`; a key that the walk has passed agrees, a
key before it is not there yet. -/
structure Following (t : UInt64) (sys : System) (limit upTo : Nat) (chunk : List Record)
    (passed : String → Prop) : Prop where
  reached : limit ≤ sys.leader.shared.server.globalVersion
  least : limit ≤ upTo
  most : upTo ≤ max limit sys.leader.shared.server.syncTx.length
  stream : ∃ chunks next, ChunksOf limit chunks ∧
    sys.inFlight = chunks ++
      ((sys.leader.shared.server.syncTx.drop next).take (upTo - next)).map walRecordOf ∧
    limit ≤ next ∧ next ≤ upTo ∧ (chunks = [] ∨ next = limit) ∧
    (sys.replica.globalVersion = next ∨ sys.replica.globalVersion = 0 ∧ next = limit)
  unread : ∀ key, ¬ passed key → overlay sys.replica.contents
    (arriving sys.inFlight ++ chunk.map Record.update) key = none
  agrees : ∀ key, passed key → Agrees t sys.leader limit sys.replica.contents
    (arriving sys.inFlight ++ chunk.map Record.update ++
      carried (sys.leader.shared.server.syncTx.drop upTo)) key

/-- The first broadcast after the snapshot was missed, and the replica will
find out. -/
structure Gap (sys : System) (limit : Nat) : Prop where
  behind : limit < sys.leader.shared.server.globalVersion
  version : sys.replica.globalVersion = 0 ∨ sys.replica.globalVersion = limit
  later : ∀ payload ∈ sys.inFlight,
    (∃ records, payload = .snapshot { records, maxTxId := limit }) ∨
      ∃ record, payload = .walRecord record ∧ limit + 1 < record.txId

def Streaming (t : UInt64) (sys : System) (limit place : Nat) : Prop :=
  Following t sys limit (max limit place) [] (fun _ => True) ∨ limit < place ∧ Gap sys limit

/-- What holds as long as the replica listens. -/
def Phase (t : UInt64) (sys : System) : SyncTask → Prop
  | .deciding lastKnownTxId => lastKnownTxId = 0 ∧ sys.inFlight = [] ∧
      sys.replica.globalVersion = 0 ∧ ∀ key, sys.replica.contents key = none
  | .loading => sys.inFlight = [] ∧
      sys.replica.globalVersion = 0 ∧ ∀ key, sys.replica.contents key = none
  | .iterating maxTxId cursor chunk =>
      Following t sys maxTxId maxTxId chunk fun key => SortedMap.above cursor key = false
  | .subscribing start => Following t sys start start [] fun _ => True
  | .forwarding start place => Streaming t sys start place
  | .ended start => ∃ place, Streaming t sys start place

structure Inv (t : UInt64) (sys : System) : Prop where
  coherent : Coherent sys.leader
  broken : sys.broken = true → sys.inFlight = [] ∧
    sys.replica.globalVersion < sys.leader.shared.server.globalVersion
  phase : sys.broken = false → Phase t sys sys.task

variable {t : UInt64} {sys sys' : System} {limit upTo : Nat} {chunk : List Record}
  {passed : String → Prop}

/-! ## The leader takes a step -/

omit [Serde] in
theorem sameStream {sent sent' : List (Nat × WalCommand)} {logged : Nat × WalCommand}
    {next : Nat} (moved : sent' = sent ∨ sent' = sent ++ [logged]) (least : limit ≤ next)
    (most : upTo ≤ max limit sent.length) :
    (sent'.drop next).take (upTo - next) = (sent.drop next).take (upTo - next) := by
  rcases moved with rfl | rfl
  · rfl
  · by_cases inside : next ≤ sent.length
    · rw [List.drop_append_of_le_length inside, List.take_append_of_le_length]
      rw [List.length_drop]
      omega
    · rw [show upTo - next = 0 by omega, List.take_zero, List.take_zero]

theorem Following.leader (following : Following t sys limit upTo chunk passed)
    (coherent : Coherent sys.leader) {label : Serial.Label} {leader : Serial}
    (stepped : sys.leader.step label = some leader) :
    Following t { sys with leader } limit upTo chunk passed := by
  have broadcasts : Broadcasts sys.leader leader limit :=
    broadcasts_step coherent following.reached stepped
  have moved : ∃ logged, leader.shared.server.syncTx = sys.leader.shared.server.syncTx ∨
      leader.shared.server.syncTx = sys.leader.shared.server.syncTx ++ [logged] := by
    cases broadcasts with
    | quiet syncTx => exact ⟨(0, .txCommit []), Or.inl syncTx⟩
    | sends command syncTx => exact ⟨_, Or.inr syncTx⟩
  obtain ⟨logged, moved⟩ := moved
  have longer : sys.leader.shared.server.syncTx.length ≤ leader.shared.server.syncTx.length := by
    rcases moved with same | more
    · rw [same]
    · rw [more, List.length_append]
      omega
  obtain ⟨chunks, next, ofChunks, inFlight, least, rest⟩ := following.stream
  refine ⟨following.reached.trans (globalVersion_step stepped), following.least,
    following.most.trans (max_le_max_left _ longer),
    ⟨chunks, next, ofChunks, ?_, least, rest⟩, following.unread, fun key isPassed => ?_⟩
  · rw [show (({ sys with leader } : System).leader.shared.server.syncTx) =
      leader.shared.server.syncTx from rfl, sameStream moved least following.most]
    exact inFlight
  · exact (following.agrees key isPassed).step following.least following.most broadcasts

theorem Gap.leader (gap : Gap sys limit) {label : Serial.Label} {leader : Serial}
    (stepped : sys.leader.step label = some leader) : Gap { sys with leader } limit :=
  ⟨gap.behind.trans_le (globalVersion_step stepped), gap.version, gap.later⟩

theorem Streaming.leader {place : Nat} (streaming : Streaming t sys limit place)
    (coherent : Coherent sys.leader) {label : Serial.Label} {leader : Serial}
    (stepped : sys.leader.step label = some leader) :
    Streaming t { sys with leader } limit place := by
  rcases streaming with following | ⟨missed, gap⟩
  · exact Or.inl (following.leader coherent stepped)
  · exact Or.inr ⟨missed, gap.leader stepped⟩

theorem Phase.leader {task : SyncTask} (phase : Phase t sys task)
    (coherent : Coherent sys.leader) {label : Serial.Label} {leader : Serial}
    (stepped : sys.leader.step label = some leader) : Phase t { sys with leader } task := by
  cases task with
  | deciding lastKnownTxId => exact phase
  | loading => exact phase
  | iterating maxTxId cursor chunk => exact Following.leader phase coherent stepped
  | subscribing start => exact Following.leader phase coherent stepped
  | forwarding start place => exact Streaming.leader phase coherent stepped
  | ended start =>
      obtain ⟨place, streaming⟩ := phase
      exact ⟨place, streaming.leader coherent stepped⟩

theorem Inv.leader (inv : Inv t sys) {label : Serial.Label} {leader : Serial}
    (stepped : sys.leader.step label = some leader) : Inv t { sys with leader } := by
  refine ⟨inv.coherent.step stepped, fun broken => ?_,
    fun listens => (inv.phase listens).leader inv.coherent stepped⟩
  obtain ⟨nothing, behind⟩ := inv.broken broken
  exact ⟨nothing, behind.trans_le (globalVersion_step stepped)⟩

/-! ## The task takes a step -/

/-- What the walk takes along where it gets to. -/
def taken (now : UInt64) (entry : Option (String × DbRecord)) : List (Update String Content) :=
  (entry.map fun entry => if isExpired entry.2.expiresAt now then []
    else [(entry.1, some entry.2.content)]).getD []

omit [Serde] in
theorem taken_untouched {now : UInt64} {entry : Option (String × DbRecord)} {key : String}
    (other : ∀ next, entry = some next → key ≠ next.1) : key ∉ touched (taken now entry) := by
  cases entry with
  | none => exact List.not_mem_nil
  | some next =>
      have different := other next rfl
      unfold taken
      rw [Option.map_some, Option.getD_some]
      split
      · exact List.not_mem_nil
      · simpa [touched] using different

omit [Serde] in
/-- A key behind which the walk has just got is as the walk has read it. -/
theorem liveAt_taken {s : KindServerImpl} {cursor : Option String}
    {entry : Option (String × DbRecord)} {now : UInt64} (later : now ≤ t)
    (found : SortedMap.nextAbove s.tree cursor = entry) {store : String → Option Content}
    {key : String} (absent : store key = none) (isAbove : SortedMap.above cursor key = true)
    (passed : ∀ next, entry = some next → SortedMap.above (some next.1) key = false) :
    liveAt t (overlay store (taken now entry) key) = liveAt t (s.contents key) := by
  cases entry with
  | none =>
      have nothing : s.contents key = none := by
        rw [KindServerImpl.contents, SortedMap.nextAbove_none found key isAbove]
        rfl
      rw [nothing]
      exact congrArg (liveAt t) absent
  | some next =>
      obtain ⟨read, rec⟩ := next
      by_cases here : key = read
      · subst here
        have held : s.contents key = some rec.content := by
          rw [KindServerImpl.contents, (SortedMap.nextAbove_some found).1]
          rfl
        rw [held]
        unfold taken
        rw [Option.map_some, Option.getD_some]
        cases expired : isExpired rec.expiresAt now with
        | true =>
            rw [if_pos rfl, overlay_nil, absent, liveAt_none, liveAt_some, if_pos]
            exact isExpired_later later expired
        | false =>
            rw [if_neg Bool.false_ne_true, overlay_cons, overlay_nil, Function.update_self]
      · have nothing : s.contents key = none := by
          cases lookup : s.tree[key]? with
          | none => rw [KindServerImpl.contents, lookup]; rfl
          | some value =>
              rcases (SortedMap.nextAbove_passed found lookup).mp (passed _ rfl) with before | same
              · cases before.symm.trans isAbove
              · exact absurd same here
        rw [nothing, overlay_untouched, absent]
        refine taken_untouched fun next same => ?_
        cases Option.some.inj same
        exact here

omit [Serde] in
/-- The walk has come to its end or to the next key. -/
theorem Following.walk {cursor : Option String} {entry : Option (String × DbRecord)}
    {chunk' : List Record} {sent : List SyncPayload} {now : UInt64}
    (following : Following t sys limit limit chunk fun key => SortedMap.above cursor key = false)
    (coherent : Coherent sys.leader) (later : now ≤ t)
    (found : SortedMap.nextAbove sys.leader.shared.server.tree cursor = entry)
    (covered : fetches sys.leader.todo = false → sys.leader.shared.server.globalVersion ≤ limit →
      ∀ key, Passes sys.leader.shared.server.tree cursor key →
        key ∉ touched (pending Action.written sys.leader.todo))
    (ofChunks : ChunksOf limit sent)
    (brings : arriving sent ++ chunk'.map Record.update =
      chunk.map Record.update ++ taken now entry) (task : SyncTask) :
    Following t { sys with task, inFlight := sys.inFlight ++ sent } limit limit chunk' fun key =>
      ∀ next, entry = some next → SortedMap.above (some next.1) key = false := by
  have coming : arriving (sys.inFlight ++ sent) ++ chunk'.map Record.update =
      arriving sys.inFlight ++ chunk.map Record.update ++ taken now entry := by
    rw [arriving_append, List.append_assoc, brings, List.append_assoc]
  have ahead : ∀ next, entry = some next → SortedMap.above cursor next.1 = true :=
    fun next same => (SortedMap.nextAbove_some (found.trans same)).2.1
  refine ⟨following.reached, following.least, following.most, ?_, fun key notPassed => ?_,
    fun key isPassed => ?_⟩
  · obtain ⟨chunks, next, chunksOf, inFlight, least, most, rest⟩ := following.stream
    refine ⟨chunks ++ sent, next, ?_, ?_, least, most, Or.inr (le_antisymm most least), rest.2⟩
    · intro payload member
      rcases List.mem_append.mp member with old | new
      · exact chunksOf payload old
      · exact ofChunks payload new
    · rw [Nat.sub_eq_zero_of_le least, List.take_zero, List.map_nil, List.append_nil] at inFlight ⊢
      exact congrArg (· ++ sent) inFlight
  · obtain ⟨next, isNext, isAbove⟩ : ∃ next, entry = some next ∧
        SortedMap.above (some next.1) key = true := by
      simpa only [not_forall, Bool.not_eq_false, exists_prop] using notPassed
    have less : compare next.1 key = .lt := by simpa [SortedMap.above] using isAbove
    have unread := following.unread key (by
      simp [SortedMap.above_trans (ahead next isNext) less])
    change overlay sys.replica.contents (arriving (sys.inFlight ++ sent) ++ _) key = none
    rw [coming, overlay_append, overlay_untouched, unread]
    refine taken_untouched fun other same => ?_
    cases Option.some.inj (isNext.symm.trans same)
    rintro rfl
    simp at less
  · change Agrees t sys.leader limit sys.replica.contents
      (arriving (sys.inFlight ++ sent) ++ chunk'.map Record.update ++ _) key
    rw [coming]
    cases before : SortedMap.above cursor key with
    | false =>
        refine (following.agrees key before).imp_right fun same => ?_
        rw [← same]
        simp only [overlay_append]
        refine congrArg _ (overlay_congr _ (overlay_untouched (taken_untouched ?_) _))
        intro next isNext
        rintro rfl
        cases before.symm.trans (ahead next isNext)
    | true =>
        refine agrees_of_read coherent ?_ fun fetched reached => covered fetched reached key
          ⟨before, fun next isNext => isPassed next (found.symm.trans isNext)⟩
        have unread := following.unread key (by simp [before])
        rw [overlay_append]
        exact liveAt_taken later found unread before isPassed

omit [Serde] in
/-- A broadcast behind the snapshot is forwarded. -/
theorem Following.forward {place : Nat} {logged : Nat × WalCommand}
    (following : Following t sys limit (max limit place) [] fun _ => True)
    (behind : limit ≤ place) (found : sys.leader.shared.server.syncTx[place]? = some logged)
    (task : SyncTask) :
    Following t { sys with task, inFlight := sys.inFlight ++ [walRecordOf logged] } limit
      (max limit (place + 1)) [] fun _ => True := by
  obtain ⟨inside, value⟩ := List.getElem?_eq_some_iff.mp found
  have agrees := following.agrees
  obtain ⟨chunks, next, ofChunks, inFlight, least, most, rest⟩ := following.stream
  rw [max_eq_right behind] at inFlight most agrees
  have all : max limit (place + 1) = place + 1 := max_eq_right (Nat.le_succ_of_le behind)
  refine ⟨following.reached, le_max_left _ _, max_le_max_left _ inside,
    ⟨chunks, next, ofChunks, ?_, least, ?_, rest⟩, fun key notPassed => absurd trivial notPassed,
    fun key _ => ?_⟩
  · have one : (sys.leader.shared.server.syncTx.drop next)[place - next]? = some logged := by
      rw [List.getElem?_drop, Nat.add_sub_cancel' most]
      exact found
    change sys.inFlight ++ [walRecordOf logged] = chunks ++
      ((sys.leader.shared.server.syncTx.drop next).take (max limit (place + 1) - next)).map _
    rw [all, Nat.succ_sub most, List.take_add_one, one, inFlight]
    simp
  · rw [all]
    exact Nat.le_succ_of_le most
  · have same := agrees key trivial
    rw [List.drop_eq_getElem_cons inside, value] at same
    change Agrees t sys.leader limit sys.replica.contents
      (arriving (sys.inFlight ++ [walRecordOf logged]) ++ _ ++ carried (List.drop _ _)) key
    rw [all, arriving_append]
    simpa [carried, arriving, SyncPayload.updates, walRecordOf] using same

omit [Serde] in
theorem Gap.forward {record : WalRecord} (gap : Gap sys limit) (later : limit + 1 < record.txId)
    (task : SyncTask) :
    Gap { sys with task, inFlight := sys.inFlight ++ [.walRecord record] } limit := by
  refine ⟨gap.behind, gap.version, fun payload member => ?_⟩
  rcases List.mem_append.mp member with old | new
  · exact gap.later payload old
  · exact Or.inr ⟨record, List.mem_singleton.mp new, later⟩

omit [Serde] in
/-- The task subscribes. -/
theorem Following.subscribe (following : Following t sys limit limit [] fun _ => True)
    (coherent : Coherent sys.leader) :
    Streaming t sys limit sys.leader.shared.server.syncTx.length := by
  by_cases missed : limit < sys.leader.shared.server.syncTx.length
  · obtain ⟨chunks, next, ofChunks, inFlight, least, most, _, version⟩ := following.stream
    rw [Nat.sub_eq_zero_of_le least, List.take_zero, List.map_nil, List.append_nil] at inFlight
    refine Or.inr ⟨missed, ?_, ?_, fun payload member => ?_⟩
    · rw [coherent.counter]
      exact Nat.lt_add_right _ missed
    · rcases version with same | none
      · exact Or.inr (same.trans (le_antisymm most least))
      · exact Or.inl none.1
    · rw [inFlight] at member
      exact Or.inl (ofChunks payload member)
  · left
    rw [max_eq_left (Nat.le_of_not_lt missed)]
    exact following

omit [Serde] in
theorem Streaming.retask {place : Nat} (streaming : Streaming t sys limit place)
    (task : SyncTask) : Streaming t { sys with task } limit place := by
  rcases streaming with following | ⟨missed, gap⟩
  · exact Or.inl ⟨following.reached, following.least, following.most, following.stream,
      following.unread, following.agrees⟩
  · exact Or.inr ⟨missed, gap.behind, gap.version, gap.later⟩

omit [Serde] in
/-- The next broadcast, forwarded or not. -/
theorem Streaming.forward {place : Nat} (streaming : Streaming t sys limit place)
    (coherent : Coherent sys.leader) {logged : Nat × WalCommand}
    (found : sys.leader.shared.server.syncTx[place]? = some logged) (task : SyncTask) :
    Streaming t { sys with
      task, inFlight := sys.inFlight ++ if logged.1 ≤ limit then [] else [walRecordOf logged] }
      limit (place + 1) := by
  have id := id_of_place coherent found
  by_cases old : logged.1 ≤ limit
  · rw [if_pos old, List.append_nil]
    have within : place + 1 ≤ limit := id ▸ old
    rcases streaming.retask task with following | ⟨missed, _⟩
    · left
      rw [max_eq_left within]
      rwa [max_eq_left (Nat.le_of_succ_le within)] at following
    · omega
  · rw [if_neg old]
    rcases streaming with following | ⟨missed, gap⟩
    · exact Or.inl (following.forward (by omega) found task)
    · exact Or.inr ⟨Nat.lt_succ_of_lt missed,
        gap.forward (show limit + 1 < logged.1 by omega) task⟩

theorem Phase.task {task : SyncTask} (phase : Phase t sys task) (coherent : Coherent sys.leader)
    {now : UInt64} (later : now ≤ t)
    (covered : ∀ maxTxId cursor chunk, task = .iterating maxTxId cursor chunk →
      fetches sys.leader.todo = false → sys.leader.shared.server.globalVersion ≤ maxTxId →
      ∀ key, Passes sys.leader.shared.server.tree cursor key →
        key ∉ touched (pending Action.written sys.leader.todo))
    {next : SyncTask × List SyncPayload}
    (taken : task.step now sys.leader.shared.server = some next) :
    Phase t { sys with task := next.1, inFlight := sys.inFlight ++ next.2 } next.1 := by
  cases task with
  | deciding lastKnownTxId =>
      obtain ⟨rfl, phase⟩ := phase
      cases Option.some.inj taken
      simpa [Phase] using phase
  | loading =>
      obtain ⟨nothing, version, empty⟩ := phase
      cases Option.some.inj taken
      refine ⟨le_rfl, le_rfl, le_max_left _ _, ⟨[], _, nofun, ?_, le_rfl, le_rfl, Or.inl rfl,
        Or.inr ⟨version, rfl⟩⟩, fun key _ => ?_, nofun⟩
      · simp [nothing]
      · simp [nothing, arriving, empty]
  | iterating maxTxId cursor chunk =>
      simp only [SyncTask.step] at taken
      split at taken
      · rename_i key rec found
        cases Option.some.inj taken
        obtain ⟨ofChunks, brings⟩ := visit_brings maxTxId now chunk (key, rec)
        have walked := Following.walk phase coherent later found (covered _ _ _ rfl) ofChunks
          brings (.iterating maxTxId (some key)
            (Chunking.visit maxTxId now { chunk, sent := [] } (key, rec)).chunk)
        simp only [Option.some.injEq, forall_eq'] at walked
        exact walked
      · rename_i found
        cases Option.some.inj taken
        obtain ⟨ofChunks, brings⟩ := finish_brings maxTxId chunk
        have nothingLeft :
            arriving (Chunking.finish maxTxId { chunk, sent := [] }).sent ++
              ([] : List Record).map Record.update =
            chunk.map Record.update ++ Convergence.taken now none := by
          simpa [Convergence.taken] using brings
        have walked := Following.walk phase coherent later found (covered _ _ _ rfl) ofChunks
          nothingLeft (.subscribing maxTxId)
        simp only [reduceCtorEq, false_imp_iff, implies_true] at walked
        exact walked
  | subscribing start =>
      cases Option.some.inj taken
      rw [List.append_nil]
      exact (Following.subscribe phase coherent).retask _
  | forwarding start place =>
      simp only [SyncTask.step] at taken
      split at taken
      · rename_i logged found
        cases Option.some.inj taken
        exact Streaming.forward phase coherent found _
      · cases taken
  | ended start => cases taken

/-! ## The replica takes a payload -/

theorem contents_processPayload {s replica : KindServerImpl} {payload : SyncPayload}
    (newer : ∀ record, payload = .walRecord record → s.globalVersion < record.txId)
    (processed : s.processPayload payload = some replica) :
    replica.contents = overlay s.contents payload.updates := by
  cases payload with
  | snapshot chunk =>
      cases Option.some.inj processed
      exact s.contents_installChunk chunk
  | walRecord record =>
      have above := newer record rfl
      simp only [processPayload] at processed
      split at processed
      · omega
      · split at processed
        · cases processed
        · cases held : record.payload with
          | none =>
              simp only [held, Option.some.injEq] at processed
              simp [SyncPayload.updates, held, processed]
          | some envelope =>
              simp only [held, Option.some.injEq] at processed
              rw [← processed, contents_applyCommand]
              simp [SyncPayload.updates, held]

omit [Serde] in
/-- What the replica makes of a payload that it takes. -/
theorem Following.arrives (following : Following t sys limit upTo chunk passed)
    {payload : SyncPayload} {rest : List SyncPayload} {replica : KindServerImpl}
    (first : sys.inFlight = payload :: rest)
    (contents : replica.contents = overlay sys.replica.contents payload.updates)
    {chunks : List SyncPayload} {next : Nat} (ofChunks : ChunksOf limit chunks)
    (inFlight : rest = chunks ++
      ((sys.leader.shared.server.syncTx.drop next).take (upTo - next)).map walRecordOf)
    (least : limit ≤ next) (most : next ≤ upTo) (whole : chunks = [] ∨ next = limit)
    (version : replica.globalVersion = next) :
    Following t { sys with replica, inFlight := rest } limit upTo chunk passed := by
  have coming : arriving sys.inFlight = payload.updates ++ arriving rest := by
    rw [first]
    exact List.flatMap_cons
  refine ⟨following.reached, following.least, following.most,
    ⟨chunks, next, ofChunks, inFlight, least, most, whole, Or.inl version⟩,
    fun key notPassed => ?_, fun key isPassed => ?_⟩
  · change overlay replica.contents (arriving rest ++ _) key = none
    rw [contents, ← overlay_append, ← List.append_assoc, ← coming]
    exact following.unread key notPassed
  · refine (following.agrees key isPassed).imp_right fun same => ?_
    change liveAt t (overlay replica.contents (arriving rest ++ _ ++ _) key) = _
    rw [contents, ← overlay_append, ← List.append_assoc, ← List.append_assoc, ← coming]
    exact same

theorem Following.deliver (following : Following t sys limit upTo chunk passed)
    (coherent : Coherent sys.leader) {payload : SyncPayload} {rest : List SyncPayload}
    (first : sys.inFlight = payload :: rest) :
    ∃ replica, sys.replica.processPayload payload = some replica ∧
      Following t { sys with replica, inFlight := rest } limit upTo chunk passed := by
  obtain ⟨chunks, next, ofChunks, inFlight, least, most, whole, version⟩ := following.stream
  cases chunks with
  | cons payload' chunks =>
      rw [first, List.cons_append] at inFlight
      obtain ⟨rfl, rfl⟩ := List.cons.inj inFlight
      obtain ⟨records, rfl⟩ := ofChunks payload List.mem_cons_self
      have atStart : next = limit := whole.resolve_left (List.cons_ne_nil _ _)
      exact ⟨_, rfl, following.arrives first (sys.replica.contents_installChunk _)
        (fun payload member => ofChunks payload (List.mem_cons_of_mem _ member)) rfl least most
        (Or.inr atStart) atStart.symm⟩
  | nil =>
      rw [first, List.nil_append] at inFlight
      have inside : next < sys.leader.shared.server.syncTx.length := by
        by_contra outside
        rw [List.drop_eq_nil_of_le (Nat.le_of_not_lt outside), List.take_nil] at inFlight
        cases inFlight
      have less : next < upTo := by
        by_contra reached
        rw [Nat.sub_eq_zero_of_le (Nat.le_of_not_lt reached), List.take_zero] at inFlight
        cases inFlight
      rw [List.drop_eq_getElem_cons inside, show upTo - next = (upTo - (next + 1)) + 1 by omega,
        List.take_succ_cons, List.map_cons] at inFlight
      obtain ⟨rfl, rfl⟩ := List.cons.inj inFlight
      have id := id_of_place coherent (List.getElem?_eq_getElem inside)
      have newer : sys.replica.globalVersion < next + 1 := by omega
      have follows : ¬ (next + 1 ≠ sys.replica.globalVersion + 1 ∧
          sys.replica.globalVersion ≠ 0) := by omega
      have processed : sys.replica.processPayload
          (walRecordOf sys.leader.shared.server.syncTx[next]) =
          some (sys.replica.applyCommand (next + 1)
            sys.leader.shared.server.syncTx[next].2) := by
        simp only [walRecordOf, processPayload, id]
        rw [if_neg (Nat.not_le_of_lt newer), if_neg follows]
      have noChunks : ChunksOf limit [] := List.forall_mem_nil _
      refine ⟨_, processed, following.arrives first (contents_processPayload ?_ processed) noChunks
        rfl (Nat.le_succ_of_le least) less (Or.inl rfl) rfl⟩
      intro record same
      cases same
      exact id ▸ newer

theorem Gap.deliver (gap : Gap sys limit) {payload : SyncPayload} {rest : List SyncPayload}
    (first : sys.inFlight = payload :: rest)
    (covered : ∀ record, payload = .walRecord record → sys.replica.globalVersion = 0 →
      record.txId = limit + 1) :
    (∃ replica, sys.replica.processPayload payload = some replica ∧
      Gap { sys with replica, inFlight := rest } limit) ∨
      sys.replica.processPayload payload = none ∧
        sys.replica.globalVersion < sys.leader.shared.server.globalVersion := by
  have later : ∀ payload ∈ rest, _ := fun payload member =>
    gap.later payload (first ▸ List.mem_cons_of_mem _ member)
  rcases gap.later payload (first ▸ List.mem_cons_self) with ⟨records, rfl⟩ | ⟨record, rfl, ahead⟩
  · exact Or.inl ⟨_, rfl, gap.behind, Or.inr rfl, later⟩
  · right
    have set : sys.replica.globalVersion ≠ 0 := fun unset => by
      have := covered record rfl unset
      omega
    have version := gap.version.resolve_left set
    refine ⟨?_, version ▸ gap.behind⟩
    rw [processPayload, if_neg (by omega), if_pos ⟨by omega, set⟩]

theorem Phase.deliver {task : SyncTask} (phase : Phase t sys task) (coherent : Coherent sys.leader)
    {payload : SyncPayload} {rest : List SyncPayload} (first : sys.inFlight = payload :: rest)
    (covered : ∀ record, payload = .walRecord record → sys.replica.globalVersion = 0 →
      record.txId = task.startStreamingTxId + 1) :
    (∃ replica, sys.replica.processPayload payload = some replica ∧
      Phase t { sys with replica, inFlight := rest } task) ∨
      sys.replica.processPayload payload = none ∧
        sys.replica.globalVersion < sys.leader.shared.server.globalVersion := by
  have streaming : ∀ {start place : Nat}, task.startStreamingTxId = start →
      Streaming t sys start place →
      (∃ replica, sys.replica.processPayload payload = some replica ∧
        Streaming t { sys with replica, inFlight := rest } start place) ∨
        sys.replica.processPayload payload = none ∧
          sys.replica.globalVersion < sys.leader.shared.server.globalVersion := by
    rintro start place rfl (following | ⟨missed, gap⟩)
    · obtain ⟨replica, processed, following'⟩ := following.deliver coherent first
      exact Or.inl ⟨replica, processed, Or.inl following'⟩
    · refine (gap.deliver first covered).imp_left ?_
      rintro ⟨replica, processed, gap'⟩
      exact ⟨replica, processed, Or.inr ⟨missed, gap'⟩⟩
  cases task with
  | deciding lastKnownTxId => cases first.symm.trans phase.2.1
  | loading => cases first.symm.trans phase.1
  | iterating maxTxId cursor chunk => exact Or.inl (Following.deliver phase coherent first)
  | subscribing start => exact Or.inl (Following.deliver phase coherent first)
  | forwarding start place => exact streaming rfl phase
  | ended start =>
      obtain ⟨place, phase⟩ := phase
      refine (streaming rfl phase).imp_left ?_
      rintro ⟨replica, processed, phase'⟩
      exact ⟨replica, processed, place, phase'⟩

/-! ## Runs -/

theorem Inv.step (inv : Inv t sys) {label : Label} (later : label.notAfter t)
    (covered : Covered sys label) (stepped : Convergence.step sys label = some sys') :
    Inv t sys' := by
  cases label with
  | leader label =>
      obtain ⟨leader, moved, rfl⟩ := Option.map_eq_some_iff.mp stepped
      exact inv.leader moved
  | task now =>
      obtain ⟨next, taken, rfl⟩ := Option.map_eq_some_iff.mp stepped
      refine ⟨inv.coherent, fun broken => ?_, fun listens => ?_⟩
      · exact ⟨if_pos broken, (inv.broken broken).2⟩
      · change sys.broken = false at listens
        simp only [listens, Bool.false_eq_true, if_false]
        have phase := (inv.phase listens).task inv.coherent later covered taken
        rwa [listens] at phase
  | lag =>
      simp only [Convergence.step] at stepped
      split at stepped
      · rename_i start place forwarding
        cases Option.some.inj stepped
        refine ⟨inv.coherent, inv.broken, fun listens => ⟨place, ?_⟩⟩
        have phase := inv.phase listens
        rw [forwarding] at phase
        exact Streaming.retask phase _
      · cases stepped
  | deliver =>
      simp only [Convergence.step] at stepped
      split at stepped
      · cases stepped
      · rename_i payload rest first
        have listens : sys.broken = false := by
          by_contra broken
          cases first.symm.trans (inv.broken (by simpa using broken)).1
        have delivered := (inv.phase listens).deliver inv.coherent first
          fun record same unset => covered record rest (same ▸ first) unset
        rcases delivered with ⟨replica, processed, phase⟩ | ⟨refused, behind⟩
        · simp only [processed, Option.some.injEq] at stepped
          subst stepped
          exact ⟨inv.coherent, fun broken => absurd (listens.symm.trans broken) Bool.false_ne_true,
            fun _ => phase⟩
        · simp only [refused, Option.some.injEq] at stepped
          subst stepped
          exact ⟨inv.coherent, fun _ => ⟨rfl, behind⟩, nofun⟩

omit [Serde] in
/-- The tree of an idle leader is what it has broadcast. -/
theorem contents_of_idle {l : Serial} (coherent : Coherent l) (idle : l.todo = []) :
    l.shared.server.contents = sentMap l.shared.server := by
  funext key
  have balanced := coherent.balanced key
  rw [idle] at balanced
  exact (balanced_nil_iff.mp balanced).symm

omit [Serde] in
theorem Following.alike (following : Following t sys limit upTo [] fun _ => True)
    (coherent : Coherent sys.leader) (idle : sys.leader.todo = []) (nothing : sys.inFlight = [])
    (level : sys.replica.globalVersion = sys.leader.shared.server.globalVersion) (key : String) :
    liveAt t (sys.replica.contents key) = liveAt t (sys.leader.shared.server.contents key) := by
  have counter := coherent.counter
  obtain ⟨_, next, _, _, _, most, _, version⟩ := following.stream
  have agrees := following.agrees key trivial
  rw [List.drop_eq_nil_of_le (by omega), nothing] at agrees
  rcases agrees with ahead | same
  · obtain ⟨_, named, _⟩ := ahead
    rw [idle] at named
    cases named
  · rw [contents_of_idle coherent idle]
    simpa [arriving, carried, skipped, idle] using same

omit [Serde] in
theorem Phase.alike {task : SyncTask} (phase : Phase t sys task) (coherent : Coherent sys.leader)
    (idle : sys.leader.todo = []) (nothing : sys.inFlight = [])
    (walked : ∀ maxTxId cursor chunk, task ≠ .iterating maxTxId cursor chunk)
    (level : sys.replica.globalVersion = sys.leader.shared.server.globalVersion) (key : String) :
    liveAt t (sys.replica.contents key) = liveAt t (sys.leader.shared.server.contents key) := by
  have untouched : sys.replica.globalVersion = 0 → (∀ key, sys.replica.contents key = none) →
      liveAt t (sys.replica.contents key) = liveAt t (sys.leader.shared.server.contents key) := by
    intro unset empty
    have counter := coherent.counter
    have none : sys.leader.shared.server.syncTx = [] := List.length_eq_zero_iff.mp (by omega)
    rw [empty, contents_of_idle coherent idle, sentMap, none]
    rfl
  have streaming : ∀ {start place : Nat}, Streaming t sys start place →
      liveAt t (sys.replica.contents key) = liveAt t (sys.leader.shared.server.contents key) := by
    rintro start place (following | ⟨_, gap⟩)
    · exact following.alike coherent idle nothing level key
    · have behind := gap.behind
      have version := gap.version
      omega
  cases task with
  | deciding lastKnownTxId => exact untouched phase.2.2.1 phase.2.2.2
  | loading => exact untouched phase.2.1 phase.2.2
  | iterating maxTxId cursor chunk => exact absurd rfl (walked maxTxId cursor chunk)
  | subscribing start => exact Following.alike phase coherent idle nothing level key
  | forwarding start place => exact streaming phase
  | ended start =>
      obtain ⟨place, phase⟩ := phase
      exact streaming phase

/-- When all steps are covered, the leader is idle and nothing is under way, a
replica at the leader's version has all that is live. -/
theorem converges (leaderReg replicaReg : SchemaRegistry) (leaderFiles replicaFiles : Bool × Bool)
    (labels : List Label) (final : System) :
    let start := begun leaderReg replicaReg leaderFiles replicaFiles
    runFrom step start labels = some final → EachMeets step Covered start labels →
    ∀ t, (∀ label ∈ labels, label.notAfter t) → final.leader.todo = [] → Drained final →
      final.replica.globalVersion = final.leader.shared.server.globalVersion →
      ∀ key, liveAt t (final.replica.contents key) =
        liveAt t (final.leader.shared.server.contents key) := by
  intro start ran covered t later idle drained level
  have initially : Inv t start := by
    refine ⟨coherent_fresh _ _ _, nofun, fun _ => ⟨rfl, rfl, ?_, fun key => ?_⟩⟩
    · rcases replicaFiles with ⟨_ | _, _ | _⟩ <;> rfl
    · rcases replicaFiles with ⟨_ | _, _ | _⟩ <;> rfl
  have inv := runFrom_invariant
    (fun _ _ _ allowed stepped inv => Inv.step inv allowed.2 allowed.1 stepped)
    labels _ final (covered.and (eachMeets_of_labels (fun label member _ => later label member) _))
    ran initially
  have listens : final.broken = false := by
    by_contra broken
    exact absurd level (inv.broken (by simpa using broken)).2.ne
  exact fun key => (inv.phase listens).alike inv.coherent idle drained.1 drained.2 level key

end Protocol

/-! ## A put behind the subscription, and one before it -/

open SerdeJson

def fresh : System := begun .new .new (false, false) (false, false)

/-- A put from the call to the reply. -/
def wholePut (key : String) (value : Bytes) : List Label :=
  .leader (.call 0 (.put { key, value, ttlMs := none })) ::
    List.replicate 9 (.leader (.act 0))

/-- The task reads the empty tree, up to where it subscribes. -/
def emptySnapshot : List Label := List.replicate 3 (.task 0)

def forwardsFrom : SyncTask → Option (Nat × Nat)
  | .forwarding start next => some (start, next)
  | _ => none

theorem drained_of_forwards {sys : System} {places : Nat × Nat}
    (nothing : sys.inFlight.isEmpty = true) (forwards : forwardsFrom sys.task = some places) :
    Drained sys := by
  refine ⟨List.isEmpty_iff.mp nothing, fun maxTxId cursor chunk walks => ?_⟩
  rw [walks] at forwards
  cases forwards

def afterSubscribing : List Label :=
  emptySnapshot ++ [.task 0] ++ wholePut "a" [1] ++ [.task 0, .deliver, .deliver]

/-- No call runs during the walk, and records come in their order. -/
def plainlyCovered (sys : System) : Label → Bool
  | .task _ => sys.leader.todo.isEmpty
  | .deliver =>
      match sys.inFlight with
      | .walRecord record :: _ => record.txId == sys.task.startStreamingTxId + 1
      | _ => true
  | _ => true

theorem covered_of_plainly (sys : System) (label : Label)
    (plainly : plainlyCovered sys label = true) : Covered sys label := by
  cases label with
  | leader | lag => trivial
  | task now =>
      intro maxTxId cursor chunk _ _ _ key _
      rw [List.isEmpty_iff.mp plainly]
      exact List.not_mem_nil
  | deliver =>
      intro record rest first _
      simp only [plainlyCovered, first] at plainly
      exact eq_of_beq plainly

theorem converges_afterSubscribing :
    ∃ final, runFrom step fresh afterSubscribing = some final ∧
      ∀ key, liveAt 0 (final.replica.contents key) =
        liveAt 0 (final.leader.shared.server.contents key) := by
  have ends : (runFrom step fresh afterSubscribing).map (fun sys => (sys.leader.todo.isEmpty,
      sys.inFlight.isEmpty, forwardsFrom sys.task, sys.replica.globalVersion,
      sys.leader.shared.server.globalVersion)) = some (true, true, some (0, 1), 1, 1) := by
    decide
  obtain ⟨final, ran, state⟩ := Option.map_eq_some_iff.mp ends
  simp only [Prod.mk.injEq] at state
  obtain ⟨idle, nothing, forwards, replica, leader⟩ := state
  exact ⟨final, ran, converges .new .new (false, false) (false, false) afterSubscribing final ran
    (eachMeets_of_passes covered_of_plainly (by decide)) 0 (by decide)
    (List.isEmpty_iff.mp idle) (drained_of_forwards nothing forwards) (replica.trans leader.symm)⟩

/-- The first put is broadcast before the task subscribes, and the replica at
version zero takes the second one. -/
def beforeSubscribing : List Label :=
  emptySnapshot ++ wholePut "a" [1] ++ [.task 0] ++ wholePut "b" [2] ++
    [.task 0, .deliver, .deliver]

theorem missed_put_goes_unnoticed :
    ¬ ∀ (leaderReg replicaReg : SchemaRegistry) (leaderFiles replicaFiles : Bool × Bool)
      (labels : List Label) (final : System),
      runFrom step (begun leaderReg replicaReg leaderFiles replicaFiles) labels = some final →
      ∀ t, (∀ label ∈ labels, label.notAfter t) → final.leader.todo = [] → Drained final →
        final.replica.globalVersion = final.leader.shared.server.globalVersion →
        ∀ key, liveAt t (final.replica.contents key) =
          liveAt t (final.leader.shared.server.contents key) := by
  intro claim
  have ends : (runFrom step fresh beforeSubscribing).map (fun sys => (sys.leader.todo.isEmpty,
      sys.inFlight.isEmpty, forwardsFrom sys.task, sys.replica.globalVersion,
      sys.leader.shared.server.globalVersion)) = some (true, true, some (0, 2), 2, 2) := by
    decide
  have differs : (runFrom step fresh beforeSubscribing).map (fun sys =>
      ((liveAt 0 (sys.replica.contents "a")).isSome,
        (liveAt 0 (sys.leader.shared.server.contents "a")).isSome)) = some (false, true) := by
    decide
  obtain ⟨final, ran, state⟩ := Option.map_eq_some_iff.mp ends
  simp only [Prod.mk.injEq] at state
  obtain ⟨idle, nothing, forwards, replica, leader⟩ := state
  have same := claim .new .new (false, false) (false, false) beforeSubscribing final ran 0
    (by decide) (List.isEmpty_iff.mp idle) (drained_of_forwards nothing forwards)
    (replica.trans leader.symm) "a"
  rw [ran, Option.map_some, Option.some.injEq, Prod.mk.injEq, same] at differs
  cases differs.1.symm.trans differs.2

/-- The walk ends between the `fetch_add` of the second put and its insert. -/
example : (runFrom step fresh (wholePut "a" [1] ++ (wholePut "b" [2]).take 3 ++
    List.replicate 4 (.task 0) ++ (wholePut "b" [2]).drop 3 ++ [.task 0, .deliver])).map (fun sys =>
      (sys.replica.globalVersion, sys.leader.shared.server.globalVersion,
        (sys.replica.contents "b").isSome, (sys.leader.shared.server.contents "b").isSome)) =
    some (2, 2, false, true) := by
  decide

end KindDb.Convergence
