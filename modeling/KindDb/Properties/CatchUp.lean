import KindDb.SerdeJson
import KindDb.Server.Effects
import KindDb.Server.Sync

/-! # Catching up from the log

Where `sync` sends the log, it sends exactly the commands after the version the
replica has, and a replica that looks like the leader did at that version looks
like the leader does now when it has processed them.  Evictions happen on both
sides at their own times; none of them can be seen. -/
set_option autoImplicit false

namespace KindDb.CatchUp

open KindDb.Lib KindDb.Lib.Overlay KindDb.Lib.Runs KindDb.Schema KindDb.KindServerImpl

section Runs
variable [Serde]

/-! ## What the log holds -/

/-- A command with its transaction id, as it stands in the log. -/
def entry (numbered : WalCommand × Nat) : Nat × WalEnvelope :=
  (numbered.2, { c := numbered.1, k := Wal.crcOf numbered.1, txId := numbered.2 })

/-- The log of a server that has carried out `all` since it was empty ends with
the last command, and lacks nothing in between. -/
structure Tail (s : KindServerImpl) (all : List WalCommand) : Prop where
  leader : s.isReplica = false
  version : s.globalVersion = all.length
  log : ∀ file, s.wal = some file → ∃ truncated kept, all = truncated ++ kept ∧
    ∀ start, Wal.readFromTxId start file =
      some (((kept.zipIdx (truncated.length + 1)).filter (start ≤ ·.2)).map entry)

theorem tail_fresh (reg : SchemaRegistry) (hasSnapshot hasWal : Bool) :
    Tail (.fresh reg hasSnapshot hasWal false) [] := by
  refine ⟨rfl, ?_, fun file held => ⟨[], [], rfl, fun start => ?_⟩⟩
  · cases hasSnapshot <;> cases hasWal <;> rfl
  · cases hasWal with
    | false => cases held
    | true =>
        cases Option.some.inj held
        rfl

theorem Tail.logged {s s' : KindServerImpl} {c : WalCommand} {all : List WalCommand}
    (tail : Tail s all) (logged : Logged s s' c) : Tail s' (all ++ [c]) := by
  refine ⟨logged.isReplica.trans tail.leader, ?_, fun file held => ?_⟩
  · rw [logged.globalVersion, tail.version, List.length_append, List.length_singleton]
  · rw [logged.wal] at held
    obtain ⟨before, heldBefore, rfl⟩ := Option.map_eq_some_iff.mp held
    obtain ⟨truncated, kept, split, read⟩ := tail.log before heldBefore
    refine ⟨truncated, kept ++ [c], by rw [split, List.append_assoc], fun start => ?_⟩
    have next : s.globalVersion + 1 = truncated.length + 1 + kept.length := by
      rw [tail.version, split, List.length_append]
      omega
    rw [Wal.readFromTxId_append, read, Option.map_some, List.zipIdx_append, List.filter_append,
      List.map_append, next]
    by_cases included : start ≤ truncated.length + 1 + kept.length <;> simp [included, entry]

theorem Tail.unlogged {s s' : KindServerImpl} {now : UInt64} {all : List WalCommand}
    (tail : Tail s all) (quiet : Unlogged s s' now) : Tail s' all :=
  ⟨quiet.isReplica.trans tail.leader, quiet.globalVersion.trans tail.version,
    fun file held => tail.log file (quiet.wal ▸ held)⟩

theorem Tail.checkpoint {s : KindServerImpl} {all : List WalCommand} (tail : Tail s all)
    (now : UInt64) : Tail (s.saveSnapshotAndTruncateWal now) all := by
  unfold saveSnapshotAndTruncateWal
  cases s.snapshotFile with
  | none => exact tail
  | some lines =>
      refine ⟨tail.leader, tail.version, fun file held => ⟨all, [], by simp, fun start => ?_⟩⟩
      obtain ⟨before, _, rfl⟩ := Option.map_eq_some_iff.mp held
      rfl

theorem Tail.step {s : KindServerImpl} {all : List WalCommand} (tail : Tail s all)
    (event : UInt64 × Op) :
    Tail (serverStep s event) (all ++ (event.2.command s event.1).toList) := by
  obtain ⟨now, op⟩ := event
  dsimp only
  by_cases running : op = .checkpoint
  · subst running
    simpa [Op.command, serverStep, Op.exec] using tail.checkpoint now
  · cases logs : op.command s now with
    | some c => exact tail.logged (exec_logged tail.leader logs)
    | none =>
        simpa [serverStep] using tail.unlogged (exec_unlogged tail.leader running logs)

/-- All the commands a run logs. -/
def commandsOf : KindServerImpl → List (UInt64 × Op) → List WalCommand
  | _, [] => []
  | s, event :: rest => (event.2.command s event.1).toList ++ commandsOf (serverStep s event) rest

theorem tail_run {s : KindServerImpl} {all : List WalCommand} (tail : Tail s all)
    (events : List (UInt64 × Op)) :
    Tail (run serverStep s events) (all ++ commandsOf s events) := by
  induction events generalizing s all with
  | nil => simpa [commandsOf] using tail
  | cons event rest ih =>
      rw [commandsOf, ← List.append_assoc]
      exact ih (tail.step event)

/-- What can be seen after a run: what could be seen before, under its commands. -/
theorem live_run {s : KindServerImpl} (leader : s.isReplica = false) {t : UInt64}
    (events : List (UInt64 × Op)) (later : ∀ event ∈ events, event.1 ≤ t) (key : String) :
    liveAt t ((run serverStep s events).contents key) =
      liveAt t (overlay s.contents ((commandsOf s events).flatMap WalCommand.updates) key) := by
  induction events generalizing s with
  | nil => rfl
  | cons event rest ih =>
      have step : ∀ key, liveAt t ((serverStep s event).contents key) = liveAt t
          (overlay s.contents ((event.2.command s event.1).toList.flatMap WalCommand.updates) key) := by
        intro key
        obtain ⟨now, op⟩ := event
        by_cases running : op = .checkpoint
        · subst running
          have same : (s.saveSnapshotAndTruncateWal now).tree = s.tree := by
            unfold saveSnapshotAndTruncateWal
            cases s.snapshotFile <;> rfl
          exact congrArg (fun tree : Tree => liveAt t (tree[key]?.map DbRecord.content)) same
        · cases logs : op.command s now with
          | some c =>
              simpa [serverStep] using congrArg (liveAt t) ((exec_logged leader logs).contents key)
          | none =>
              exact (exec_unlogged leader running logs).liveAt (later (now, op) (by simp)) key
      rw [run_cons, ih (leader_step leader event)
        fun event member => later event (List.mem_cons_of_mem _ member)]
      rw [commandsOf, List.flatMap_append, overlay_append]
      exact liveAt_overlay step _ key

/-! ## What is sent -/

omit [Serde] in
theorem filter_zipIdx_below (commands : List WalCommand) {first start : Nat}
    (below : first + commands.length ≤ start) :
    (commands.zipIdx first).filter (start ≤ ·.2) = [] := by
  apply List.filter_eq_nil_iff.mpr
  intro numbered member
  have := List.snd_lt_add_of_mem_zipIdx member
  simp only [decide_eq_true_eq]
  omega

omit [Serde] in
theorem filter_zipIdx_from (commands : List WalCommand) {first start : Nat} (le : start ≤ first) :
    (commands.zipIdx first).filter (start ≤ ·.2) = commands.zipIdx first := by
  apply List.filter_eq_self.mpr
  intro numbered member
  have := List.le_snd_of_mem_zipIdx member
  simp only [decide_eq_true_eq]
  omega

/-- Where the log is sent, it is the commands after the given version. -/
theorem sent_eq {s : KindServerImpl} {past since : List WalCommand} (tail : Tail s (past ++ since))
    (positive : past ≠ []) {records : List (Nat × WalEnvelope)}
    (sent : s.decideSync past.length = some records) :
    records = (since.zipIdx (past.length + 1)).map entry := by
  unfold decideSync decideSyncFrom at sent
  rw [if_neg (by simpa using positive)] at sent
  cases held : s.wal with
  | none => simp [held] at sent
  | some file =>
      obtain ⟨truncated, kept, split, read⟩ := tail.log file held
      simp only [held, read] at sent
      rcases List.append_eq_append_iff.mp split with ⟨cut, rfl, rfl⟩ | ⟨older, rfl, rfl⟩
      · -- the log was cut after the given version, so it starts too late
        rw [filter_zipIdx_from kept (by simp)] at sent
        cases kept with
        | nil =>
            have version : s.globalVersion = past.length + cut.length := by
              simpa using tail.version
            have nothing : cut = [] := by
              by_contra nonempty
              have := List.length_pos_iff.mpr nonempty
              simp [version, this] at sent
            simpa [nothing, version] using sent.symm
        | cons command rest =>
            have nothing : cut = [] := by
              by_contra nonempty
              simp [entry] at sent
              exact nonempty sent.1
            subst nothing
            simpa [entry] using sent.symm
      · have here : (((older ++ since).zipIdx (truncated.length + 1)).filter
            ((truncated ++ older).length + 1 ≤ ·.2)) =
              since.zipIdx ((truncated ++ older).length + 1) := by
          have next : truncated.length + 1 + older.length = (truncated ++ older).length + 1 := by
            rw [List.length_append]
            omega
          rw [List.zipIdx_append, List.filter_append, next, filter_zipIdx_below older next.le,
            filter_zipIdx_from since le_rfl, List.nil_append]
        rw [here] at sent
        cases since with
        | nil =>
            have version : s.globalVersion = (truncated ++ older).length := by
              simpa using tail.version
            simpa [version] using sent.symm
        | cons command rest => simpa [entry] using sent.symm

/-! ## What the replica makes of it -/

inductive ReplicaEvent
  | payload (p : SyncPayload)
  | get (key : String) (now : UInt64)
  | sweep (now : UInt64)

/-- `none` is the `break` of the receive loop. -/
def replicaStep (r : KindServerImpl) : ReplicaEvent → Option KindServerImpl
  | .payload p => r.processPayload p
  | .get key now => some (r.get key now).2
  | .sweep now => some (r.sweep now)

def ReplicaEvent.payload? : ReplicaEvent → Option SyncPayload
  | .payload p => some p
  | _ => none

def ReplicaEvent.notAfter (t : UInt64) : ReplicaEvent → Prop
  | .payload _ => True
  | .get _ now => now ≤ t
  | .sweep now => now ≤ t

/-- The payloads of the log branch. -/
def walPayloads (records : List (Nat × WalEnvelope)) : List SyncPayload :=
  records.map fun record => .walRecord { txId := record.1, payload := some record.2 }

/-- A replica that evicts in between still ends with the updates of all the
commands, and with the version of the last. -/
theorem replica_run {t : UInt64} (events : List ReplicaEvent) (commands : List WalCommand)
    (r : KindServerImpl) (arrive : events.filterMap ReplicaEvent.payload? =
      walPayloads ((commands.zipIdx (r.globalVersion + 1)).map entry))
    (later : ∀ event ∈ events, event.notAfter t) (store : String → Option Content)
    (alike : ∀ key, liveAt t (r.contents key) = liveAt t (store key)) :
    ∃ r', runFrom replicaStep r events = some r' ∧
      r'.globalVersion = r.globalVersion + commands.length ∧
      ∀ key, liveAt t (r'.contents key) =
        liveAt t (overlay store (commands.flatMap WalCommand.updates) key) := by
  induction events generalizing r commands store with
  | nil =>
      cases commands with
      | nil => exact ⟨r, rfl, rfl, alike⟩
      | cons command rest => cases arrive
  | cons event rest ih =>
      have laterRest : ∀ event ∈ rest, event.notAfter t :=
        fun event member => later event (List.mem_cons_of_mem _ member)
      have evicts : ∀ {r₁ : KindServerImpl} {now : UInt64}, replicaStep r event = some r₁ →
          Unlogged r r₁ now → now ≤ t → event.payload? = none →
          ∃ r', runFrom replicaStep r (event :: rest) = some r' ∧
            r'.globalVersion = r.globalVersion + commands.length ∧
            ∀ key, liveAt t (r'.contents key) =
              liveAt t (overlay store (commands.flatMap WalCommand.updates) key) := by
        intro r₁ now stepped quiet before other
        rw [List.filterMap_cons, other] at arrive
        obtain ⟨r', ran, version, live⟩ := ih commands r₁ (quiet.globalVersion.symm ▸ arrive)
          laterRest store fun key => (quiet.liveAt before key).trans (alike key)
        refine ⟨r', ?_, quiet.globalVersion ▸ version, live⟩
        rw [runFrom, stepped]
        exact ran
      cases event with
      | get key now =>
          exact evicts rfl (get_unlogged r key now) (later (.get key now) List.mem_cons_self) rfl
      | sweep now =>
          exact evicts rfl (sweep_unlogged r now) (later (.sweep now) List.mem_cons_self) rfl
      | payload p =>
          cases commands with
          | nil => cases arrive
          | cons command more =>
              rw [List.filterMap_cons] at arrive
              obtain ⟨same, arriveRest⟩ := List.cons.inj arrive
              subst same
              have stepped : replicaStep r (.payload (.walRecord
                  { txId := (entry (command, r.globalVersion + 1)).1,
                    payload := some (entry (command, r.globalVersion + 1)).2 })) =
                  some (r.applyCommand (r.globalVersion + 1) command) := by
                simp [replicaStep, processPayload, entry]
              obtain ⟨r', ran, version, live⟩ := ih more (r.applyCommand (r.globalVersion + 1) command)
                arriveRest laterRest (overlay store command.updates) fun key => by
                  rw [contents_applyCommand]
                  exact liveAt_overlay alike command.updates key
              refine ⟨r', ?_, ?_, fun key => ?_⟩
              · rw [runFrom, stepped]
                exact ran
              · rw [version, List.length_cons]
                exact Nat.add_right_comm ..
              · rw [live, List.flatMap_cons, overlay_append]

/-- The catch-up, from any state the leader has been in to any later one. -/
theorem catches_up (reg : SchemaRegistry) (hasSnapshot hasWal : Bool)
    (past since : List (UInt64 × Op)) (records : List (Nat × WalEnvelope)) :
    let atV := run serverStep (.fresh reg hasSnapshot hasWal false) past
    let leader := run serverStep (.fresh reg hasSnapshot hasWal false) (past ++ since)
    1 ≤ atV.globalVersion → leader.decideSync atV.globalVersion = some records →
    records.map Prod.fst =
      List.range' (atV.globalVersion + 1) (leader.globalVersion - atV.globalVersion) ∧
    ∀ (replica : KindServerImpl) (events : List ReplicaEvent) (before t : UInt64),
      replica.globalVersion = atV.globalVersion →
      (∀ key, liveAt before (replica.contents key) = liveAt before (atV.contents key)) →
      before ≤ t → (∀ event ∈ since, event.1 ≤ t) → (∀ event ∈ events, event.notAfter t) →
      events.filterMap ReplicaEvent.payload? = walPayloads records →
      ∃ replica', runFrom replicaStep replica events = some replica' ∧
        replica'.globalVersion = leader.globalVersion ∧
        ∀ key, liveAt t (replica'.contents key) = liveAt t (leader.contents key) := by
  intro atV leader passed sent
  have tail : Tail atV (commandsOf (.fresh reg hasSnapshot hasWal false) past) :=
    tail_run (tail_fresh reg hasSnapshot hasWal) past
  have became : leader = run serverStep atV since := run_append ..
  have tailNow : Tail leader
      (commandsOf (.fresh reg hasSnapshot hasWal false) past ++ commandsOf atV since) :=
    became ▸ tail_run tail since
  have version : leader.globalVersion = atV.globalVersion + (commandsOf atV since).length := by
    rw [tailNow.version, tail.version, List.length_append]
  rw [tail.version] at passed sent
  have records_eq := sent_eq tailNow (List.ne_nil_of_length_pos passed) sent
  rw [← tail.version] at records_eq
  refine ⟨?_, ?_⟩
  · have ids : ∀ (commands : List WalCommand) (first : Nat),
        ((commands.zipIdx first).map entry).map Prod.fst = List.range' first commands.length := by
      intro commands first
      rw [List.map_map]
      exact List.zipIdx_map_snd first commands
    rw [records_eq, ids, version, Nat.add_sub_cancel_left]
  · intro replica events before t same alike beforeT sinceT eventsT arrive
    obtain ⟨replica', ran, version', live⟩ := replica_run events (commandsOf atV since) replica
      (by rw [arrive, records_eq, same]) eventsT atV.contents
      fun key => liveAt_congr_later beforeT (alike key)
    refine ⟨replica', ran, by rw [version', same, version], fun key => ?_⟩
    rw [live, became, live_run tail.leader since sinceT]

end Runs

/-! ## One command to catch up with -/

def putAt (key : String) : UInt64 × Op := (0, .put { key, value := [1], ttlMs := none })

open SerdeJson

theorem catches_up_one :
    let atV := run serverStep (.fresh .new true true false) [putAt "a"]
    ∃ replica', runFrom replicaStep { atV with isReplica := true }
        [.sweep 0, .payload (.walRecord
          { txId := 2, payload := some (entry (.put "b" [1] none, 2)).2 })] = some replica' ∧
      replica'.globalVersion = 2 ∧ ∀ key, liveAt 0 (replica'.contents key) =
        liveAt 0 ((run serverStep (.fresh .new true true false)
          ([putAt "a"] ++ [putAt "b"])).contents key) := by
  intro atV
  have sent : (run serverStep (.fresh .new true true false)
      ([putAt "a"] ++ [putAt "b"])).decideSync 1 = some [entry (.put "b" [1] none, 2)] := by
    have file : (run serverStep (.fresh .new true true false) ([putAt "a"] ++ [putAt "b"])).wal =
        some (Wal.append (Wal.append [] 1 (.put "a" [1] none)) 2 (.put "b" [1] none)) := rfl
    unfold decideSync decideSyncFrom
    rw [file]
    simp [Wal.readFromTxId_append, Wal.readFromTxId, entry]
  refine (catches_up .new true true [putAt "a"] [putAt "b"] [entry (.put "b" [1] none, 2)]
    le_rfl sent).2 { atV with isReplica := true } _ 0 0 rfl (fun _ => rfl) (UInt64.le_refl 0)
    (fun event member => ?_) (fun event member => ?_) rfl
  · rw [List.mem_singleton.mp member]
    exact UInt64.le_refl 0
  · rcases List.mem_pair.mp member with rfl | rfl
    · exact UInt64.le_refl 0
    · trivial

end KindDb.CatchUp
