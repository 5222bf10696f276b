import KindDb.Properties.CatchUp
import KindDb.Properties.Durability
import KindDb.Server.Versions

/-! # Interrupted snapshots

Every chunk of a snapshot carries the id of the last transaction, so a replica
is at the leader's version with the first of them.  If the connection drops
then, the next `sync` finds nothing newer in the log and the rest of the
snapshot is never sent. -/
set_option autoImplicit false

namespace KindDb.InterruptedSnapshot

open KindDb.Lib KindDb.Lib.Overlay KindDb.Lib.Runs KindDb.Schema KindDb.KindServerImpl
open KindDb.CatchUp KindDb.Durability

section Runs
variable [Serde]

/-! ## The log of the leader -/

/-- No command in the log is newer than the counter. -/
def IdsPassed (s : KindServerImpl) : Prop := ∀ logged ∈ s.logged, logged.1 ≤ s.globalVersion

theorem idsPassed_new (snapshotFile : Option (List SnapshotLine)) (reg : SchemaRegistry)
    (wal : Option WalFile) (isReplica : Bool) (now : UInt64) :
    IdsPassed (.new snapshotFile reg wal isReplica now) := by
  intro logged member
  have passed := (@Recovery.id_le_maxVer_replay _ reg now _
    ((snapshotFile.getD []).foldl (Recovery.loadSnapshotLine reg now) Recovery.empty)).2 logged member
  refine le_of_le_of_eq passed ?_
  exact (congrArg Recovery.maxVer (Recovery.recover_eq (snapshotFile.getD []) (wal.getD []))).symm

theorem IdsPassed.step {cs : Clocked} (passed : IdsPassed cs.2) (leader : cs.2.isReplica = false)
    (event : UInt64 × Event) : IdsPassed (lifeStep cs event).2 := by
  obtain ⟨clock, s⟩ := cs
  obtain ⟨now, event⟩ := event
  cases event with
  | restart => exact idsPassed_new _ _ _ _ _
  | op op =>
      by_cases running : op = .checkpoint
      · subst running
        cases held : s.snapshotFile with
        | none => simpa [lifeStep, Op.exec, saveSnapshotAndTruncateWal, held] using passed
        | some lines =>
            have empty : (Op.checkpoint.exec s now).logged = [] := by
              simp only [Op.exec, saveSnapshotAndTruncateWal, held, logged]
              cases s.wal <;> rfl
            intro logged member
            rw [show (lifeStep (clock, s) (now, .op .checkpoint)).2.logged = [] from empty] at member
            cases member
      · cases logs : op.command s now with
        | some c =>
            have logged := exec_logged leader logs
            intro entry member
            refine le_of_le_of_eq ?_ logged.globalVersion.symm
            rcases logged.mem_logged member with old | rfl
            · exact Nat.le_succ_of_le (passed entry old)
            · exact le_rfl
        | none =>
            have quiet := exec_unlogged leader running logs
            intro entry member
            exact le_of_le_of_eq (passed entry (quiet.logged ▸ member)) quiet.globalVersion.symm

theorem leads_step {cs : Clocked} (leader : cs.2.isReplica = false) (event : UInt64 × Event) :
    (lifeStep cs event).2.isReplica = false := by
  obtain ⟨now, event⟩ := event
  cases event with
  | restart => exact leader
  | op op => exact (exec_settings leader op).isReplica.trans leader

theorem idsPassed_run {cs : Clocked} (leader : cs.2.isReplica = false) (passed : IdsPassed cs.2)
    (events : List (UInt64 × Event)) : IdsPassed (run lifeStep cs events).2 :=
  (run_invariant_of_forall (P := fun cs => cs.2.isReplica = false ∧ IdsPassed cs.2)
    (fun _ event holds => ⟨leads_step holds.1 event, holds.2.step holds.1 event⟩)
    events cs ⟨leader, passed⟩).2

/-- A replica at the leader's version is sent nothing, where the log is used. -/
theorem IdsPassed.decideSync {s : KindServerImpl} (passed : IdsPassed s)
    {records : List (Nat × WalEnvelope)} (sent : s.decideSync s.globalVersion = some records) :
    records = [] := by
  unfold KindServerImpl.decideSync KindServerImpl.decideSyncFrom at sent
  split at sent
  · cases sent
  · cases held : s.wal with
    | none => simp [held] at sent
    | some file =>
        have none : ∀ commands, Wal.readAllCommands file = some commands →
            commands.filter (s.globalVersion + 1 ≤ ·.1) = [] := by
          intro commands found
          refine List.filter_eq_nil_iff.mpr fun logged member => ?_
          have := passed logged (by simpa [KindServerImpl.logged, held, found] using member)
          simp only [decide_eq_true_eq]
          omega
        simp only [held, Wal.readFromTxId_eq s.globalVersion.succ_pos] at sent
        cases found : Wal.readAllCommands file with
        | none => simp [found] at sent
        | some commands =>
            rw [found, Option.map_some, none commands found] at sent
            simpa using sent.symm

/-! ## Connections that drop -/

/-- What a leader that stays idle sends to a replica that asks from a version on. -/
def syncStream (leader : KindServerImpl) (lastKnownTxId : Nat) (clock : String → UInt64) :
    List SyncPayload :=
  match leader.decideSync lastKnownTxId with
  | none => leader.snapshotStream clock
  | some records => walPayloads records

/-- A replica and what is still to come on its connection, if it has one. -/
structure Link where
  replica : KindServerImpl
  stream : Option (List SyncPayload)

inductive Label
  | connect (clock : String → UInt64)
  | deliver
  | drop
  | get (key : String) (now : UInt64)
  | sweep (now : UInt64)

def Label.notAfter (t : UInt64) : Label → Prop
  | .connect clock => ∀ key, clock key ≤ t
  | .deliver => True
  | .drop => True
  | .get _ now => now ≤ t
  | .sweep now => now ≤ t

/-- The loop of the replica; a payload it breaks off at ends the connection. -/
def step (leader : KindServerImpl) (link : Link) : Label → Option Link
  | .connect clock =>
      match link.stream with
      | none =>
          some { link with stream := some (syncStream leader link.replica.globalVersion clock) }
      | some _ => none
  | .deliver =>
      match link.stream with
      | some (payload :: rest) =>
          match link.replica.processPayload payload with
          | some replica => some { replica, stream := some rest }
          | none => some { link with stream := none }
      | _ => none
  | .drop => some { link with stream := none }
  | .get key now => some { link with replica := (link.replica.get key now).2 }
  | .sweep now => some { link with replica := link.replica.sweep now }

/-- A connection that drops at the leader's version has nothing left to deliver,
or the leader sends the whole snapshot again. -/
def NotTorn (leader : KindServerImpl) (link : Link) : Label → Prop
  | .drop => link.replica.globalVersion = leader.globalVersion → link.stream.getD [] = [] ∨
      leader.decideSync leader.globalVersion = none
  | _ => True

/-! ## What is still to come -/

def updatesOf (payloads : List SyncPayload) : List (Update String Content) :=
  (Chunking.records { chunk := [], sent := payloads }).map Record.update

omit [Serde] in
theorem updatesOf_cons (chunk : SnapshotChunk) (rest : List SyncPayload) :
    updatesOf (.snapshot chunk :: rest) = chunk.records.map Record.update ++ updatesOf rest := by
  simp [updatesOf, Chunking.records]

section Invariant
variable (leader : KindServerImpl) (t : UInt64)

def SameAs (replica : KindServerImpl) : Prop :=
  ∀ key, liveAt t (replica.contents key) = liveAt t (leader.contents key)

/-- The payloads are chunks of the leader's records, and with all of them the
replica is complete. -/
structure Completes (replica : KindServerImpl) (payloads : List SyncPayload) : Prop where
  chunks : ∀ payload ∈ payloads,
    ∃ records, payload = .snapshot { records, maxTxId := leader.globalVersion }
  held : ∀ key content, (key, content) ∈ updatesOf payloads → leader.contents key = content
  complete : ∀ key, liveAt t (overlay replica.contents (updatesOf payloads) key) =
    liveAt t (leader.contents key)

/-- A replica that is still incomplete has a snapshot to come. -/
structure Inv (link : Link) : Prop where
  version : link.replica.globalVersion = 0 ∨ link.replica.globalVersion = leader.globalVersion
  within : ∀ key, liveAt t (link.replica.contents key) = none ∨
    liveAt t (link.replica.contents key) = liveAt t (leader.contents key)
  connected : ∀ payloads, link.stream = some payloads → Completes leader t link.replica payloads
  closed : link.stream = none → link.replica.globalVersion = leader.globalVersion →
    leader.decideSync leader.globalVersion = none ∨ SameAs leader t link.replica

variable {leader t} {link : Link}

omit [Serde] in
theorem Completes.of_nil {replica : KindServerImpl} (completes : Completes leader t replica []) :
    SameAs leader t replica := completes.complete

theorem Inv.connect (inv : Inv leader t link) (passed : IdsPassed leader)
    {clock : String → UInt64} (later : ∀ key, clock key ≤ t) (free : link.stream = none) :
    Inv leader t
      { link with stream := some (syncStream leader link.replica.globalVersion clock) } := by
  refine ⟨inv.version, inv.within, fun payloads here => ?_, fun ended => (by cases ended)⟩
  cases Option.some.inj here
  unfold syncStream
  cases sent : leader.decideSync link.replica.globalVersion with
  | none =>
      obtain ⟨chunks, records⟩ := leader.snapshotStream_records clock
      change Completes leader t link.replica (leader.snapshotStream clock)
      refine ⟨chunks, fun key content member => ?_, fun key => ?_⟩
      · rw [updatesOf, records] at member
        obtain ⟨isSome, live⟩ := mem_liveUpdates.mp member
        obtain ⟨c, rfl⟩ := Option.isSome_iff_exists.mp isSome
        exact (Option.filter_eq_some_iff.mp live).1
      · rw [updatesOf, records, overlay_liveUpdates, ← liveAt_liveAt (later key) (leader.contents key)]
        cases live : liveAt (clock key) (leader.contents key) with
        | some c => rfl
        | none =>
            have gone : liveAt t (leader.contents key) = none := by
              rw [← liveAt_liveAt (later key), live, liveAt_none]
            rcases inv.within key with nothing | same
            · exact nothing
            · exact same.trans gone
  | some records =>
      have version : link.replica.globalVersion = leader.globalVersion := by
        refine inv.version.resolve_left fun zero => ?_
        simp [KindServerImpl.decideSync, KindServerImpl.decideSyncFrom, zero] at sent
      rw [version] at sent
      have same : SameAs leader t link.replica := by
        refine (inv.closed free version).resolve_left fun again => ?_
        rw [again] at sent
        cases sent
      cases passed.decideSync sent
      exact ⟨fun payload member => (by cases member), fun key content member => (by cases member),
        same⟩

theorem Inv.deliver (inv : Inv leader t link) {payload : SyncPayload} {rest : List SyncPayload}
    (next : link.stream = some (payload :: rest)) :
    ∃ replica, link.replica.processPayload payload = some replica ∧
      Inv leader t { replica, stream := some rest } := by
  obtain ⟨chunks, held, complete⟩ := inv.connected _ next
  obtain ⟨records, rfl⟩ := chunks payload List.mem_cons_self
  rw [updatesOf_cons] at held complete
  let chunk : SnapshotChunk := { records, maxTxId := leader.globalVersion }
  have contents := link.replica.contents_installChunk chunk
  refine ⟨link.replica.installChunk chunk, rfl, Or.inr rfl, fun key => ?_,
    fun payloads here => ?_, nofun⟩
  · rw [contents]
    by_cases named : key ∈ touched (records.map Record.update)
    · right
      rw [held key _ (List.mem_append_left _ (mem_of_overlay named rfl))]
    · rw [overlay_untouched named]
      exact inv.within key
  · cases Option.some.inj here
    refine ⟨fun payload member => chunks payload (List.mem_cons_of_mem _ member),
      fun key content member => held key content (List.mem_append_right _ member), fun key => ?_⟩
    rw [contents, ← overlay_append]
    exact complete key

theorem Inv.drop (inv : Inv leader t link) (whole : NotTorn leader link .drop) :
    Inv leader t { link with stream := none } := by
  refine ⟨inv.version, inv.within, nofun, fun _ version => ?_⟩
  rcases whole version with nothing | again
  · cases stream : link.stream with
    | none => exact inv.closed stream version
    | some payloads =>
        rw [stream, Option.getD_some] at nothing
        exact Or.inr (inv.connected [] (nothing ▸ stream)).of_nil
  · exact Or.inl again

theorem Inv.unlogged (inv : Inv leader t link) {replica : KindServerImpl} {now : UInt64}
    (quiet : Unlogged link.replica replica now) (later : now ≤ t) :
    Inv leader t { link with replica } := by
  have same := quiet.liveAt later
  refine ⟨by simpa [quiet.globalVersion] using inv.version, fun key => ?_,
    fun payloads here => ?_, fun free version => ?_⟩
  · rw [same key]
    exact inv.within key
  · obtain ⟨chunks, held, complete⟩ := inv.connected payloads here
    refine ⟨chunks, held, fun key => ?_⟩
    rw [← complete key]
    exact liveAt_overlay same _ key
  · refine (inv.closed free (quiet.globalVersion ▸ version)).imp_right fun alike key => ?_
    exact (same key).trans (alike key)

theorem Inv.step (inv : Inv leader t link) (passed : IdsPassed leader) {label : Label}
    {link' : Link} (later : label.notAfter t) (whole : NotTorn leader link label)
    (stepped : InterruptedSnapshot.step leader link label = some link') : Inv leader t link' := by
  cases label with
  | connect clock =>
      simp only [InterruptedSnapshot.step] at stepped
      cases stream : link.stream with
      | some payloads => simp [stream] at stepped
      | none =>
          simp only [stream, Option.some.injEq] at stepped
          exact stepped ▸ inv.connect passed later stream
  | deliver =>
      simp only [InterruptedSnapshot.step] at stepped
      match stream : link.stream with
      | none => simp [stream] at stepped
      | some [] => simp [stream] at stepped
      | some (payload :: rest) =>
          obtain ⟨replica, processed, inv'⟩ := inv.deliver stream
          simp only [stream, processed, Option.some.injEq] at stepped
          exact stepped ▸ inv'
  | drop => exact Option.some.inj stepped ▸ inv.drop whole
  | get key now => exact Option.some.inj stepped ▸ inv.unlogged (get_unlogged _ key now) later
  | sweep now => exact Option.some.inj stepped ▸ inv.unlogged (sweep_unlogged _ now) later

end Invariant

/-- The leader has any past, with restarts, and is idle now.  If no connection
drops within a snapshot that is not sent again, a replica at the leader's
version for which nothing is left to send is complete. -/
theorem complete_when_done (snapshotFile : Option (List SnapshotLine)) (reg : SchemaRegistry)
    (wal : Option WalFile) (start : UInt64) (past : List (UInt64 × Event))
    (replica : KindServerImpl) (unversioned : replica.globalVersion = 0)
    (empty : ∀ key, replica.contents key = none) (labels : List Label) (final : Link) :
    let leader := (run lifeStep (start, .new snapshotFile reg wal false start) past).2
    runFrom (step leader) { replica, stream := none } labels = some final →
    EachMeets (step leader) (NotTorn leader) { replica, stream := none } labels →
    ∀ t, (∀ label ∈ labels, label.notAfter t) →
      final.stream = some [] → final.replica.globalVersion = leader.globalVersion →
      ∀ key, liveAt t (final.replica.contents key) = liveAt t (leader.contents key) := by
  intro leader ran meets t later done _
  have passed : IdsPassed leader := idsPassed_run rfl (idsPassed_new _ _ _ _ _) past
  have initially : Inv leader t { replica, stream := none } := by
    refine ⟨Or.inl unversioned, fun key => Or.inl (by rw [empty, liveAt_none]), nofun,
      fun _ version => Or.inl ?_⟩
    rw [← version, unversioned]
    rfl
  have inv := runFrom_invariant
    (fun _ _ _ allowed stepped inv => Inv.step inv passed allowed.2 allowed.1 stepped)
    labels _ final (meets.and (eachMeets_of_labels (fun label member _ => later label member) _))
    ran initially
  exact (inv.connected [] done).of_nil

end Runs

/-! ## A hundred and one records -/

open SerdeJson

def many : List (UInt64 × Event) :=
  (List.range 101).map fun n => (0, .op (.put { key := toString n, value := [1], ttlMs := none }))

def busyLeader : KindServerImpl :=
  (run lifeStep (0, .new none .new (some []) false 0) many).2

def newReplica : KindServerImpl := .fresh .new false false true

def frozen : Label := .connect fun _ => 0

theorem frozen_notAfter : frozen.notAfter 0 := fun _ => UInt64.le_refl 0

theorem version_busyLeader : busyLeader.globalVersion = 101 := by decide +kernel

/-- The first connection drops before anything is delivered. -/
theorem complete_when_done_reconnected :
    ∃ final, runFrom (step busyLeader) { replica := newReplica, stream := none }
        [frozen, .drop, frozen, .deliver, .deliver] = some final ∧
      ∀ key, liveAt 0 (final.replica.contents key) = liveAt 0 (busyLeader.contents key) := by
  have ends : (runFrom (step busyLeader) { replica := newReplica, stream := none }
      [frozen, .drop, frozen, .deliver, .deliver]).map (fun link =>
        (link.stream.map List.length, link.replica.globalVersion)) = some (some 0, 101) := by
    decide +kernel
  obtain ⟨final, ran, state⟩ := Option.map_eq_some_iff.mp ends
  obtain ⟨done, version⟩ := Prod.mk.inj state
  obtain ⟨payloads, stream, nothing⟩ := Option.map_eq_some_iff.mp done
  refine ⟨final, ran, complete_when_done none .new (some []) 0 many newReplica rfl (fun _ => rfl)
    [frozen, .drop, frozen, .deliver, .deliver] final ran ?_ 0 ?_ ?_ ?_⟩
  · refine ⟨trivial, fun next connected => ⟨fun version => ?_, fun _ _ => ?_⟩⟩
    · cases Option.some.inj connected
      rw [show newReplica.globalVersion = 0 from rfl] at version
      exact absurd version (by decide +kernel)
    · refine eachMeets_of_labels (fun label member _ => ?_) _
      simp only [List.mem_cons, List.not_mem_nil, or_false] at member
      rcases member with rfl | rfl | rfl <;> trivial
  · intro label member
    simp only [List.mem_cons, List.not_mem_nil, or_false] at member
    rcases member with rfl | rfl | rfl | rfl | rfl
    exacts [frozen_notAfter, trivial, frozen_notAfter, trivial, trivial]
  · rw [stream, List.length_eq_zero_iff.mp nothing]
  · exact version.trans version_busyLeader.symm

/-- The connection drops behind the first chunk. -/
theorem torn_snapshot_taken_for_whole :
    ¬ ∀ (snapshotFile : Option (List SnapshotLine)) (reg : SchemaRegistry) (wal : Option WalFile)
      (start : UInt64) (past : List (UInt64 × Event)) (replica : KindServerImpl),
      replica.globalVersion = 0 → (∀ key, replica.contents key = none) →
      ∀ (labels : List Label) (final : Link),
      let leader := (run lifeStep (start, .new snapshotFile reg wal false start) past).2
      1 ≤ leader.globalVersion →
      runFrom (step leader) { replica, stream := none } labels = some final →
      ∀ t, (∀ label ∈ labels, label.notAfter t) → (∃ key, liveAt t (leader.contents key) ≠ none) →
        final.stream = some [] → final.replica.globalVersion = leader.globalVersion →
        ∀ key, liveAt t (final.replica.contents key) = liveAt t (leader.contents key) := by
  intro claim
  have ends : (runFrom (step busyLeader) { replica := newReplica, stream := none }
      [frozen, .deliver, .drop, frozen]).map (fun link =>
        (link.stream.map List.length, link.replica.globalVersion, link.replica.contents "99")) =
      some (some 0, 101, none) := by
    decide +kernel
  obtain ⟨final, ran, state⟩ := Option.map_eq_some_iff.mp ends
  obtain ⟨done, rest⟩ := Prod.mk.inj state
  obtain ⟨version, missing⟩ := Prod.mk.inj rest
  obtain ⟨payloads, stream, nothing⟩ := Option.map_eq_some_iff.mp done
  have held : liveAt 0 (busyLeader.contents "99") = some ([1], none) := by decide +kernel
  have same := claim none .new (some []) 0 many newReplica rfl (fun _ => rfl)
    [frozen, .deliver, .drop, frozen] final (show 1 ≤ busyLeader.globalVersion by decide +kernel)
    ran 0 (fun label member => ?_) ⟨"99", ?_⟩ (by rw [stream, List.length_eq_zero_iff.mp nothing])
    (version.trans version_busyLeader.symm) "99"
  · rw [missing, liveAt_none] at same
    cases same.trans held
  · simp only [List.mem_cons, List.not_mem_nil, or_false] at member
    rcases member with rfl | rfl | rfl | rfl
    exacts [frozen_notAfter, trivial, trivial, frozen_notAfter]
  · intro nothing
    cases nothing.symm.trans held

end KindDb.InterruptedSnapshot
