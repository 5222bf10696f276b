import KindDb.Properties.ExactlyOnce
import KindDb.Server.Link

/-! # A replica applies every command once and in order

The leader takes concurrent calls in any interleaving and truncates its log now
and then; the connection breaks at any moment, the receiver of a sync task may
lag, and the replica reconnects with the version it has.  As long as no
snapshot arrives the replica carries out the leader's commands one version
after the other, none twice and none left out. -/
set_option autoImplicit false

namespace KindDb.InOrder

open KindDb.Lib KindDb.Lib.Runs KindDb.KindServerImpl KindDb.Accounting KindDb.Schema
open KindDb.ExactlyOnce KindDb.Link

section Leader
variable [Serde] {κ : Type} [DecidableEq κ]

inductive Move (κ : Type)
  | call (i : κ) (now : UInt64)
  /-- a checkpoint, while no call holds the WAL mutex -/
  | checkpoint (now : UInt64)

def leaderStep (requests : κ → Request κ) (pool : Pool κ κ) : Move κ → Option (Pool κ κ)
  | .call i now => LogOrder.step requests pool (i, now)
  | .checkpoint now =>
      match pool.shared.walLock with
      | none =>
          let server := pool.shared.server.saveSnapshotAndTruncateWal now
          some { pool with shared := { pool.shared with server } }
      | some _ => none

def machine (requests : κ → Request κ) : Machine (Pool κ κ) (Move κ) where
  server pool := pool.shared.server
  step := leaderStep requests

/-- The command was in the log at the start or is broadcast under its version. -/
def Stood (old : List (Nat × WalCommand)) (pool : Pool κ κ) (entry : Nat × WalCommand) : Prop :=
  entry ∈ old ∨ Recorded pool entry

structure Standing (requests : κ → Request κ) (first : Nat) (old : List (Nat × WalCommand))
    (pool : Pool κ κ) : Prop where
  accounted : ∃ kept, Accounted requests first pool kept
  reached : first ≤ pool.shared.server.globalVersion
  logged : ∀ entry ∈ pool.shared.server.logged, Stood old pool entry

variable {requests : κ → Request κ} {first : Nat} {old : List (Nat × WalCommand)}
  {pool pool' : Pool κ κ} {i : κ} {now : UInt64}

/-- What is recorded stays recorded. -/
theorem recorded_mono {s : KindServerImpl} (lock : Option κ) {before next : Thread}
    {makes : WalCommand → Prop} {kept : Option Nat} (running : pool.threads i = some before)
    (moves : Moves makes pool.shared.server s (some before) (some next) kept)
    {entry : Nat × WalCommand} (recorded : Recorded pool entry) :
    Recorded ⟨⟨s, lock⟩, Function.update pool.threads i (some next)⟩ entry := by
  rw [recorded_before running] at recorded
  rw [recorded_after]
  cases moves with
  | quiet same account logged =>
      rw [same.syncTx, logged]
      exact recorded
  | takes command todo fresh counted wal syncTx thread entered made ahead promised unlogged =>
      rw [syncTx]
      exact recorded.imp_right (Or.imp_left fun has => absurd has (unlogged _ _))
  | appends version command todo held counted wal syncTx thread ahead account unsent unlogged =>
      rw [syncTx]
      exact recorded.imp_right (Or.imp_left fun has => absurd has (unlogged _ _))
  | sends version command held counted wal syncTx account unsent unlogged logged =>
      rw [syncTx, List.mem_append, List.mem_singleton]
      rcases recorded with listed | has | others
      · exact Or.inl (Or.inl listed)
      · exact Or.inl (Or.inr (Prod.ext ((logged _ _).mp has).1 ((logged _ _).mp has).2))
      · exact Or.inr (Or.inr others)

/-- A new line of the log is the one its call has just appended. -/
theorem logged_moves {s s' : KindServerImpl} {before next : Thread} {makes : WalCommand → Prop}
    {kept : Option Nat} (moves : Moves makes s s' (some before) (some next) kept)
    {entry : Nat × WalCommand} (member : entry ∈ s'.logged) :
    entry ∈ s.logged ∨ HasLogged (some next) entry.1 entry.2 := by
  unfold KindServerImpl.logged at member ⊢
  cases moves with
  | quiet same account logged =>
      rw [same.wal] at member
      exact Or.inl member
  | takes command todo fresh counted wal syncTx thread entered made ahead promised unlogged =>
      rw [wal] at member
      exact Or.inl member
  | sends version command held counted wal syncTx account unsent unlogged logged =>
      rw [wal] at member
      exact Or.inl member
  | appends version command todo held counted wal syncTx thread ahead account unsent unlogged =>
      rw [wal] at member
      cases file : s.wal with
      | none =>
          rw [file] at member
          exact Or.inl member
      | some lines =>
          rw [file, Option.map_some, Option.getD_some, Wal.readAllCommands_append] at member
          cases found : Wal.readAllCommands lines with
          | none =>
              rw [found] at member
              cases member
          | some commands =>
              rw [found, Option.map_some, Option.getD_some, List.mem_append,
                List.mem_singleton] at member
              rcases member with earlier | rfl
              · rw [Option.getD_some, found]
                exact Or.inl earlier
              · exact Or.inr ⟨todo, thread, ahead⟩

theorem Standing.call (standing : Standing requests first old pool)
    (stepped : LogOrder.step requests pool (i, now) = some pool') :
    Standing requests first old pool' ∧ ∀ entry, Stood old pool entry → Stood old pool' entry := by
  obtain ⟨kept, accounted⟩ := standing.accounted
  obtain ⟨accounted', reached'⟩ := accounted.step standing.reached stepped
  rcases Pool.step_cases stepped with ⟨call, idle, made, rfl⟩ |
    ⟨version, action, rest, shared, next, running, effect, rfl⟩
  · have keeps : ∀ entry, Stood old pool entry → Stood old ⟨pool.shared,
        Function.update pool.threads i
          (some (.running 0 (program pool.shared.server.isReplica now call)))⟩ entry := by
      intro entry
      refine Or.imp_right fun recorded => ?_
      rw [recorded_before idle] at recorded
      rw [recorded_after]
      refine recorded.imp_right (Or.imp_left fun has => ?_)
      obtain ⟨_, none, _⟩ := has
      cases none
    exact ⟨⟨accounted', reached', fun entry member => keeps entry (standing.logged entry member)⟩,
      keeps⟩
  · have account := accounted.account i
    rw [running] at account
    have moves := account.step effect
    have keeps : ∀ entry, Stood old pool entry →
        Stood old ⟨shared, Function.update pool.threads i (some next)⟩ entry :=
      fun entry => Or.imp_right (recorded_mono shared.walLock running moves)
    refine ⟨⟨accounted', reached', fun entry member => ?_⟩, keeps⟩
    rcases logged_moves moves member with earlier | new
    · exact keeps entry (standing.logged entry earlier)
    · exact Or.inr (recorded_after entry |>.mpr (Or.inr (Or.inl new)))

omit [DecidableEq κ] in
theorem Standing.checkpoint (standing : Standing requests first old pool) {lock : Option κ}
    (now : UInt64) :
    Standing requests first old
      ⟨⟨pool.shared.server.saveSnapshotAndTruncateWal now, lock⟩, pool.threads⟩ := by
  obtain ⟨kept, accounted⟩ := standing.accounted
  cases file : pool.shared.server.snapshotFile with
  | none =>
      have same : pool.shared.server.saveSnapshotAndTruncateWal now = pool.shared.server := by
        simp [saveSnapshotAndTruncateWal, file]
      rw [same]
      exact ⟨⟨kept, accounted.leader, accounted.account, accounted.owner, accounted.covered,
        accounted.once, accounted.sent⟩, standing.reached, standing.logged⟩
  | some lines =>
      have truncated : pool.shared.server.saveSnapshotAndTruncateWal now = { pool.shared.server with
          snapshotFile := some (pool.shared.server.snapshotLines now)
          wal := pool.shared.server.wal.map Wal.truncate } := by
        simp [saveSnapshotAndTruncateWal, file]
      rw [truncated]
      refine ⟨⟨kept, accounted.leader, accounted.account, accounted.owner, accounted.covered,
        accounted.once, accounted.sent⟩, standing.reached, fun entry member => ?_⟩
      simp only [KindServerImpl.logged] at member
      cases wal : pool.shared.server.wal <;> simp [wal, Wal.truncate] at member

theorem faithful (requests : κ → Request κ) (first : Nat) (old : List (Nat × WalCommand)) :
    Faithful (machine requests) (Standing requests first old) (Stood old) := by
  have both : ∀ pool move pool', leaderStep requests pool move = some pool' →
      Standing requests first old pool → Standing requests first old pool' ∧
        ∀ entry, Stood old pool entry → Stood old pool' entry := by
    intro pool move pool' stepped standing
    cases move with
    | call i now => exact standing.call stepped
    | checkpoint now =>
        simp only [leaderStep] at stepped
        split at stepped
        · cases Option.some.inj stepped
          refine ⟨standing.checkpoint now, fun entry => Or.imp_right fun recorded => ?_⟩
          have syncTx : (pool.shared.server.saveSnapshotAndTruncateWal now).syncTx =
              pool.shared.server.syncTx := by
            unfold saveSnapshotAndTruncateWal
            split <;> rfl
          unfold Recorded at recorded ⊢
          rw [syncTx]
          exact recorded
        · cases stepped
  exact ⟨fun pool move pool' stepped standing => (both pool move pool' stepped standing).1,
    fun pool move pool' stepped standing => (both pool move pool' stepped standing).2,
    fun pool standing => standing.logged, fun pool _ entry member => Or.inr (Or.inl member)⟩

omit [DecidableEq κ] in
theorem standing_start {s : KindServerImpl} (leader : s.isReplica = false)
    (silent : s.syncTx = []) : Standing requests s.globalVersion s.logged (LogOrder.start s) :=
  ⟨⟨_, accounted_start leader silent⟩, le_rfl, fun _ member => Or.inl member⟩

/-- The leader has started on its files, the replica is in any state and not connected. -/
def begun (leader replica : KindServerImpl) : System (Pool κ κ) :=
  { leader := LogOrder.start leader, task := none, inFlight := [], replica }

/-- From any moment at which the replica has a version, and as long as no
snapshot arrives: the replica's state is the one of that moment with the next
commands carried out, each under its version; the leader had them in its log
when it started or broadcasts them, under a version that no other command gets. -/
theorem replica_applies_in_order (requests : κ → Request κ)
    (snapshotFile : Option (List SnapshotLine)) (reg : SchemaRegistry) (wal : Option WalFile)
    (start : UInt64) (replica : KindServerImpl) (past future : List (Label (Move κ)))
    (sys sys' : System (Pool κ κ))
    (before : runFrom (step (machine requests))
      (begun (.new snapshotFile reg wal false start) replica) past = some sys)
    (positive : 0 < sys.replica.globalVersion)
    (after : runFrom (step (machine requests)) sys future = some sys')
    (plain : EachMeets (step (machine requests)) NoSnapshot sys future) :
    (∃ commands, sys'.replica = applyAll sys.replica commands ∧
      commands.map Prod.fst = List.range' (sys.replica.globalVersion + 1) commands.length ∧
      sys'.replica.globalVersion = sys.replica.globalVersion + commands.length ∧
      ∀ entry ∈ commands, entry ∈ (KindServerImpl.new snapshotFile reg wal false start).logged ∨
        Recorded sys'.leader entry) ∧
    ∀ version command command', Recorded sys'.leader (version, command) →
      Recorded sys'.leader (version, command') → command = command' := by
  have faithful := faithful requests
    (KindServerImpl.new snapshotFile reg wal false start).globalVersion
    (KindServerImpl.new snapshotFile reg wal false start).logged
  have keeps : ∀ (labels : List (Label (Move κ))) (now later : System (Pool κ κ)),
      runFrom (step (machine requests)) now labels = some later →
      Inv (machine requests) (Standing requests _ _) (Stood _) now →
      Inv (machine requests) (Standing requests _ _) (Stood _) later :=
    fun labels now later ran => runFrom_invariant (C := fun _ _ => True)
      (fun _ _ _ _ stepped inv => inv.step faithful stepped) labels now later
      (eachMeets_of_forall (fun _ _ => trivial) _ _) ran
  have inv := keeps past _ _ before ⟨standing_start rfl rfl, fun _ member => (by cases member)⟩
  have inv' := keeps future _ _ after inv
  obtain ⟨commands, followed⟩ := follows faithful inv positive after plain
  obtain ⟨kept, accounted⟩ := inv'.leader.accounted
  exact ⟨⟨commands, followed.state, followed.ids, followed.version, followed.known⟩,
    fun _ _ _ => accounted.unique⟩

end Leader

/-! ## A record that is lost on its way -/

open SerdeJson

def twoKeys (second : Bool) : Request Bool :=
  .call (.put { key := if second then "b" else "a", value := [1], ttlMs := none })

def writes (i : Bool) : List (Label (Move Bool)) := List.replicate 10 (.lead (.call i 0))

/-- The replica gets a snapshot with the first key. -/
def firstKey : List (Label (Move Bool)) :=
  writes false ++ .connect :: List.replicate 5 (.task 0) ++ [.deliver]

/-- The record of the second key is broadcast, lost, and sent again from the log. -/
def secondKey : List (Label (Move Bool)) :=
  writes true ++ [.task 0, .drop, .connect, .task 0, .deliver]

def emptyLeader : KindServerImpl := .new none .new (some []) false 0

def emptyReplica : KindServerImpl := .new none .new none true 0

theorem replica_applies_in_order_lost : ∃ sys sys',
    runFrom (step (machine twoKeys)) (begun emptyLeader emptyReplica) firstKey = some sys ∧
    runFrom (step (machine twoKeys)) sys secondKey = some sys' ∧
    ∃ commands, sys'.replica = applyAll sys.replica commands ∧ commands.map Prod.fst = [2] := by
  have ran : (runFrom (step (machine twoKeys)) (begun emptyLeader emptyReplica) firstKey).map
      (fun sys => (sys.replica.globalVersion,
        eachPasses (step (machine twoKeys)) isPlain sys secondKey,
        (runFrom (step (machine twoKeys)) sys secondKey).map
          fun sys => sys.replica.globalVersion)) =
      some (1, true, some 2) := by decide +kernel
  obtain ⟨sys, before, found⟩ := Option.map_eq_some_iff.mp ran
  obtain ⟨version, rest⟩ := Prod.mk.inj found
  obtain ⟨passes, later⟩ := Prod.mk.inj rest
  obtain ⟨sys', after, version'⟩ := Option.map_eq_some_iff.mp later
  obtain ⟨⟨commands, state, ids, counted, _⟩, _⟩ := replica_applies_in_order twoKeys none .new
    (some []) 0 emptyReplica firstKey secondKey sys sys' before (by omega) after
    (eachMeets_of_passes noSnapshot_of_plain passes)
  have one : commands.length = 1 := by omega
  refine ⟨sys, sys', before, after, commands, state, ?_⟩
  rw [ids, version, one]
  rfl

end KindDb.InOrder
