import KindDb.Properties.LogOrder
import KindDb.Server.Accounting

/-! # Every acknowledged write has one version

Whatever the interleaving of concurrent calls, the versions a leader gives out
and the writes it acknowledges correspond one to one, and each is in the
broadcasts and in the log exactly once.  Only the order of the two lists is up
to the interleaving. -/
set_option autoImplicit false

namespace KindDb.ExactlyOnce

open KindDb.Lib KindDb.Lib.Runs KindDb.KindServerImpl KindDb.Accounting KindDb.Schema

section Pools
variable [Serde] {κ : Type} [DecidableEq κ]

/-- The request may log the command. -/
def Makes : Request κ → WalCommand → Prop
  | .call call, command => ∃ now, commandAt now call = some command
  | .commitOf _ writeSet, command =>
      command = .txCommit (writeSet.entries.map TxHandle.pendingCommand)

/-- The command is in the broadcasts, or will be when its call goes on. -/
def Recorded (pool : Pool κ κ) (logged : Nat × WalCommand) : Prop :=
  logged ∈ pool.shared.server.syncTx ∨ ∃ i, HasLogged (pool.threads i) logged.1 logged.2

/-! ## The invariant -/

structure Accounted (requests : κ → Request κ) (first : Nat) (pool : Pool κ κ)
    (kept : κ → Option Nat) : Prop where
  leader : pool.shared.server.isReplica = false
  account : ∀ i, Account (Makes (requests i)) pool.shared.server.syncTx (pool.threads i) (kept i)
  owner : ∀ i j v, kept i = some v → kept j = some v → i = j
  covered : ∀ v, (∃ i, kept i = some v) ↔ first < v ∧ v ≤ pool.shared.server.globalVersion
  once : (pool.shared.server.syncTx.map Prod.fst).Nodup
  sent : ∀ logged ∈ pool.shared.server.syncTx, ∃ i, kept i = some logged.1

variable {requests : κ → Request κ} {first : Nat} {pool pool' : Pool κ κ} {kept : κ → Option Nat}
  {i : κ} {now : UInt64}

omit [Serde] [DecidableEq κ] in
theorem Account_hasLogged {makes : WalCommand → Prop} {sent : List (Nat × WalCommand)}
    {thread : Option Thread} {version : Option Nat} (account : Account makes sent thread version)
    {v : Nat} {command : WalCommand} (logged : HasLogged thread v command) :
    version = some v ∧ v ∉ sent.map Prod.fst := by
  obtain ⟨todo, rfl, only⟩ := logged
  cases account with
  | unnumbered entered made ahead promised => cases ahead.symm.trans only
  | taken entered made ahead promised unsent => cases ahead.symm.trans only
  | logged entered made ahead promised unsent => exact ⟨rfl, unsent⟩
  | delivered entered made ahead promised listed => cases ahead.symm.trans only
  | failing entered ahead promised => cases ahead.symm.trans only

omit [Serde] [DecidableEq κ] in
/-- Under one version there is one command. -/
theorem Accounted.unique (accounted : Accounted requests first pool kept) {v : Nat}
    {command command' : WalCommand} (here : Recorded pool (v, command))
    (there : Recorded pool (v, command')) : command = command' := by
  have unsent : ∀ {j c}, HasLogged (pool.threads j) v c →
      ∀ c', (v, c') ∉ pool.shared.server.syncTx := by
    intro j c logged c' listed
    exact (Account_hasLogged (accounted.account j) logged).2 (List.mem_map_of_mem listed)
  rcases here with listed | ⟨j, logged⟩ <;> rcases there with listed' | ⟨k, logged'⟩
  · exact congrArg Prod.snd (List.inj_on_of_nodup_map accounted.once listed listed' rfl)
  · exact absurd listed (unsent logged' command)
  · exact absurd listed' (unsent logged command')
  · have same := accounted.owner j k v (Account_hasLogged (accounted.account j) logged).1
      (Account_hasLogged (accounted.account k) logged').1
    subst same
    obtain ⟨todo, running, ahead⟩ := logged
    obtain ⟨todo', running', ahead'⟩ := logged'
    cases running.symm.trans running'
    cases ahead.symm.trans ahead'
    rfl

omit [Serde] [DecidableEq κ] in
theorem makes_toCall {call : Call} (made : (requests i).toCall pool.threads = some call)
    {command : WalCommand} (is : commandAt now call = some command) :
    Makes (requests i) command := by
  cases requested : requests i with
  | call c =>
      rw [requested] at made
      cases Option.some.inj made
      exact ⟨now, is⟩
  | commitOf begun writeSet =>
      rw [requested] at made
      simp only [Request.toCall] at made
      split at made
      · cases Option.some.inj made
        exact (Option.some.inj is).symm
      · cases made

omit [Serde] [DecidableEq κ] in
/-- A call that starts has no version. -/
theorem account_start {sent : List (Nat × WalCommand)} {call : Call}
    (made : (requests i).toCall pool.threads = some call) :
    Account (Makes (requests i)) sent (some (.running 0 (program false now call))) none := by
  cases is : commandAt now call with
  | some command =>
      obtain ⟨entered, ahead, promised⟩ := entered_program is
      exact .unnumbered entered (makes_toCall made is) ahead promised
  | none =>
      cases call with
      | beginTransaction =>
          have entered : Entered (.delete "") (program false now .beginTransaction) := by
            simp [program, Entered, entry, mayEnd]
          exact .failing entered rfl rfl
      | _ => cases is

omit [Serde] in
/-- The other calls keep their accounts; the broadcasts may have grown. -/
theorem account_after {sent : List (Nat × WalCommand)} {next : Thread} {version : Option Nat}
    (mine : Account (Makes (requests i)) sent (some next) version)
    (theirs : ∀ j, j ≠ i → Account (Makes (requests j)) sent (pool.threads j) (kept j)) (j : κ) :
    Account (Makes (requests j)) sent (Function.update pool.threads i (some next) j)
      (Function.update kept i version j) := by
  by_cases same : j = i
  · subst same
    simpa only [Function.update_self] using mine
  · simpa only [Function.update_of_ne same] using theirs j same

theorem Accounted.act (accounted : Accounted requests first pool kept) {s : KindServerImpl}
    (lock : Option κ) {before next : Thread} (running : pool.threads i = some before)
    (leader : s.isReplica = false) (reached : first ≤ pool.shared.server.globalVersion)
    (moves : Moves (Makes (requests i)) pool.shared.server s (some before) (some next) (kept i)) :
    ∃ kept', Accounted requests first
      ⟨⟨s, lock⟩, Function.update pool.threads i (some next)⟩ kept' ∧
      first ≤ s.globalVersion := by
  have unchanged : Function.update kept i (kept i) = kept := Function.update_eq_self i kept
  cases moves with
  | quiet same account logged =>
      refine ⟨kept, ⟨leader, fun j => ?_, accounted.owner, ?_, ?_, ?_⟩, ?_⟩
      · have all := account_after account (fun j _ => accounted.account j) j
        rw [unchanged] at all
        rw [same.syncTx]
        exact all
      · rw [same.globalVersion]
        exact accounted.covered
      · rw [same.syncTx]
        exact accounted.once
      · rw [same.syncTx]
        exact accounted.sent
      · rw [same.globalVersion]
        exact reached
  | takes command todo fresh counted wal syncTx thread entered made ahead promised unlogged =>
      have new : ∀ j v, kept j = some v → v ≤ pool.shared.server.globalVersion :=
        fun j v held => ((accounted.covered v).mp ⟨j, held⟩).2
      have unsent : pool.shared.server.globalVersion + 1 ∉
          pool.shared.server.syncTx.map Prod.fst := by
        intro member
        obtain ⟨logged, listed, same⟩ := List.mem_map.mp member
        obtain ⟨j, held⟩ := accounted.sent logged listed
        have := new j _ held
        omega
      cases Option.some.inj thread
      refine ⟨Function.update kept i (some (pool.shared.server.globalVersion + 1)),
        ⟨leader, fun j => ?_, fun j k v => ?_, fun v => ?_, ?_, fun logged listed => ?_⟩, ?_⟩
      · rw [syncTx]
        exact account_after (.taken entered made ahead promised unsent)
          (fun j _ => accounted.account j) j
      · simp only [Function.update_apply]
        split_ifs with isI isI'
        · intro _ _
          rw [isI, isI']
        · intro mine theirs
          have := new k v theirs
          rw [Option.some.injEq] at mine
          omega
        · intro theirs mine
          have := new j v theirs
          rw [Option.some.injEq] at mine
          omega
        · exact accounted.owner j k v
      · rw [counted]
        constructor
        · rintro ⟨j, held⟩
          simp only [Function.update_apply] at held
          split_ifs at held
          · rw [Option.some.injEq] at held
            omega
          · have := (accounted.covered v).mp ⟨j, held⟩
            omega
        · rintro ⟨above, below⟩
          by_cases last : v = pool.shared.server.globalVersion + 1
          · exact ⟨i, by rw [Function.update_self, last]⟩
          · obtain ⟨j, held⟩ := (accounted.covered v).mpr ⟨above, by omega⟩
            refine ⟨j, ?_⟩
            rw [Function.update_of_ne, held]
            rintro rfl
            rw [fresh] at held
            cases held
      · rw [syncTx]
        exact accounted.once
      · rw [syncTx] at listed
        obtain ⟨j, held⟩ := accounted.sent logged listed
        refine ⟨j, ?_⟩
        rw [Function.update_of_ne, held]
        rintro rfl
        rw [fresh] at held
        cases held
      · omega
  | appends version command todo held counted wal syncTx thread ahead account unsent unlogged =>
      refine ⟨kept, ⟨leader, fun j => ?_, accounted.owner, ?_, ?_, ?_⟩, ?_⟩
      · have all := account_after account (fun j _ => accounted.account j) j
        rw [unchanged] at all
        rw [syncTx]
        exact all
      · rw [counted]
        exact accounted.covered
      · rw [syncTx]
        exact accounted.once
      · rw [syncTx]
        exact accounted.sent
      · rw [counted]
        exact reached
  | sends version command held counted wal syncTx account unsent unlogged logged =>
      refine ⟨kept, ⟨leader, fun j => ?_, accounted.owner, ?_, ?_, fun entry listed => ?_⟩, ?_⟩
      · have all := account_after account (fun j other => by
          rw [syncTx]
          exact (accounted.account j).others
            (fun same => other (accounted.owner j i version same held)) command) j
        rw [unchanged] at all
        exact all
      · rw [counted]
        exact accounted.covered
      · rw [syncTx, List.map_append]
        refine List.nodup_append.mpr ⟨accounted.once, List.nodup_singleton _, ?_⟩
        rintro v member _ last rfl
        rw [List.map_singleton, List.mem_singleton] at last
        subst last
        exact unsent member
      · rw [syncTx] at listed
        rcases List.mem_append.mp listed with earlier | last
        · exact accounted.sent entry earlier
        · rw [List.mem_singleton.mp last]
          exact ⟨i, held⟩
      · rw [counted]
        exact reached

omit [Serde] in
theorem Accounted.start (accounted : Accounted requests first pool kept) {call : Call}
    (idle : pool.threads i = none) (made : (requests i).toCall pool.threads = some call) :
    Accounted requests first ⟨pool.shared, Function.update pool.threads i
      (some (.running 0 (program pool.shared.server.isReplica now call)))⟩ kept := by
  have none : kept i = none := by
    have account := accounted.account i
    rw [idle] at account
    cases held : kept i with
    | none => rfl
    | some v =>
        rw [held] at account
        cases account
  refine ⟨accounted.leader, fun j => ?_, accounted.owner, accounted.covered, accounted.once,
    accounted.sent⟩
  rw [accounted.leader]
  by_cases same : j = i
  · subst same
    simp only [Function.update_self, none]
    exact account_start made
  · simpa only [Function.update_of_ne same] using accounted.account j

/-! ## The log -/

/-- The log holds what is recorded, each command once, after what it held before. -/
structure Booked (old : List (Nat × WalCommand)) (pool : Pool κ κ) : Prop where
  readable : ∃ file, pool.shared.server.wal = some file ∧ (Wal.readAllCommands file).isSome = true
  log : ∃ new, pool.shared.server.logged = old ++ new ∧ new.Nodup ∧
    ∀ logged, logged ∈ new ↔ Recorded pool logged

variable {old : List (Nat × WalCommand)}

omit [Serde] in
/-- Only thread `i` has moved. -/
theorem recorded_after {shared : Shared κ} {next : Option Thread} (logged : Nat × WalCommand) :
    Recorded ⟨shared, Function.update pool.threads i next⟩ logged ↔
      logged ∈ shared.server.syncTx ∨ HasLogged next logged.1 logged.2 ∨
        ∃ j, j ≠ i ∧ HasLogged (pool.threads j) logged.1 logged.2 := by
  unfold Recorded
  refine or_congr_right ⟨?_, ?_⟩
  · rintro ⟨j, has⟩
    by_cases same : j = i
    · subst same
      exact Or.inl (by simpa only [Function.update_self] using has)
    · exact Or.inr ⟨j, same, by simpa only [Function.update_of_ne same] using has⟩
  · rintro (has | ⟨j, other, has⟩)
    · exact ⟨i, by simpa only [Function.update_self] using has⟩
    · exact ⟨j, by simpa only [Function.update_of_ne other] using has⟩

omit [Serde] in
theorem recorded_before {before : Option Thread} (running : pool.threads i = before)
    (logged : Nat × WalCommand) :
    Recorded pool logged ↔ logged ∈ pool.shared.server.syncTx ∨
      HasLogged before logged.1 logged.2 ∨
        ∃ j, j ≠ i ∧ HasLogged (pool.threads j) logged.1 logged.2 := by
  rw [← recorded_after, ← running, Function.update_eq_self]

theorem Booked.act (booked : Booked old pool) (accounted : Accounted requests first pool kept)
    {s : KindServerImpl} (lock : Option κ) {before next : Thread}
    (running : pool.threads i = some before)
    (moves : Moves (Makes (requests i)) pool.shared.server s (some before) (some next) (kept i)) :
    Booked old ⟨⟨s, lock⟩, Function.update pool.threads i (some next)⟩ := by
  obtain ⟨⟨file, held, readable⟩, new, log, distinct, listed⟩ := booked
  cases moves with
  | quiet same account logged =>
      refine ⟨⟨file, same.wal.trans held, readable⟩, new, ?_, distinct, fun entry => ?_⟩
      · rw [← log, KindServerImpl.logged, KindServerImpl.logged, same.wal]
      · rw [listed, recorded_before running, recorded_after, same.syncTx, logged]
  | takes command todo fresh counted wal syncTx thread entered made ahead promised unlogged =>
      refine ⟨⟨file, wal.trans held, readable⟩, new, ?_, distinct, fun entry => ?_⟩
      · rw [← log, KindServerImpl.logged, KindServerImpl.logged, wal]
      · have notYet : ¬ HasLogged (some next) entry.1 entry.2 := by
          cases Option.some.inj thread
          exact not_logged_of (fun c => by rw [ahead]; simp) _ _
        rw [listed, recorded_before running, recorded_after, syncTx]
        simp only [unlogged, notYet]
  | appends version command todo holds counted wal syncTx thread ahead account unsent unlogged =>
      obtain ⟨commands, found⟩ := Option.isSome_iff_exists.mp readable
      have appended : Wal.readAllCommands (Wal.append file version command) =
          some (commands ++ [(version, command)]) := by
        rw [Wal.readAllCommands_append, found]
        rfl
      have now : ∀ entry : Nat × WalCommand,
          HasLogged (some next) entry.1 entry.2 ↔ entry = (version, command) := by
        rintro ⟨v, c⟩
        cases Option.some.inj thread
        rw [Prod.mk.injEq]
        constructor
        · rintro ⟨todo', became, only⟩
          cases Option.some.inj became
          cases ahead.symm.trans only
          exact ⟨rfl, rfl⟩
        · rintro ⟨rfl, rfl⟩
          exact ⟨todo, rfl, ahead⟩
      have unlisted : (version, command) ∉ new := by
        rw [listed, recorded_before running]
        rintro (member | has | ⟨j, other, has⟩)
        · exact unsent (List.mem_map_of_mem member)
        · exact unlogged _ _ has
        · exact other (accounted.owner j i version
            (Account_hasLogged (accounted.account j) has).1 holds)
      refine ⟨⟨Wal.append file version command, by rw [wal, held]; rfl, by rw [appended]; rfl⟩,
        new ++ [(version, command)], ?_, ?_, fun entry => ?_⟩
      · rw [← List.append_assoc, ← log, KindServerImpl.logged, KindServerImpl.logged, wal, held,
          Option.map_some, Option.getD_some, Option.getD_some, appended, found]
        rfl
      · refine List.nodup_append.mpr ⟨distinct, List.nodup_singleton _, ?_⟩
        rintro l member _ last rfl
        rw [List.mem_singleton.mp last] at member
        exact unlisted member
      · rw [List.mem_append, List.mem_singleton, listed, recorded_before running, recorded_after,
          syncTx, now]
        simp only [unlogged, false_or]
        exact or_assoc.trans (or_congr_right or_comm)
  | sends version command holds counted wal syncTx account unsent unlogged logged =>
      refine ⟨⟨file, wal.trans held, readable⟩, new, ?_, distinct, fun entry => ?_⟩
      · rw [← log, KindServerImpl.logged, KindServerImpl.logged, wal]
      · have last : entry ∈ [(version, command)] ↔ entry.1 = version ∧ entry.2 = command := by
          rw [List.mem_singleton, Prod.ext_iff]
        rw [listed, recorded_before running, recorded_after, syncTx, List.mem_append, last, logged]
        simp only [unlogged]
        tauto

/-! ## Runs -/

omit [Serde] [DecidableEq κ] in
theorem accounted_start {s : KindServerImpl} (leader : s.isReplica = false)
    (silent : s.syncTx = []) :
    Accounted requests s.globalVersion (LogOrder.start s) fun _ => none := by
  refine ⟨leader, fun _ => .idle, fun _ _ _ held => (by cases held), fun v => ?_, ?_,
    ?_⟩
  · constructor
    · rintro ⟨_, held⟩
      cases held
    · rintro ⟨above, below⟩
      exact absurd (Nat.lt_of_lt_of_le above below) (Nat.lt_irrefl _)
  · rw [LogOrder.start, silent]
    exact List.nodup_nil
  · rw [LogOrder.start, silent]
    rintro _ ⟨⟩

theorem Accounted.step (accounted : Accounted requests first pool kept)
    (reached : first ≤ pool.shared.server.globalVersion)
    (stepped : LogOrder.step requests pool (i, now) = some pool') :
    (∃ kept', Accounted requests first pool' kept') ∧
      first ≤ pool'.shared.server.globalVersion := by
  rcases Pool.step_cases stepped with ⟨call, idle, made, rfl⟩ |
    ⟨version, action, rest, shared, next, running, effect, rfl⟩
  · exact ⟨⟨kept, accounted.start idle made⟩, reached⟩
  · have account := accounted.account i
    rw [running] at account
    obtain ⟨kept', after, reached'⟩ := accounted.act shared.walLock running
      (effect.isReplica.trans accounted.leader) reached (account.step effect)
    exact ⟨⟨kept', after⟩, reached'⟩

theorem Booked.step (booked : Booked old pool) (accounted : Accounted requests first pool kept)
    (stepped : LogOrder.step requests pool (i, now) = some pool') : Booked old pool' := by
  rcases Pool.step_cases stepped with ⟨call, idle, made, rfl⟩ |
    ⟨version, action, rest, shared, next, running, effect, rfl⟩
  · obtain ⟨readable, new, log, distinct, listed⟩ := booked
    refine ⟨readable, new, log, distinct, fun entry => ?_⟩
    have unlogged : ∀ v c, ¬ HasLogged (some (.running 0
        (program pool.shared.server.isReplica now call))) v c := by
      intro v c has
      rw [accounted.leader] at has
      cases (Account_hasLogged (@account_start κ _ _ _ now [] _ made) has).1
    have idleLogged : ∀ v c, ¬ HasLogged none v c := by
      rintro v c ⟨todo, ⟨⟩, _⟩
    rw [listed, recorded_before idle, recorded_after]
    simp only [unlogged, idleLogged]
  · have account := accounted.account i
    rw [running] at account
    exact booked.act accounted shared.walLock running (account.step effect)

/-- The call has returned and its write was acknowledged. -/
def Acknowledged (pool : Pool κ κ) (i : κ) : Prop :=
  ∃ r, pool.threads i = some (.done r) ∧ acknowledges r = true

omit [Serde] [DecidableEq κ] in
theorem isSome_kept (accounted : Accounted requests first pool kept)
    (returned : LogOrder.Returned pool) (i : κ) :
    ((kept i).isSome = true ↔ Acknowledged pool i) ∧
      ∀ v, kept i = some v → ∃ command, Makes (requests i) command ∧
        (v, command) ∈ pool.shared.server.syncTx := by
  have account := accounted.account i
  unfold Acknowledged
  generalize threadOf : pool.threads i = thread at account
  generalize keptOf : kept i = version at account
  cases account with
  | idle => simp
  | acknowledged made good listed =>
      refine ⟨iff_of_true rfl ⟨_, rfl, good⟩, ?_⟩
      rintro v ⟨⟩
      exact ⟨_, made, listed⟩
  | refused bad =>
      refine ⟨iff_of_false Bool.false_ne_true ?_, fun v held => (by cases held)⟩
      rintro ⟨r, ⟨⟩, good⟩
      rw [bad] at good
      cases good
  | _ => exact absurd threadOf (returned i _ _)

/-- A leader started on any snapshot and a log of whole records, and any calls
in any interleaving: when all that were made have returned, there is a version
for every acknowledged write and no other, no two share one, and log and
broadcasts both hold the command of each version since the start once. -/
theorem acknowledged_once (requests : κ → Request κ) (snapshotFile : Option (List SnapshotLine))
    (reg : SchemaRegistry) (old : List (Nat × WalCommand)) (start : UInt64)
    (events : List (κ × UInt64)) (pool : Pool κ κ)
    (ran : runFrom (LogOrder.step requests)
      (LogOrder.start (.new snapshotFile reg (some (Wal.written old)) false start)) events =
        some pool)
    (returned : LogOrder.Returned pool) :
    let first := (KindServerImpl.new snapshotFile reg (some (Wal.written old)) false
      start).globalVersion
    let server := pool.shared.server
    (∃ versionOf : κ → Option Nat,
      (∀ i, (versionOf i).isSome = true ↔ Acknowledged pool i) ∧
      (∀ i j v, versionOf i = some v → versionOf j = some v → i = j) ∧
      ∀ i v, versionOf i = some v →
        ∃ command, Makes (requests i) command ∧ (v, command) ∈ server.syncTx) ∧
    (server.syncTx.map Prod.fst).Perm (List.range' (first + 1) (server.globalVersion - first)) ∧
    ∃ new, server.logged = old ++ new ∧ new.Perm server.syncTx := by
  intro first server
  have read := Wal.readAllCommands_written old
  have invariant : (∃ kept, Accounted requests first pool kept) ∧
      first ≤ pool.shared.server.globalVersion ∧ Booked old pool := by
    refine runFrom_invariant (C := fun _ _ => True) (P := fun pool =>
      (∃ kept, Accounted requests first pool kept) ∧
        first ≤ pool.shared.server.globalVersion ∧ Booked old pool) ?_ events _ _
      (eachMeets_of_forall (fun _ _ => trivial) _ _) ran ?_
    · rintro pool ⟨i, now⟩ pool' - stepped ⟨⟨kept, accounted⟩, reached, booked⟩
      obtain ⟨accounted', reached'⟩ := accounted.step reached stepped
      exact ⟨accounted', reached', booked.step accounted stepped⟩
    · refine ⟨⟨_, accounted_start rfl rfl⟩, le_rfl, ⟨Wal.written old, rfl, by rw [read]; rfl⟩,
        [], ?_, List.nodup_nil, fun logged => iff_of_false (List.not_mem_nil) ?_⟩
      · rw [List.append_nil]
        exact congrArg (·.getD []) read
      · rintro (⟨⟨⟩⟩ | ⟨i, todo, ⟨⟩, _⟩)
  obtain ⟨⟨kept, accounted⟩, reached, booked⟩ := invariant
  have settled := fun i => isSome_kept accounted returned i
  refine ⟨⟨kept, fun i => (settled i).1, accounted.owner, fun i => (settled i).2⟩, ?_, ?_⟩
  · refine (List.perm_ext_iff_of_nodup accounted.once List.nodup_range').mpr fun v => ?_
    have within : v ∈ List.range' (first + 1) (server.globalVersion - first) ↔
        first < v ∧ v ≤ server.globalVersion := by
      rw [List.mem_range'_1]
      have : first ≤ server.globalVersion := reached
      omega
    rw [within, ← accounted.covered]
    constructor
    · intro member
      obtain ⟨logged, listed, rfl⟩ := List.mem_map.mp member
      exact accounted.sent logged listed
    · rintro ⟨i, held⟩
      obtain ⟨command, _, listed⟩ := (settled i).2 v held
      exact List.mem_map_of_mem listed
  · obtain ⟨new, log, distinct, listed⟩ := booked.log
    refine ⟨new, log, (List.perm_ext_iff_of_nodup distinct ?_).mpr fun logged => ?_⟩
    · exact List.Nodup.of_map _ accounted.once
    · rw [listed]
      refine or_iff_left ?_
      rintro ⟨i, todo, running, _⟩
      exact returned i _ _ running

end Pools

open SerdeJson in
/-- Two puts of which the second is logged first. -/
theorem acknowledged_once_overtaken : ∃ pool,
    runFrom (LogOrder.step LogOrder.twoPuts) (LogOrder.start (.new none .new (some []) false 0))
      LogOrder.overtaken = some pool ∧
    (pool.shared.server.syncTx.map Prod.fst).Perm (List.range' 1 pool.shared.server.globalVersion) ∧
    pool.shared.server.logged.Perm pool.shared.server.syncTx := by
  obtain ⟨pool, ran⟩ : ∃ pool, runFrom (LogOrder.step LogOrder.twoPuts)
      (LogOrder.start (.new none .new (some []) false 0)) LogOrder.overtaken = some pool := ⟨_, rfl⟩
  have done : (runFrom (LogOrder.step LogOrder.twoPuts)
      (LogOrder.start (.new none .new (some []) false 0)) LogOrder.overtaken).map (fun pool =>
        LogOrder.isDone (pool.threads false) && LogOrder.isDone (pool.threads true)) =
      some true := rfl
  rw [ran, Option.map_some, Option.some.injEq] at done
  obtain ⟨first, second⟩ := Bool.and_eq_true_iff.mp done
  obtain ⟨_, versions, new, log, same⟩ := acknowledged_once LogOrder.twoPuts none .new [] 0
    LogOrder.overtaken pool ran fun i => LogOrder.not_running (by cases i <;> assumption)
  refine ⟨pool, ran, versions, ?_⟩
  rw [log]
  exact same

end KindDb.ExactlyOnce
