import KindDb.Properties.ReplicaIndex
import KindDb.Properties.SnapshotInstall
import KindDb.Properties.StoreRefinement
import KindDb.Server.Link

/-! # A replica answers as its leader did

A replica that was brought up by a snapshot follows the log over connections
that lag and break.  Whatever a client reads from it is what the leader would
have answered at one moment of its past, the one with the replica's version.
The leader is known by its moves, so that a moment is a prefix of them. -/
set_option autoImplicit false

namespace KindDb.ReplicaReads

open KindDb.Lib KindDb.Lib.Overlay KindDb.Lib.Runs KindDb.Lib.Refinement KindDb.Schema
open KindDb.KindServerImpl KindDb.IndexExactness KindDb.StoreRefinement KindDb.Link

abbrev Move := { event : UInt64 × Op // ReplicaRestart.Op.TtlFree event.2 }

section Runs
variable [Serde]

/-! ## The leader and its past -/

section Leader
variable (reg : SchemaRegistry) (hasSnapshot hasWal : Bool)

/-- A leader started empty, after these moves. -/
def leaderAfter (moves : List Move) : KindServerImpl :=
  run serverStep (.fresh reg hasSnapshot hasWal false) (moves.map Subtype.val)

def machine : Machine (List Move) Move where
  server := leaderAfter reg hasSnapshot hasWal
  step moves move := some (moves ++ [move])

/-- A move has made the command, under its version. -/
def Stands (moves : List Move) (entry : Nat × WalCommand) : Prop :=
  ∃ earlier move, earlier ++ [move] <+: moves ∧
    move.val.2.command (leaderAfter reg hasSnapshot hasWal earlier) move.val.1 = some entry.2 ∧
    entry.1 = (leaderAfter reg hasSnapshot hasWal earlier).globalVersion + 1

end Leader

variable {reg : SchemaRegistry} {hasSnapshot hasWal : Bool} {moves : List Move} {move : Move}

theorem leaderAfter_concat : leaderAfter reg hasSnapshot hasWal (moves ++ [move]) =
    move.val.2.exec (leaderAfter reg hasSnapshot hasWal moves) move.val.1 := by
  rw [leaderAfter, List.map_append, run_append]
  rfl

theorem leads (moves : List Move) : (leaderAfter reg hasSnapshot hasWal moves).isReplica = false :=
  leader_run rfl _

theorem registry_leaderAfter (moves : List Move) :
    (leaderAfter reg hasSnapshot hasWal moves).schemaRegistry = reg := by
  induction moves using List.reverseRecOn with
  | nil => rfl
  | append_singleton moves move ih =>
      rw [leaderAfter_concat]
      exact (exec_settings (leads moves) _).schemaRegistry.trans ih

theorem sound_leaderAfter (moves : List Move) :
    Sound (leaderAfter reg hasSnapshot hasWal moves) := by
  induction moves using List.reverseRecOn with
  | nil => exact (shows_fresh reg hasSnapshot hasWal).sound
  | append_singleton moves move ih =>
      rw [leaderAfter_concat]
      exact ih.step (leads moves) move.property

/-- A move logs a command or leaves alone what a client can read. -/
theorem move_cases (moves : List Move) (move : Move) :
    let before := leaderAfter reg hasSnapshot hasWal moves
    let after := leaderAfter reg hasSnapshot hasWal (moves ++ [move])
    (∃ c, move.val.2.command before move.val.1 = some c ∧ Logged before after c) ∨
      (after.globalVersion = before.globalVersion ∧ after.contents = before.contents ∧
        (∀ entry ∈ after.logged, entry ∈ before.logged) ∧ after.syncTx = before.syncTx) := by
  intro before after
  have moved : after = move.val.2.exec before move.val.1 := leaderAfter_concat
  rw [moved]
  have leader : before.isReplica = false := leads moves
  cases logs : move.val.2.command before move.val.1 with
  | some c => exact Or.inl ⟨c, rfl, exec_logged leader logs⟩
  | none =>
      refine Or.inr ?_
      by_cases running : move.val.2 = .checkpoint
      · rw [running]
        simp only [Op.exec, saveSnapshotAndTruncateWal]
        cases before.snapshotFile with
        | none => exact ⟨rfl, rfl, fun _ member => member, rfl⟩
        | some file =>
            refine ⟨rfl, rfl, fun entry member => ?_, rfl⟩
            simp only [logged] at member
            cases wal : before.wal <;> simp [wal, Wal.truncate] at member
      · have quiet := exec_unlogged leader running logs
        refine ⟨quiet.globalVersion, funext fun key => ?_,
          fun entry member => quiet.logged ▸ member, quiet.syncTx⟩
        rcases quiet.tree key with same | ⟨_, r, held, expired⟩
        · exact congrArg (Option.map DbRecord.content) same
        · rw [(sound_leaderAfter moves).expiresAt held] at expired
          cases expired

theorem Stands.mono {later : List Move} (grown : moves <+: later) {entry : Nat × WalCommand}
    (stands : Stands reg hasSnapshot hasWal moves entry) :
    Stands reg hasSnapshot hasWal later entry := by
  obtain ⟨earlier, made, early, command, id⟩ := stands
  exact ⟨earlier, made, early.trans grown, command, id⟩

/-- What is in the log or was broadcast has been made by a move. -/
theorem stands_of_listed (moves : List Move) {entry : Nat × WalCommand}
    (listed : entry ∈ (leaderAfter reg hasSnapshot hasWal moves).logged ∨
      entry ∈ (leaderAfter reg hasSnapshot hasWal moves).syncTx) :
    Stands reg hasSnapshot hasWal moves entry := by
  induction moves using List.reverseRecOn with
  | nil =>
      cases hasSnapshot <;> cases hasWal <;> rcases listed with member | member <;> cases member
  | append_singleton moves move ih =>
      have grown : moves <+: moves ++ [move] := List.prefix_append ..
      rcases move_cases moves move with ⟨c, command, logged⟩ | ⟨_, _, kept, silent⟩
      · have split : (entry ∈ (leaderAfter reg hasSnapshot hasWal moves).logged ∨
            entry ∈ (leaderAfter reg hasSnapshot hasWal moves).syncTx) ∨
            entry = ((leaderAfter reg hasSnapshot hasWal moves).globalVersion + 1, c) := by
          rw [logged.syncTx, List.mem_append, List.mem_singleton] at listed
          rcases listed with inLog | sent | new
          · exact (logged.mem_logged inLog).imp_left Or.inl
          · exact Or.inl (Or.inr sent)
          · exact Or.inr new
        rcases split with earlier | rfl
        · exact (ih earlier).mono grown
        · exact ⟨moves, move, List.prefix_rfl, command, rfl⟩
      · refine (ih ?_).mono grown
        rcases listed with inLog | sent
        · exact Or.inl (kept entry inLog)
        · exact Or.inr (silent ▸ sent)

theorem faithful :
    Faithful (machine reg hasSnapshot hasWal) (fun _ => True) (Stands reg hasSnapshot hasWal) := by
  refine ⟨fun _ _ _ _ _ => trivial, fun moves move later stepped _ entry stands => ?_,
    fun moves _ entry member => stands_of_listed moves (Or.inl member),
    fun moves _ entry member => stands_of_listed moves (Or.inr member)⟩
  cases Option.some.inj stepped
  exact stands.mono (List.prefix_append ..)

/-- Versions only grow, and a version has one content. -/
theorem grown {earlier later : List Move} (grown : earlier <+: later) :
    let before := leaderAfter reg hasSnapshot hasWal earlier
    let after := leaderAfter reg hasSnapshot hasWal later
    before.globalVersion ≤ after.globalVersion ∧
      (after.globalVersion = before.globalVersion → after.contents = before.contents) := by
  obtain ⟨more, rfl⟩ := grown
  induction more using List.reverseRecOn with
  | nil =>
      rw [List.append_nil]
      exact ⟨le_rfl, fun _ => rfl⟩
  | append_singleton more move ih =>
      rw [← List.append_assoc]
      dsimp only at ih ⊢
      obtain ⟨growing, fixed⟩ := ih
      rcases @move_cases _ reg hasSnapshot hasWal (earlier ++ more) move with
        ⟨c, _, logged⟩ | ⟨version, contents, _⟩
      · have next := logged.globalVersion
        refine ⟨by omega, fun same => ?_⟩
        exact absurd (next.symm.trans same) (by omega)
      · rw [version, contents]
        exact ⟨growing, fixed⟩

theorem same_contents {first second : List Move} (inFirst : first <+: moves)
    (inSecond : second <+: moves)
    (version : (leaderAfter reg hasSnapshot hasWal first).globalVersion =
      (leaderAfter reg hasSnapshot hasWal second).globalVersion) :
    (leaderAfter reg hasSnapshot hasWal first).contents =
      (leaderAfter reg hasSnapshot hasWal second).contents := by
  rcases List.prefix_or_prefix_of_prefix inFirst inSecond with before | before
  · exact ((grown before).2 version.symm).symm
  · exact (grown before).2 version

/-! ## The replica -/

/-- A client that only reads cannot tell the replica from the leader. -/
structure Copy (leader replica : KindServerImpl) : Prop where
  isReplica : replica.isReplica = true
  registry : replica.schemaRegistry = leader.schemaRegistry
  sound : Sound replica
  uncached : ∀ key, replica.cache.peek key = none
  version : replica.globalVersion = leader.globalVersion
  contents : replica.contents = leader.contents

variable {leader leader' replica : KindServerImpl}

omit [Serde] in
theorem current_of_uncached (uncached : ∀ key, replica.cache.peek key = none) :
    ReadCoherence.CacheCurrent replica := by
  intro key val hit
  rw [uncached key] at hit
  cases hit

theorem uncached_unindexOld (key : String) : (replica.unindexOld key).cache = replica.cache := by
  rw [replica.unindexOld_eq]

theorem uncached_applySubCommand (txId : Nat) (cmd : WalCommand)
    (uncached : ∀ key, replica.cache.peek key = none) :
    ∀ key, (applySubCommand txId replica cmd).cache.peek key = none := by
  intro key
  cases cmd with
  | put written value expiresAt =>
      have cache : (applySubCommand txId replica (.put written value expiresAt)).cache =
          (replica.unindexOld written).cache.invalidate written := rfl
      rw [cache, uncached_unindexOld, Cache.LruCache.peek_invalidate, uncached, ite_self]
  | delete written =>
      have cache : (applySubCommand txId replica (.delete written)).cache =
          (replica.unindexOld written).cache.invalidate written := rfl
      rw [cache, uncached_unindexOld, Cache.LruCache.peek_invalidate, uncached, ite_self]
  | txCommit cmds => exact uncached key

theorem uncached_applyCommand (txId : Nat) (cmd : WalCommand)
    (uncached : ∀ key, replica.cache.peek key = none) :
    ∀ key, (replica.applyCommand txId cmd).cache.peek key = none := by
  cases cmd with
  | put written value expiresAt =>
      exact uncached_applySubCommand txId (.put written value expiresAt) uncached
  | delete written => exact uncached_applySubCommand txId (.delete written) uncached
  | txCommit cmds =>
      have applied : ∀ (cmds : List WalCommand) (s : KindServerImpl),
          (∀ key, s.cache.peek key = none) →
          ∀ key, (cmds.foldl (applySubCommand txId) s).cache.peek key = none := by
        intro cmds
        induction cmds with
        | nil => exact fun _ uncached => uncached
        | cons cmd rest ih =>
            exact fun s uncached => ih _ (uncached_applySubCommand txId cmd uncached)
      exact applied cmds _ uncached

/-- The next command of the leader, carried out by its copy. -/
theorem Copy.apply (copy : Copy leader replica) {c : WalCommand} (logged : Logged leader leader' c)
    (free : DeadlineFree c.updates) :
    Copy leader' (replica.applyCommand (leader.globalVersion + 1) c) := by
  have files := replica.sameFiles_applyCommand (leader.globalVersion + 1) c
  have uncached := uncached_applyCommand (leader.globalVersion + 1) c copy.uncached
  have contents := replica.contents_applyCommand (leader.globalVersion + 1) c
  refine ⟨files.isReplica.trans copy.isReplica,
    (files.schemaRegistry.trans copy.registry).trans logged.schemaRegistry.symm,
    ⟨?_, current_of_uncached uncached, ReplicaIndex.exact_applyCommand copy.sound.exact _ c⟩,
    uncached, logged.globalVersion.symm, ?_⟩
  · rw [contents]
    exact overlay_deadlineFree copy.sound.lasting free
  · rw [contents, copy.contents, ← funext logged.contents]

/-- Consecutive commands take the copy from one moment of the leader to a later one. -/
theorem Copy.applyAll {commands : List (Nat × WalCommand)} {seen : List Move}
    (early : seen <+: moves) (copy : Copy (leaderAfter reg hasSnapshot hasWal seen) replica)
    (ids : commands.map Prod.fst = List.range' (replica.globalVersion + 1) commands.length)
    (known : ∀ entry ∈ commands, Stands reg hasSnapshot hasWal moves entry) :
    ∃ seen', seen <+: seen' ∧ seen' <+: moves ∧
      Copy (leaderAfter reg hasSnapshot hasWal seen') (Link.applyAll replica commands) := by
  induction commands generalizing seen replica with
  | nil => exact ⟨seen, List.prefix_rfl, early, copy⟩
  | cons entry rest ih =>
      rw [List.map_cons, List.length_cons, List.range'_succ, List.cons.injEq] at ids
      obtain ⟨id, idsRest⟩ := ids
      obtain ⟨earlier, move, made, command, version⟩ := known entry List.mem_cons_self
      have inMoves : earlier <+: moves := (List.prefix_append ..).trans made
      have same : (leaderAfter reg hasSnapshot hasWal earlier).globalVersion =
          (leaderAfter reg hasSnapshot hasWal seen).globalVersion := by
        have := copy.version
        omega
      have here : Copy (leaderAfter reg hasSnapshot hasWal earlier) replica :=
        ⟨copy.isReplica, copy.registry.trans
          ((registry_leaderAfter seen).trans (registry_leaderAfter earlier).symm),
          copy.sound, copy.uncached, copy.version.trans same.symm,
          copy.contents.trans (same_contents inMoves early same).symm⟩
      have logged := exec_logged (leads earlier) command
      rw [← leaderAfter_concat] at logged
      have applied := here.apply logged (ReplicaRestart.deadlineFree_command move.property command)
      rw [← version] at applied
      have idsNext : rest.map Prod.fst =
          List.range' ((replica.applyCommand entry.1 entry.2).globalVersion + 1) rest.length := by
        rw [globalVersion_applyCommand, idsRest, id]
      obtain ⟨seen', later, inside, copied⟩ := ih made applied idsNext
        fun other member => known other (List.mem_cons_of_mem _ member)
      refine ⟨seen', ?_, inside, copied⟩
      -- the moment of the command is after the one before it
      rcases List.prefix_or_prefix_of_prefix made early with back | forth
      · have := (@grown _ reg hasSnapshot hasWal _ _ back).1
        have := logged.globalVersion
        omega
      · exact forth.trans later

/-! ## Bringing up a replica -/

/-- The snapshot of an idle leader, taken in by an empty replica. -/
def broughtUp (leader : KindServerImpl) (hasSnapshot hasWal : Bool) (clock : String → UInt64) :
    KindServerImpl :=
  (KindServerImpl.fresh leader.schemaRegistry hasSnapshot hasWal true).processStream
    (leader.snapshotStream clock)

theorem indexed_snapshots {maxTxId : Nat} {payloads : List SyncPayload}
    (chunks : ∀ payload ∈ payloads, ∃ records, payload = .snapshot { records, maxTxId })
    (s : KindServerImpl) (ik key : String) :
    (PostingIndex.Indexed (s.processStream payloads).indexes ik key ↔
      PostingIndex.Indexed s.indexes ik key ∨
        ∃ rec ∈ Chunking.records { chunk := [], sent := payloads },
          rec.key = key ∧ ik ∈ s.extractIndexKeys key rec.value) ∧
      (s.processStream payloads).cache = s.cache := by
  have untouched : ∀ (records : List Record) (s : KindServerImpl),
      (records.foldl (installRecord maxTxId) s).cache = s.cache := by
    intro records
    induction records with
    | nil => exact fun _ => rfl
    | cons rec rest ih => exact fun s => ih (installRecord maxTxId s rec)
  induction payloads generalizing s with
  | nil => exact ⟨by simp [processStream, Chunking.records], rfl⟩
  | cons payload rest ih =>
      obtain ⟨records, rfl⟩ := chunks _ List.mem_cons_self
      obtain ⟨filed, cache⟩ := ih (fun payload member => chunks payload
        (List.mem_cons_of_mem _ member)) (s.installChunk { records, maxTxId })
      have first := ReplicaIndex.indexed_installRecords maxTxId records s ik key
      have sameKeys : (s.installChunk { records, maxTxId }).extractIndexKeys =
          s.extractIndexKeys := by
        unfold KindServerImpl.extractIndexKeys
        rw [(sameFiles_installChunk s _).schemaRegistry]
      have collected :
          Chunking.records { chunk := [], sent := .snapshot { records, maxTxId } :: rest } =
            records ++ Chunking.records { chunk := [], sent := rest } := by
        simp [Chunking.records]
      refine ⟨?_, cache.trans (untouched records s)⟩
      simp only [processStream, processPayload]
      rw [filed, sameKeys, collected]
      have installed : PostingIndex.Indexed (s.installChunk { records, maxTxId }).indexes ik key ↔
          PostingIndex.Indexed s.indexes ik key ∨
            ∃ rec ∈ records, rec.key = key ∧ ik ∈ s.extractIndexKeys key rec.value := first
      rw [installed, or_assoc]
      refine or_congr_right ?_
      simp only [List.mem_append, or_and_right, exists_or]

theorem copy_broughtUp (sound : Sound leader) (hasSnapshot hasWal : Bool)
    (clock : String → UInt64) (sent : leader.snapshotStream clock ≠ []) :
    Copy leader (broughtUp leader hasSnapshot hasWal clock) := by
  obtain ⟨chunks, records⟩ := leader.snapshotStream_records clock
  obtain ⟨installed, version⟩ := SnapshotInstall.installed leader
    (.fresh leader.schemaRegistry hasSnapshot hasWal true) clock sent
  have files := sameFiles_snapshots chunks (.fresh leader.schemaRegistry hasSnapshot hasWal true)
  have empty : ∀ key, (KindServerImpl.fresh leader.schemaRegistry hasSnapshot hasWal
      true).contents key = none := by
    intro key
    cases hasSnapshot <;> cases hasWal <;> rfl
  have contents : (broughtUp leader hasSnapshot hasWal clock).contents = leader.contents := by
    funext key
    rw [broughtUp, installed, empty, Option.or_none]
    exact liveAt_of_free (sound.lasting key) _
  have uncached : ∀ key, (broughtUp leader hasSnapshot hasWal clock).cache.peek key = none := by
    intro key
    rw [broughtUp, (indexed_snapshots chunks _ "" key).2]
    cases hasSnapshot <;> cases hasWal <;> rfl
  refine ⟨files.isReplica, files.schemaRegistry,
    ⟨contents ▸ sound.lasting, current_of_uncached uncached, fun ik key => ?_⟩, uncached, version,
    contents⟩
  have noEntries : ¬ PostingIndex.Indexed (KindServerImpl.fresh leader.schemaRegistry hasSnapshot
      hasWal true).indexes ik key := by
    rw [← mem_filed]
    cases hasSnapshot <;> cases hasWal <;> exact List.not_mem_nil
  have keys : (broughtUp leader hasSnapshot hasWal clock).extractIndexKeys =
      leader.extractIndexKeys := by
    unfold KindServerImpl.extractIndexKeys
    rw [broughtUp, files.schemaRegistry]
    rfl
  rw [keys, ReplicaIndex.values_of_contents, contents, broughtUp,
    (indexed_snapshots chunks _ ik key).1, or_iff_right noEntries]
  have listed : ∀ held : Content, leader.contents key = some held ↔
      ∃ rec ∈ Chunking.records { chunk := [], sent := leader.snapshotStream clock },
        rec.update = (key, some held) := by
    intro held
    have live := liveAt_of_free (sound.lasting key) (clock key)
    have member : (key, some held) ∈ leader.liveUpdates clock ↔
        (some held).isSome = true ∧ liveAt (clock key) (leader.contents key) = some held :=
      mem_liveUpdates
    rw [← records, List.mem_map, live] at member
    exact ⟨fun held => member.mpr ⟨rfl, held⟩, fun named => (member.mp named).2⟩
  constructor
  · rintro ⟨rec, inStream, rfl, carried⟩
    have held := (listed (rec.value, rec.expiresAt)).mpr ⟨rec, inStream, rfl⟩
    exact ⟨rec.value, by rw [held, Option.map_some], carried⟩
  · rintro ⟨value, held, carried⟩
    obtain ⟨content, found, rfl⟩ := Option.map_eq_some_iff.mp held
    obtain ⟨rec, inStream, update⟩ := (listed content).mp found
    obtain ⟨rfl, value⟩ := Prod.mk.inj update
    refine ⟨rec, inStream, rfl, ?_⟩
    rw [← Option.some.inj value] at carried
    exact carried

/-! ## Clients of the replica -/

/-- A copy answers reads as the leader does, and refuses to write. -/
def readOnlyAnswer [ParseF64] (leader : KindServerImpl) : StoreRequest → StoreAnswer
  | .exec _ (.put _) => .write (.error (.permissionDenied readOnly))
  | .exec _ (.delete _) => .write (.error (.permissionDenied readOnly))
  | .exec _ (.cas _) => .write (.error (.permissionDenied readOnly))
  | .exec _ (.commit _) => .commit (.error (.commitFailed readOnly))
  | request => (serve leader request).1

omit [Serde] in
theorem reads_agree (contents : replica.contents = leader.contents) (key : String) :
    (view replica).read key = (view leader).read key := by
  rw [read_view, read_view]
  exact (ReplicaIndex.values_of_contents replica key).trans
    (contents ▸ (ReplicaIndex.values_of_contents leader key).symm)

omit [Serde] in
theorem selected_agree (contents : replica.contents = leader.contents)
    (test : String → Bytes → Bool) : selected (view replica) test = selected (view leader) test :=
  VersionedStore.select_congr (reads_agree contents) _

/-- Nothing has expired, so that no request changes what the copy holds. -/
theorem Copy.unlogged (copy : Copy leader replica) {replica' : KindServerImpl} {now : UInt64}
    (quiet : Unlogged replica replica' now) (exact : IndexExact replica')
    (cache : ∀ key, replica'.cache.peek key = replica.cache.peek key) : Copy leader replica' := by
  have uncached : ∀ key, replica'.cache.peek key = none :=
    fun key => (cache key).trans (copy.uncached key)
  have contents : replica'.contents = replica.contents := by
    funext key
    rcases quiet.tree key with same | ⟨_, r, held, expired⟩
    · exact congrArg (Option.map DbRecord.content) same
    · rw [copy.sound.expiresAt held] at expired
      cases expired
  exact ⟨quiet.isReplica.trans copy.isReplica, quiet.schemaRegistry.trans copy.registry,
    ⟨contents ▸ copy.sound.lasting, current_of_uncached uncached, exact⟩, uncached,
    quiet.globalVersion.trans copy.version, contents.trans copy.contents⟩

theorem Copy.exec [ParseF64] (copy : Copy leader replica) (sound : Sound leader) (now : UInt64)
    (op : Op) : reply replica now op = readOnlyAnswer leader (.exec now op) ∧
      Copy leader (op.exec replica now) := by
  have isReplica := copy.isReplica
  cases op with
  | get key =>
      have same : lookup (view replica) key = lookup (view leader) key := by
        unfold lookup
        rw [reads_agree copy.contents]
      refine ⟨congrArg StoreAnswer.record ?_, copy.unlogged (get_unlogged replica key now)
        (copy.sound.exact.get key now) fun k => ?_⟩
      · rw [copy.sound.get, same, sound.get]
      · exact (congrArg (·.peek k) (get_cache replica key now)).trans
          (Cache.LruCache.peek_get replica.cache key k)
  | put req => simpa [reply, readOnlyAnswer, Op.exec, put, putLogging, isReplica] using copy
  | delete key => simpa [reply, readOnlyAnswer, Op.exec, delete, deleteLogging, isReplica] using copy
  | cas req => simpa [reply, readOnlyAnswer, Op.exec, cas, casLogging, isReplica] using copy
  | commit tx =>
      simpa [reply, readOnlyAnswer, Op.exec, TxHandle.commit, TxHandle.commitLogging, isReplica]
        using copy
  | sweep =>
      refine ⟨rfl, copy.unlogged (sweep_unlogged replica now) (copy.sound.exact.sweep now) ?_⟩
      intro key
      simp only [Op.exec]
      rw [sweep_eq, (evict_spec _ replica).2]
  | checkpoint =>
      refine ⟨rfl, ?_⟩
      simp only [Op.exec, saveSnapshotAndTruncateWal]
      cases replica.snapshotFile with
      | none => exact copy
      | some file => exact ⟨copy.isReplica, copy.registry, ⟨copy.sound.lasting, copy.sound.current,
          copy.sound.exact⟩, copy.uncached, copy.version, copy.contents⟩

theorem Copy.serve [ParseF64] (copy : Copy leader replica) (sound : Sound leader)
    (request : StoreRequest) : (serve replica request).1 = readOnlyAnswer leader request ∧
      Copy leader (serve replica request).2 := by
  have same := selected_agree copy.contents
  cases request with
  | exec now op => exact copy.exec sound now op
  | beginTransaction => exact ⟨congrArg StoreAnswer.begun copy.version, copy⟩
  | rangeScan req clock =>
      refine ⟨congrArg StoreAnswer.records ?_, copy⟩
      rw [copy.sound.rangeScan, sound.rangeScan, same]
  | prefixScan req clock =>
      refine ⟨congrArg StoreAnswer.records ?_, copy⟩
      rw [copy.sound.prefixScan, sound.prefixScan, same]
  | query req clock =>
      refine ⟨congrArg StoreAnswer.records ?_, copy⟩
      rw [copy.sound.query, sound.query, copy.registry, same]

theorem Copy.answers [ParseF64] (copy : Copy leader replica) (sound : Sound leader)
    (requests : List StoreRequest) :
    Runs.answers StoreRefinement.serve replica requests = requests.map (readOnlyAnswer leader) := by
  induction requests generalizing replica with
  | nil => rfl
  | cons request rest ih =>
      obtain ⟨answered, copied⟩ := copy.serve sound request
      rw [Runs.answers, answered, ih copied, List.map_cons]

/-- The replica has been brought up after the moves of `past`; since then there
have been any moves, connections and losses, but no other snapshot.  All that
clients ask of the replica is answered from one moment of the leader since. -/
theorem replica_reads_past [ParseF64] (reg : SchemaRegistry) (hasSnapshot hasWal : Bool)
    (past : List Move) (clock : String → UInt64)
    (sent : (leaderAfter reg hasSnapshot hasWal past).snapshotStream clock ≠ [])
    (positive : 0 < (leaderAfter reg hasSnapshot hasWal past).globalVersion)
    (hasSnapshot' hasWal' : Bool) (labels : List (Label Move)) (sys : System (List Move))
    (ran : runFrom (step (machine reg hasSnapshot hasWal))
      { leader := past, task := none, inFlight := []
        replica := broughtUp (leaderAfter reg hasSnapshot hasWal past) hasSnapshot' hasWal' clock }
      labels = some sys)
    (plain : EachMeets (step (machine reg hasSnapshot hasWal)) NoSnapshot
      { leader := past, task := none, inFlight := []
        replica := broughtUp (leaderAfter reg hasSnapshot hasWal past) hasSnapshot' hasWal' clock }
      labels) :
    ∃ seen, past <+: seen ∧ seen <+: sys.leader ∧
      sys.replica.globalVersion = (leaderAfter reg hasSnapshot hasWal seen).globalVersion ∧
      ∀ requests, answers serve sys.replica requests =
        requests.map (readOnlyAnswer (leaderAfter reg hasSnapshot hasWal seen)) := by
  have copy := copy_broughtUp (sound_leaderAfter past) hasSnapshot' hasWal' clock sent
  have inside : past <+: sys.leader := by
    refine runFrom_invariant (C := fun _ _ => True) (P := fun now => past <+: now.leader) ?_
      labels _ sys (eachMeets_of_forall (fun _ _ => trivial) _ _) ran List.prefix_rfl
    intro now label next _ stepped before
    rcases leader_step stepped with same | ⟨move, moved⟩
    · exact same ▸ before
    · rw [← Option.some.inj moved]
      exact before.trans (List.prefix_append ..)
  obtain ⟨commands, followed⟩ := follows faithful ⟨trivial, fun _ member => (by cases member)⟩
    (copy.version ▸ positive) ran plain
  obtain ⟨seen, later, early, copied⟩ := copy.applyAll inside followed.ids followed.known
  rw [← followed.state] at copied
  exact ⟨seen, later, early, copied.version,
    fun requests => copied.answers (sound_leaderAfter seen) requests⟩

end Runs

/-! ## A replica that is behind -/

open SerdeJson

/-- No filter is used below. -/
local instance unread : ParseF64 := ⟨fun _ => none⟩

def moveTo (city : String) : Move :=
  ⟨(0, .put { key := "user:1", value := cityJson city, ttlMs := none }), rfl⟩

/-- The record of the first move is delivered, the one of the second is lost. -/
def twoMoves : List (Label Move) :=
  [.connect, .task 0, .task 0, .lead (moveTo "b"), .task 0, .deliver, .lead (moveTo "c"), .task 0,
    .drop]

theorem replica_reads_past_behind : ∃ sys seen,
    runFrom (step (machine userRegistry true true))
      { leader := [moveTo "a"], task := none, inFlight := []
        replica := broughtUp (leaderAfter userRegistry true true [moveTo "a"]) true true fun _ => 0 }
      twoMoves = some sys ∧
    [moveTo "a"] <+: seen ∧ seen <+: sys.leader ∧
      (leaderAfter userRegistry true true seen).globalVersion = 2 ∧
      ∀ requests, answers serve sys.replica requests =
        requests.map (readOnlyAnswer (leaderAfter userRegistry true true seen)) := by
  have ran : (runFrom (step (machine userRegistry true true))
      { leader := [moveTo "a"], task := none, inFlight := []
        replica := broughtUp (leaderAfter userRegistry true true [moveTo "a"]) true true fun _ => 0 }
      twoMoves).map (fun sys => sys.replica.globalVersion) = some 2 := by decide +kernel
  obtain ⟨sys, after, version⟩ := Option.map_eq_some_iff.mp ran
  obtain ⟨seen, later, early, same, answered⟩ := replica_reads_past userRegistry true true
    [moveTo "a"] (fun _ => 0) (by decide +kernel) (by decide +kernel) true true twoMoves sys after
    (eachMeets_of_passes noSnapshot_of_plain (by decide +kernel))
  exact ⟨sys, seen, after, later, early, same.symm.trans version, answered⟩

end KindDb.ReplicaReads
