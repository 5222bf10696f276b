import KindDb.SerdeJson
import KindDb.Server.Checkpoint
import KindDb.Server.Pool
import KindDb.Server.Sync
import KindDb.Server.Versions

/-! # Restarts of a replica

A replica logs the commands it applies, but not the snapshots it installs.  Its
files stand for the version that a recovery reads from them as long as commands
are applied only at a version the files show, and checkpoints are taken only
when the newest record has the replica's version. -/
set_option autoImplicit false

namespace KindDb.ReplicaRestart

open KindDb.Lib KindDb.Lib.Overlay KindDb.Lib.Runs KindDb.Schema KindDb.KindServerImpl
open KindDb.Checkpoint (TtlFree)

section Runs
variable [Serde]

/-! ## The two servers -/

/-- A leader with the map it had at each of its versions, and a replica. -/
structure System where
  leader : KindServerImpl
  mapAt : Nat → Option (String → Option Content)
  replica : KindServerImpl

inductive Label
  | leads (now : UInt64) (op : Op)
  | install (clock : String → UInt64)
  | apply
  | checkpoint (now : UInt64)
  | restart (now : UInt64)

/-- The leader broadcasts what the replica receives as its next command. -/
def nextRecord (sys : System) : Option SyncPayload :=
  (sys.leader.syncTx.find? (·.1 = sys.replica.globalVersion + 1)).map fun logged =>
    .walRecord { txId := logged.1, payload := some { c := logged.2, k := 0, txId := logged.1 } }

def step (sys : System) : Label → Option System
  | .leads now op =>
      let leader := op.exec sys.leader now
      some { sys with
        leader
        mapAt := Function.update sys.mapAt leader.globalVersion (some leader.contents) }
  | .install clock =>
      some { sys with replica := sys.replica.processStream (sys.leader.snapshotStream clock) }
  | .apply =>
      match nextRecord sys with
      | some payload => (sys.replica.processPayload payload).map fun replica => { sys with replica }
      | none => none
  | .checkpoint now => some { sys with replica := sys.replica.saveSnapshotAndTruncateWal now }
  | .restart now => some { sys with replica := sys.replica.restart now }

def start (reg reg' : SchemaRegistry) (hasSnapshot hasWal : Bool) : System where
  leader := .fresh reg hasSnapshot hasWal false
  mapAt := fun n => if n = 0 then some fun _ => none else none
  replica := .fresh reg' true true true

def Op.TtlFree : Op → Prop
  | .put req => req.ttlMs = none
  | .cas req => req.ttlMs = none
  | .commit tx => tx.writeSet.TtlFree
  | _ => True

def Label.TtlFree : Label → Prop
  | .leads _ op => Op.TtlFree op
  | _ => True

/-- The files show the version: in the log, or in a record of the snapshot. -/
def Saved (s : KindServerImpl) : Prop :=
  s.globalVersion = 0 ∨ (∃ logged ∈ s.logged, logged.1 = s.globalVersion) ∨
    ∃ r, .record r ∈ s.snapshotFile.getD [] ∧ r.record.version = s.globalVersion

/-- The newest record of the tree has the version of the server. -/
def Newest (s : KindServerImpl) : Prop :=
  VersionsBounded s ∧ (s.globalVersion = 0 ∨
    ∃ (key : String) (r : DbRecord), s.tree[key]? = some r ∧ r.version = s.globalVersion)

def Kept (sys : System) : Label → Prop
  | .install _ => ∀ key, sys.leader.contents key = none → sys.replica.contents key = none
  | .apply => Saved sys.replica
  | .checkpoint _ => Newest sys.replica
  | _ => True

/-! ## The leader and its past -/

omit [Serde] in
theorem deadlineFree_command {op : Op} (ttlFree : Op.TtlFree op) {s : KindServerImpl}
    {now : UInt64} {c : WalCommand} (logs : op.command s now = some c) :
    DeadlineFree c.updates := by
  intro u member held content
  cases op with
  | get key => cases logs
  | sweep => cases logs
  | checkpoint => cases logs
  | put req =>
      cases Option.some.inj logs
      cases List.mem_singleton.mp member
      cases Option.some.inj content
      exact congrArg (deadline now) ttlFree
  | cas req =>
      cases (Option.ite_none_right_eq_some.mp logs).2
      cases List.mem_singleton.mp member
      cases Option.some.inj content
      exact congrArg (deadline now) ttlFree
  | delete key =>
      cases (Option.ite_none_right_eq_some.mp logs).2
      cases List.mem_singleton.mp member
      cases content
  | commit tx =>
      cases (Option.ite_none_left_eq_some.mp logs).2
      obtain ⟨cmd, listed, named⟩ := List.mem_flatMap.mp member
      obtain ⟨entry, inSet, rfl⟩ := List.mem_map.mp listed
      obtain ⟨key, written⟩ := entry
      cases written with
      | none =>
          cases List.mem_singleton.mp named
          cases content
      | some rec =>
          cases List.mem_singleton.mp named
          cases Option.some.inj content
          exact ttlFree (key, some rec) inSet rec rfl

structure Leading (leader : KindServerImpl) (mapAt : Nat → Option (String → Option Content)) :
    Prop where
  leads : leader.isReplica = false
  free : ∀ key held, leader.contents key = some held → held.2 = none
  now : mapAt leader.globalVersion = some leader.contents
  past : ∀ logged ∈ leader.syncTx, DeadlineFree logged.2.updates ∧
    ∃ n before, logged.1 = n + 1 ∧ n + 1 ≤ leader.globalVersion ∧ mapAt n = some before ∧
      mapAt (n + 1) = some (overlay before logged.2.updates)

/-- An operation of the leader adds a map and leaves the earlier ones alone. -/
theorem Leading.step {sys : System} (leading : Leading sys.leader sys.mapAt) {now : UInt64}
    {op : Op} (ttlFree : Op.TtlFree op) :
    let leader := op.exec sys.leader now
    let mapAt := Function.update sys.mapAt leader.globalVersion (some leader.contents)
    Leading leader mapAt ∧ sys.leader.globalVersion ≤ leader.globalVersion ∧
      ∀ n, n ≤ sys.leader.globalVersion → mapAt n = sys.mapAt n := by
  intro leader mapAt
  have leads := (@exec_settings _ _ now leading.leads op).isReplica.trans leading.leads
  cases logs : op.command sys.leader now with
  | some c =>
      have logged := exec_logged leading.leads logs
      have contents : leader.contents = overlay sys.leader.contents c.updates :=
        funext logged.contents
      have earlier : ∀ n, n ≤ sys.leader.globalVersion → mapAt n = sys.mapAt n := by
        intro n before
        refine Function.update_of_ne ?_ _ _
        rw [logged.globalVersion]
        omega
      have free := deadlineFree_command ttlFree logs
      refine ⟨⟨leads, ?_, Function.update_self .., ?_⟩, by rw [logged.globalVersion]; omega, earlier⟩
      · rw [contents]
        exact overlay_deadlineFree leading.free free
      · intro entry member
        rw [logged.syncTx] at member
        rcases List.mem_append.mp member with old | new
        · obtain ⟨freeOld, n, before, id, bound, held, after⟩ := leading.past entry old
          refine ⟨freeOld, n, before, id, ?_, ?_, ?_⟩
          · rw [logged.globalVersion]
            omega
          · rw [earlier n (by omega), held]
          · rw [earlier (n + 1) bound, after]
        · cases List.mem_singleton.mp new
          refine ⟨free, _, sys.leader.contents, rfl, logged.globalVersion.ge, ?_, ?_⟩
          · rw [earlier _ le_rfl, leading.now]
          · rw [← contents, ← logged.globalVersion]
            exact Function.update_self ..
  | none =>
      have version : leader.globalVersion = sys.leader.globalVersion := by
        rcases @exec_cases _ _ now leading.leads op with ⟨c, some, _⟩ | ⟨_, version, _⟩
        · rw [logs] at some
          cases some
        · exact version
      have same : leader.contents = sys.leader.contents ∧ leader.syncTx = sys.leader.syncTx := by
        by_cases running : op = .checkpoint
        · subst running
          simp only [leader, Op.exec, saveSnapshotAndTruncateWal]
          cases sys.leader.snapshotFile <;> exact ⟨rfl, rfl⟩
        · have quiet := exec_unlogged leading.leads running logs
          refine ⟨funext fun key => ?_, quiet.syncTx⟩
          rcases quiet.tree key with kept | ⟨_, r, held, expired⟩
          · exact congrArg (Option.map DbRecord.content) kept
          · have deadline := leading.free key r.content (by simp [KindServerImpl.contents, held])
            rw [show r.expiresAt = none from deadline] at expired
            cases expired
      have unchanged : mapAt = sys.mapAt := by
        simp only [mapAt, version, same.1, ← leading.now]
        exact Function.update_eq_self ..
      refine ⟨⟨leads, ?_, ?_, ?_⟩, version.ge, fun n _ => congrFun unchanged n⟩
      · rw [same.1]
        exact leading.free
      · rw [unchanged, version, same.1]
        exact leading.now
      · rw [unchanged, version, same.2]
        exact leading.past

/-! ## The replica and its files -/

theorem counter_restart {s : KindServerImpl} (positive : ∀ logged ∈ s.logged, 0 < logged.1)
    (ttlFree : TtlFree s) (t : UInt64) (n : Nat) :
    n ≤ (s.restart t).globalVersion ↔
      n = 0 ∨ (∃ r, .record r ∈ s.snapshotFile.getD [] ∧ n ≤ r.record.version) ∨
        ∃ logged ∈ s.logged, n ≤ logged.1 := by
  have loads : ∀ r, Recovery.Loads (s.snapshotFile.getD []) t r ↔
      .record r ∈ s.snapshotFile.getD [] := by
    intro r
    refine and_iff_left_of_imp fun member => ?_
    have deadline := ttlFree.disk (r.key, some r.record.content)
      (List.mem_append_left _ (List.mem_flatMap.mpr ⟨.record r, member, by simp [SnapshotLine.updates]⟩))
      r.record.content rfl
    rw [show r.record.expiresAt = none from deadline]
    rfl
  refine (Recovery.le_maxVer_recover _ positive).trans ?_
  simp only [loads]
  rfl

theorem contents_restart_free {s : KindServerImpl} (ttlFree : TtlFree s) (t : UInt64) :
    (s.restart t).contents = overlay (fun _ => none) s.onDisk := by
  rw [contents_restart, effectiveAt_of_deadlineFree ttlFree.disk]

structure Following (mapAt : Nat → Option (String → Option Content)) (s : KindServerImpl) :
    Prop where
  memory : mapAt s.globalVersion = some s.contents
  ttlFree : TtlFree s
  hasSnapshot : s.snapshotFile.isSome = true
  readable : ∃ file, s.wal = some file ∧ (Wal.readAllCommands file).isSome = true
  positive : ∀ logged ∈ s.logged, 0 < logged.1
  saved : ∀ t, (s.restart t).globalVersion ≤ s.globalVersion
  disk : ∀ t, mapAt (s.restart t).globalVersion = some (s.restart t).contents

variable {mapAt : Nat → Option (String → Option Content)} {s : KindServerImpl}

theorem Following.free (following : Following mapAt s) (key : String) (held : Content)
    (found : s.contents key = some held) : held.2 = none := by
  obtain ⟨r, inTree, rfl⟩ := Option.map_eq_some_iff.mp found
  exact following.ttlFree.tree key r inTree

/-- The maps of the versions up to the replica's are all that counts. -/
theorem Following.congr (following : Following mapAt s)
    {mapAt' : Nat → Option (String → Option Content)}
    (same : ∀ n, n ≤ s.globalVersion → mapAt' n = mapAt n) : Following mapAt' s :=
  { following with
    memory := (same _ le_rfl).trans following.memory
    disk := fun t => (same _ (following.saved t)).trans (following.disk t) }

theorem Following.restart (following : Following mapAt s) (now : UInt64) :
    Following mapAt (s.restart now) where
  memory := following.disk now
  ttlFree := by
    refine ⟨fun key r held => ?_, following.ttlFree.disk⟩
    have free : ∀ key held, (s.restart now).contents key = some held → held.2 = none := by
      rw [contents_restart_free following.ttlFree]
      exact overlay_deadlineFree nofun following.ttlFree.disk
    exact free key r.content (by simp [KindServerImpl.contents, held])
  hasSnapshot := following.hasSnapshot
  readable := following.readable
  positive := following.positive
  saved := fun t => by
    have counter := counter_restart following.positive following.ttlFree
    exact ((counter now _).mpr ((counter t _).mp le_rfl))
  disk := following.disk

theorem Following.checkpoint (following : Following mapAt s) (newest : Newest s) (now : UInt64) :
    Following mapAt (s.saveSnapshotAndTruncateWal now) := by
  obtain ⟨lines, held⟩ := Option.isSome_iff_exists.mp following.hasSnapshot
  obtain ⟨file, heldWal, _⟩ := following.readable
  have became : s.saveSnapshotAndTruncateWal now =
      { s with snapshotFile := some (s.snapshotLines now), wal := some [] } := by
    simp [saveSnapshotAndTruncateWal, held, heldWal, Wal.truncate]
  rw [became]
  let s' : KindServerImpl :=
    { s with snapshotFile := some (s.snapshotLines now), wal := some [] }
  have free := following.free
  have disk : s'.onDisk = s.liveUpdates fun _ => now := by
    simp [s', onDisk, fileUpdates, walUpdates, ← updates_snapshotLines]
  have ttlFree : TtlFree s' := by
    refine ⟨following.ttlFree.tree, ?_⟩
    rw [disk]
    rintro ⟨key, update⟩ member content same
    cases same
    obtain ⟨_, live⟩ := mem_liveUpdates.mp member
    rw [liveAt_of_free (free key)] at live
    exact free key content live
  have none : ∀ logged ∈ s'.logged, 0 < logged.1 := by
    intro logged member
    cases member
  have listed : ∀ key r, s.tree[key]? = some r →
      SnapshotLine.record { key, record := r } ∈ s.snapshotLines now := by
    intro key r inTree
    refine List.mem_map.mpr ⟨(key, r), List.mem_filter.mpr
      ⟨Std.ExtTreeMap.mem_toList_iff_getElem?_eq_some.mpr inTree, ?_⟩, rfl⟩
    simp [following.ttlFree.tree key r inTree]
  have counter := counter_restart none ttlFree
  have saved : ∀ t, (s'.restart t).globalVersion ≤ s.globalVersion := by
    intro t
    rcases (counter t _).mp le_rfl with zero | ⟨r, member, le⟩ | ⟨logged, member, _⟩
    · omega
    · obtain ⟨entry, taken, same⟩ := List.mem_map.mp member
      cases same
      have inTree := Std.ExtTreeMap.mem_toList_iff_getElem?_eq_some.mp (List.mem_filter.mp taken).1
      exact le.trans (newest.1 entry.1 entry.2 inTree)
    · cases member
  refine ⟨following.memory, ttlFree, rfl, ⟨[], rfl, rfl⟩, none, saved, fun t => ?_⟩
  have version : (s'.restart t).globalVersion = s.globalVersion := by
    refine (saved t).antisymm ((counter t _).mpr ?_)
    rcases newest.2 with zero | ⟨key, r, inTree, same⟩
    · exact Or.inl zero
    · exact Or.inr (Or.inl ⟨{ key, record := r }, listed key r inTree, same.ge⟩)
  have contents : (s'.restart t).contents = s.contents := by
    rw [contents_restart_free ttlFree, disk]
    funext key
    rw [overlay_liveUpdates, liveAt_of_free (free key), Option.or_none]
  rw [version, contents]
  exact following.memory

theorem Following.apply (following : Following mapAt s) (saved : Saved s) {c : WalCommand}
    (free : DeadlineFree c.updates)
    (next : mapAt (s.globalVersion + 1) = some (overlay s.contents c.updates)) :
    Following mapAt (s.applyCommand (s.globalVersion + 1) c) := by
  obtain ⟨file, held, readable⟩ := following.readable
  obtain ⟨commands, found⟩ := Option.isSome_iff_exists.mp readable
  have files := sameFiles_applyCommand s (s.globalVersion + 1) c
  have contents := contents_applyCommand s (s.globalVersion + 1) c
  have wal : (s.applyCommand (s.globalVersion + 1) c).wal =
      some (Wal.append file (s.globalVersion + 1) c) := by
    rw [files.wal, walAppend, held]
    rfl
  have snapshot := files.snapshotFile
  have disk : (s.applyCommand (s.globalVersion + 1) c).onDisk = s.onDisk ++ c.updates := by
    simp only [onDisk, wal, snapshot, held, walAppend, Option.getD_some]
    exact fileUpdates_append _ readable _ c
  have logged : (s.applyCommand (s.globalVersion + 1) c).logged =
      s.logged ++ [(s.globalVersion + 1, c)] := by
    simp [KindServerImpl.logged, wal, held, Wal.readAllCommands_append, found]
  have ttlFree : TtlFree (s.applyCommand (s.globalVersion + 1) c) := by
    refine ⟨fun key r inTree => ?_, ?_⟩
    · refine overlay_deadlineFree following.free free key r.content ?_
      rw [← contents]
      simp [KindServerImpl.contents, inTree]
    · rw [disk]
      exact fun u member => (List.mem_append.mp member).elim (following.ttlFree.disk u) (free u)
  have positive : ∀ logged ∈ (s.applyCommand (s.globalVersion + 1) c).logged, 0 < logged.1 := by
    rw [logged]
    intro entry member
    rcases List.mem_append.mp member with old | new
    · exact following.positive entry old
    · rw [List.mem_singleton.mp new]
      exact Nat.succ_pos _
  have before := counter_restart following.positive following.ttlFree
  have counter := counter_restart positive ttlFree
  have version : ∀ t, ((s.applyCommand (s.globalVersion + 1) c).restart t).globalVersion =
      s.globalVersion + 1 := by
    intro t
    refine le_antisymm ?_ ((counter t _).mpr (Or.inr (Or.inr
      ⟨(s.globalVersion + 1, c), ?_, le_rfl⟩)))
    · have old : ∀ n, (n = 0 ∨ (∃ r, .record r ∈ s.snapshotFile.getD [] ∧ n ≤ r.record.version) ∨
          ∃ logged ∈ s.logged, n ≤ logged.1) → n ≤ s.globalVersion :=
        fun n shown => ((before t n).mpr shown).trans (following.saved t)
      rcases (counter t _).mp le_rfl with zero | loaded | ⟨entry, member, le⟩
      · omega
      · rw [snapshot] at loaded
        exact Nat.le_succ_of_le (old _ (Or.inr (Or.inl loaded)))
      · rw [logged] at member
        rcases List.mem_append.mp member with earlier | last
        · exact Nat.le_succ_of_le (old _ (Or.inr (Or.inr ⟨entry, earlier, le⟩)))
        · rw [List.mem_singleton.mp last] at le
          exact le
    · rw [logged]
      exact List.mem_append_right _ (List.mem_singleton_self _)
  refine ⟨next.trans (congrArg some contents.symm), ttlFree, snapshot ▸ following.hasSnapshot,
    ⟨_, wal, by simp [Wal.readAllCommands_append, found]⟩, positive, fun t => (version t).le,
    fun t => ?_⟩
  -- the files stand for the version at which the command is applied
  have inStep : (s.restart t).globalVersion = s.globalVersion := by
    refine (following.saved t).antisymm ((before t _).mpr ?_)
    rcases saved with zero | ⟨entry, member, same⟩ | ⟨r, member, same⟩
    · exact Or.inl zero
    · exact Or.inr (Or.inr ⟨entry, member, same.ge⟩)
    · exact Or.inr (Or.inl ⟨r, member, same.ge⟩)
  have same : (s.restart t).contents = s.contents := by
    have shown := following.disk t
    rw [inStep, following.memory] at shown
    exact (Option.some.inj shown).symm
  rw [version t, next, contents_restart_free ttlFree, disk, overlay_append,
    ← contents_restart_free following.ttlFree t, same]

theorem Following.install (following : Following mapAt s) {leader : KindServerImpl}
    (leading : Leading leader mapAt) (clock : String → UInt64)
    (behind : s.globalVersion ≤ leader.globalVersion)
    (keys : ∀ key, leader.contents key = none → s.contents key = none) :
    let s' := s.processStream (leader.snapshotStream clock)
    Following mapAt s' ∧ s'.globalVersion ≤ leader.globalVersion := by
  intro s'
  obtain ⟨chunks, records⟩ := leader.snapshotStream_records clock
  obtain ⟨contents, version⟩ := processStream_snapshots s chunks
  by_cases nothing : leader.snapshotStream clock = []
  · have same : s' = s := by rw [show s' = s.processStream _ from rfl, nothing]; rfl
    rw [same]
    exact ⟨following, behind⟩
  have files := sameFiles_snapshots chunks s
  have installed : s'.contents = leader.contents := by
    refine contents.trans (funext fun key => ?_)
    rw [records, overlay_liveUpdates, liveAt_of_free (leading.free key)]
    cases held : leader.contents key with
    | some c => rfl
    | none => rw [keys key held, Option.or_none]
  refine ⟨⟨?_, ⟨fun key r inTree => ?_, ?_⟩, files.snapshotFile ▸ following.hasSnapshot,
    files.wal ▸ following.readable, ?_, fun t => ?_, fun t => ?_⟩, (version nothing).le⟩
  · rw [version nothing, installed]
    exact leading.now
  · refine leading.free key r.content ?_
    rw [← installed]
    simp [KindServerImpl.contents, inTree]
  · rw [files.onDisk]
    exact following.ttlFree.disk
  · rw [KindServerImpl.logged, files.wal]
    exact following.positive
  · rw [files.restart, version nothing]
    exact (following.saved t).trans behind
  · rw [files.restart]
    exact following.disk t

/-! ## The system -/

structure Inv (sys : System) : Prop where
  leading : Leading sys.leader sys.mapAt
  following : Following sys.mapAt sys.replica
  behind : sys.replica.globalVersion ≤ sys.leader.globalVersion

theorem inv_start (reg reg' : SchemaRegistry) (hasSnapshot hasWal : Bool) :
    Inv (start reg reg' hasSnapshot hasWal) := by
  have version : (start reg reg' hasSnapshot hasWal).leader.globalVersion = 0 := by
    cases hasSnapshot <;> cases hasWal <;> rfl
  have contents : (start reg reg' hasSnapshot hasWal).leader.contents = fun _ => none := by
    cases hasSnapshot <;> cases hasWal <;> rfl
  have disk : TtlFree (start reg reg' hasSnapshot hasWal).replica := by
    refine ⟨fun key r held => ?_, List.forall_mem_nil _⟩
    have free : (start reg reg' hasSnapshot hasWal).replica.contents key = none := rfl
    simp [KindServerImpl.contents, held] at free
  refine ⟨⟨rfl, ?_, ?_, List.forall_mem_nil _⟩,
    ⟨rfl, disk, rfl, ⟨[], rfl, rfl⟩, List.forall_mem_nil _, fun _ => le_rfl, fun _ => rfl⟩,
    Nat.zero_le _⟩
  · intro key held found
    rw [contents] at found
    cases found
  · rw [version, contents]
    rfl

theorem Inv.step {sys sys' : System} (inv : Inv sys) {label : Label} (ttlFree : label.TtlFree)
    (kept : Kept sys label) (stepped : ReplicaRestart.step sys label = some sys') : Inv sys' := by
  obtain ⟨leading, following, behind⟩ := inv
  cases label with
  | leads now op =>
      cases Option.some.inj stepped
      obtain ⟨leading', grows, earlier⟩ := @Leading.step _ sys leading now op ttlFree
      exact ⟨leading', following.congr fun n before => earlier n (before.trans behind),
        behind.trans grows⟩
  | install clock =>
      cases Option.some.inj stepped
      obtain ⟨following', behind'⟩ := following.install leading clock behind kept
      exact ⟨leading, following', behind'⟩
  | apply =>
      simp only [ReplicaRestart.step, nextRecord] at stepped
      cases next : sys.leader.syncTx.find? (·.1 = sys.replica.globalVersion + 1) with
      | none => simp [next] at stepped
      | some logged =>
          obtain ⟨txId, c⟩ := logged
          have id : txId = sys.replica.globalVersion + 1 := by
            simpa using List.find?_some next
          subst id
          obtain ⟨free, n, before, same, bound, held, after⟩ :=
            leading.past _ (List.mem_of_find?_eq_some next)
          cases Nat.succ.inj same
          rw [following.memory, Option.some.injEq] at held
          subst held
          simp only [next, Option.map_some, processPayload] at stepped
          rw [if_neg (by omega), if_neg (by simp)] at stepped
          cases Option.some.inj stepped
          exact ⟨leading, following.apply kept free after, bound⟩
  | checkpoint now =>
      cases Option.some.inj stepped
      refine ⟨leading, following.checkpoint kept now, ?_⟩
      have same : (sys.replica.saveSnapshotAndTruncateWal now).globalVersion =
          sys.replica.globalVersion := by
        unfold saveSnapshotAndTruncateWal
        cases sys.replica.snapshotFile <;> rfl
      exact same.trans_le behind
  | restart now =>
      cases Option.some.inj stepped
      exact ⟨leading, following.restart now, (following.saved now).trans behind⟩

/-- Whatever the order of installs, commands, checkpoints and restarts, a
replica that was restarted holds what the leader held at the version recovered. -/
theorem restart_restores (reg reg' : SchemaRegistry) (hasSnapshot hasWal : Bool)
    (labels : List Label) (ttlFree : ∀ label ∈ labels, label.TtlFree)
    (kept : EachMeets step Kept (start reg reg' hasSnapshot hasWal) labels) (now : UInt64)
    (final : System)
    (ran : runFrom step (start reg reg' hasSnapshot hasWal) (labels ++ [.restart now]) =
      some final) :
    final.mapAt final.replica.globalVersion = some final.replica.contents := by
  rw [runFrom_append] at ran
  obtain ⟨sys, before, restarted⟩ := Option.bind_eq_some_iff.mp ran
  have inv := runFrom_invariant (fun _ _ _ allowed stepped inv => Inv.step inv allowed.2 allowed.1 stepped)
    labels _ sys (kept.and (eachMeets_of_labels (fun label member _ => ttlFree label member) _))
    before (inv_start reg reg' hasSnapshot hasWal)
  cases Option.some.inj restarted
  exact inv.following.disk now

end Runs

/-! ## A command applied behind a snapshot -/

open SerdeJson

def putAt (key : String) : Label := .leads 0 (.put { key, value := [1], ttlMs := none })

def newSystem : System := start .new .new false false

/-- The replica saves the snapshot before it applies the next command. -/
theorem restart_restores_saved :
    ∃ final, runFrom step newSystem
        ([putAt "a", .install fun _ => 0, .checkpoint 0, putAt "b", .apply] ++ [.restart 0]) =
          some final ∧
      final.mapAt final.replica.globalVersion = some final.replica.contents := by
  have runs : (runFrom step newSystem ([putAt "a", .install fun _ => 0, .checkpoint 0, putAt "b",
      .apply] ++ [.restart 0])).isSome = true := rfl
  obtain ⟨final, ran⟩ := Option.isSome_iff_exists.mp runs
  refine ⟨final, ran, restart_restores .new .new false false _ ?_ ?_ 0 final ran⟩
  · intro label member
    simp only [List.mem_cons, List.not_mem_nil, or_false] at member
    rcases member with rfl | rfl | rfl | rfl | rfl
    exacts [rfl, trivial, trivial, rfl, trivial]
  · refine ⟨trivial, fun first putA => ⟨?_, fun second installed => ⟨?_, fun third saved =>
      ⟨trivial, fun fourth putB => ⟨?_, fun _ _ => trivial⟩⟩⟩⟩⟩
    · cases Option.some.inj putA
      exact fun _ _ => rfl
    · cases Option.some.inj putA
      cases Option.some.inj installed
      refine ⟨fun key r held => ?_, Or.inr ⟨"a", ⟨[1], none, 1⟩, by decide, rfl⟩⟩
      have listed := Std.ExtTreeMap.mem_toList_iff_getElem?_eq_some.mpr held
      rw [show Std.ExtTreeMap.toList _ = [("a", ⟨[1], none, 1⟩)] by decide,
        List.mem_singleton] at listed
      cases listed
      decide
    · cases Option.some.inj putA
      cases Option.some.inj installed
      cases Option.some.inj saved
      cases Option.some.inj putB
      exact Or.inr (Or.inr ⟨{ key := "a", record := ⟨[1], none, 1⟩ }, by decide, rfl⟩)

theorem snapshot_lost_in_restart :
    ¬ ∀ (reg reg' : SchemaRegistry) (hasSnapshot hasWal : Bool) (labels : List Label),
      (∀ label ∈ labels, label.TtlFree) → ∀ (now : UInt64) (final : System),
      runFrom step (start reg reg' hasSnapshot hasWal) (labels ++ [.restart now]) = some final →
      final.mapAt final.replica.globalVersion = some final.replica.contents := by
  intro claim
  have ends : (runFrom step newSystem ([putAt "a", .install fun _ => 0, putAt "b", .apply] ++
      [.restart 0])).map (fun sys => (sys.replica.globalVersion,
        (sys.replica.contents "a").isSome, ((sys.mapAt 2).bind (· "a")).isSome)) =
      some (2, false, true) := by
    decide +kernel
  obtain ⟨final, ran, state⟩ := Option.map_eq_some_iff.mp ends
  simp only [Prod.mk.injEq] at state
  obtain ⟨version, lost, held⟩ := state
  have same := claim .new .new false false _ (fun label member => ?_) 0 final ran
  · rw [version] at same
    rw [same, Option.bind_some, lost] at held
    cases held
  · simp only [List.mem_cons, List.not_mem_nil, or_false] at member
    rcases member with rfl | rfl | rfl | rfl
    exacts [rfl, trivial, rfl, trivial]

end KindDb.ReplicaRestart
