import KindDb.Lib.IndexReplay
import KindDb.Server.State

/-! # Recovery: `KindServerImpl::new`

The snapshot is loaded first, then the log is replayed over it.  Records whose
deadline has passed by the time of the recovery are skipped.  The source
repeats the insertion and the removal inline in three and two places; here each
is one definition. -/
set_option autoImplicit false

namespace KindDb

open KindDb.Lib KindDb.Cache KindDb.Schema

/-- `tree`, `indexes` and `max_ver` while `new` runs. -/
structure Recovery where
  tree : Tree
  indexes : PostingIndex String String
  maxVer : Nat

namespace Recovery

variable [Serde]

def empty : Recovery := { tree := ∅, indexes := ∅, maxVer := 0 }

/-- The new keys are filed, the tree entry is replaced; the keys of a replaced
value stay filed. -/
def insertRecord (reg : SchemaRegistry) (st : Recovery) (key : String) (record : DbRecord) :
    Recovery :=
  { st with
    indexes := PostingIndex.fileAll st.indexes (extractIndexKeys reg key record.value) key
    tree := st.tree.insert key record }

def removeKey (reg : SchemaRegistry) (st : Recovery) (key : String) : Recovery :=
  let st := match st.tree[key]? with
    | some old =>
        { st with indexes := PostingIndex.unfileAll st.indexes (extractIndexKeys reg key old.value) key }
    | none => st
  { st with tree := st.tree.erase key }

def loadSnapshotLine (reg : SchemaRegistry) (now : UInt64) (st : Recovery) : SnapshotLine → Recovery
  | .skipped => st
  | .record r =>
      if isExpired r.record.expiresAt now then st
      else { st with maxVer := max st.maxVer r.record.version }.insertRecord reg r.key r.record

/-- A sub-command of a `TxCommit` is written with the version after the one of
its transaction. -/
def replaySubCommand (reg : SchemaRegistry) (now : UInt64) (st : Recovery) : WalCommand → Recovery
  | .put key value expiresAt =>
      if isExpired expiresAt now then st
      else st.insertRecord reg key { value, expiresAt, version := st.maxVer + 1 }
  | .delete key => st.removeKey reg key
  | .txCommit _ => st

def replayCommand (reg : SchemaRegistry) (now : UInt64) (st : Recovery)
    (logged : Nat × WalCommand) : Recovery :=
  let st := { st with maxVer := if 0 < logged.1 then max st.maxVer logged.1 else st.maxVer + 1 }
  match logged.2 with
  | .put key value expiresAt =>
      if isExpired expiresAt now then st
      else st.insertRecord reg key { value, expiresAt, version := st.maxVer }
  | .delete key => st.removeKey reg key
  | .txCommit cmds => cmds.foldl (replaySubCommand reg now) st

/-- The whole recovery; a log that cannot be read to its end is not replayed at all. -/
def recover (reg : SchemaRegistry) (now : UInt64) (snapshot : List SnapshotLine) (wal : WalFile) :
    Recovery :=
  let st := snapshot.foldl (loadSnapshotLine reg now) empty
  match Wal.readAllCommands wal with
  | some commands => commands.foldl (replayCommand reg now) st
  | none => st

end Recovery

namespace KindServerImpl

variable [Serde]

/-- An absent file reads like an empty one. -/
def new (snapshotFile : Option (List SnapshotLine)) (schemaRegistry : SchemaRegistry)
    (wal : Option WalFile) (isReplica : Bool) (now : UInt64) : KindServerImpl :=
  let st := Recovery.recover schemaRegistry now (snapshotFile.getD []) (wal.getD [])
  { tree := st.tree
    indexes := st.indexes
    cache := LruCache.new 1000 (by decide)
    snapshotFile
    schemaRegistry
    wal
    globalVersion := st.maxVer
    watchTx := []
    isReplica
    syncTx := [] }

/-- A stop followed by a start on the same files. -/
def restart (s : KindServerImpl) (now : UInt64) : KindServerImpl :=
  new s.snapshotFile s.schemaRegistry s.wal s.isReplica now

/-- A server whose files, if it has any, are fresh. -/
def fresh (schemaRegistry : SchemaRegistry) (hasSnapshot hasWal isReplica : Bool) : KindServerImpl :=
  new (if hasSnapshot then some [] else none) schemaRegistry (if hasWal then some [] else none)
    isReplica 0

end KindServerImpl

/-! ## What a recovery makes visible -/

open Lib.Overlay Lib.IndexReplay

/-- The updates that survive a recovery at `now`: puts past their deadline are dropped. -/
def effectiveAt (now : UInt64) (updates : List (Update String Content)) :
    List (Update String Content) :=
  updates.filter fun u => !(u.2.any fun held => isExpired held.2 now)

def SnapshotLine.updates : SnapshotLine → List (Update String Content)
  | .skipped => []
  | .record r => [(r.key, some r.record.content)]

def walUpdates [Serde] (wal : WalFile) : List (Update String Content) :=
  ((Wal.readAllCommands wal).getD []).flatMap fun logged => logged.2.updates

/-- Everything the files say, in the order in which `new` reads it. -/
def fileUpdates [Serde] (snapshot : List SnapshotLine) (wal : WalFile) :
    List (Update String Content) :=
  snapshot.flatMap SnapshotLine.updates ++ walUpdates wal

theorem fileUpdates_append [Serde] (snapshot : List SnapshotLine) {wal : WalFile}
    (readable : (Wal.readAllCommands wal).isSome) (txId : Nat) (c : WalCommand) :
    fileUpdates snapshot (Wal.append wal txId c) = fileUpdates snapshot wal ++ c.updates := by
  obtain ⟨commands, found⟩ := Option.isSome_iff_exists.mp readable
  simp [fileUpdates, walUpdates, Wal.readAllCommands_append, found]

theorem effectiveAt_append (now : UInt64) (first second : List (Update String Content)) :
    effectiveAt now (first ++ second) = effectiveAt now first ++ effectiveAt now second :=
  List.filter_append ..

/-- Without deadlines everything is replayed at any time. -/
theorem effectiveAt_of_deadlineFree {updates : List (Update String Content)}
    (free : ∀ u ∈ updates, ∀ held, u.2 = some held → held.2 = none) (now : UInt64) :
    effectiveAt now updates = updates := by
  apply List.filter_eq_self.mpr
  intro u member
  cases content : u.2 with
  | none => rfl
  | some held => simp [free u member held content]

/-- Where every key has one update, an update past its deadline leaves the
store as it was. -/
theorem overlay_effectiveAt {updates : List (Update String Content)} (now : UInt64)
    (distinct : (touched updates).Nodup) {key : String} {held : Option Content}
    (member : (key, held) ∈ updates) (store : String → Option Content) :
    overlay store (effectiveAt now updates) key =
      if held.any (fun c => isExpired c.2 now) then store key else held := by
  split
  · rename_i expired
    apply overlay_untouched
    intro named
    obtain ⟨⟨k, other⟩, kept, rfl⟩ := List.mem_map.mp named
    obtain ⟨inUpdates, live⟩ := List.mem_filter.mp kept
    have same := List.inj_on_of_nodup_map distinct inUpdates member rfl
    cases same
    simp [expired] at live
  · rename_i live
    refine overlay_of_mem (distinct.sublist (List.filter_sublist.map _)) ?_ store
    exact List.mem_filter.mpr ⟨member, by simpa using live⟩

theorem overlay_effectiveAt_untouched {updates : List (Update String Content)} (now : UInt64)
    {key : String} (absent : key ∉ touched updates) (store : String → Option Content) :
    overlay store (effectiveAt now updates) key = store key := by
  apply overlay_untouched
  exact fun named => absent (List.Sublist.mem named (List.filter_sublist.map _))

namespace Recovery

variable [Serde]

omit [Serde] in
def contents (st : Recovery) (key : String) : Option Content := (st.tree[key]?).map DbRecord.content

def termsOf (reg : SchemaRegistry) (key : String) (held : Content) : List String :=
  extractIndexKeys reg key held.1

/-- What the recovery has built so far, as a store with its index. -/
def view (st : Recovery) : Built String String Content := (st.contents, st.indexes)

theorem view_insertRecord (reg : SchemaRegistry) (st : Recovery) (key : String)
    (record : DbRecord) :
    (st.insertRecord reg key record).view =
      replayUpdate (termsOf reg) st.view (key, some record.content) := by
  refine Prod.ext (funext fun k => ?_) rfl
  simp only [view, contents, insertRecord, replayUpdate, SortedMap.lookup_insert,
    Function.update_apply, eq_comm (a := k)]
  split_ifs <;> rfl

theorem tree_removeKey (reg : SchemaRegistry) (st : Recovery) (key : String) :
    (st.removeKey reg key).tree = st.tree.erase key := by
  simp only [removeKey]
  cases st.tree[key]? <;> rfl

theorem view_removeKey (reg : SchemaRegistry) (st : Recovery) (key : String) :
    (st.removeKey reg key).view = replayUpdate (termsOf reg) st.view (key, none) := by
  have sameTree := tree_removeKey reg st key
  refine Prod.ext (funext fun k => ?_) ?_
  · simp only [view, contents, sameTree, replayUpdate, SortedMap.lookup_erase,
      Function.update_apply, eq_comm (a := k)]
    split_ifs <;> rfl
  · simp only [view, contents, removeKey, replayUpdate]
    cases st.tree[key]? <;> rfl

theorem view_put (reg : SchemaRegistry) (now : UInt64) (st : Recovery) (key : String)
    (record : DbRecord) :
    (if isExpired record.expiresAt now then st else st.insertRecord reg key record).view =
      replay (termsOf reg) st.view (effectiveAt now [(key, some record.content)]) := by
  have kept : effectiveAt now [(key, some record.content)] =
      if isExpired record.expiresAt now then [] else [(key, some record.content)] := by
    cases expired : isExpired record.expiresAt now <;>
      simp [effectiveAt, DbRecord.content, expired]
  rw [kept]
  split
  · rfl
  · exact view_insertRecord reg st key record

theorem view_loadSnapshotLine (reg : SchemaRegistry) (now : UInt64) (st : Recovery)
    (line : SnapshotLine) :
    (loadSnapshotLine reg now st line).view =
      replay (termsOf reg) st.view (effectiveAt now line.updates) := by
  cases line with
  | skipped => rfl
  | record r =>
      rw [SnapshotLine.updates, ← view_put]
      simp only [loadSnapshotLine]
      split <;> rfl

theorem view_replaySubCommand (reg : SchemaRegistry) (now : UInt64) (st : Recovery)
    (cmd : WalCommand) :
    (replaySubCommand reg now st cmd).view =
      replay (termsOf reg) st.view (effectiveAt now cmd.subUpdates) := by
  cases cmd with
  | put key value expiresAt =>
      exact view_put reg now st key { value, expiresAt, version := st.maxVer + 1 }
  | delete key => exact view_removeKey reg st key
  | txCommit cmds => rfl

theorem view_foldl {Item : Type} (reg : SchemaRegistry) (now : UInt64)
    (process : Recovery → Item → Recovery) (updatesOf : Item → List (Update String Content))
    (processed : ∀ st item,
      (process st item).view = replay (termsOf reg) st.view (effectiveAt now (updatesOf item)))
    (items : List Item) (st : Recovery) :
    (items.foldl process st).view =
      replay (termsOf reg) st.view (effectiveAt now (items.flatMap updatesOf)) := by
  induction items generalizing st with
  | nil => rfl
  | cons item rest ih =>
      rw [List.foldl_cons, ih, processed, List.flatMap_cons, effectiveAt_append, replay_append]

theorem view_replayCommand (reg : SchemaRegistry) (now : UInt64) (st : Recovery)
    (logged : Nat × WalCommand) :
    (replayCommand reg now st logged).view =
      replay (termsOf reg) st.view (effectiveAt now logged.2.updates) := by
  obtain ⟨txId, cmd⟩ := logged
  cases cmd with
  | put key value expiresAt =>
      let version := if 0 < txId then max st.maxVer txId else st.maxVer + 1
      exact view_put reg now { st with maxVer := version } key { value, expiresAt, version }
  | delete key => exact view_removeKey reg _ key
  | txCommit cmds =>
      exact view_foldl reg now _ WalCommand.subUpdates (view_replaySubCommand reg now) cmds _

theorem view_recover (reg : SchemaRegistry) (now : UInt64) (snapshot : List SnapshotLine)
    (wal : WalFile) :
    (recover reg now snapshot wal).view =
      replay (termsOf reg) start (effectiveAt now (fileUpdates snapshot wal)) := by
  have empty_view : empty.view = start := by
    refine Prod.ext (funext fun key => ?_) rfl
    simp [view, contents, empty, start]
  have loaded := view_foldl reg now _ SnapshotLine.updates (view_loadSnapshotLine reg now) snapshot
    empty
  unfold recover fileUpdates walUpdates
  cases Wal.readAllCommands wal with
  | none => simpa [empty_view] using loaded
  | some commands =>
      rw [Option.getD_some, effectiveAt_append, replay_append, ← empty_view, ← loaded]
      exact view_foldl reg now _ (fun logged : Nat × WalCommand => logged.2.updates)
        (view_replayCommand reg now) _ _

end Recovery

namespace KindServerImpl

variable [Serde]

theorem contents_new (snapshotFile : Option (List SnapshotLine))
    (reg : SchemaRegistry) (wal : Option WalFile) (isReplica : Bool) (now : UInt64) :
    (KindServerImpl.new snapshotFile reg wal isReplica now).contents =
      overlay (fun _ => none)
        (effectiveAt now (fileUpdates (snapshotFile.getD []) (wal.getD []))) :=
  (congrArg Prod.fst (Recovery.view_recover reg now _ _)).trans (replay_store ..)

def onDisk (s : KindServerImpl) : List (Update String Content) :=
  fileUpdates (s.snapshotFile.getD []) (s.wal.getD [])

theorem contents_restart (s : KindServerImpl) (t : UInt64) :
    (s.restart t).contents = overlay (fun _ => none) (effectiveAt t s.onDisk) :=
  contents_new ..

end KindServerImpl

end KindDb
