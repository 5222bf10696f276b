import KindDb.Server.Effects

/-! # Calls step by step

A call is a list of actions, each of which reads or changes shared state once:
the accesses to the tree, the WAL mutex, the version counter, the log and the
channels.  `program` lists the actions of a call in the order of its source;
an action that ends the call early replaces the rest of the list.  Index and
cache are updated together with the neighbouring access to the tree. -/
set_option autoImplicit false

namespace KindDb

open KindDb.Lib KindDb.Lib.Overlay KindDb.Cache KindDb.KindServerImpl

inductive Call
  | put (req : PutRequest)
  | delete (key : String)
  | cas (req : CasRequest)
  | beginTransaction
  | commit (tx : TxHandle)

inductive Reply
  | write (response : Except Status Bool)
  | handle (tx : TxHandle)
  | commit (result : Except DbError Unit)

inductive Action
  /-- `put` up to its `fetch_add`: reads the old record -/
  | putIndexes (key : String) (value : Bytes) (cached : Bool)
  /-- the `tree.get` of `delete` -/
  | deleteLookup (key : String)
  | treeRemove (key : String)
  /-- the `tree.get` of `cas` with the comparison -/
  | compare (req : CasRequest)
  /-- one turn of the check loop of `commit` -/
  | check (key : String) (snapshotVersion : Nat)
  /-- the load of `begin_transaction` -/
  | load
  | fetchAdd
  | commitFetchAdd
  | lock
  | unlock
  | append (command : WalCommand)
  | send (command : WalCommand)
  | insert (key : String) (value : Bytes) (expiresAt : Option UInt64)
  /-- the `tree.get` of one turn of the apply loop of `commit` -/
  | applyLookup (key : String)
  /-- the rest of the turn -/
  | applyWrite (key : String) (rec : Option DbRecord)
  | watch (event : WatchEvent)
  | reply (r : Reply)

/-- A call that runs: the version it got, if any, and what it still has to do. -/
inductive Thread
  | running (version : Nat) (todo : List Action)
  | done (reply : Reply)

/-! ## The programs -/

def putEvent (key : String) (value : Bytes) : WatchEvent :=
  { key, newValue := some value, operationType := "PUT" }

def putProgram (req : PutRequest) (expiresAt : Option UInt64) : List Action :=
  let command := .put req.key req.value expiresAt
  [.putIndexes req.key req.value expiresAt.isNone, .fetchAdd, .lock, .append command, .unlock,
    .send command, .insert req.key req.value expiresAt, .watch (putEvent req.key req.value),
    .reply (.write (.ok true))]

def deleteProgram (key : String) : List Action :=
  [.deleteLookup key, .treeRemove key, .fetchAdd, .lock, .append (.delete key), .unlock,
    .send (.delete key), .watch { key, newValue := none, operationType := "DELETE" },
    .reply (.write (.ok true))]

def deleteMissed : List Action := [.reply (.write (.ok false))]

def casProgram (req : CasRequest) (expiresAt : Option UInt64) : List Action :=
  let command := .put req.key req.newValue expiresAt
  [.lock, .compare req, .fetchAdd, .append command, .send command,
    .insert req.key req.newValue expiresAt, .watch (putEvent req.key req.newValue), .unlock,
    .reply (.write (.ok true))]

def casFailed : List Action := [.unlock, .reply (.write (.ok false))]

def commitChecks (tx : TxHandle) : List Action :=
  tx.writeSet.entries.map fun entry => .check entry.1 tx.snapshotVersion

def commitCommand (tx : TxHandle) : WalCommand :=
  .txCommit (tx.writeSet.entries.map TxHandle.pendingCommand)

def commitApplies (entries : List (String × Option DbRecord)) : List Action :=
  entries.flatMap fun entry => [.applyLookup entry.1, .applyWrite entry.1 entry.2]

def commitProgram (tx : TxHandle) : List Action :=
  .lock :: (commitChecks tx ++
    .commitFetchAdd :: .append (commitCommand tx) :: .send (commitCommand tx) ::
      (commitApplies tx.writeSet.entries ++ [.unlock, .reply (.commit (.ok ()))]))

def commitFailed : List Action := [.unlock, .reply (.commit (.error .conflict))]

/-- What a call does on a server, its deadline read off the clock. -/
def program (isReplica : Bool) (now : UInt64) : Call → List Action
  | .put req =>
      if isReplica then [.reply (.write (.error (.permissionDenied readOnly)))]
      else putProgram req (deadline now req.ttlMs)
  | .delete key =>
      if isReplica then [.reply (.write (.error (.permissionDenied readOnly)))]
      else deleteProgram key
  | .cas req =>
      if isReplica then [.reply (.write (.error (.permissionDenied readOnly)))]
      else casProgram req (deadline now req.ttlMs)
  | .beginTransaction => [.load]
  | .commit tx =>
      if isReplica then [.reply (.commit (.error (.commitFailed readOnly)))]
      else commitProgram tx

/-! ## The steps -/

/-- The server with the holder of its WAL mutex. -/
structure Shared (Holder : Type) where
  server : KindServerImpl
  walLock : Option Holder

variable {Holder : Type}

/-- One action of `me`; `none` while it waits for the mutex. -/
def Action.exec [Serde] (me : Holder) (now : UInt64) (sh : Shared Holder) (version : Nat)
    (rest : List Action) : Action → Option (Shared Holder × Thread)
  | .putIndexes key value cached =>
      let s := (sh.server.unindexOld key).indexRecord key value
      some ({ sh with server := if cached then s.cachePut key value else s }, .running version rest)
  | .deleteLookup key =>
      match sh.server.tree[key]? with
      | some old =>
          some ({ sh with server := sh.server.removeRecordFromIndex key old.value },
            .running version rest)
      | none => some (sh, .running version deleteMissed)
  | .treeRemove key =>
      some ({ sh with server := (sh.server.treeRemove key).cacheInvalidate key },
        .running version rest)
  | .compare req =>
      if sh.server.casMatches req now then
        let s := (sh.server.casUnindex req now).indexRecord req.key req.newValue
        some ({ sh with server := s.cacheInvalidate req.key }, .running version rest)
      else some (sh, .running version casFailed)
  | .check key snapshotVersion =>
      match sh.server.tree[key]? with
      | some current =>
          if current.version > snapshotVersion then some (sh, .running version commitFailed)
          else some (sh, .running version rest)
      | none => some (sh, .running version rest)
  | .load => some (sh, .done (.handle sh.server.beginTransaction))
  | .fetchAdd =>
      some ({ sh with server := sh.server.fetchAdd }, .running (sh.server.globalVersion + 1) rest)
  | .commitFetchAdd =>
      some ({ sh with server := sh.server.fetchAdd }, .running (sh.server.globalVersion + 1) rest)
  | .lock =>
      match sh.walLock with
      | none => some ({ sh with walLock := some me }, .running version rest)
      | some _ => none
  | .unlock => some ({ sh with walLock := none }, .running version rest)
  | .append command =>
      some ({ sh with server := sh.server.walAppend version command }, .running version rest)
  | .send command =>
      some ({ sh with server := sh.server.syncSend version command }, .running version rest)
  | .insert key value expiresAt =>
      some ({ sh with server := sh.server.treeInsert key { value, expiresAt, version } },
        .running version rest)
  | .applyLookup key =>
      some ({ sh with server := sh.server.unindexOld key }, .running version rest)
  | .applyWrite key (some rec) =>
      let s := (sh.server.treeInsert key { rec with version }).indexRecord key rec.value
      some ({ sh with server := (s.watchSend (putEvent key rec.value)).cacheInvalidate key },
        .running version rest)
  | .applyWrite key none =>
      let s := (sh.server.treeRemove key).watchSend
        { key, newValue := none, operationType := "DELETE" }
      some ({ sh with server := s.cacheInvalidate key }, .running version rest)
  | .watch event =>
      some ({ sh with server := sh.server.watchSend event }, .running version rest)
  | .reply r => some (sh, .done r)

/-- One step of a thread; a finished one takes none. -/
def Thread.step [Serde] (me : Holder) (now : UInt64) (sh : Shared Holder) :
    Thread → Option (Shared Holder × Thread)
  | .running version (action :: rest) => action.exec me now sh version rest
  | .running _ [] => none
  | .done _ => none

/-! ## What an action changes -/

namespace Action

/-- What an action writes to the tree. -/
def treeUpdates (version : Nat) : Action → List (Update String DbRecord)
  | .treeRemove key => [(key, none)]
  | .insert key value expiresAt => [(key, some { value, expiresAt, version })]
  | .applyWrite key rec => [(key, rec.map ({ · with version }))]
  | _ => []

/-- The early end of a call that an action may take. -/
def endsEarly (now : UInt64) (s : KindServerImpl) : Action → Option (List Action)
  | .deleteLookup key => if (s.tree[key]?).isNone then some deleteMissed else none
  | .compare req => if s.casMatches req now then none else some casFailed
  | .check key snapshotVersion =>
      if (s.tree[key]?).any (·.version > snapshotVersion) then some commitFailed else none
  | _ => none

def takesVersion : Action → Bool
  | .fetchAdd => true
  | .commitFetchAdd => true
  | _ => false

/-- All that an action does to what the rest of the development looks at. -/
structure Effect [Serde] (me : Holder) (now : UInt64) (sh : Shared Holder) (version : Nat)
    (rest : List Action) (action : Action) (sh' : Shared Holder) (thread : Thread) : Prop where
  tree : ∀ k : String, sh'.server.tree[k]? =
    overlay (fun k => sh.server.tree[k]?) (action.treeUpdates version) k
  globalVersion : sh'.server.globalVersion =
    if action.takesVersion then sh.server.globalVersion + 1 else sh.server.globalVersion
  wal : sh'.server.wal = match action with
    | .append c => sh.server.wal.map fun file => Wal.append file version c
    | _ => sh.server.wal
  syncTx : sh'.server.syncTx = match action with
    | .send c => sh.server.syncTx ++ [(version, c)]
    | _ => sh.server.syncTx
  snapshotFile : sh'.server.snapshotFile = sh.server.snapshotFile
  isReplica : sh'.server.isReplica = sh.server.isReplica
  schemaRegistry : sh'.server.schemaRegistry = sh.server.schemaRegistry
  walLock : match action with
    | .lock => sh.walLock = none ∧ sh'.walLock = some me
    | .unlock => sh'.walLock = none
    | _ => sh'.walLock = sh.walLock
  thread : match action with
    | .reply r => thread = .done r
    | .load => thread = .done (.handle sh.server.beginTransaction)
    | _ => thread = .running
        (if action.takesVersion then sh.server.globalVersion + 1 else version)
        ((action.endsEarly now sh.server).getD rest)

variable [Serde] {me : Holder} {now : UInt64} {sh sh' : Shared Holder} {version : Nat}
  {rest : List Action} {thread : Thread}

theorem exec_effect {action : Action}
    (executed : action.exec me now sh version rest = some (sh', thread)) :
    Effect me now sh version rest action sh' thread := by
  cases action with
  | putIndexes key value cached =>
      cases Option.some.inj executed
      rw [unindexOld_eq]
      cases cached <;> exact ⟨fun _ => rfl, rfl, rfl, rfl, rfl, rfl, rfl, rfl, rfl⟩
  | deleteLookup key =>
      simp only [exec] at executed
      cases held : sh.server.tree[key]? with
      | none =>
          simp only [held] at executed
          cases Option.some.inj executed
          refine ⟨fun _ => rfl, rfl, rfl, rfl, rfl, rfl, rfl, rfl, ?_⟩
          simp [endsEarly, held, takesVersion]
      | some old =>
          simp only [held] at executed
          cases Option.some.inj executed
          refine ⟨fun _ => rfl, rfl, rfl, rfl, rfl, rfl, rfl, rfl, ?_⟩
          simp [endsEarly, held, takesVersion]
  | treeRemove key =>
      cases Option.some.inj executed
      refine ⟨fun k => ?_, rfl, rfl, rfl, rfl, rfl, rfl, rfl, rfl⟩
      exact (SortedMap.lookup_erase sh.server.tree key k).trans
        (by simp [treeUpdates, overlay, Function.update_apply, eq_comm])
  | compare req =>
      simp only [exec] at executed
      by_cases holds : sh.server.casMatches req now = true
      · rw [if_pos holds] at executed
        cases Option.some.inj executed
        rw [casUnindex_eq]
        refine ⟨fun _ => rfl, rfl, rfl, rfl, rfl, rfl, rfl, rfl, ?_⟩
        simp [endsEarly, holds, takesVersion]
      · rw [if_neg holds] at executed
        cases Option.some.inj executed
        refine ⟨fun _ => rfl, rfl, rfl, rfl, rfl, rfl, rfl, rfl, ?_⟩
        simp [endsEarly, holds, takesVersion]
  | check key snapshotVersion =>
      simp only [exec] at executed
      cases held : sh.server.tree[key]? with
      | none =>
          simp only [held] at executed
          cases Option.some.inj executed
          refine ⟨fun _ => rfl, rfl, rfl, rfl, rfl, rfl, rfl, rfl, ?_⟩
          simp [endsEarly, held, takesVersion]
      | some current =>
          simp only [held] at executed
          by_cases newer : current.version > snapshotVersion
          · rw [if_pos newer] at executed
            cases Option.some.inj executed
            refine ⟨fun _ => rfl, rfl, rfl, rfl, rfl, rfl, rfl, rfl, ?_⟩
            simp [endsEarly, held, newer, takesVersion]
          · rw [if_neg newer] at executed
            cases Option.some.inj executed
            refine ⟨fun _ => rfl, rfl, rfl, rfl, rfl, rfl, rfl, rfl, ?_⟩
            simp [endsEarly, held, newer, takesVersion]
  | lock =>
      simp only [exec] at executed
      cases free : sh.walLock with
      | some holder => simp [free] at executed
      | none =>
          simp only [free] at executed
          cases Option.some.inj executed
          exact ⟨fun _ => rfl, rfl, rfl, rfl, rfl, rfl, rfl, ⟨free, rfl⟩, rfl⟩
  | insert key value expiresAt =>
      cases Option.some.inj executed
      refine ⟨fun k => ?_, rfl, rfl, rfl, rfl, rfl, rfl, rfl, rfl⟩
      exact (SortedMap.lookup_insert sh.server.tree key k _).trans
        (by simp [treeUpdates, overlay, Function.update_apply, eq_comm])
  | applyLookup key =>
      cases Option.some.inj executed
      rw [unindexOld_eq]
      exact ⟨fun _ => rfl, rfl, rfl, rfl, rfl, rfl, rfl, rfl, rfl⟩
  | applyWrite key rec =>
      cases rec with
      | none =>
          cases Option.some.inj executed
          refine ⟨fun k => ?_, rfl, rfl, rfl, rfl, rfl, rfl, rfl, rfl⟩
          exact (SortedMap.lookup_erase sh.server.tree key k).trans
            (by simp [treeUpdates, overlay, Function.update_apply, eq_comm])
      | some rec =>
          cases Option.some.inj executed
          refine ⟨fun k => ?_, rfl, rfl, rfl, rfl, rfl, rfl, rfl, rfl⟩
          exact (SortedMap.lookup_insert sh.server.tree key k _).trans
            (by simp [treeUpdates, overlay, Function.update_apply, eq_comm])
  | load => cases Option.some.inj executed; exact ⟨fun _ => rfl, rfl, rfl, rfl, rfl, rfl, rfl, rfl, rfl⟩
  | fetchAdd | commitFetchAdd | unlock | append | send | watch | reply =>
      cases Option.some.inj executed
      exact ⟨fun _ => rfl, rfl, rfl, rfl, rfl, rfl, rfl, rfl, rfl⟩

end Action

end KindDb
