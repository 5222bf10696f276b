import KindDb.Server.State

/-! # The request handlers

`get`, `put`, `delete`, `cas` and `TxHandle::commit`, each with the clock
reading it takes, and the TTL sweep of `run_server`.  The four that write have
one append to the log each, whose result they drop; what it does is a parameter
`log`, and `walAppend` where all I/O succeeds. -/
set_option autoImplicit false

namespace KindDb

open KindDb.Lib KindDb.Cache

inductive Status
  | notFound (message : String)
  | permissionDenied (message : String)
deriving Repr, DecidableEq

inductive DbError
  | notFound
  | conflict
  | commitFailed (message : String)
deriving Repr, DecidableEq

/-- The `Record` message of the protocol. -/
structure Record where
  key : String
  value : Bytes
  expiresAt : Option UInt64
deriving Repr, DecidableEq

structure PutRequest where
  key : String
  value : Bytes
  ttlMs : Option UInt64
deriving Repr, DecidableEq

structure CasRequest where
  key : String
  expectedValue : Bytes
  newValue : Bytes
  ttlMs : Option UInt64
deriving Repr, DecidableEq

def readOnly : String := "Node is a read-only replica"

/-- The `write_set` map in one of its iteration orders. -/
structure WriteSet where
  entries : List (String × Option DbRecord)
  distinct : (entries.map Prod.fst).Nodup

namespace WriteSet

def empty : WriteSet := ⟨[], List.nodup_nil⟩

def keys (ws : WriteSet) : List String := ws.entries.map Prod.fst

def insert (ws : WriteSet) (key : String) (v : Option DbRecord) : WriteSet where
  entries := (key, v) :: ws.entries.filter fun entry => entry.1 ≠ key
  distinct := by
    refine List.nodup_cons.mpr ⟨?_, ws.distinct.sublist (List.filter_sublist.map _)⟩
    simp

end WriteSet

structure TxHandle where
  writeSet : WriteSet
  snapshotVersion : Nat

namespace TxHandle

def put (tx : TxHandle) (key : String) (value : Bytes) (ttlMs : Option UInt64) (now : UInt64) :
    TxHandle :=
  { tx with writeSet := tx.writeSet.insert key
              (some { value, expiresAt := deadline now ttlMs, version := 0 }) }

def delete (tx : TxHandle) (key : String) : TxHandle :=
  { tx with writeSet := tx.writeSet.insert key none }

/-- The command `commit` logs for one entry of the write set. -/
def pendingCommand (entry : String × Option DbRecord) : WalCommand :=
  match entry.2 with
  | some rec => .put entry.1 rec.value rec.expiresAt
  | none => .delete entry.1

end TxHandle

namespace KindServerImpl

variable [Serde]

def beginTransaction (s : KindServerImpl) : TxHandle :=
  { writeSet := .empty, snapshotVersion := s.globalVersion }

def get (s : KindServerImpl) (key : String) (now : UInt64) : Except Status Record × KindServerImpl :=
  let (hit, cache) := s.cache.get key
  let s := { s with cache }
  match hit with
  | some val => (.ok { key, value := val, expiresAt := none }, s)
  | none =>
      match s.tree[key]? with
      | some rec =>
          if isExpired rec.expiresAt now then
            (.error (.notFound "Key not found or expired"),
              (s.removeRecordFromIndex key rec.value).treeRemove key)
          else (.ok { key, value := rec.value, expiresAt := rec.expiresAt }, s)
      | none => (.error (.notFound "Key not found"), s)

section Writers
variable (log : KindServerImpl → Nat → WalCommand → KindServerImpl)

def putLogging (s : KindServerImpl) (req : PutRequest) (now : UInt64) :
    Except Status Bool × KindServerImpl :=
  if s.isReplica then (.error (.permissionDenied readOnly), s)
  else
    let expiresAt := deadline now req.ttlMs
    let s := s.unindexOld req.key
    let s := s.indexRecord req.key req.value
    let s := if expiresAt.isNone then s.cachePut req.key req.value else s
    let s := s.fetchAdd
    let newVersion := s.globalVersion
    let s := log s newVersion (.put req.key req.value expiresAt)
    let s := s.syncSend newVersion (.put req.key req.value expiresAt)
    let s := s.treeInsert req.key { value := req.value, expiresAt, version := newVersion }
    let s := s.watchSend { key := req.key, newValue := some req.value, operationType := "PUT" }
    (.ok true, s)

def put (s : KindServerImpl) (req : PutRequest) (now : UInt64) :
    Except Status Bool × KindServerImpl :=
  putLogging walAppend s req now

def deleteLogging (s : KindServerImpl) (key : String) : Except Status Bool × KindServerImpl :=
  if s.isReplica then (.error (.permissionDenied readOnly), s)
  else
    match s.tree[key]? with
    | some old =>
        let s := s.removeRecordFromIndex key old.value
        let s := s.treeRemove key
        let s := s.cacheInvalidate key
        let s := s.fetchAdd
        let newVersion := s.globalVersion
        let s := log s newVersion (.delete key)
        let s := s.syncSend newVersion (.delete key)
        let s := s.watchSend { key, newValue := none, operationType := "DELETE" }
        (.ok true, s)
    | none => (.ok false, s)

def delete (s : KindServerImpl) (key : String) : Except Status Bool × KindServerImpl :=
  deleteLogging walAppend s key

/-- The part of `cas` from `index_record` on, the same on both of its
succeeding branches. -/
def casWriteLogging (s : KindServerImpl) (req : CasRequest) (expiresAt : Option UInt64) :
    KindServerImpl :=
  let s := s.indexRecord req.key req.newValue
  let s := s.cacheInvalidate req.key
  let s := s.fetchAdd
  let newVersion := s.globalVersion
  let s := log s newVersion (.put req.key req.newValue expiresAt)
  let s := s.syncSend newVersion (.put req.key req.newValue expiresAt)
  let s := s.treeInsert req.key { value := req.newValue, expiresAt, version := newVersion }
  s.watchSend { key := req.key, newValue := some req.newValue, operationType := "PUT" }

def casWrite (s : KindServerImpl) (req : CasRequest) (expiresAt : Option UInt64) :
    KindServerImpl :=
  casWriteLogging walAppend s req expiresAt

def casLogging (s : KindServerImpl) (req : CasRequest) (now : UInt64) :
    Except Status Bool × KindServerImpl :=
  if s.isReplica then (.error (.permissionDenied readOnly), s)
  else
    let expiresAt := deadline now req.ttlMs
    match s.tree[req.key]? with
    | some rec =>
        if isExpired rec.expiresAt now then
          -- an expired record counts as absent, but its index entries stay
          if req.expectedValue = [] then (.ok true, casWriteLogging log s req expiresAt)
          else (.ok false, s)
        else if rec.value = req.expectedValue then
          let s := s.removeRecordFromIndex req.key rec.value
          (.ok true, casWriteLogging log s req expiresAt)
        else (.ok false, s)
    | none =>
        if req.expectedValue = [] then (.ok true, casWriteLogging log s req expiresAt)
        else (.ok false, s)

def cas (s : KindServerImpl) (req : CasRequest) (now : UInt64) :
    Except Status Bool × KindServerImpl :=
  casLogging walAppend s req now

end Writers

/-- One turn of the sweeper: collect the expired entries, then remove them. -/
def sweep (s : KindServerImpl) (now : UInt64) : KindServerImpl :=
  let toRemove := s.tree.toList.filter fun entry => isExpired entry.2.expiresAt now
  toRemove.foldl
    (fun s entry => (s.removeRecordFromIndex entry.1 entry.2.value).treeRemove entry.1) s

end KindServerImpl

namespace TxHandle

variable [Serde]

/-- The check loop of `commit`. -/
def conflicts (tx : TxHandle) (s : KindServerImpl) : Bool :=
  tx.writeSet.entries.any fun entry =>
    match s.tree[entry.1]? with
    | some current => current.version > tx.snapshotVersion
    | none => false

/-- One turn of the apply loop of `commit`. -/
def applyEntry (newVersion : Nat) (s : KindServerImpl) (entry : String × Option DbRecord) :
    KindServerImpl :=
  match entry.2 with
  | some rec =>
      let s := s.unindexOld entry.1
      let s := s.treeInsert entry.1 { rec with version := newVersion }
      let s := s.indexRecord entry.1 rec.value
      let s := s.watchSend { key := entry.1, newValue := some rec.value, operationType := "PUT" }
      s.cacheInvalidate entry.1
  | none =>
      let s := s.unindexOld entry.1
      let s := s.treeRemove entry.1
      let s := s.watchSend { key := entry.1, newValue := none, operationType := "DELETE" }
      s.cacheInvalidate entry.1

def commitLogging (log : KindServerImpl → Nat → WalCommand → KindServerImpl) (tx : TxHandle)
    (s : KindServerImpl) : Except DbError Unit × KindServerImpl :=
  if s.isReplica then (.error (.commitFailed readOnly), s)
  else if tx.conflicts s then (.error .conflict, s)
  else
    let s := s.fetchAdd
    let newVersion := s.globalVersion
    let pending := tx.writeSet.entries.map pendingCommand
    let s := log s newVersion (.txCommit pending)
    let s := s.syncSend newVersion (.txCommit pending)
    (.ok (), tx.writeSet.entries.foldl (applyEntry newVersion) s)

def commit (tx : TxHandle) (s : KindServerImpl) : Except DbError Unit × KindServerImpl :=
  commitLogging KindServerImpl.walAppend tx s

end TxHandle

end KindDb
