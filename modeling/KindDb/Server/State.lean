import KindDb.Cache.LruCache
import KindDb.Lib.PostingIndex
import KindDb.Schema.Registry
import KindDb.Wal

/-! # The state of a server

`KindServerImpl` with the files it owns: `wal` is the open log with its lines,
`snapshotFile` the lines of the file at `snapshot_path`.  The broadcast
channels are the lists of what was sent on them.  The methods here are the
single accesses to shared state that the request handlers are made of. -/
set_option autoImplicit false

namespace KindDb

open KindDb.Lib KindDb.Cache KindDb.Schema

/-- A line of a snapshot file: a record, or a line `new` skips. -/
inductive SnapshotLine
  | record (r : SnapshotRecord)
  | skipped
deriving Repr, DecidableEq

structure WatchEvent where
  key : String
  newValue : Option Bytes
  operationType : String
deriving Repr, DecidableEq

abbrev Tree := SortedMap String DbRecord

structure KindServerImpl where
  tree : Tree
  indexes : PostingIndex String String
  cache : LruCache String Bytes
  snapshotFile : Option (List SnapshotLine)
  schemaRegistry : SchemaRegistry
  wal : Option WalFile
  globalVersion : Nat
  watchTx : List WatchEvent
  isReplica : Bool
  syncTx : List (Nat × WalCommand)

namespace KindServerImpl

variable [Serde]

def extractIndexKeys (s : KindServerImpl) (key : String) (val : Bytes) : List String :=
  Schema.extractIndexKeys s.schemaRegistry key val

def indexRecord (s : KindServerImpl) (key : String) (val : Bytes) : KindServerImpl :=
  { s with indexes := PostingIndex.fileAll s.indexes (s.extractIndexKeys key val) key }

def removeRecordFromIndex (s : KindServerImpl) (key : String) (val : Bytes) : KindServerImpl :=
  { s with indexes := PostingIndex.unfileAll s.indexes (s.extractIndexKeys key val) key }

/-- `if let Some(old) = tree.get(&key) { remove_record_from_index(&key, &old.value) }` -/
def unindexOld (s : KindServerImpl) (key : String) : KindServerImpl :=
  match s.tree[key]? with
  | some old => s.removeRecordFromIndex key old.value
  | none => s

def treeInsert (s : KindServerImpl) (key : String) (record : DbRecord) : KindServerImpl :=
  { s with tree := s.tree.insert key record }

def treeRemove (s : KindServerImpl) (key : String) : KindServerImpl :=
  { s with tree := s.tree.erase key }

def cachePut (s : KindServerImpl) (key : String) (val : Bytes) : KindServerImpl :=
  { s with cache := s.cache.put key val }

def cacheInvalidate (s : KindServerImpl) (key : String) : KindServerImpl :=
  { s with cache := s.cache.invalidate key }

/-- `global_version.fetch_add(1) + 1`, read off as `globalVersion` afterwards. -/
def fetchAdd (s : KindServerImpl) : KindServerImpl :=
  { s with globalVersion := s.globalVersion + 1 }

def walAppend (s : KindServerImpl) (txId : Nat) (command : WalCommand) : KindServerImpl :=
  { s with wal := s.wal.map fun file => Wal.append file txId command }

def syncSend (s : KindServerImpl) (txId : Nat) (command : WalCommand) : KindServerImpl :=
  { s with syncTx := s.syncTx ++ [(txId, command)] }

def watchSend (s : KindServerImpl) (event : WatchEvent) : KindServerImpl :=
  { s with watchTx := s.watchTx ++ [event] }

omit [Serde] in
/-- What the tree holds for a key, as a client sees it, expired or not. -/
def contents (s : KindServerImpl) (key : String) : Option Content :=
  (s.tree[key]?).map DbRecord.content

end KindServerImpl

end KindDb
