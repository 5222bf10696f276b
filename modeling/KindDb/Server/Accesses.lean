import KindDb.Server.Calls
import KindDb.Server.Scans

/-! # Every access to shared state a step

Calls, lookups and the TTL sweeper as workers that read or change one thing at
a time: an entry of the tree, of the cache, of an index, the mutex, the counter,
the log or a channel.  An access may replace what the worker has still to do,
by what it has read.  A worker that runs alone does what the request handlers
do (`reaches_put` to `reaches_sweep`). -/
set_option autoImplicit false

namespace KindDb

open KindDb.Lib KindDb.Lib.SortedMap KindDb.KindServerImpl

inductive Job
  | call (call : Call)
  | get (key : String)
  /-- the TTL eviction task -/
  | sweeper

inductive Outcome
  | call (reply : Reply)
  | got (answer : Except Status Record)

inductive Access
  /-- a `tree.get` that takes the record found out of the index -/
  | lookupOld (key : String)
  /-- the `tree.get` of `delete` -/
  | deleteLookup (key : String)
  /-- the `tree.get` of `cas` with the comparison -/
  | compare (req : CasRequest)
  /-- one turn of the check loop of `commit` -/
  | check (key : String) (snapshotVersion : Nat)
  /-- the load of `begin_transaction` -/
  | load
  /-- the `tree.get` of `get` with the expiry check -/
  | getLookup (key : String)
  /-- one move of the sweeper's iterator -/
  | collect (cursor : Option String) (toRemove : List (String × Bytes))
  /-- one turn of `index_record` -/
  | file (ik key : String)
  /-- one turn of `remove_record_from_index` -/
  | unfile (ik key : String)
  | cacheGet (key : String)
  | cachePut (key : String) (value : Bytes)
  | cacheInvalidate (key : String)
  | fetchAdd
  | lock
  | unlock
  | append (command : WalCommand)
  | send (command : WalCommand)
  | insert (key : String) (value : Bytes) (expiresAt : Option UInt64)
  /-- the `tree.remove` of a delete -/
  | remove (key : String)
  /-- the `tree.remove` of an expired record -/
  | evict (key : String)
  | watch (event : WatchEvent)
  | reply (outcome : Outcome)

/-- A worker with the version it got, if any, and what it still has to do. -/
inductive Worker
  | running (version : Nat) (todo : List Access)
  | done (outcome : Outcome)

/-! ## The programs -/

namespace KindServerImpl
variable [Serde]

def filing (s : KindServerImpl) (key : String) (value : Bytes) : List Access :=
  (s.extractIndexKeys key value).map (.file · key)

def unfiling (s : KindServerImpl) (key : String) (value : Bytes) : List Access :=
  (s.extractIndexKeys key value).map (.unfile · key)

def caching (key : String) (value : Bytes) (expiresAt : Option UInt64) : List Access :=
  if expiresAt.isNone then [.cachePut key value] else []

def putAccesses (s : KindServerImpl) (req : PutRequest) (expiresAt : Option UInt64) :
    List Access :=
  let command := .put req.key req.value expiresAt
  .lookupOld req.key :: (s.filing req.key req.value ++
    (caching req.key req.value expiresAt ++
      [.fetchAdd, .lock, .append command, .unlock, .send command,
        .insert req.key req.value expiresAt, .watch (putEvent req.key req.value),
        .reply (.call (.write (.ok true)))]))

def deleteAccesses (key : String) : List Access :=
  [.deleteLookup key, .remove key, .cacheInvalidate key, .fetchAdd, .lock, .append (.delete key),
    .unlock, .send (.delete key), .watch { key, newValue := none, operationType := "DELETE" },
    .reply (.call (.write (.ok true)))]

def casAccesses (s : KindServerImpl) (req : CasRequest) (expiresAt : Option UInt64) :
    List Access :=
  let command := .put req.key req.newValue expiresAt
  .lock :: .compare req :: (s.filing req.key req.newValue ++
    [.cacheInvalidate req.key, .fetchAdd, .append command, .send command,
      .insert req.key req.newValue expiresAt, .watch (putEvent req.key req.newValue), .unlock,
      .reply (.call (.write (.ok true)))])

/-- One turn of the apply loop of `commit`. -/
def applyAccesses (s : KindServerImpl) (entry : String × Option DbRecord) : List Access :=
  match entry.2 with
  | some rec =>
      .lookupOld entry.1 :: .insert entry.1 rec.value rec.expiresAt ::
        (s.filing entry.1 rec.value ++
          [.watch (putEvent entry.1 rec.value), .cacheInvalidate entry.1])
  | none =>
      [.lookupOld entry.1, .remove entry.1,
        .watch { key := entry.1, newValue := none, operationType := "DELETE" },
        .cacheInvalidate entry.1]

def commitAccesses (s : KindServerImpl) (tx : TxHandle) : List Access :=
  .lock :: (tx.writeSet.entries.map (fun entry => .check entry.1 tx.snapshotVersion) ++
    .fetchAdd :: .append (commitCommand tx) :: .send (commitCommand tx) ::
      (tx.writeSet.entries.flatMap s.applyAccesses ++ [.unlock, .reply (.call (.commit (.ok ())))]))

/-- What a job does on the server, its deadline read off the clock. -/
def accesses (s : KindServerImpl) (now : UInt64) : Job → List Access
  | .call (.put req) =>
      if s.isReplica then [.reply (.call (.write (.error (.permissionDenied readOnly))))]
      else s.putAccesses req (deadline now req.ttlMs)
  | .call (.delete key) =>
      if s.isReplica then [.reply (.call (.write (.error (.permissionDenied readOnly))))]
      else deleteAccesses key
  | .call (.cas req) =>
      if s.isReplica then [.reply (.call (.write (.error (.permissionDenied readOnly))))]
      else s.casAccesses req (deadline now req.ttlMs)
  | .call .beginTransaction => [.load]
  | .call (.commit tx) =>
      if s.isReplica then [.reply (.call (.commit (.error (.commitFailed readOnly))))]
      else s.commitAccesses tx
  | .get key => [.cacheGet key, .getLookup key]
  | .sweeper => [.collect none []]

end KindServerImpl

/-! ## The steps -/

namespace Access
variable [Serde]

/-- What an access does to the server. -/
def change (version : Nat) (s : KindServerImpl) : Access → KindServerImpl
  | .file ik key => { s with indexes := PostingIndex.file s.indexes ik key }
  | .unfile ik key => { s with indexes := PostingIndex.unfile s.indexes ik key }
  | .cacheGet key => { s with cache := (s.cache.get key).2 }
  | .cachePut key value => s.cachePut key value
  | .cacheInvalidate key => s.cacheInvalidate key
  | .fetchAdd => s.fetchAdd
  | .append command => s.walAppend version command
  | .send command => s.syncSend version command
  | .insert key value expiresAt => s.treeInsert key { value, expiresAt, version }
  | .remove key => s.treeRemove key
  | .evict key => s.treeRemove key
  | .watch event => s.watchSend event
  | _ => s

/-- What an access leaves the worker to do, by what it reads. -/
def goesOn (now : UInt64) (s : KindServerImpl) (rest : List Access) : Access → List Access
  | .lookupOld key =>
      match s.tree[key]? with
      | some old => s.unfiling key old.value ++ rest
      | none => rest
  | .deleteLookup key =>
      match s.tree[key]? with
      | some old => s.unfiling key old.value ++ rest
      | none => [.reply (.call (.write (.ok false)))]
  | .compare req =>
      match s.tree[req.key]? with
      | some rec =>
          if isExpired rec.expiresAt now then
            if req.expectedValue = [] then rest
            else [.unlock, .reply (.call (.write (.ok false)))]
          else if rec.value = req.expectedValue then s.unfiling req.key rec.value ++ rest
          else [.unlock, .reply (.call (.write (.ok false)))]
      | none =>
          if req.expectedValue = [] then rest
          else [.unlock, .reply (.call (.write (.ok false)))]
  | .check key snapshotVersion =>
      match s.tree[key]? with
      | some current =>
          if current.version > snapshotVersion then
            [.unlock, .reply (.call (.commit (.error .conflict)))]
          else rest
      | none => rest
  | .cacheGet key =>
      match (s.cache.get key).1 with
      | some value => [.reply (.got (.ok { key, value, expiresAt := none }))]
      | none => rest
  | .getLookup key =>
      match s.tree[key]? with
      | some rec =>
          if isExpired rec.expiresAt now then
            s.unfiling key rec.value ++
              [.evict key, .reply (.got (.error (.notFound "Key not found or expired")))]
          else [.reply (.got (.ok { key, value := rec.value, expiresAt := rec.expiresAt }))]
      | none => [.reply (.got (.error (.notFound "Key not found")))]
  | .collect cursor toRemove =>
      match nextAbove s.tree cursor with
      | some (key, rec) =>
          .collect (some key)
            (if isExpired rec.expiresAt now then toRemove ++ [(key, rec.value)] else toRemove) ::
              rest
      | none =>
          toRemove.flatMap (fun entry => s.unfiling entry.1 entry.2 ++ [.evict entry.1]) ++
            .collect none [] :: rest
  | _ => rest

/-- The worker after an access. -/
def next (now : UInt64) (s : KindServerImpl) (version : Nat) (rest : List Access)
    (access : Access) : Worker :=
  match access with
  | .load => .done (.call (.handle s.beginTransaction))
  | .reply outcome => .done outcome
  | .fetchAdd => .running (s.globalVersion + 1) rest
  | _ => .running version (access.goesOn now s rest)

/-- The mutex after an access; `none` while the access waits for it. -/
def mutex {Holder : Type} (me : Holder) (held : Option Holder) : Access → Option (Option Holder)
  | .lock =>
      match held with
      | none => some (some me)
      | some _ => none
  | .unlock => some none
  | _ => some held

end Access

/-- One step of a worker; a finished one takes none. -/
def Worker.step [Serde] {Holder : Type} (me : Holder) (now : UInt64) (sh : Shared Holder) :
    Worker → Option (Shared Holder × Worker)
  | .running version (access :: rest) =>
      match access.mutex me sh.walLock with
      | some walLock =>
          some ({ server := access.change version sh.server, walLock },
            access.next now sh.server version rest)
      | none => none
  | .running _ [] => none
  | .done _ => none

/-! ## A worker on its own -/

section Alone
variable [Serde] {Holder : Type} {me : Holder} {now : UInt64}

/-- One state of a server with one worker leads to another. -/
def Reaches (me : Holder) (now : UInt64) :
    Shared Holder × Worker → Shared Holder × Worker → Prop :=
  Relation.ReflTransGen fun before after => before.2.step me now before.1 = some after

variable {s : KindServerImpl} {held walLock : Option Holder} {version : Nat} {access : Access}
  {rest : List Access} {after : Shared Holder × Worker}

/-- The next step of the worker. -/
theorem Reaches.step (taken : access.mutex me held = some walLock)
    (later : Reaches me now (⟨access.change version s, walLock⟩, access.next now s version rest)
      after) :
    Reaches me now (⟨s, held⟩, .running version (access :: rest)) after := by
  refine Relation.ReflTransGen.head ?_ later
  simp only [Worker.step, taken]

theorem reaches_filing (terms : List String) (key : String)
    (later : Reaches me now (⟨{ s with indexes := PostingIndex.fileAll s.indexes terms key }, held⟩,
      .running version rest) after) :
    Reaches me now (⟨s, held⟩, .running version (terms.map (.file · key) ++ rest)) after := by
  induction terms generalizing s with
  | nil => exact later
  | cons ik terms ih => exact Reaches.step rfl (ih later)

theorem reaches_unfiling (terms : List String) (key : String)
    (later : Reaches me now (⟨{ s with indexes := PostingIndex.unfileAll s.indexes terms key },
      held⟩, .running version rest) after) :
    Reaches me now (⟨s, held⟩, .running version (terms.map (.unfile · key) ++ rest)) after := by
  induction terms generalizing s with
  | nil => exact later
  | cons ik terms ih => exact Reaches.step rfl (ih later)

theorem reaches_lookupOld (key : String)
    (later : Reaches me now (⟨s.unindexOld key, held⟩, .running version rest) after) :
    Reaches me now (⟨s, held⟩, .running version (.lookupOld key :: rest)) after := by
  refine Reaches.step rfl ?_
  unfold unindexOld at later
  simp only [Access.next, Access.goesOn, Access.change]
  cases found : s.tree[key]? with
  | none => simpa only [found] using later
  | some old =>
      rw [found] at later
      exact reaches_unfiling _ key later

theorem reaches_put (leader : s.isReplica = false) (req : PutRequest) :
    Reaches me now (⟨s, none⟩, .running 0 (s.accesses now (.call (.put req))))
      (⟨(s.put req now).2, none⟩, .done (.call (.write (s.put req now).1))) := by
  have program : s.accesses now (.call (.put req)) = s.putAccesses req (deadline now req.ttlMs) :=
    if_neg (by simp [leader])
  rw [program, put_eq s leader, putAccesses]
  refine reaches_lookupOld req.key ?_
  rw [s.unindexOld_eq]
  refine reaches_filing _ req.key ?_
  cases deadline now req.ttlMs with
  | none =>
      iterate 9 refine Reaches.step rfl ?_
      exact .refl
  | some ms =>
      iterate 8 refine Reaches.step rfl ?_
      exact .refl

theorem reaches_delete (leader : s.isReplica = false) (key : String) :
    Reaches me now (⟨s, none⟩, .running 0 (s.accesses now (.call (.delete key))))
      (⟨(s.delete key).2, none⟩, .done (.call (.write (s.delete key).1))) := by
  have program : s.accesses now (.call (.delete key)) = deleteAccesses key :=
    if_neg (by simp [leader])
  rw [program, deleteAccesses]
  refine Reaches.step rfl ?_
  simp only [Access.next, Access.goesOn, Access.change]
  cases held : s.tree[key]? with
  | none =>
      rw [delete_absent s leader held]
      exact Reaches.step rfl .refl
  | some old =>
      rw [delete_present s leader held]
      refine reaches_unfiling _ key ?_
      iterate 9 refine Reaches.step rfl ?_
      exact .refl

theorem reaches_cas (leader : s.isReplica = false) (req : CasRequest) :
    Reaches me now (⟨s, none⟩, .running 0 (s.accesses now (.call (.cas req))))
      (⟨(s.cas req now).2, none⟩, .done (.call (.write (s.cas req now).1))) := by
  have program : s.accesses now (.call (.cas req)) = s.casAccesses req (deadline now req.ttlMs) :=
    if_neg (by simp [leader])
  have failed : Reaches me now
      (⟨s, some me⟩, .running 0 [.unlock, .reply (.call (.write (.ok false)))])
      (⟨s, none⟩, .done (.call (.write (.ok false)))) :=
    Reaches.step rfl (Reaches.step rfl .refl)
  have writes : ∀ indexes, Reaches me now
      (⟨{ s with indexes }, some me⟩, .running 0 (s.filing req.key req.newValue ++
        [.cacheInvalidate req.key, .fetchAdd,
          .append (.put req.key req.newValue (deadline now req.ttlMs)),
          .send (.put req.key req.newValue (deadline now req.ttlMs)),
          .insert req.key req.newValue (deadline now req.ttlMs),
          .watch (putEvent req.key req.newValue), .unlock, .reply (.call (.write (.ok true)))]))
      (⟨casWrite { s with indexes } req (deadline now req.ttlMs), none⟩,
        .done (.call (.write (.ok true)))) := by
    intro indexes
    refine reaches_filing _ req.key ?_
    iterate 8 refine Reaches.step rfl ?_
    exact .refl
  rw [program, casAccesses, cas, casLogging]
  refine Reaches.step rfl (Reaches.step rfl ?_)
  simp only [Access.next, Access.goesOn, Access.change, leader]
  cases held : s.tree[req.key]? with
  | none =>
      by_cases absent : req.expectedValue = []
      · simp only [absent, if_true]
        exact writes s.indexes
      · simp only [absent, if_false]
        exact failed
  | some rec =>
      by_cases expired : isExpired rec.expiresAt now = true
      · by_cases absent : req.expectedValue = []
        · simp only [expired, absent, if_true]
          exact writes s.indexes
        · simp only [expired, absent, if_true, if_false]
          exact failed
      · by_cases same : rec.value = req.expectedValue
        · simp only [expired, same, if_true]
          exact reaches_unfiling _ req.key (writes _)
        · simp only [expired, same, if_false]
          exact failed

theorem reaches_checks (entries : List (String × Option DbRecord)) (snapshotVersion : Nat)
    (clear : (entries.any fun entry => match s.tree[entry.1]? with
      | some current => current.version > snapshotVersion
      | none => false) = false)
    (later : Reaches me now (⟨s, held⟩, .running version rest) after) :
    Reaches me now (⟨s, held⟩, .running version
      (entries.map (fun entry => .check entry.1 snapshotVersion) ++ rest)) after := by
  induction entries with
  | nil => exact later
  | cons entry entries ih =>
      obtain ⟨here, clearRest⟩ := Bool.or_eq_false_iff.mp ((List.any_cons ..).symm.trans clear)
      refine Reaches.step rfl ?_
      simp only [Access.next, Access.goesOn, Access.change]
      cases found : s.tree[entry.1]? with
      | none => exact ih clearRest
      | some current =>
          rw [found] at here
          simp only [of_decide_eq_false here, if_false]
          exact ih clearRest

theorem reaches_conflict (entries : List (String × Option DbRecord)) (snapshotVersion : Nat)
    (conflict : (entries.any fun entry => match s.tree[entry.1]? with
      | some current => current.version > snapshotVersion
      | none => false) = true) :
    Reaches me now (⟨s, some me⟩, .running version
      (entries.map (fun entry => .check entry.1 snapshotVersion) ++ rest))
      (⟨s, none⟩, .done (.call (.commit (.error .conflict)))) := by
  induction entries with
  | nil => cases conflict
  | cons entry entries ih =>
      rw [List.any_cons, Bool.or_eq_true] at conflict
      refine Reaches.step rfl ?_
      simp only [Access.next, Access.goesOn, Access.change]
      cases found : s.tree[entry.1]? with
      | none =>
          rw [found] at conflict
          exact ih (conflict.resolve_left Bool.false_ne_true)
      | some current =>
          rw [found] at conflict
          by_cases newer : current.version > snapshotVersion
          · simp only [newer, if_true]
            exact Reaches.step rfl (Reaches.step rfl .refl)
          · simp only [newer, if_false]
            exact ih (conflict.resolve_left (by simp [newer]))

theorem reaches_applies {program : KindServerImpl}
    (same : program.schemaRegistry = s.schemaRegistry) (entries : List (String × Option DbRecord))
    (later : Reaches me now (⟨entries.foldl (TxHandle.applyEntry version) s, held⟩,
      .running version rest) after) :
    Reaches me now (⟨s, held⟩, .running version (entries.flatMap program.applyAccesses ++ rest))
      after := by
  induction entries generalizing s with
  | nil => exact later
  | cons entry entries ih =>
      obtain ⟨key, written⟩ := entry
      rw [List.flatMap_cons, List.append_assoc]
      have goesOn := ih (same.trans (congrArg (·.schemaRegistry)
        (TxHandle.applyEntry_eq version s (key, written))).symm) later
      unfold TxHandle.applyEntry at goesOn
      cases written with
      | none =>
          refine reaches_lookupOld key ?_
          iterate 3 refine Reaches.step rfl ?_
          exact goesOn
      | some rec =>
          simp only [applyAccesses, List.cons_append, List.append_assoc]
          refine reaches_lookupOld key (Reaches.step rfl ?_)
          rw [s.unindexOld_eq] at goesOn ⊢
          unfold filing extractIndexKeys
          rw [same]
          refine reaches_filing _ key ?_
          iterate 2 refine Reaches.step rfl ?_
          exact goesOn

theorem reaches_commit (leader : s.isReplica = false) (tx : TxHandle) :
    Reaches me now (⟨s, none⟩, .running 0 (s.accesses now (.call (.commit tx))))
      (⟨(tx.commit s).2, none⟩, .done (.call (.commit (tx.commit s).1))) := by
  have program : s.accesses now (.call (.commit tx)) = s.commitAccesses tx :=
    if_neg (by simp [leader])
  rw [program, commitAccesses]
  refine Reaches.step rfl ?_
  cases conflict : tx.conflicts s with
  | true =>
      rw [TxHandle.commit_conflict leader conflict]
      exact reaches_conflict _ _ conflict
  | false =>
      rw [TxHandle.commit_ok leader conflict]
      refine reaches_checks _ _ conflict ?_
      iterate 3 refine Reaches.step rfl ?_
      refine reaches_applies rfl _ ?_
      iterate 2 refine Reaches.step rfl ?_
      exact .refl

theorem reaches_get (key : String) :
    Reaches me now (⟨s, held⟩, .running version (s.accesses now (.get key)))
      (⟨(s.get key now).2, held⟩, .done (.got (s.get key now).1)) := by
  refine Reaches.step rfl ?_
  simp only [Access.next, Access.goesOn, Access.change, KindServerImpl.get]
  cases hit : (s.cache.get key).1 with
  | some value => exact Reaches.step rfl .refl
  | none =>
      refine Reaches.step rfl ?_
      simp only [Access.next, Access.goesOn, Access.change]
      cases found : s.tree[key]? with
      | none => exact Reaches.step rfl .refl
      | some rec =>
          by_cases expired : isExpired rec.expiresAt now = true
          · simp only [expired, if_true]
            refine reaches_unfiling _ key ?_
            iterate 2 refine Reaches.step rfl ?_
            exact .refl
          · simp only [expired]
            exact Reaches.step rfl .refl

theorem reaches_collect (visited : List (String × DbRecord)) {rest : List (String × DbRecord)}
    (split : s.tree.toList = visited ++ rest) (toRemove : List (String × Bytes)) :
    Reaches me now
      (⟨s, held⟩, .running version [.collect (visited.getLast?.map Prod.fst) toRemove])
      (⟨s, held⟩, .running version ((toRemove ++
        (rest.filter fun entry => isExpired entry.2.expiresAt now).map
          fun entry => (entry.1, entry.2.value)).flatMap
        (fun entry => s.unfiling entry.1 entry.2 ++ [.evict entry.1]) ++ [.collect none []])) := by
  induction rest generalizing visited toRemove with
  | nil =>
      refine Reaches.step rfl ?_
      simp only [Access.next, Access.goesOn, Access.change, nextAbove_split split, List.head?_nil,
        List.filter_nil, List.map_nil, List.append_nil]
      exact .refl
  | cons entry rest ih =>
      have further := ih (visited ++ [entry]) (by simp [split])
      rw [List.getLast?_concat, Option.map_some] at further
      refine Reaches.step rfl ?_
      simp only [Access.next, Access.goesOn, Access.change, nextAbove_split split, List.head?_cons]
      by_cases expired : isExpired entry.2.expiresAt now = true
      · simp only [expired, if_true, List.filter_cons, List.map_cons]
        have collected := further (toRemove ++ [(entry.1, entry.2.value)])
        rw [List.append_assoc] at collected
        exact collected
      · simp only [expired, List.filter_cons]
        exact further _

theorem reaches_evictions {program : KindServerImpl}
    (same : program.schemaRegistry = s.schemaRegistry) (entries : List (String × DbRecord))
    (later : Reaches me now (⟨entries.foldl evict s, held⟩, .running version rest) after) :
    Reaches me now (⟨s, held⟩, .running version ((entries.map
      fun entry => (entry.1, entry.2.value)).flatMap
        (fun entry => program.unfiling entry.1 entry.2 ++ [.evict entry.1]) ++ rest)) after := by
  induction entries generalizing s with
  | nil => exact later
  | cons entry entries ih =>
      have goesOn := ih (s := s.evict entry) same later
      have terms : program.unfiling entry.1 entry.2.value = s.unfiling entry.1 entry.2.value := by
        rw [unfiling, extractIndexKeys, same, unfiling, extractIndexKeys]
      rw [List.map_cons, List.flatMap_cons, terms, List.append_assoc, List.append_assoc]
      exact reaches_unfiling _ entry.1 (Reaches.step rfl goesOn)

/-- One turn of the sweeper. -/
theorem reaches_sweep :
    Reaches me now (⟨s, held⟩, .running version (s.accesses now .sweeper))
      (⟨s.sweep now, held⟩, .running version [.collect none []]) := by
  refine (reaches_collect [] rfl []).trans ?_
  rw [List.nil_append]
  refine reaches_evictions rfl _ ?_
  exact .refl

end Alone

end KindDb
