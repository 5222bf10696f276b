import KindDb.Properties.IndexExactness
import KindDb.Server.Replica
import KindDb.Server.Versions

/-! # A commit is atomic, in any order of its write set

The loop of `commit` updates four structures for one key after the other.  On
the tree its turns are updates of different keys (`applyEntries_spec`); the
index it leaves is exact, and a term has a set if it had one or an entry put
it there, so neither depends on the order. -/
set_option autoImplicit false

namespace KindDb.AtomicCommit

open KindDb.Lib KindDb.Lib.Overlay KindDb.Lib.IndexReplay KindDb.Lib.Runs KindDb.Cache KindDb.Schema
open KindDb.IndexExactness KindDb.TxHandle

/-- Some record under a key of the write set is newer than the snapshot. -/
def Conflicting (s : KindServerImpl) (tx : TxHandle) : Prop :=
  ∃ key ∈ tx.writeSet.keys, ∃ r, s.tree[key]? = some r ∧ tx.snapshotVersion < r.version

section Commits
variable [Serde]

/-- The state after a commit that succeeded. -/
structure Committed (s s' : KindServerImpl) (tx : TxHandle) : Prop where
  globalVersion : s'.globalVersion = s.globalVersion + 1
  put : ∀ key r, (key, some r) ∈ tx.writeSet.entries →
    s'.tree[key]? = some { r with version := s.globalVersion + 1 }
  deleted : ∀ key : String, (key, none) ∈ tx.writeSet.entries → s'.tree[key]? = none
  others : ∀ key : String, key ∉ tx.writeSet.keys → s'.tree[key]? = s.tree[key]?
  indexExact : IndexExact s'
  cleared : ∀ key ∈ tx.writeSet.keys, s'.cache.peek key = none
  cached : ∀ key, key ∉ tx.writeSet.keys → s'.cache.peek key = s.cache.peek key
  order : ∀ pairs, s.cache.Holds pairs →
    s'.cache.Holds (pairs.filter fun pair => pair.1 ∉ tx.writeSet.keys)
  wal : s'.wal = s.wal.map fun file => Wal.append file (s.globalVersion + 1)
    (.txCommit (tx.writeSet.entries.map pendingCommand))

/-! ## The structures after the loop -/

theorem holds_applyEntries (version : Nat) (entries : List (String × Option DbRecord))
    (s : KindServerImpl) (pairs : List (String × Bytes)) (holds : s.cache.Holds pairs) :
    (entries.foldl (applyEntry version) s).cache.Holds
      (pairs.filter fun pair => pair.1 ∉ entries.map Prod.fst) := by
  induction entries generalizing s pairs with
  | nil => simpa using holds
  | cons entry rest ih =>
      have first : (applyEntry version s entry).cache.Holds (Recency.drop entry.1 pairs) := by
        rw [applyEntry_eq]
        exact holds.invalidate entry.1
      have later := ih (applyEntry version s entry) _ first
      rw [Recency.drop, List.filter_filter] at later
      refine Eq.subst (List.filter_congr fun pair _ => ?_) later
      by_cases same : pair.1 = entry.1 <;> simp [same]

theorem isSome_unindexOld (s : KindServerImpl) (key ik : String) :
    (s.unindexOld key).indexes[ik]?.isSome = s.indexes[ik]?.isSome := by
  unfold KindServerImpl.unindexOld
  cases s.tree[key]? with
  | none => rfl
  | some old => exact PostingIndex.isSome_unfileAll _ _ _ _

/-- The entry files its key under the index key. -/
def files (s : KindServerImpl) (ik : String) (entry : String × Option DbRecord) : Bool :=
  entry.2.any fun r => decide (ik ∈ s.extractIndexKeys entry.1 r.value)

theorem isSome_applyEntry (version : Nat) (s : KindServerImpl)
    (entry : String × Option DbRecord) (ik : String) :
    (applyEntry version s entry).indexes[ik]?.isSome =
      (s.indexes[ik]?.isSome || files s ik entry) := by
  obtain ⟨key, written⟩ := entry
  rw [← isSome_unindexOld s key]
  unfold applyEntry
  rw [s.unindexOld_eq]
  cases written with
  | none => exact (Bool.or_false _).symm
  | some r => exact PostingIndex.isSome_fileAll _ _ _ _

theorem isSome_applyEntries (version : Nat) (entries : List (String × Option DbRecord))
    (s : KindServerImpl) (ik : String) :
    (entries.foldl (applyEntry version) s).indexes[ik]?.isSome =
      (s.indexes[ik]?.isSome || entries.any (files s ik)) := by
  induction entries generalizing s with
  | nil => simp
  | cons entry rest ih =>
      have sameKeys : files (applyEntry version s entry) ik = files s ik := by
        rw [applyEntry_eq]
        rfl
      rw [List.foldl_cons, ih, isSome_applyEntry, sameKeys, List.any_cons, Bool.or_assoc]

theorem committed (s : KindServerImpl) (leader : s.isReplica = false) (exact : IndexExact s)
    (tx : TxHandle) (clear : tx.conflicts s = false) : Committed s (tx.commit s).2 tx := by
  have logged := KindServerImpl.commit_logged leader clear
  have lookup := logged.tree
  rw [recordUpdates_pending] at lookup
  have distinct : (touched (entryUpdates (s.globalVersion + 1) tx.writeSet.entries)).Nodup := by
    rw [touched_entryUpdates]
    exact tx.writeSet.distinct
  have held : ∀ key written, (key, written) ∈ tx.writeSet.entries →
      (tx.commit s).2.tree[key]? = written.map ({ · with version := s.globalVersion + 1 }) := by
    intro key written member
    rw [lookup]
    exact overlay_of_mem distinct (List.mem_map_of_mem member) _
  have cache := commit_ok leader clear
  refine ⟨logged.globalVersion, fun key r => held key (some r), fun key => held key none,
    fun key absent => ?_, exact.commit leader clear, fun key listed => ?_, fun key absent => ?_,
    fun pairs holds => ?_, logged.wal⟩
  · rw [lookup, overlay_untouched]
    rw [touched_entryUpdates]
    exact absent
  · rw [cache, (applyEntries_spec ..).2.1]
    exact if_pos listed
  · rw [cache, (applyEntries_spec ..).2.1]
    exact if_neg absent
  · rw [cache]
    exact holds_applyEntries _ _ _ pairs holds

/-! ## Another order -/

variable {s : KindServerImpl} {tx : TxHandle} {order : WriteSet}

omit [Serde] in
theorem conflicts_reordered (perm : order.entries.Perm tx.writeSet.entries) :
    ({ tx with writeSet := order } : TxHandle).conflicts s = tx.conflicts s :=
  perm.any_eq

theorem commit_reordered (leader : s.isReplica = false) (exact : IndexExact s)
    (perm : order.entries.Perm tx.writeSet.entries) :
    (({ tx with writeSet := order } : TxHandle).commit s).1 = (tx.commit s).1 ∧
      (({ tx with writeSet := order } : TxHandle).commit s).2.tree = (tx.commit s).2.tree ∧
      (({ tx with writeSet := order } : TxHandle).commit s).2.indexes =
        (tx.commit s).2.indexes := by
  have same := conflicts_reordered (s := s) perm
  cases clear : tx.conflicts s with
  | true =>
      rw [commit_conflict leader clear, commit_conflict leader (same.trans clear)]
      exact ⟨rfl, rfl, rfl⟩
  | false =>
      have clear' := same.trans clear
      have result := commit_ok leader clear
      have result' := commit_ok leader clear'
      have distinct : (touched (entryUpdates (s.globalVersion + 1) order.entries)).Nodup := by
        rw [touched_entryUpdates]
        exact order.distinct
      have tree : (({ tx with writeSet := order } : TxHandle).commit s).2.tree =
          (tx.commit s).2.tree := by
        refine Std.ExtTreeMap.ext_getElem? fun key => ?_
        rw [result, result', (applyEntries_spec ..).1, (applyEntries_spec ..).1]
        exact overlay_perm distinct (perm.map _) _ key
      refine ⟨by rw [result, result'], tree, PostingIndex.ext_indexed (fun ik => ?_) fun ik key => ?_⟩
      · rw [result, result', isSome_applyEntries, isSome_applyEntries]
        exact congrArg _ perm.any_eq
      · have left := exact.commit leader clear' ik key
        have right := exact.commit leader clear ik key
        have registry := (KindServerImpl.commit_logged leader clear).schemaRegistry
        have registry' := (KindServerImpl.commit_logged leader clear').schemaRegistry
        rw [left, right]
        unfold values KindServerImpl.extractIndexKeys
        rw [tree, registry, registry']

/-! ## The logged command carried out again -/

omit [Serde] in
/-- Updates of the visible store as records of one version. -/
def recordsOf (version : Nat) (updates : List (Update String Content)) :
    List (Update String DbRecord) :=
  updates.map fun u => (u.1, u.2.map fun held => { value := held.1, expiresAt := held.2, version })

omit [Serde] in
theorem recordsOf_append (version : Nat) (first second : List (Update String Content)) :
    recordsOf version (first ++ second) = recordsOf version first ++ recordsOf version second :=
  List.map_append

omit [Serde] in
theorem touched_recordsOf (version : Nat) (updates : List (Update String Content)) :
    touched (recordsOf version updates) = touched updates := by
  simp [touched, recordsOf, Function.comp_def]

omit [Serde] in
theorem overlay_recordsOf_single (version : Nat) (store : String → Option DbRecord)
    (key k : String) (held : Option Content) :
    overlay store (recordsOf version [(key, held)]) k =
      if key = k then
        held.map fun held => { value := held.1, expiresAt := held.2, version }
      else store k := by
  simp only [eq_comm (a := key)]
  exact Function.update_apply ..

theorem lookup_applySubCommands (txId : Nat) (cmds : List WalCommand) (s : KindServerImpl)
    (key : String) :
    (cmds.foldl (KindServerImpl.applySubCommand txId) s).tree[key]? =
      overlay (fun k => s.tree[k]?) (recordsOf txId (cmds.flatMap WalCommand.subUpdates)) key := by
  induction cmds generalizing s with
  | nil => rfl
  | cons cmd rest ih =>
      rw [List.foldl_cons, ih, List.flatMap_cons, recordsOf_append, overlay_append]
      refine overlay_congr _ ?_
      cases cmd with
      | txCommit cmds => rfl
      | put k value expiresAt =>
          have written := SortedMap.lookup_insert s.tree k key { value, expiresAt, version := txId }
          rw [WalCommand.subUpdates, overlay_recordsOf_single, KindServerImpl.applySubCommand,
            s.unindexOld_eq]
          exact written
      | delete k =>
          have removed := SortedMap.lookup_erase s.tree k key
          rw [WalCommand.subUpdates, overlay_recordsOf_single, KindServerImpl.applySubCommand,
            s.unindexOld_eq]
          exact removed

theorem lookup_replaySubCommands (reg : SchemaRegistry) (now : UInt64) (cmds : List WalCommand)
    (st : Recovery) (key : String) :
    (cmds.foldl (Recovery.replaySubCommand reg now) st).tree[key]? =
      overlay (fun k => st.tree[k]?)
        (recordsOf (st.maxVer + 1) (effectiveAt now (cmds.flatMap WalCommand.subUpdates))) key := by
  induction cmds generalizing st with
  | nil => rfl
  | cons cmd rest ih =>
      have counter : (Recovery.replaySubCommand reg now st cmd).maxVer = st.maxVer :=
        Recovery.maxVer_replaySubCommands [cmd] st
      rw [List.foldl_cons, ih, counter, List.flatMap_cons, effectiveAt_append,
        recordsOf_append, overlay_append]
      refine overlay_congr _ ?_
      cases cmd with
      | txCommit cmds => rfl
      | delete k =>
          have all : effectiveAt now [(k, none)] = [(k, none)] := rfl
          rw [WalCommand.subUpdates, all, overlay_recordsOf_single, Recovery.replaySubCommand,
            Recovery.tree_removeKey, SortedMap.lookup_erase]
          rfl
      | put k value expiresAt =>
          cases expired : isExpired expiresAt now with
          | true =>
              have skipped : effectiveAt now [(k, some (value, expiresAt))] = [] := by
                simp [effectiveAt, expired]
              rw [WalCommand.subUpdates, skipped, Recovery.replaySubCommand, if_pos expired]
              rfl
          | false =>
              have all : effectiveAt now [(k, some (value, expiresAt))] =
                  [(k, some (value, expiresAt))] := by simp [effectiveAt, expired]
              have written := SortedMap.lookup_insert st.tree k key
                { value, expiresAt, version := st.maxVer + 1 }
              rw [WalCommand.subUpdates, all, overlay_recordsOf_single, Recovery.replaySubCommand,
                if_neg (by simp [expired])]
              exact written

omit [Serde] in
theorem updates_pending (entries : List (String × Option DbRecord)) :
    (WalCommand.txCommit (entries.map pendingCommand)).updates =
      entries.map fun entry => (entry.1, entry.2.map DbRecord.content) := by
  simp only [WalCommand.updates]
  induction entries with
  | nil => rfl
  | cons entry rest ih =>
      obtain ⟨key, rec⟩ := entry
      rw [List.map_cons, List.flatMap_cons, ih]
      cases rec <;> rfl

/-- A commit of the same write set in another order, and the command it logs. -/
structure Reordered (s : KindServerImpl) (tx tx' : TxHandle) : Prop where
  result : (tx'.commit s).1 = (tx.commit s).1
  tree : (tx'.commit s).2.tree = (tx.commit s).2.tree
  indexes : (tx'.commit s).2.indexes = (tx.commit s).2.indexes
  applied : ¬ Conflicting s tx →
    (s.applyCommand (s.globalVersion + 1)
      (.txCommit (tx'.writeSet.entries.map pendingCommand))).tree = (tx.commit s).2.tree
  replayed : ∀ (reg : SchemaRegistry) (now : UInt64) (st : Recovery), st.tree = s.tree →
    (Recovery.replayCommand reg now st
        (s.globalVersion + 1, .txCommit (tx'.writeSet.entries.map pendingCommand))).tree =
      (Recovery.replayCommand reg now st
        (s.globalVersion + 1, .txCommit (tx.writeSet.entries.map pendingCommand))).tree
  recovered : ¬ Conflicting s tx → ∀ (reg : SchemaRegistry) (now : UInt64) (st : Recovery),
    st.tree = s.tree →
    (∀ entry ∈ tx.writeSet.entries, ∀ r, entry.2 = some r → isExpired r.expiresAt now = false) →
    (Recovery.replayCommand reg now st
        (s.globalVersion + 1, .txCommit (tx'.writeSet.entries.map pendingCommand))).contents =
      (tx.commit s).2.contents

theorem tree_applyCommand_pending (s : KindServerImpl) (version : Nat)
    (entries : List (String × Option DbRecord)) (key : String) :
    (s.applyCommand version (.txCommit (entries.map pendingCommand))).tree[key]? =
      overlay (fun k => s.tree[k]?) (entryUpdates version entries) key := by
  rw [← recordUpdates_pending]
  exact lookup_applySubCommands version (entries.map pendingCommand) _ key

theorem replayed_reordered (reg : SchemaRegistry) (now : UInt64) (st : Recovery) (txId : Nat)
    (perm : order.entries.Perm tx.writeSet.entries) :
    (Recovery.replayCommand reg now st
        (txId, .txCommit (order.entries.map pendingCommand))).tree =
      (Recovery.replayCommand reg now st
        (txId, .txCommit (tx.writeSet.entries.map pendingCommand))).tree := by
  refine Std.ExtTreeMap.ext_getElem? fun key => ?_
  simp only [Recovery.replayCommand]
  rw [lookup_replaySubCommands, lookup_replaySubCommands]
  refine overlay_perm ?_ ?_ _ key
  · rw [touched_recordsOf]
    have keys : ((WalCommand.txCommit (order.entries.map pendingCommand)).keys).Nodup := by
      rw [keys_pending]
      exact order.distinct
    exact keys.sublist (List.filter_sublist.map _)
  · exact (((perm.map pendingCommand).flatMap_right _).filter _).map _

theorem reordered (leader : s.isReplica = false) (exact : IndexExact s)
    (perm : order.entries.Perm tx.writeSet.entries) :
    Reordered s tx { tx with writeSet := order } := by
  obtain ⟨result, tree, indexes⟩ := commit_reordered leader exact perm
  have clear : ¬ Conflicting s tx → tx.conflicts s = false := fun none =>
    Bool.eq_false_iff.mpr fun conflict => none ((conflicts_iff tx s).mp conflict)
  refine ⟨result, tree, indexes, fun none => ?_, fun reg now st _ =>
    replayed_reordered reg now st _ perm, fun none reg now st same unexpired => ?_⟩
  · refine Std.ExtTreeMap.ext_getElem? fun key => ?_
    have distinct : (touched (entryUpdates (s.globalVersion + 1) order.entries)).Nodup := by
      rw [touched_entryUpdates]
      exact order.distinct
    rw [tree_applyCommand_pending, commit_ok leader (clear none), (applyEntries_spec ..).1]
    exact overlay_perm distinct (perm.map _) _ key
  · have viewed := congrArg Prod.fst (Recovery.view_replayCommand reg now st
      (s.globalVersion + 1, .txCommit (order.entries.map pendingCommand)))
    have start : st.contents = s.contents := by
      unfold Recovery.contents KindServerImpl.contents
      rw [same]
    have all : effectiveAt now (WalCommand.txCommit (order.entries.map pendingCommand)).updates =
        (WalCommand.txCommit (order.entries.map pendingCommand)).updates := by
      refine List.filter_eq_self.mpr fun u member => ?_
      rw [updates_pending] at member
      obtain ⟨entry, listed, rfl⟩ := List.mem_map.mp member
      cases written : entry.2 with
      | none => rfl
      | some r =>
          have live := unexpired entry (perm.mem_iff.mp listed) r written
          simpa [DbRecord.content] using live
    have logged := KindServerImpl.commit_logged leader (clear none)
    refine viewed.trans (funext fun key => ?_)
    rw [replay_store, all, logged.contents, updates_pending, updates_pending]
    refine (overlay_perm ?_ (perm.map _) _ key).trans (overlay_congr _ (congrFun start key))
    have keys : ((WalCommand.txCommit (order.entries.map pendingCommand)).keys).Nodup := by
      rw [keys_pending]
      exact order.distinct
    rwa [WalCommand.keys, updates_pending] at keys

theorem commit_atomic (s : KindServerImpl) (leader : s.isReplica = false) (exact : IndexExact s)
    (tx : TxHandle) :
    (Conflicting s tx ∧ tx.commit s = (.error .conflict, s) ∨
      ¬ Conflicting s tx ∧ (tx.commit s).1 = .ok () ∧ Committed s (tx.commit s).2 tx) ∧
    ∀ order : WriteSet, order.entries.Perm tx.writeSet.entries →
      Reordered s tx { tx with writeSet := order } := by
  refine ⟨?_, fun order perm => reordered leader exact perm⟩
  cases clear : tx.conflicts s with
  | true => exact Or.inl ⟨(conflicts_iff tx s).mp clear, commit_conflict leader clear⟩
  | false =>
      refine Or.inr ⟨?_, by rw [commit_ok leader clear], committed s leader exact tx clear⟩
      rw [Conflicting, ← conflicts_iff, clear]
      exact Bool.false_ne_true

end Commits

open SerdeJson

def twoCities : WriteSet where
  entries := [("user:1", some { value := cityJson "a", expiresAt := none, version := 0 }),
    ("user:2", some { value := cityJson "a", expiresAt := none, version := 0 })]
  distinct := by decide

def twoCitiesReversed : WriteSet where
  entries := twoCities.entries.reverse
  distinct := by decide

/-- Two records that share an index set. -/
theorem commit_atomic_shared :
    let s := KindServerImpl.fresh userRegistry false true false
    let tx : TxHandle := { writeSet := twoCities, snapshotVersion := 0 }
    (tx.commit s).1 = .ok () ∧ Committed s (tx.commit s).2 tx ∧
      Reordered s tx { tx with writeSet := twoCitiesReversed } := by
  intro s tx
  obtain ⟨either, orders⟩ := commit_atomic s rfl (exact_fresh userRegistry false true) tx
  have free : ¬ Conflicting s tx := by
    rintro ⟨key, _, r, held, _⟩
    simp [s, KindServerImpl.fresh, KindServerImpl.new, Recovery.recover, Recovery.empty] at held
  obtain ⟨_, succeeds, committed⟩ := either.resolve_left fun conflicting => free conflicting.1
  exact ⟨succeeds, committed, orders twoCitiesReversed (List.reverse_perm _)⟩

end KindDb.AtomicCommit
