import KindDb.Properties.IndexExactness

/-! # A watcher can mirror the tree

`watch` passes on the events whose key starts with the prefix.  Every write
path sends its own events, one for each key it touches; carried out on the
values of the tree they lead to the values afterwards (`Told`).  A client that
folds the events it receives holds the part of the tree under its prefix. -/
set_option autoImplicit false

namespace KindDb.WatchMirror

open KindDb.Lib KindDb.Lib.Runs KindDb.IndexExactness

structure WatchRequest where
  keyPrefix : Option String
deriving Repr, DecidableEq

/-- The stream of a watcher; `none` is the error of a receiver that lagged. -/
def watch (req : WatchRequest) (received : List (Option WatchEvent)) : List WatchEvent :=
  received.filterMap fun res => match res with
    | some event => if event.key.startsWith (req.keyPrefix.getD "") then some event else none
    | none => none

/-- The place of a new receiver in the channel. -/
def subscribe (s : KindServerImpl) : Nat := s.watchTx.length

/-- What a receiver that never lags has received by now. -/
def received (place : Nat) (s : KindServerImpl) : List (Option WatchEvent) :=
  (s.watchTx.drop place).map some

/-- What a client does with an event. -/
def absorb (mirror : String → Option Bytes) (event : WatchEvent) : String → Option Bytes :=
  if event.operationType = "PUT" then Function.update mirror event.key event.newValue
  else if event.operationType = "DELETE" then Function.update mirror event.key none
  else mirror

def mirror (events : List WatchEvent) : String → Option Bytes := events.foldl absorb fun _ => none

theorem absorb_other {m : String → Option Bytes} {event : WatchEvent} {key : String}
    (other : key ≠ event.key) : absorb m event key = m key := by
  unfold absorb
  split_ifs
  · exact Function.update_of_ne other _ _
  · exact Function.update_of_ne other _ _
  · rfl

theorem absorb_congr {m m' : String → Option Bytes} {event : WatchEvent} {key : String}
    (same : m key = m' key) : absorb m event key = absorb m' event key := by
  unfold absorb
  split_ifs
  · simp only [Function.update_apply, same]
  · simp only [Function.update_apply, same]
  · exact same

theorem watch_eq_filter (req : WatchRequest) (events : List WatchEvent) :
    watch req (events.map some) =
      events.filter fun event => event.key.startsWith (req.keyPrefix.getD "") := by
  induction events with
  | nil => rfl
  | cons event rest ih =>
      rw [List.filter_cons, ← ih]
      unfold watch
      rw [List.map_cons, List.filterMap_cons]
      cases passes : event.key.startsWith (req.keyPrefix.getD "") with
      | true => simp only [passes, if_true]
      | false => simp only [passes, Bool.false_eq_true, if_false]

/-- The events under the prefix are all that matters for a key under it, and
none of them is about any other key. -/
theorem absorb_watch (req : WatchRequest) (events : List WatchEvent) {m m' : String → Option Bytes}
    {key : String} (same : m key = m' key) :
    (watch req (events.map some)).foldl absorb m key =
      if key.startsWith (req.keyPrefix.getD "") then events.foldl absorb m' key else m key := by
  rw [watch_eq_filter]
  induction events generalizing m m' with
  | nil => rw [List.filter_nil, List.foldl_nil, List.foldl_nil, same, ite_self]
  | cons event rest ih =>
      cases passes : event.key.startsWith (req.keyPrefix.getD "") with
      | true =>
          simp only [List.filter_cons, passes, if_true, List.foldl_cons]
          rw [ih (absorb_congr same)]
          split_ifs with under
          · rfl
          · refine absorb_other fun equal => ?_
            rw [equal] at under
            exact under passes
      | false =>
          simp only [List.filter_cons, passes, Bool.false_eq_true, if_false, List.foldl_cons]
          by_cases under : key.startsWith (req.keyPrefix.getD "") = true
          · have other : key ≠ event.key := fun equal => by
              rw [← equal, under] at passes
              cases passes
            exact ih (same.trans (absorb_other other).symm)
          · rw [ih same, if_neg under, if_neg under]

/-- The events sent on the way from one state to the next turn the values of
the first into those of the second. -/
def Told (s s' : KindServerImpl) : Prop :=
  ∃ sent, s'.watchTx = s.watchTx ++ sent ∧ sent.foldl absorb (values s) = values s'

theorem Told.trans {s s' s'' : KindServerImpl} (first : Told s s') (second : Told s' s'') :
    Told s s'' := by
  obtain ⟨sent, channel, reached⟩ := first
  obtain ⟨sent', channel', reached'⟩ := second
  refine ⟨sent ++ sent', ?_, ?_⟩
  · rw [channel', channel, List.append_assoc]
  · rw [List.foldl_append, reached, reached']

theorem told_put {s s' : KindServerImpl} {key : String} {r : DbRecord}
    (tree : s'.tree = s.tree.insert key r) (channel : s'.watchTx =
      s.watchTx ++ [{ key, newValue := some r.value, operationType := "PUT" }]) : Told s s' :=
  ⟨_, channel, (values_insert tree).symm⟩

theorem told_delete {s s' : KindServerImpl} {key : String} (tree : s'.tree = s.tree.erase key)
    (channel : s'.watchTx =
      s.watchTx ++ [{ key, newValue := none, operationType := "DELETE" }]) : Told s s' :=
  ⟨_, channel, (values_erase tree).symm⟩

section Runs
variable [Serde]

theorem told_applyEntry (version : Nat) (s : KindServerImpl)
    (entry : String × Option DbRecord) : Told s (TxHandle.applyEntry version s entry) := by
  obtain ⟨key, written⟩ := entry
  unfold TxHandle.applyEntry
  rw [s.unindexOld_eq]
  cases written with
  | none => exact told_delete rfl rfl
  | some r => exact told_put (r := { r with version }) rfl rfl

theorem told_commit {s : KindServerImpl} (leader : s.isReplica = false) {tx : TxHandle}
    (clear : tx.conflicts s = false) : Told s (tx.commit s).2 := by
  rw [TxHandle.commit_ok leader clear]
  have applied : ∀ (entries : List (String × Option DbRecord)) (version : Nat)
      (s : KindServerImpl), Told s (entries.foldl (TxHandle.applyEntry version) s) := by
    intro entries version
    induction entries with
    | nil => exact fun s => ⟨[], (List.append_nil _).symm, rfl⟩
    | cons entry rest ih => exact fun s => (told_applyEntry version s entry).trans (ih _)
  exact applied _ _ _

/-- The calls of clients that write. -/
def IsWrite : Op → Prop
  | .put _ => True
  | .delete _ => True
  | .cas _ => True
  | .commit _ => True
  | _ => False

theorem told_step {s : KindServerImpl} (leader : s.isReplica = false) (event : UInt64 × Op)
    (writes : IsWrite event.2) : Told s (serverStep s event) := by
  obtain ⟨now, op⟩ := event
  have quiet : Told s s := ⟨[], (List.append_nil _).symm, rfl⟩
  cases op with
  | get key => exact writes.elim
  | sweep => exact writes.elim
  | checkpoint => exact writes.elim
  | put req =>
      simp only [serverStep, Op.exec, KindServerImpl.put_eq s leader]
      exact told_put rfl rfl
  | delete key =>
      cases held : s.tree[key]? with
      | none => simpa only [serverStep, Op.exec, KindServerImpl.delete_absent s leader held] using quiet
      | some old =>
          simp only [serverStep, Op.exec, KindServerImpl.delete_present s leader held]
          exact told_delete rfl rfl
  | cas req =>
      simp only [serverStep, Op.exec, KindServerImpl.cas_eq s leader]
      split_ifs
      · rw [KindServerImpl.casUnindex_eq, KindServerImpl.casWrite_eq]
        exact told_put rfl rfl
      · exact quiet
  | commit tx =>
      cases clear : tx.conflicts s with
      | true =>
          simpa only [serverStep, Op.exec, TxHandle.commit_conflict leader clear] using quiet
      | false => exact told_commit leader clear

/-- All that was sent so far makes up the values of the tree. -/
def Mirrored (s : KindServerImpl) : Prop := s.isReplica = false ∧ mirror s.watchTx = values s

theorem mirrored_step {s : KindServerImpl} (event : UInt64 × Op) (writes : IsWrite event.2)
    (mirrored : Mirrored s) : Mirrored (serverStep s event) := by
  obtain ⟨leader, reached⟩ := mirrored
  obtain ⟨sent, channel, told⟩ := told_step leader event writes
  refine ⟨(KindServerImpl.exec_settings leader event.2).isReplica.trans leader, ?_⟩
  rw [channel, mirror, List.foldl_append]
  exact (congrArg (sent.foldl absorb) reached).trans told

theorem mirrored_fresh (reg : Schema.SchemaRegistry) (hasSnapshot hasWal : Bool) :
    Mirrored (KindServerImpl.fresh reg hasSnapshot hasWal false) := by
  refine ⟨rfl, funext fun key => ?_⟩
  cases hasSnapshot <;> cases hasWal <;>
    simp [mirror, values, KindServerImpl.fresh, KindServerImpl.new, Recovery.recover,
      Recovery.empty]

/-- The mirror of a watcher that subscribed before the first operation. -/
theorem watcher_mirrors (reg : Schema.SchemaRegistry) (hasSnapshot hasWal : Bool)
    (req : WatchRequest) (events : List (UInt64 × Op))
    (writes : ∀ event ∈ events, IsWrite event.2) :
    ∀ past, past <+: events →
      let start := KindServerImpl.fresh reg hasSnapshot hasWal false
      let s := run serverStep start past
      ∀ key : String, mirror (watch req (received (subscribe start) s)) key =
        if key.startsWith (req.keyPrefix.getD "") then (s.tree[key]?).map (·.value) else none := by
  intro past prefixed start s key
  have mirrored : Mirrored s := by
    refine run_invariant (C := fun _ event => IsWrite event.2) (fun s event => mirrored_step event)
      past start (stepsMeet_of_labels (fun event member _ => ?_) start)
      (mirrored_fresh reg hasSnapshot hasWal)
    exact writes event (prefixed.subset member)
  have all : received (subscribe start) s = s.watchTx.map some := rfl
  rw [all]
  refine (absorb_watch req s.watchTx rfl).trans ?_
  exact congrArg (fun m => if key.startsWith (req.keyPrefix.getD "") = true then m key else none)
    mirrored.2

end Runs

open SerdeJson

def twoUsers : List (UInt64 × Op) :=
  [(0, .put { key := "user:1", value := [1], ttlMs := none }),
   (0, .put { key := "order:1", value := [2], ttlMs := none }),
   (1, .cas { key := "user:2", expectedValue := [], newValue := [3], ttlMs := none }),
   (2, .delete "user:1")]

theorem watcher_mirrors_users :
    let s := run serverStep (.fresh .new false false false) twoUsers
    mirror (watch { keyPrefix := some "user:" } (received 0 s)) "user:2" = some [3] ∧
      ∀ key : String, mirror (watch { keyPrefix := some "user:" } (received 0 s)) key =
        if key.startsWith "user:" then (s.tree[key]?).map (·.value) else none := by
  have writes : ∀ event ∈ twoUsers, IsWrite event.2 := by simp [twoUsers, IsWrite]
  have mirrors := watcher_mirrors .new false false { keyPrefix := some "user:" } twoUsers writes
    twoUsers List.prefix_rfl
  exact ⟨(mirrors "user:2").trans (by decide +kernel), mirrors⟩

end KindDb.WatchMirror
