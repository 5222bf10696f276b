import KindDb.Lib.Broadcast
import KindDb.Properties.WatchMirror

/-! # A watcher that lags

The channel of the watchers keeps 1024 events.  A watcher that falls further
behind is moved on, and the stream does not tell the client.  What the stream
brings is in order and without duplicates in any case; `watch_complete_iff`
says when it is all there is, `mirror_heals` which keys a client that lagged
has right again. -/
set_option autoImplicit false

namespace KindDb.WatchLag

open KindDb.Lib KindDb.Lib.Runs KindDb.Lib.Broadcast KindDb.IndexExactness KindDb.WatchMirror

@[irreducible] def capacity : Nat := 1024

/-- A server and one watcher: its place in the channel, and what it received. -/
structure Watching where
  server : KindServerImpl
  place : Nat
  received : List (Option WatchEvent)

inductive Label
  | serve (event : UInt64 × Op)
  | recv

def heard : Received WatchEvent → Option WatchEvent
  | .value event => some event
  | .lagged _ => none

def subscribed (s : KindServerImpl) : Watching := { server := s, place := subscribe s, received := [] }

def under (req : WatchRequest) (event : WatchEvent) : Bool :=
  event.key.startsWith (req.keyPrefix.getD "")

/-- The events that a watcher loses when it asks for the next one. -/
def lost (st : Watching) : List WatchEvent :=
  between st.server.watchTx st.place (oldest capacity st.server.watchTx)

/-- The events lost are not about keys under the prefix. -/
def Unconcerned (req : WatchRequest) (st : Watching) : Label → Prop
  | .recv => ∀ event ∈ lost st, under req event = false
  | .serve _ => True

section Runs
variable [Serde]

def watchStep (st : Watching) : Label → Watching
  | .serve event => { st with server := serverStep st.server event }
  | .recv =>
      match recv capacity st.server.watchTx st.place with
      | some (got, place) => { st with place, received := st.received ++ [heard got] }
      | none => st

/-! ## The channel only grows -/

theorem watchTx_step (s : KindServerImpl) (leader : s.isReplica = false) (event : UInt64 × Op) :
    s.watchTx <+: (serverStep s event).watchTx := by
  by_cases writes : IsWrite event.2
  · obtain ⟨sent, channel, _⟩ := told_step leader event writes
    exact channel ▸ List.prefix_append ..
  · obtain ⟨now, op⟩ := event
    have same : (serverStep s (now, op)).watchTx = s.watchTx := by
      cases op with
      | put _ | delete _ | cas _ | commit _ => exact absurd trivial writes
      | get key =>
          simp only [serverStep, Op.exec]
          rw [KindServerImpl.get_state]
          split
          · split <;> rfl
          · rfl
      | sweep =>
          simp only [serverStep, Op.exec]
          rw [KindServerImpl.sweep_eq, (KindServerImpl.evict_spec _ s).2]
      | checkpoint =>
          simp only [serverStep, Op.exec, KindServerImpl.saveSnapshotAndTruncateWal]
          cases s.snapshotFile <;> rfl
    rw [same]

/-! ## Order and completeness -/

/-- The events the watcher has got are among those before its place, in their order. -/
structure Ordered (start : Nat) (st : Watching) : Prop where
  leader : st.server.isReplica = false
  started : start ≤ st.place
  inside : st.place ≤ st.server.watchTx.length
  ordered : (st.received.filterMap id).Sublist (between st.server.watchTx start st.place)

omit [Serde] in
theorem ordered_subscribed {s : KindServerImpl} (leader : s.isReplica = false) :
    Ordered (subscribe s) (subscribed s) :=
  ⟨leader, le_rfl, le_rfl, List.nil_sublist _⟩

theorem Ordered.step {start : Nat} {st : Watching} (ordered : Ordered start st) (label : Label) :
    Ordered start (watchStep st label) := by
  obtain ⟨leader, started, inside, sublist⟩ := ordered
  cases label with
  | serve event =>
      obtain ⟨more, grown⟩ := watchTx_step st.server leader event
      have stays : between (st.server.watchTx ++ more) start st.place =
          between st.server.watchTx start st.place := between_append more inside
      rw [grown] at stays
      have further : st.place ≤ (serverStep st.server event).watchTx.length := by
        rw [← grown, List.length_append]
        omega
      have kept : (st.received.filterMap id).Sublist
          (between (serverStep st.server event).watchTx start st.place) := by
        rw [stays]
        exact sublist
      exact ⟨KindServerImpl.leader_step leader event, started, further, kept⟩
  | recv =>
      unfold watchStep
      cases got : recv capacity st.server.watchTx st.place with
      | none => exact ⟨leader, started, inside, sublist⟩
      | some result =>
          obtain ⟨got', place⟩ := result
          rcases recv_cases got with ⟨event, rfl, rfl, found, _⟩ | ⟨rfl, oldest, behind⟩
          · refine ⟨leader, Nat.le_succ_of_le started,
              (List.getElem?_eq_some_iff.mp found).1, ?_⟩
            dsimp only
            rw [between_succ started found, List.filterMap_append]
            exact sublist.append (List.Sublist.refl _)
          · refine ⟨leader, started.trans behind.le, ?_, ?_⟩
            · simp only [oldest, Broadcast.oldest]
              omega
            · dsimp only
              rw [between_trans started behind.le inside, List.filterMap_append]
              exact sublist.append (List.nil_sublist _)

omit [Serde] in
/-- The stream is the part of what was heard that is under the prefix. -/
theorem watch_heard (req : WatchRequest) (received : List (Option WatchEvent)) :
    watch req received = (received.filterMap id).filter (under req) := by
  refine Eq.trans ?_ (watch_eq_filter req (received.filterMap id))
  induction received with
  | nil => rfl
  | cons first rest ih =>
      unfold watch at ih ⊢
      cases first with
      | none => exact ih
      | some event => rw [List.filterMap_cons, ih]; rfl

/-- Up to the place of the watcher, the stream has brought all there was under the prefix. -/
def Complete (req : WatchRequest) (start : Nat) (st : Watching) : Prop :=
  watch req st.received = (between st.server.watchTx start st.place).filter (under req)

theorem complete_step_iff (req : WatchRequest) {start : Nat} {st : Watching}
    (ordered : Ordered start st) (complete : Complete req start st) (label : Label) :
    Complete req start (watchStep st label) ↔ Unconcerned req st label := by
  obtain ⟨leader, started, inside, _⟩ := ordered
  unfold Complete at complete ⊢
  rw [watch_heard] at complete ⊢
  cases label with
  | serve event =>
      refine iff_of_true ?_ trivial
      obtain ⟨more, grown⟩ := watchTx_step st.server leader event
      have stays : between (st.server.watchTx ++ more) start st.place =
          between st.server.watchTx start st.place := between_append more inside
      rw [grown] at stays
      simp only [watchStep, stays]
      exact complete
  | recv =>
      unfold watchStep Unconcerned lost
      cases got : recv capacity st.server.watchTx st.place with
      | none =>
          refine iff_of_true complete fun event member => ?_
          rw [between_eq_nil (recv_none got).1] at member
          cases member
      | some result =>
          obtain ⟨got', place⟩ := result
          dsimp only
          rw [List.filterMap_append, List.filter_append, complete]
          rcases recv_cases got with ⟨event, rfl, rfl, found, keeping⟩ | ⟨rfl, rfl, behind⟩
          · rw [between_succ started found, List.filter_append]
            refine iff_of_true rfl fun event member => ?_
            rw [between_eq_nil keeping] at member
            cases member
          · have nothing : ([heard (.lagged (oldest capacity st.server.watchTx -
                st.place))].filterMap id).filter (under req) = [] := rfl
            rw [nothing, List.append_nil, between_trans started behind.le inside,
              List.filter_append, List.self_eq_append_right, List.filter_eq_nil_iff]
            exact forall₂_congr fun event _ => by rw [Bool.not_eq_true]

/-- What a watcher gets is in the order of the channel, each event once; it is
complete at every moment exactly if no event under its prefix is lost to a lag. -/
theorem watch_complete_iff (s : KindServerImpl) (leader : s.isReplica = false)
    (req : WatchRequest) (labels : List Label) :
    (watch req (run watchStep (subscribed s) labels).received).Sublist
      (((run watchStep (subscribed s) labels).server.watchTx.drop (subscribe s)).filter
        (under req)) ∧
    ((∀ past, past <+: labels →
        Complete req (subscribe s) (run watchStep (subscribed s) past)) ↔
      StepsMeet watchStep (Unconcerned req) (subscribed s) labels) := by
  have ordered : ∀ past, Ordered (subscribe s) (run watchStep (subscribed s) past) :=
    fun past => run_invariant_of_forall (fun _ label ordered => ordered.step label) past _
      (ordered_subscribed leader)
  constructor
  · obtain ⟨_, started, inside, sublist⟩ := ordered labels
    rw [watch_heard]
    refine (sublist.filter (under req)).trans (List.Sublist.filter _ ?_)
    rw [← between_length, between_trans started inside inside]
    exact List.sublist_append_left _ _
  · let P (st : Watching) : Prop := Ordered (subscribe s) st ∧ Complete req (subscribe s) st
    have exact : ∀ st label, True → P st → (P (watchStep st label) ↔ Unconcerned req st label) := by
      intro st label _ holds
      rw [← complete_step_iff req holds.1 holds.2]
      exact and_iff_right (holds.1.step label)
    have begins : P (subscribed s) := ⟨ordered_subscribed leader, by
      simp [Complete, subscribed, between_self, watch]⟩
    rw [← run_invariant_iff exact labels (subscribed s)
      (stepsMeet_of_forall (fun _ _ => trivial) ..) begins]
    exact forall₂_congr fun past _ => (and_iff_right (ordered past)).symm

/-! ## Keys that are right again -/

def Typed (event : WatchEvent) : Prop :=
  event.operationType = "PUT" ∨ event.operationType = "DELETE"

/-- Only clients change the tree, and of a key with a lost event a later event
is still in the channel. -/
def Heals (key : String) (st : Watching) : Label → Prop
  | .recv => (∃ event ∈ lost st, event.key = key) →
      ∃ event ∈ st.server.watchTx.drop (oldest capacity st.server.watchTx), event.key = key
  | .serve event => IsWrite event.2

omit [Serde] in
/-- After an event of the key it does not matter what the mirror held. -/
theorem absorb_decides {m m' : String → Option Bytes} {event : WatchEvent} (typed : Typed event) :
    absorb m event event.key = absorb m' event event.key := by
  unfold absorb
  rcases typed with isPut | isDelete
  · rw [if_pos isPut, if_pos isPut, Function.update_self, Function.update_self]
  · have notPut : event.operationType ≠ "PUT" := by simp [isDelete]
    rw [if_neg notPut, if_neg notPut, if_pos isDelete, if_pos isDelete, Function.update_self,
      Function.update_self]

omit [Serde] in
theorem foldl_absorb_other {events : List WatchEvent} {key : String}
    (others : ∀ event ∈ events, event.key ≠ key) (m : String → Option Bytes) :
    events.foldl absorb m key = m key := by
  induction events generalizing m with
  | nil => rfl
  | cons event rest ih =>
      rw [List.foldl_cons, ih fun later member => others later (List.mem_cons_of_mem _ member)]
      exact absorb_other (others event List.mem_cons_self).symm

/-- All events sent on the way from one state to the next tell what they are. -/
def Speaks (s s' : KindServerImpl) : Prop :=
  ∃ sent, s'.watchTx = s.watchTx ++ sent ∧ ∀ event ∈ sent, Typed event

omit [Serde] in
theorem speaks_quiet {s s' : KindServerImpl} (same : s'.watchTx = s.watchTx) : Speaks s s' :=
  ⟨[], same.trans (List.append_nil _).symm, fun _ member => (by cases member)⟩

omit [Serde] in
theorem speaks_one {s s' : KindServerImpl} {event : WatchEvent} (typed : Typed event)
    (channel : s'.watchTx = s.watchTx ++ [event]) : Speaks s s' :=
  ⟨[event], channel, fun _ member => List.mem_singleton.mp member ▸ typed⟩

omit [Serde] in
theorem Speaks.trans {s s' s'' : KindServerImpl} (first : Speaks s s') (second : Speaks s' s'') :
    Speaks s s'' := by
  obtain ⟨sent, channel, typed⟩ := first
  obtain ⟨sent', channel', typed'⟩ := second
  refine ⟨sent ++ sent', by rw [channel', channel, List.append_assoc], fun event member => ?_⟩
  exact (List.mem_append.mp member).elim (typed event) (typed' event)

theorem speaks_applyEntries (version : Nat) (entries : List (String × Option DbRecord))
    (s : KindServerImpl) : Speaks s (entries.foldl (TxHandle.applyEntry version) s) := by
  induction entries generalizing s with
  | nil => exact speaks_quiet rfl
  | cons entry rest ih =>
      have first : Speaks s (TxHandle.applyEntry version s entry) := by
        obtain ⟨key, written⟩ := entry
        unfold TxHandle.applyEntry
        rw [s.unindexOld_eq]
        cases written with
        | none => exact speaks_one (Or.inr rfl) rfl
        | some r => exact speaks_one (Or.inl rfl) rfl
      exact first.trans (ih _)

theorem speaks_step {s : KindServerImpl} (leader : s.isReplica = false) {event : UInt64 × Op}
    (writes : IsWrite event.2) : Speaks s (serverStep s event) := by
  obtain ⟨now, op⟩ := event
  cases op with
  | get _ | sweep | checkpoint => exact writes.elim
  | put req =>
      simp only [serverStep, Op.exec, KindServerImpl.put_eq s leader]
      exact speaks_one (Or.inl rfl) rfl
  | delete key =>
      cases held : s.tree[key]? with
      | none =>
          simp only [serverStep, Op.exec, KindServerImpl.delete_absent s leader held]
          exact speaks_quiet rfl
      | some old =>
          simp only [serverStep, Op.exec, KindServerImpl.delete_present s leader held]
          exact speaks_one (Or.inr rfl) rfl
  | cas req =>
      simp only [serverStep, Op.exec, KindServerImpl.cas_eq s leader]
      split_ifs
      · rw [KindServerImpl.casUnindex_eq, KindServerImpl.casWrite_eq]
        exact speaks_one (Or.inl rfl) rfl
      · exact speaks_quiet rfl
  | commit tx =>
      cases clear : tx.conflicts s with
      | true =>
          simp only [serverStep, Op.exec, TxHandle.commit_conflict leader clear]
          exact speaks_quiet rfl
      | false =>
          simp only [serverStep, Op.exec, TxHandle.commit_ok leader clear]
          obtain ⟨sent, channel, typed⟩ := speaks_applyEntries (s.globalVersion + 1)
            tx.writeSet.entries { s with
              wal := s.wal.map fun file => Wal.append file (s.globalVersion + 1)
                (.txCommit (tx.writeSet.entries.map TxHandle.pendingCommand))
              globalVersion := s.globalVersion + 1
              syncTx := s.syncTx ++ [(s.globalVersion + 1,
                .txCommit (tx.writeSet.entries.map TxHandle.pendingCommand))] }
          exact ⟨sent, channel, typed⟩

/-- The mirror has the key right up to the watcher's place, or will hear of it. -/
structure Healing (key : String) (s : KindServerImpl) (st : Watching) : Prop where
  ordered : Ordered (subscribe s) st
  typed : ∀ event ∈ st.server.watchTx.drop (subscribe s), Typed event
  told : (st.server.watchTx.drop (subscribe s)).foldl absorb (values s) = values st.server
  held : (st.received.filterMap id).foldl absorb (values s) key =
      (between st.server.watchTx (subscribe s) st.place).foldl absorb (values s) key ∨
    ∃ event ∈ st.server.watchTx.drop st.place, event.key = key

variable {key : String} {s : KindServerImpl} {st : Watching}

theorem Healing.serve (healing : Healing key s st) {event : UInt64 × Op}
    (writes : IsWrite event.2) : Healing key s (watchStep st (.serve event)) := by
  obtain ⟨ordered, typed, told, held⟩ := healing
  have ordered' := ordered.step (.serve event)
  obtain ⟨leader, started, inside, _⟩ := ordered
  obtain ⟨sent, channel, reached⟩ := told_step leader event writes
  have dropped : ∀ place, place ≤ st.server.watchTx.length →
      (serverStep st.server event).watchTx.drop place =
        st.server.watchTx.drop place ++ sent := by
    intro place placed
    rw [channel, List.drop_append_of_le_length placed]
  have stays : between (serverStep st.server event).watchTx (subscribe s) st.place =
      between st.server.watchTx (subscribe s) st.place := by
    rw [channel]
    exact between_append sent inside
  refine ⟨ordered', ?_, ?_, ?_⟩
  · intro e member
    change e ∈ (serverStep st.server event).watchTx.drop (subscribe s) at member
    rw [dropped _ (started.trans inside)] at member
    rcases List.mem_append.mp member with old | new
    · exact typed e old
    · obtain ⟨spoken, channel', spokenTyped⟩ := speaks_step leader writes
      rw [channel] at channel'
      exact spokenTyped e (List.append_cancel_left channel' ▸ new)
  · change ((serverStep st.server event).watchTx.drop (subscribe s)).foldl absorb (values s) =
      values (serverStep st.server event)
    rw [dropped _ (started.trans inside), List.foldl_append, told, reached]
  · change (st.received.filterMap id).foldl absorb (values s) key =
        (between (serverStep st.server event).watchTx (subscribe s) st.place).foldl absorb
          (values s) key ∨
      ∃ e ∈ (serverStep st.server event).watchTx.drop st.place, e.key = key
    rw [stays, dropped _ inside]
    exact held.imp_right fun ⟨e, member, same⟩ => ⟨e, List.mem_append_left _ member, same⟩

theorem Healing.recv (healing : Healing key s st) (heals : Heals key st .recv) :
    Healing key s (watchStep st .recv) := by
  have ordered' := healing.ordered.step .recv
  obtain ⟨⟨leader, started, inside, _⟩, typed, told, held⟩ := healing
  unfold watchStep at ordered' ⊢
  cases got : Broadcast.recv capacity st.server.watchTx st.place with
  | none => exact ⟨⟨leader, started, inside, ‹_›⟩, typed, told, held⟩
  | some result =>
      obtain ⟨got', place⟩ := result
      rw [got] at ordered'
      refine ⟨ordered', typed, told, ?_⟩
      dsimp only
      rcases recv_cases got with ⟨event, rfl, rfl, found, _⟩ | ⟨rfl, rfl, behind⟩
      · have split : st.server.watchTx.drop st.place =
            event :: st.server.watchTx.drop (st.place + 1) := by
          obtain ⟨below, same⟩ := List.getElem?_eq_some_iff.mp found
          rw [List.drop_eq_getElem_cons below, same]
        rw [between_succ started found, List.filterMap_append, List.foldl_append,
          List.foldl_append]
        rcases held with same | ⟨later, member, named⟩
        · exact Or.inl (absorb_congr same)
        · rw [split] at member
          rcases List.mem_cons.mp member with rfl | behindIt
          · subst named
            refine Or.inl (absorb_decides (typed later ?_))
            refine (List.drop_sublist_drop_left _ started).subset ?_
            rw [split]
            exact List.mem_cons_self
          · exact Or.inr ⟨later, behindIt, named⟩
      · have split : st.server.watchTx.drop st.place =
            lost st ++ st.server.watchTx.drop (oldest capacity st.server.watchTx) := by
          have placed : oldest capacity st.server.watchTx ≤ st.server.watchTx.length :=
            Nat.sub_le ..
          rw [← between_length, between_trans behind.le placed placed, between_length]
          rfl
        have nothing : [heard (.lagged (oldest capacity st.server.watchTx - st.place))].filterMap
            id = [] := rfl
        rw [between_trans started behind.le inside, List.filterMap_append, nothing,
          List.append_nil, List.foldl_append]
        by_cases missed : ∃ event ∈ lost st, event.key = key
        · exact Or.inr (heals missed)
        · have others : ∀ event ∈ lost st, event.key ≠ key :=
            fun event member named => missed ⟨event, member, named⟩
          rcases held with same | ⟨later, member, named⟩
          · exact Or.inl (same.trans (foldl_absorb_other others _).symm)
          · rw [split] at member
            rcases List.mem_append.mp member with gone | kept
            · exact absurd named (others later gone)
            · exact Or.inr ⟨later, kept, named⟩

/-- A client that starts from the tree at its subscription and has caught up is
right about a key if, of this key, no lag has taken the last event there was. -/
theorem mirror_heals (s : KindServerImpl) (leader : s.isReplica = false) (req : WatchRequest)
    (key : String) (labels : List Label)
    (heals : StepsMeet watchStep (Heals key) (subscribed s) labels)
    (caughtUp : (run watchStep (subscribed s) labels).place =
      (run watchStep (subscribed s) labels).server.watchTx.length) :
    (watch req (run watchStep (subscribed s) labels).received).foldl absorb (values s) key =
      if key.startsWith (req.keyPrefix.getD "") then
        values (run watchStep (subscribed s) labels).server key
      else values s key := by
  have nothing : (subscribed s).server.watchTx.drop (subscribe s) = [] :=
    List.drop_eq_nil_of_le le_rfl
  have healing : Healing key s (run watchStep (subscribed s) labels) := by
    refine run_invariant ?_ labels _ heals ⟨ordered_subscribed leader, ?_, ?_, Or.inl ?_⟩
    · intro st label heals healing
      cases label with
      | serve event => exact healing.serve heals
      | recv => exact healing.recv heals
    · rw [nothing]
      exact fun _ member => (by cases member)
    · rw [nothing]
      rfl
    · rw [subscribed, between_self]
      rfl
  have heardAll := healing.held.resolve_right (by
    rw [caughtUp, List.drop_length]
    rintro ⟨event, member, _⟩
    cases member)
  rw [caughtUp, between_length, healing.told] at heardAll
  have stream : watch req (run watchStep (subscribed s) labels).received =
      watch req (((run watchStep (subscribed s) labels).received.filterMap id).map some) :=
    (watch_heard req _).trans (watch_eq_filter req _).symm
  rw [stream, absorb_watch req _ rfl, heardAll]

/-! ## Receiving without a lag -/

omit [Serde] in
theorem lost_eq_nil (keeping : oldest capacity st.server.watchTx ≤ st.place) : lost st = [] :=
  between_eq_nil keeping

/-- A receiver that does not lag takes one event after the other. -/
theorem recv_keeping (keeping : oldest capacity st.server.watchTx ≤ st.place)
    (inside : st.place < st.server.watchTx.length) :
    (watchStep st .recv).server = st.server ∧ (watchStep st .recv).place = st.place + 1 := by
  unfold watchStep
  rw [recv_kept keeping (List.getElem?_eq_getElem inside)]
  exact ⟨rfl, rfl⟩

/-- A receiver that lags is moved on to the oldest event there is. -/
theorem recv_lagging (lags : st.place < oldest capacity st.server.watchTx) :
    (watchStep st .recv).server = st.server ∧
      (watchStep st .recv).place = oldest capacity st.server.watchTx := by
  unfold watchStep
  rw [recv_behind lags]
  exact ⟨rfl, rfl⟩

theorem run_recvs (count : Nat) (keeping : oldest capacity st.server.watchTx ≤ st.place)
    (inside : st.place + count ≤ st.server.watchTx.length) :
    (run watchStep st (List.replicate count .recv)).server = st.server ∧
      (run watchStep st (List.replicate count .recv)).place = st.place + count := by
  induction count generalizing st with
  | zero => exact ⟨rfl, rfl⟩
  | succ count ih =>
      obtain ⟨server, place⟩ := recv_keeping keeping (by omega)
      rw [List.replicate_succ, run_cons]
      obtain ⟨server', place'⟩ := @ih (watchStep st .recv) (by rw [server, place]; omega)
        (by rw [server, place]; omega)
      exact ⟨server'.trans server, by rw [place', place]; omega⟩

theorem stepsMeet_recvs {C : Watching → Label → Prop} (free : ∀ st, lost st = [] → C st .recv)
    (count : Nat) (keeping : oldest capacity st.server.watchTx ≤ st.place)
    (inside : st.place + count ≤ st.server.watchTx.length) :
    StepsMeet watchStep C st (List.replicate count .recv) := by
  induction count generalizing st with
  | zero => trivial
  | succ count ih =>
      obtain ⟨server, place⟩ := recv_keeping keeping (by omega)
      exact ⟨free st (lost_eq_nil keeping), @ih (watchStep st .recv)
        (by rw [server, place]; omega) (by rw [server, place]; omega)⟩

end Runs

/-! ## A watcher that falls behind -/

open SerdeJson

def emptyServer : KindServerImpl := .fresh .new false false false

def putOf (key : String) (value : UInt8) : Label :=
  .serve (0, .put { key, value := [value], ttlMs := none })

def told (key : String) (value : UInt8) : WatchEvent :=
  { key, newValue := some [value], operationType := "PUT" }

/-- What is written before the watcher asks for an event, two more than the
channel keeps. -/
def missed : List Label :=
  putOf "user:1" 1 :: (List.replicate capacity (putOf "load" 0) ++ [putOf "user:1" 2])

def lagging : List Label := missed ++ .recv :: List.replicate capacity .recv

/-- Only events have been sent since. -/
structure Sent (events : List WatchEvent) (st st' : Watching) : Prop where
  leader : st'.server.isReplica = false
  place : st'.place = st.place
  channel : st'.server.watchTx = st.server.watchTx ++ events

theorem Sent.trans {first second : List WatchEvent} {st st' st'' : Watching}
    (sent : Sent first st st') (later : Sent second st' st'') :
    Sent (first ++ second) st st'' :=
  ⟨later.leader, later.place.trans sent.place,
    by rw [later.channel, sent.channel, List.append_assoc]⟩

theorem sent_put {st : Watching} (leader : st.server.isReplica = false) (key : String)
    (value : UInt8) : Sent [told key value] st (watchStep st (putOf key value)) := by
  refine ⟨KindServerImpl.leader_step leader _, rfl, ?_⟩
  simp only [watchStep, putOf, serverStep, Op.exec, KindServerImpl.put_eq st.server leader]
  rfl

theorem sent_puts {st : Watching} (leader : st.server.isReplica = false) (key : String)
    (value : UInt8) (count : Nat) : Sent (List.replicate count (told key value)) st
      (run watchStep st (List.replicate count (putOf key value))) := by
  induction count generalizing st with
  | zero => exact ⟨leader, rfl, (List.append_nil _).symm⟩
  | succ count ih =>
      have first := sent_put leader key value
      exact first.trans (ih first.leader)

theorem values_put {st : Watching} (leader : st.server.isReplica = false) (key : String)
    (value : UInt8) : values (watchStep st (putOf key value)).server key = some [value] := by
  simp only [watchStep, putOf, serverStep, Op.exec, values]
  rw [KindServerImpl.put_eq _ leader]
  simp

def missedEvents : List WatchEvent :=
  told "user:1" 1 :: (List.replicate capacity (told "load" 0) ++ [told "user:1" 2])

/-- The watcher when it asks for the first event. -/
def behind : Watching := run watchStep (subscribed emptyServer) missed

theorem run_missed : run watchStep (subscribed emptyServer) missed = behind := rfl

theorem behind_spec : behind.server.watchTx = missedEvents ∧ behind.place = 0 ∧
    values behind.server "user:1" = some [2] := by
  have first : Sent [told "user:1" 1] (subscribed emptyServer) _ := sent_put rfl "user:1" 1
  have load := sent_puts first.leader "load" 0 capacity
  have all := (first.trans load).trans (sent_put load.leader "user:1" 2)
  rw [List.singleton_append, List.cons_append] at all
  rw [behind, missed, run_cons, run_append, run_cons, run_nil]
  exact ⟨all.channel, all.place, values_put load.leader "user:1" 2⟩

theorem oldest_behind : oldest capacity behind.server.watchTx = 2 ∧
    behind.server.watchTx.length = capacity + 2 := by
  have length : behind.server.watchTx.length = capacity + 2 := by
    rw [behind_spec.1, missedEvents, List.length_cons, List.length_append, List.length_replicate]
    rfl
  refine ⟨?_, length⟩
  rw [oldest, length]
  omega

theorem missedEvents_eq : ∃ kept, missedEvents =
    told "user:1" 1 :: told "load" 0 :: (kept ++ [told "user:1" 2]) := by
  obtain ⟨count, positive⟩ : ∃ count, capacity = count + 1 := ⟨1023, by unfold capacity; rfl⟩
  rw [missedEvents, positive, List.replicate_succ, List.cons_append]
  exact ⟨_, rfl⟩

/-- The first two events are gone. -/
theorem lost_behind : lost behind = [told "user:1" 1, told "load" 0] := by
  obtain ⟨kept, events⟩ := missedEvents_eq
  rw [lost, oldest_behind.1, behind_spec.1, behind_spec.2.1, events, between,
    List.take_succ_cons, List.take_succ_cons, List.take_zero, List.drop_zero]

/-- The watcher lags once, and then takes the events one after the other. -/
theorem caught_up : (run watchStep (subscribed emptyServer) lagging).server = behind.server ∧
    (run watchStep (subscribed emptyServer) lagging).place = 2 + capacity ∧
    ∀ C : Watching → Label → Prop, C behind .recv → (∀ st, lost st = [] → C st .recv) →
      StepsMeet watchStep C behind (.recv :: List.replicate capacity .recv) := by
  obtain ⟨oldest, length⟩ := oldest_behind
  have lags : behind.place < Broadcast.oldest capacity behind.server.watchTx := by
    rw [oldest, behind_spec.2.1]
    exact Nat.zero_lt_two
  obtain ⟨server, place⟩ := recv_lagging lags
  rw [oldest] at place
  have keeping : Broadcast.oldest capacity (watchStep behind .recv).server.watchTx ≤
      (watchStep behind .recv).place := by
    rw [server, place, oldest]
  have inside : (watchStep behind .recv).place + capacity ≤
      (watchStep behind .recv).server.watchTx.length := by
    rw [server, place, length, Nat.add_comm]
  obtain ⟨server', place'⟩ := run_recvs capacity keeping inside
  rw [lagging, run_append, run_missed, run_cons]
  refine ⟨server'.trans server, place'.trans (by rw [place]), fun C lags free => ?_⟩
  exact stepsMeet_cons.mpr ⟨lags, stepsMeet_recvs free capacity keeping inside⟩

theorem serves_missed {C : Watching → Label → Prop}
    (serves : ∀ key value st, C st (putOf key value)) :
    StepsMeet watchStep C (subscribed emptyServer) missed := by
  refine stepsMeet_of_labels (fun label member st => ?_) _
  rcases List.mem_cons.mp member with rfl | later
  · exact serves ..
  · rcases List.mem_append.mp later with load | last
    · rw [List.eq_of_mem_replicate load]
      exact serves ..
    · rw [List.mem_singleton.mp last]
      exact serves ..

/-- The event that tells of the value 1 is lost, and the watcher ends up with 2. -/
theorem mirror_heals_lagging :
    (watch { keyPrefix := some "user:" } (run watchStep (subscribed emptyServer) lagging).received
        ).foldl absorb (values emptyServer) "user:1" = some [2] := by
  obtain ⟨server, place, meets⟩ := caught_up
  obtain ⟨channel, _, holds⟩ := behind_spec
  refine (mirror_heals emptyServer rfl { keyPrefix := some "user:" } "user:1" lagging
    ?_ ?_).trans ?_
  · rw [lagging, stepsMeet_append, run_missed]
    refine ⟨serves_missed fun _ _ _ => trivial, meets _ (fun _ => ?_) fun st nothing missed => ?_⟩
    · refine ⟨told "user:1" 2, ?_, rfl⟩
      obtain ⟨kept, events⟩ := missedEvents_eq
      rw [oldest_behind.1, channel, events]
      exact List.mem_append_right kept List.mem_cons_self
    · rw [nothing] at missed
      obtain ⟨event, member, _⟩ := missed
      cases member
  · rw [place, server, oldest_behind.2, Nat.add_comm]
  · rw [server, holds, if_pos (by decide +kernel)]

/-- In this run a watcher of the keys that start with "city:" misses nothing, and
one of the keys that start with "user:" does. -/
theorem watch_complete_lagging :
    (∀ past, past <+: lagging → Complete { keyPrefix := some "city:" } (subscribe emptyServer)
      (run watchStep (subscribed emptyServer) past)) ∧
    ¬ ∀ past, past <+: lagging → Complete { keyPrefix := some "user:" } (subscribe emptyServer)
      (run watchStep (subscribed emptyServer) past) := by
  constructor
  · refine (watch_complete_iff emptyServer rfl { keyPrefix := some "city:" } lagging).2.mpr ?_
    rw [lagging, stepsMeet_append, run_missed]
    refine ⟨serves_missed fun _ _ _ => trivial,
      caught_up.2.2 _ (fun event member => ?_) fun st nothing event member => ?_⟩
    · rw [lost_behind] at member
      simp only [List.mem_cons, List.not_mem_nil, or_false] at member
      rcases member with rfl | rfl
      · decide +kernel
      · decide +kernel
    · rw [nothing] at member
      cases member
  · intro complete
    have meets := (watch_complete_iff emptyServer rfl { keyPrefix := some "user:" } lagging).2.mp
      complete
    rw [lagging, stepsMeet_append, run_missed, stepsMeet_cons] at meets
    have lostOne : told "user:1" 1 ∈ lost behind := lost_behind ▸ List.mem_cons_self
    have unconcerned := meets.2.1 (told "user:1" 1) lostOne
    exact absurd unconcerned (by decide +kernel)

end KindDb.WatchLag
