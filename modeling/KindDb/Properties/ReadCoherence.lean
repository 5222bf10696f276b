import KindDb.SerdeJson
import KindDb.Server.Effects

/-! # The cache fast path

`get` answers from the cache without looking at the tree, and drops the
deadline when it does.  It answers what the tree would answer exactly as long
as every cached value is the value of a record without a deadline
(`answers_iff`).  All operations keep that invariant but one: a `put` with a
deadline overwrites the record and leaves a cached value where it is. -/
set_option autoImplicit false

namespace KindDb.ReadCoherence

open KindDb.Lib KindDb.Lib.Overlay KindDb.Lib.Runs KindDb.Cache KindDb.Schema

variable [Serde]

/-- The record a reader of the tree sees at `now`. -/
def treeAnswer (s : KindServerImpl) (key : String) (now : UInt64) : Option Record :=
  (liveAt now (s.contents key)).map fun held => { key, value := held.1, expiresAt := held.2 }

def Answers (reply : Except Status Record) (expected : Option Record) : Prop :=
  match expected with
  | some r => reply = .ok r
  | none => ∃ message, reply = .error (.notFound message)

def CacheCurrent (s : KindServerImpl) : Prop :=
  ∀ key val, s.cache.peek key = some val → s.contents key = some (val, none)

/-- A `put` with a deadline is made on a key the cache does not hold. -/
def SparesCache (s : KindServerImpl) (event : UInt64 × Op) : Prop :=
  match event.2 with
  | .put req => (deadline event.1 req.ttlMs).isSome → s.cache.peek req.key = none
  | _ => True

/-! ## Answers and the invariant -/

theorem get_hit {s : KindServerImpl} {key : String} {val : Bytes}
    (hit : s.cache.peek key = some val) (now : UInt64) :
    (s.get key now).1 = .ok { key, value := val, expiresAt := none } := by
  unfold KindServerImpl.get
  unfold LruCache.peek at hit
  revert hit
  obtain ⟨held, cache⟩ := s.cache.get key
  rintro rfl
  rfl

theorem get_miss {s : KindServerImpl} {key : String} (miss : s.cache.peek key = none)
    (now : UInt64) : Answers (s.get key now).1 (treeAnswer s key now) := by
  unfold KindServerImpl.get treeAnswer KindServerImpl.contents
  unfold LruCache.peek at miss
  revert miss
  obtain ⟨held, cache⟩ := s.cache.get key
  rintro rfl
  dsimp only
  cases s.tree[key]? with
  | none => exact ⟨_, rfl⟩
  | some r =>
      cases expired : isExpired r.expiresAt now with
      | true => simp [Answers, liveAt_some, DbRecord.content, expired]
      | false => simp [Answers, liveAt_some, DbRecord.content, expired]

/-- At any one time, all lookups answer from the tree exactly if the cache is current. -/
theorem answers_iff (s : KindServerImpl) (now : UInt64) :
    (∀ key, Answers (s.get key now).1 (treeAnswer s key now)) ↔ CacheCurrent s := by
  constructor
  · intro answers key val hit
    have answered := answers key
    rw [get_hit hit, treeAnswer] at answered
    cases held : s.contents key with
    | none => simp [held, Answers] at answered
    | some c =>
        cases expired : isExpired c.2 now with
        | true => simp [held, liveAt_some, expired, Answers] at answered
        | false =>
            simp [held, liveAt_some, expired, Answers] at answered
            rw [Option.some.injEq]
            exact Prod.ext answered.1.symm answered.2.symm
  · intro current key
    cases hit : s.cache.peek key with
    | none => exact get_miss hit now
    | some val =>
        rw [get_hit hit, treeAnswer, current key val hit]
        simp [liveAt_some, Answers]

/-! ## What an operation does to a current cache -/

omit [Serde] in
theorem CacheCurrent.unlogged {s s' : KindServerImpl} {now : UInt64} (current : CacheCurrent s)
    (quiet : Unlogged s s' now) (cache : ∀ key, s'.cache.peek key = s.cache.peek key) :
    CacheCurrent s' := by
  intro key val hit
  rw [cache] at hit
  have held := current key val hit
  rcases quiet.tree key with same | ⟨_, r, found, expired⟩
  · simpa [KindServerImpl.contents, same] using held
  · simp only [KindServerImpl.contents, found, Option.map_some, DbRecord.content,
      Option.some.injEq, Prod.mk.injEq] at held
    simp [held.2] at expired

/-- A writer that invalidates every key it writes keeps the cache current. -/
theorem CacheCurrent.invalidated {s s' : KindServerImpl} {c : WalCommand}
    (current : CacheCurrent s) (logged : Logged s s' c)
    (cache : ∀ key, s'.cache.peek key = if key ∈ c.keys then none else s.cache.peek key) :
    CacheCurrent s' := by
  intro key val hit
  rw [cache] at hit
  by_cases written : key ∈ c.keys
  · simp [written] at hit
  · rw [if_neg written] at hit
    rw [logged.contents, overlay_untouched written]
    exact current key val hit

theorem put_current_iff {s : KindServerImpl} (leader : s.isReplica = false)
    (current : CacheCurrent s) (req : PutRequest) (now : UInt64) :
    CacheCurrent (s.put req now).2 ↔ SparesCache s (now, .put req) := by
  have contents : ∀ key, (s.put req now).2.contents key =
      if key = req.key then some (req.value, deadline now req.ttlMs) else s.contents key := by
    intro key
    rw [(KindServerImpl.put_logged leader req).contents]
    exact Function.update_apply ..
  have cache : (s.put req now).2.cache =
      if (deadline now req.ttlMs).isNone then s.cache.put req.key req.value else s.cache := by
    rw [KindServerImpl.put_eq s leader]
  unfold CacheCurrent SparesCache
  simp only [contents, cache]
  cases timed : deadline now req.ttlMs with
  | none =>
      simp only [Option.isNone_none, if_true, Option.isSome_none, Bool.false_eq_true,
        false_implies, iff_true]
      intro key val hit
      by_cases same : key = req.key
      · subst same
        simp only [LruCache.peek_put_self, Option.some.injEq] at hit
        simp [hit]
      · rw [if_neg same]
        exact current key val (LruCache.peek_put_other (Ne.symm same) hit)
  | some exp =>
      simp only [Option.isNone_some, Bool.false_eq_true, if_false, Option.isSome_some,
        true_implies]
      constructor
      · intro stillCurrent
        cases hit : s.cache.peek req.key with
        | none => rfl
        | some val => simpa using stillCurrent req.key val hit
      · intro spared key val hit
        have other : key ≠ req.key := by
          intro same
          rw [same, spared] at hit
          cases hit
        rw [if_neg other]
        exact current key val hit

theorem delete_cache {s : KindServerImpl} (leader : s.isReplica = false) {key : String}
    (held : (s.tree[key]?).isSome = true) (k : String) :
    (s.delete key).2.cache.peek k = if key = k then none else s.cache.peek k := by
  obtain ⟨old, found⟩ := Option.isSome_iff_exists.mp held
  rw [KindServerImpl.delete_present s leader found]
  exact LruCache.peek_invalidate ..

theorem cas_cache {s : KindServerImpl} (leader : s.isReplica = false) {req : CasRequest}
    {now : UInt64} (holds : s.casMatches req now = true) (k : String) :
    (s.cas req now).2.cache.peek k = if req.key = k then none else s.cache.peek k := by
  rw [KindServerImpl.cas_eq s leader, if_pos holds, KindServerImpl.casUnindex_eq,
    KindServerImpl.casWrite_eq]
  exact LruCache.peek_invalidate ..

theorem commit_cache {s : KindServerImpl} (leader : s.isReplica = false) {tx : TxHandle}
    (clear : tx.conflicts s = false) (k : String) :
    (tx.commit s).2.cache.peek k = if k ∈ tx.writeSet.keys then none else s.cache.peek k := by
  rw [TxHandle.commit_ok leader clear]
  exact (TxHandle.applyEntries_spec _ _ _).2.1 k

/-! ## Steps and runs -/

theorem current_step_iff (s : KindServerImpl) (event : UInt64 × Op) (leader : s.isReplica = false)
    (current : CacheCurrent s) :
    CacheCurrent (serverStep s event) ↔ SparesCache s event := by
  obtain ⟨now, op⟩ := event
  have spared : (∀ req, op ≠ .put req) → SparesCache s (now, op) := by
    intro other
    cases op with
    | put req => exact absurd rfl (other req)
    | get _ | delete _ | cas _ | commit _ | sweep | checkpoint => trivial
  cases op with
  | put req => exact put_current_iff leader current req now
  | get key =>
      refine iff_of_true ?_ (spared (by simp))
      refine current.unlogged (KindServerImpl.get_unlogged s key now) fun k => ?_
      exact (congrArg (·.peek k) (KindServerImpl.get_cache s key now)).trans
        (LruCache.peek_get s.cache key k)
  | sweep =>
      refine iff_of_true ?_ (spared (by simp))
      refine current.unlogged (KindServerImpl.sweep_unlogged s now) fun key => ?_
      simp only [serverStep, Op.exec]
      rw [KindServerImpl.sweep_eq, (KindServerImpl.evict_spec _ s).2]
  | checkpoint =>
      refine iff_of_true ?_ (spared (by simp))
      simp only [serverStep, Op.exec, KindServerImpl.saveSnapshotAndTruncateWal]
      cases s.snapshotFile <;> exact current
  | delete key =>
      refine iff_of_true ?_ (spared (by simp))
      by_cases held : (s.tree[key]?).isSome = true
      · apply current.invalidated (KindServerImpl.delete_logged leader held)
        intro k
        rw [delete_cache leader held]
        simp [WalCommand.keys, WalCommand.updates, touched, eq_comm]
      · simp only [serverStep, Op.exec,
          KindServerImpl.delete_absent s leader (by simpa using held)]
        exact current
  | cas req =>
      refine iff_of_true ?_ (spared (by simp))
      by_cases holds : s.casMatches req now = true
      · apply current.invalidated (KindServerImpl.cas_logged leader holds)
        intro k
        rw [cas_cache leader holds]
        simp [WalCommand.keys, WalCommand.updates, touched, eq_comm]
      · simp only [serverStep, Op.exec, KindServerImpl.cas_eq s leader, if_neg holds]
        exact current
  | commit tx =>
      refine iff_of_true ?_ (spared (by simp))
      cases clear : tx.conflicts s with
      | false =>
          apply current.invalidated (KindServerImpl.commit_logged leader clear)
          intro k
          rw [commit_cache leader clear, TxHandle.keys_pending]
          rfl
      | true =>
          simp only [serverStep, Op.exec, TxHandle.commit_conflict leader clear]
          exact current

theorem current_fresh (reg : SchemaRegistry) (hasSnapshot hasWal : Bool) :
    CacheCurrent (KindServerImpl.fresh reg hasSnapshot hasWal false) := by
  intro key val hit
  simp [KindServerImpl.fresh, KindServerImpl.new] at hit

/-- All the lookups after all the steps of a run answer from the tree exactly
if no step puts a deadline on a key whose value is cached. -/
theorem lookups_answer_iff (reg : SchemaRegistry) (hasSnapshot hasWal : Bool)
    (events : List (UInt64 × Op)) :
    (∀ past, past <+: events → ∀ now, (∀ event ∈ past, event.1 ≤ now) → ∀ key,
      Answers ((run serverStep (.fresh reg hasSnapshot hasWal false) past).get key now).1
        (treeAnswer (run serverStep (.fresh reg hasSnapshot hasWal false) past) key now)) ↔
      StepsMeet serverStep SparesCache (.fresh reg hasSnapshot hasWal false) events := by
  let Inv (s : KindServerImpl) : Prop := s.isReplica = false ∧ CacheCurrent s
  have exact : ∀ s event, True → Inv s → (Inv (serverStep s event) ↔ SparesCache s event) := by
    intro s event _ holds
    rw [← current_step_iff s event holds.1 holds.2]
    exact and_iff_right (KindServerImpl.leader_step holds.1 event)
  have always := run_invariant_iff exact events (.fresh reg hasSnapshot hasWal false)
    (stepsMeet_of_forall (fun _ _ => trivial) ..) ⟨rfl, current_fresh reg hasSnapshot hasWal⟩
  rw [← always]
  refine ⟨fun answers past prefixed => ?_, fun holds past prefixed now _ => ?_⟩
  · -- every reading is at most the last millisecond there is
    refine ⟨KindServerImpl.leader_run rfl past,
      (answers_iff _ (UInt64.ofNat (UInt64.size - 1))).mp fun key => ?_⟩
    refine answers past prefixed _ (fun event _ => ?_) key
    exact (UInt64.le_ofNat_iff (by decide)).mpr (Nat.le_sub_one_of_lt event.1.toNat_lt)
  · exact (answers_iff _ now).mpr (holds past prefixed).2

/-- After `put a 1` and `put a 2` with a deadline, `get a` still answers 1. -/
def staleRun : List (UInt64 × Op) :=
  [(0, .put { key := "a", value := [1], ttlMs := none }),
   (0, .put { key := "a", value := [2], ttlMs := some 5 })]

omit [Serde] in
theorem lookup_after_put_with_ttl_is_stale :
    ¬ ∀ [Serde] (reg : SchemaRegistry) (hasSnapshot hasWal : Bool) (events : List (UInt64 × Op)),
      events.Pairwise (fun e e' => e.1 ≤ e'.1) → ∀ now, (∀ event ∈ events, event.1 ≤ now) → ∀ key,
      Answers ((run serverStep (.fresh reg hasSnapshot hasWal false) events).get key now).1
        (treeAnswer (run serverStep (.fresh reg hasSnapshot hasWal false) events) key now) := by
  intro claim
  let _ : Serde := SerdeJson.instSerde
  have answered := claim .new false false staleRun (by decide) 0 (by decide) "a"
  have served : ((run serverStep (.fresh .new false false false) staleRun).get "a" 0).1.toOption =
      some { key := "a", value := [1], expiresAt := none } := by decide
  have held : treeAnswer (run serverStep (.fresh .new false false false) staleRun) "a" 0 =
      some { key := "a", value := [2], expiresAt := some 5 } := by decide
  rw [held] at answered
  rw [answered] at served
  exact absurd served (by decide)

end KindDb.ReadCoherence
