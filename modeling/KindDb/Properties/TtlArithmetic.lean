import KindDb.Server.Effects
import KindDb.Server.Recovery
import KindDb.SerdeJson

/-! # How long a record lives

`put`, `cas` and `TxHandle::put` add the client's `ttl_ms` to the clock without
a bound check.  A record lives for its time to live and no longer if and only
if the sum fits in 64 bits; one that wraps is expired when it is written. -/
set_option autoImplicit false

namespace KindDb.TtlArithmetic

open KindDb.Lib

variable [Serde]

/-- A record written at `now` is readable for `ttl` and expired after. -/
def LivesFor (expiresAt : Option UInt64) (now ttl : UInt64) : Prop :=
  ∀ t : UInt64, now ≤ t →
    (t.toNat - now.toNat ≤ ttl.toNat → isExpired expiresAt t = false) ∧
    (ttl.toNat < t.toNat - now.toNat → isExpired expiresAt t = true)

/-- The records that a request with a time to live writes, and the one that a
transaction with such a `put` commits, whenever it does. -/
inductive WrittenWithTtl (now ttl : UInt64) : DbRecord → Prop
  | put (s : KindServerImpl) (req : PutRequest) (r : DbRecord)
      (timed : req.ttlMs = some ttl) (accepted : (s.put req now).1 = .ok true)
      (held : (s.put req now).2.tree[req.key]? = some r) : WrittenWithTtl now ttl r
  | cas (s : KindServerImpl) (req : CasRequest) (r : DbRecord)
      (timed : req.ttlMs = some ttl) (accepted : (s.cas req now).1 = .ok true)
      (held : (s.cas req now).2.tree[req.key]? = some r) : WrittenWithTtl now ttl r
  | txPut (tx : TxHandle) (key : String) (value : Bytes) (r : DbRecord)
      (held : (key, some r) ∈ (tx.put key value (some ttl) now).writeSet.entries) :
      WrittenWithTtl now ttl r
  | commit (tx : TxHandle) (key : String) (value : Bytes) (s : KindServerImpl) (r : DbRecord)
      (accepted : ((tx.put key value (some ttl) now).commit s).1 = .ok ())
      (held : ((tx.put key value (some ttl) now).commit s).2.tree[key]? = some r) :
      WrittenWithTtl now ttl r

section Writers
variable {now ttl : UInt64}

theorem expiresAt_put {s : KindServerImpl} {req : PutRequest} {r : DbRecord}
    (timed : req.ttlMs = some ttl) (accepted : (s.put req now).1 = .ok true)
    (held : (s.put req now).2.tree[req.key]? = some r) : r.expiresAt = some (now + ttl) := by
  cases replica : s.isReplica with
  | true => simp [KindServerImpl.put, KindServerImpl.putLogging, replica] at accepted
  | false =>
      rw [KindServerImpl.put_eq s replica, timed] at held
      simp only [SortedMap.lookup_insert, if_true, Option.some.injEq] at held
      rw [← held]
      rfl

theorem expiresAt_cas {s : KindServerImpl} {req : CasRequest} {r : DbRecord}
    (timed : req.ttlMs = some ttl) (accepted : (s.cas req now).1 = .ok true)
    (held : (s.cas req now).2.tree[req.key]? = some r) : r.expiresAt = some (now + ttl) := by
  cases replica : s.isReplica with
  | true => simp [KindServerImpl.cas, KindServerImpl.casLogging, replica] at accepted
  | false =>
      rw [KindServerImpl.cas_eq s replica] at accepted held
      cases compared : s.casMatches req now with
      | false => simp [compared] at accepted
      | true =>
          rw [if_pos compared, KindServerImpl.casWrite_eq, timed] at held
          simp only [SortedMap.lookup_insert, if_true, Option.some.injEq] at held
          rw [← held]
          rfl

omit [Serde] in
theorem expiresAt_txPut {tx : TxHandle} {key : String} {value : Bytes} {r : DbRecord}
    (held : (key, some r) ∈ (tx.put key value (some ttl) now).writeSet.entries) :
    r.expiresAt = some (now + ttl) := by
  rcases List.mem_cons.mp held with here | later
  · have same : some r = some { value, expiresAt := some (now + ttl), version := 0 } :=
      congrArg Prod.snd here
    rw [Option.some.inj same]
  · have other := (List.mem_filter.mp later).2
    simp at other

theorem expiresAt_commit {tx : TxHandle} {key : String} {value : Bytes} {s : KindServerImpl}
    {r : DbRecord} (accepted : ((tx.put key value (some ttl) now).commit s).1 = .ok ())
    (held : ((tx.put key value (some ttl) now).commit s).2.tree[key]? = some r) :
    r.expiresAt = some (now + ttl) := by
  cases replica : s.isReplica with
  | true => simp [TxHandle.commit, TxHandle.commitLogging, replica] at accepted
  | false =>
      cases conflict : (tx.put key value (some ttl) now).conflicts s with
      | true => simp [TxHandle.commit, TxHandle.commitLogging, replica, conflict] at accepted
      | false =>
          have logged := KindServerImpl.commit_logged replica conflict
          have first : (key, some (value, some (now + ttl))) ∈ (WalCommand.txCommit
              ((tx.put key value (some ttl) now).writeSet.entries.map
                TxHandle.pendingCommand)).updates := List.mem_cons_self
          have distinct : (Overlay.touched (WalCommand.txCommit
              ((tx.put key value (some ttl) now).writeSet.entries.map
                TxHandle.pendingCommand)).updates).Nodup := by
            have keys := TxHandle.keys_pending (tx.put key value (some ttl) now).writeSet.entries
            unfold WalCommand.keys at keys
            rw [keys]
            exact (tx.put key value (some ttl) now).writeSet.distinct
          have written := logged.contents key
          rw [Overlay.overlay_of_mem distinct first] at written
          unfold KindServerImpl.contents at written
          rw [held] at written
          exact congrArg Prod.snd (Option.some.inj written)

/-- Every writer stores the same deadline, the wrapping sum. -/
theorem WrittenWithTtl.expiresAt_eq {r : DbRecord} (written : WrittenWithTtl now ttl r) :
    r.expiresAt = some (now + ttl) := by
  cases written with
  | put s req r timed accepted held => exact expiresAt_put timed accepted held
  | cas s req r timed accepted held => exact expiresAt_cas timed accepted held
  | txPut tx key value r held => exact expiresAt_txPut held
  | commit tx key value s r accepted held => exact expiresAt_commit accepted held

end Writers

omit [Serde] in
theorem livesFor_of_fits {now ttl : UInt64} (fits : now.toNat + ttl.toNat < 2 ^ 64) :
    LivesFor (some (now + ttl)) now ttl := by
  have sum : (now + ttl).toNat = now.toNat + ttl.toNat := by
    rw [UInt64.toNat_add, Nat.mod_eq_of_lt fits]
  intro t later
  have start : now.toNat ≤ t.toNat := UInt64.le_iff_toNat_le.mp later
  rw [isExpired_some, decide_eq_false_iff_not, decide_eq_true_eq, UInt64.lt_iff_toNat_lt, sum]
  constructor
  · intro within
    omega
  · intro beyond
    omega

omit [Serde] in
/-- A wrapped deadline lies before the moment it was computed. -/
theorem expired_of_wraps {now ttl : UInt64} (wraps : 2 ^ 64 ≤ now.toNat + ttl.toNat) :
    isExpired (some (now + ttl)) now = true := by
  have boundNow := now.toNat_lt
  have boundTtl := ttl.toNat_lt
  have sum : (now + ttl).toNat = now.toNat + ttl.toNat - 2 ^ 64 := by
    rw [UInt64.toNat_add]
    omega
  rw [isExpired_some, decide_eq_true_eq, UInt64.lt_iff_toNat_lt, sum]
  omega

/-- A record lives for its time to live exactly if the deadline does not wrap. -/
theorem livesFor_iff {now ttl : UInt64} {r : DbRecord} (written : WrittenWithTtl now ttl r) :
    LivesFor r.expiresAt now ttl ↔ now.toNat + ttl.toNat < 2 ^ 64 := by
  rw [written.expiresAt_eq]
  constructor
  · intro lives
    by_contra wraps
    have expired : isExpired (some (now + ttl)) now = true := expired_of_wraps (by omega)
    have live := (lives now UInt64.le_rfl).1 (by omega)
    rw [live] at expired
    cases expired
  · exact livesFor_of_fits

/-- A server without files. -/
def idle : KindServerImpl := .fresh .new false false false

omit [Serde] in
theorem livesFor_five : LivesFor (some 12) 5 7 := by
  let _ : Serde := SerdeJson.instSerde
  have written : WrittenWithTtl 5 7 { value := [1], expiresAt := some 12, version := 1 } :=
    .put idle { key := "a", value := [1], ttlMs := some 7 } _ rfl rfl (by decide)
  exact (livesFor_iff written).mpr (by decide)

/-- The longest time to live, as a client sends it. -/
def forever : PutRequest := { key := "a", value := [1], ttlMs := some 18446744073709551615 }

omit [Serde] in
theorem put_forever_expired : ¬ ∀ [Serde] (now ttl : UInt64) (r : DbRecord),
    WrittenWithTtl now ttl r → LivesFor r.expiresAt now ttl := by
  intro claim
  let _ : Serde := SerdeJson.instSerde
  have written : WrittenWithTtl 1700000000000 18446744073709551615
      { value := [1], expiresAt := some 1699999999999, version := 1 } :=
    .put idle forever _ rfl rfl (by decide)
  have live := (claim _ _ _ written 1700000000000 UInt64.le_rfl).1 (by decide)
  exact absurd live (by decide)

end KindDb.TtlArithmetic
