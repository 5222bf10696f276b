import KindDb.Properties.InterruptedSnapshot
import KindDb.Properties.SnapshotInstall

/-! # What a snapshot consists of

The chunks of a snapshot hold the live records of the tree, in order and each
once, at most a hundred in a chunk, and each carries the version of the leader.
Whether there is a chunk at all, from which the replica would learn that
version, depends: a tree without a live record is sent as an empty chunk only
while nothing has been written. -/
set_option autoImplicit false

namespace KindDb

open KindDb.Lib KindDb.Lib.Overlay

namespace Chunking

/-- The chunk being filled is not full, and no chunk sent is too large or was
sent for nothing. -/
structure Sized (c : Chunking) : Prop where
  open_ : c.chunk.length < 100
  sent : ∀ chunk, .snapshot chunk ∈ c.sent → chunk.records.length ≤ 100
  filled : c.sent ≠ [] → c.records ≠ []

theorem sized_empty : empty.Sized := by
  refine ⟨by simp [empty], ?_, fun something => absurd rfl something⟩
  intro chunk member
  cases member

variable {maxTxId : Nat} {c : Chunking}

theorem flush_sent_le (sent : ∀ chunk, .snapshot chunk ∈ c.sent → chunk.records.length ≤ 100)
    (atMost : c.chunk.length ≤ 100) :
    ∀ chunk, .snapshot chunk ∈ (c.flush maxTxId).sent → chunk.records.length ≤ 100 := by
  intro chunk member
  rcases List.mem_append.mp member with earlier | last
  · exact sent chunk earlier
  · have same : SyncPayload.snapshot chunk = .snapshot { records := c.chunk, maxTxId } :=
      List.mem_singleton.mp last
    injection same with same
    rw [same]
    exact atMost

theorem Sized.push (sized : c.Sized) (rec : Record) : (c.push maxTxId rec).Sized := by
  have bound := sized.open_
  have pushed : (c.push maxTxId rec).records ≠ [] := by
    rw [records_push]
    exact List.append_ne_nil_of_right_ne_nil _ (List.cons_ne_nil rec [])
  refine ⟨?_, ?_, fun _ => pushed⟩
  · unfold Chunking.push
    dsimp only
    split
    · exact Nat.zero_lt_succ _
    · rename_i room
      exact Nat.lt_of_not_le room
  · unfold Chunking.push
    dsimp only
    split
    · apply flush_sent_le (c := { c with chunk := c.chunk ++ [rec] }) sized.sent
      rw [List.length_append, List.length_singleton]
      omega
    · exact sized.sent

theorem Sized.visit (sized : c.Sized) (now : UInt64) (entry : String × DbRecord) :
    (c.visit maxTxId now entry).Sized := by
  unfold Chunking.visit
  split
  · exact sized
  · exact sized.push _

theorem Sized.walk (clock : String → UInt64) (entries : List (String × DbRecord))
    (sized : c.Sized) :
    (entries.foldl (fun c entry => c.visit maxTxId (clock entry.1) entry) c).Sized := by
  induction entries generalizing c with
  | nil => exact sized
  | cons entry entries ih => exact ih (sized.visit (clock entry.1) entry)

theorem Sized.finish_sent_le (sized : c.Sized) :
    ∀ chunk, .snapshot chunk ∈ (c.finish maxTxId).sent → chunk.records.length ≤ 100 := by
  unfold Chunking.finish
  split
  · exact flush_sent_le sized.sent (Nat.le_of_lt sized.open_)
  · exact sized.sent

/-- Something is sent for some record, or for an empty history. -/
theorem Sized.finish_sent (sized : c.Sized) :
    (c.finish maxTxId).sent ≠ [] ↔ c.records ≠ [] ∨ maxTxId = 0 := by
  unfold Chunking.finish
  by_cases flushed : c.chunk ≠ [] ∨ maxTxId = 0
  · rw [if_pos flushed]
    refine iff_of_true (by simp [Chunking.flush]) ?_
    rcases flushed with unsent | zero
    · left
      exact List.append_ne_nil_of_right_ne_nil _ unsent
    · exact Or.inr zero
  · rw [if_neg flushed]
    obtain ⟨nothing, positive⟩ := not_or.mp flushed
    constructor
    · intro something
      exact Or.inl (sized.filled something)
    · rintro (something | zero)
      · intro unsent
        apply something
        simp [records, unsent, not_not.mp nothing]
      · exact absurd zero positive

end Chunking

/-! ## The records -/

/-- The live records in the order of their keys. -/
def KindServerImpl.liveRecords (s : KindServerImpl) (clock : String → UInt64) : List Record :=
  (s.tree.toList.filter fun entry => !isExpired entry.2.expiresAt (clock entry.1)).map
    fun entry => { key := entry.1, value := entry.2.value, expiresAt := entry.2.expiresAt }

theorem Record.update_injective : Function.Injective Record.update := by
  intro first second same
  obtain ⟨key, value, expiresAt⟩ := first
  obtain ⟨key', value', expiresAt'⟩ := second
  simp only [Record.update, Prod.mk.injEq, Option.some.injEq] at same
  obtain ⟨rfl, rfl, rfl⟩ := same
  rfl

namespace SnapshotSender

open KindServerImpl InterruptedSnapshot

theorem liveRecords_ascending (s : KindServerImpl) (clock : String → UInt64) :
    (s.liveRecords clock).Pairwise fun first second => first.key < second.key := by
  have sorted : s.tree.toList.Pairwise fun a b => compare a.1 b.1 = .lt :=
    Std.ExtTreeMap.ordered_keys_toList
  apply List.pairwise_map.mpr
  apply (sorted.filter _).imp
  intro first second less
  exact compareOfLessAndEq_eq_lt.mp less

theorem mem_liveRecords {s : KindServerImpl} {clock : String → UInt64} {record : Record} :
    record ∈ s.liveRecords clock ↔ ∃ r, s.tree[record.key]? = some r ∧
      isExpired r.expiresAt (clock record.key) = false ∧
      record = { key := record.key, value := r.value, expiresAt := r.expiresAt } := by
  simp only [liveRecords, List.mem_map, List.mem_filter, Prod.exists,
    Std.ExtTreeMap.mem_toList_iff_getElem?_eq_some, Bool.not_eq_true']
  constructor
  · rintro ⟨key, r, ⟨held, live⟩, rfl⟩
    exact ⟨r, held, live, rfl⟩
  · rintro ⟨r, held, live, same⟩
    exact ⟨record.key, r, ⟨held, live⟩, same.symm⟩

/-- All that is sent, taken together. -/
def sentRecords (payloads : List SyncPayload) : List Record :=
  Chunking.records { chunk := [], sent := payloads }

theorem sentRecords_snapshot (s : KindServerImpl) (clock : String → UInt64) :
    sentRecords (s.snapshotStream clock) = s.liveRecords clock := by
  apply List.map_injective_iff.mpr Record.update_injective
  have brought := (s.snapshotStream_records clock).2
  unfold sentRecords
  rw [brought, liveUpdates, liveRecords, List.map_map]
  rfl

/-- The chunks before the last one, and the records for that. -/
def walked (s : KindServerImpl) (clock : String → UInt64) : Chunking :=
  s.tree.toList.foldl (fun c entry => c.visit s.globalVersion (clock entry.1) entry) Chunking.empty

theorem sized_walked (s : KindServerImpl) (clock : String → UInt64) : (walked s clock).Sized :=
  Chunking.Sized.walk clock s.tree.toList Chunking.sized_empty

theorem snapshotStream_ne_nil (s : KindServerImpl) (clock : String → UInt64) :
    s.snapshotStream clock ≠ [] ↔ s.liveRecords clock ≠ [] ∨ s.globalVersion = 0 := by
  have collected : (walked s clock).records = s.liveRecords clock := by
    rw [← sentRecords_snapshot, ← @Chunking.records_finish_sent s.globalVersion]
    unfold sentRecords Chunking.records
    rw [Chunking.chunk_finish]
    rfl
  rw [← collected]
  exact (sized_walked s clock).finish_sent

/-! ## The law -/

section Law
variable [Serde]

/-- What an idle leader sends for a request with any `last_known_tx_id`. -/
def requestStream (leader : KindServerImpl) (lastKnownTxId : UInt64) (clock : String → UInt64) :
    List SyncPayload :=
  match leader.decideRequest lastKnownTxId with
  | none => leader.snapshotStream clock
  | some records => CatchUp.walPayloads records

theorem requestStream_eq (leader : KindServerImpl) {lastKnownTxId : UInt64}
    (below : lastKnownTxId.toNat + 1 < 2 ^ 64) (clock : String → UInt64) :
    requestStream leader lastKnownTxId clock =
      syncStream leader lastKnownTxId.toNat clock := by
  rw [requestStream, leader.decideRequest_eq below]
  rfl

/-- What a replica relies on when `payloads` is a snapshot of the leader. -/
structure SenderLaw (leader : KindServerImpl) (clock : String → UInt64)
    (payloads : List SyncPayload) : Prop where
  chunks : ∀ payload ∈ payloads, ∃ records,
    payload = .snapshot { records, maxTxId := leader.globalVersion } ∧ records.length ≤ 100
  records : sentRecords payloads = leader.liveRecords clock
  ascending : (sentRecords payloads).Pairwise fun first second => first.key < second.key
  nonempty : payloads ≠ []
  known : ∀ replica : KindServerImpl,
    (replica.processStream payloads).globalVersion = leader.globalVersion

/-- The law holds exactly if there is a live record to send or nothing has ever
been written. -/
theorem senderLaw_iff (leader : KindServerImpl) (lastKnownTxId : UInt64)
    (clock : String → UInt64) (snapshot : leader.decideRequest lastKnownTxId = none) :
    SenderLaw leader clock (requestStream leader lastKnownTxId clock) ↔
      (∃ key r, leader.tree[key]? = some r ∧ isExpired r.expiresAt (clock key) = false) ∨
        leader.globalVersion = 0 := by
  have stream : requestStream leader lastKnownTxId clock = leader.snapshotStream clock := by
    unfold requestStream
    rw [snapshot]
  have live : leader.liveRecords clock ≠ [] ↔
      ∃ key r, leader.tree[key]? = some r ∧ isExpired r.expiresAt (clock key) = false := by
    constructor
    · intro something
      obtain ⟨record, member⟩ := List.exists_mem_of_ne_nil _ something
      obtain ⟨r, held, unexpired, _⟩ := mem_liveRecords.mp member
      exact ⟨record.key, r, held, unexpired⟩
    · rintro ⟨key, r, held, unexpired⟩
      have member : ({ key, value := r.value, expiresAt := r.expiresAt } : Record) ∈
          leader.liveRecords clock := mem_liveRecords.mpr ⟨r, held, unexpired, rfl⟩
      exact List.ne_nil_of_mem member
  rw [stream, ← live, ← snapshotStream_ne_nil]
  constructor
  · exact fun law => law.nonempty
  · intro nonempty
    have carried := (leader.snapshotStream_records clock).1
    refine ⟨fun payload member => ?_, sentRecords_snapshot leader clock, ?_, nonempty, ?_⟩
    · obtain ⟨records, rfl⟩ := carried payload member
      exact ⟨records, rfl, (sized_walked leader clock).finish_sent_le _ member⟩
    · rw [sentRecords_snapshot]
      exact liveRecords_ascending leader clock
    · intro replica
      exact (processStream_snapshots replica carried).2 nonempty

end Law

/-! ## Nothing is sent -/

open SerdeJson SnapshotInstall

/-- A leader whose log begins with the id 1. -/
def loggingLeader : KindServerImpl := Runs.run serverStep (.fresh .new false true false) [put "a"]

/-- A request with `u64::MAX` reads the log from 0 on, and finds it to start too late. -/
theorem senderLaw_put :
    SenderLaw loggingLeader (fun _ => 0)
      (requestStream loggingLeader 18446744073709551615 fun _ => 0) :=
  (senderLaw_iff loggingLeader 18446744073709551615 (fun _ => 0) (by decide +kernel)).mpr
    (Or.inl ⟨"a", { value := [1], expiresAt := none, version := 1 }, by decide, rfl⟩)

/-- The only key has been deleted again. -/
def emptiedLeader : KindServerImpl := leaderAfter [put "a", (0, .delete "a")]

theorem emptied_sends_nothing :
    ¬ ∀ [Serde] (leader : KindServerImpl) (lastKnownTxId : UInt64) (clock : String → UInt64),
      leader.isReplica = false → leader.decideRequest lastKnownTxId = none →
        SenderLaw leader clock (requestStream leader lastKnownTxId clock) := by
  intro claim
  have law := claim emptiedLeader 0 (fun _ => 0) rfl rfl
  exact law.nonempty (by decide)

end SnapshotSender

end KindDb
