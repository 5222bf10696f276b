import KindDb.Server.Replica

/-! # What the leader's sync task sends

`decideRequest` chooses between the log and a snapshot, `decideSync` does for a
replica that has a version of the leader; a snapshot is cut into chunks of a
hundred records.  The records are read one by one, each with its
own reading of the clock. -/
set_option autoImplicit false

namespace KindDb

open KindDb.Lib KindDb.Lib.Overlay KindDb.Cache

namespace KindServerImpl
variable [Serde]

/-- The records of the log to send, from the id after the last known one on, or
`none` where a snapshot is required. -/
def decideSyncFrom (s : KindServerImpl) (lastKnownTxId startTxId : Nat) :
    Option (List (Nat × WalEnvelope)) :=
  if lastKnownTxId = 0 then none
  else
    match s.wal with
    | none => none
    | some file =>
        match Wal.readFromTxId startTxId file with
        | none => none
        | some [] => if s.globalVersion > lastKnownTxId then none else some []
        | some ((firstTx, envelope) :: records) =>
            if firstTx > startTxId then none else some ((firstTx, envelope) :: records)

/-- For the `last_known_tx_id` of any request: the addition is the one of `u64`,
which wraps in a release build. -/
def decideRequest (s : KindServerImpl) (lastKnownTxId : UInt64) :
    Option (List (Nat × WalEnvelope)) :=
  s.decideSyncFrom lastKnownTxId.toNat (lastKnownTxId + 1).toNat

/-- For a version that a leader has counted up to. -/
def decideSync (s : KindServerImpl) (lastKnownTxId : Nat) : Option (List (Nat × WalEnvelope)) :=
  s.decideSyncFrom lastKnownTxId (lastKnownTxId + 1)

/-- The two differ for `u64::MAX` only. -/
theorem decideRequest_eq (s : KindServerImpl) {lastKnownTxId : UInt64}
    (below : lastKnownTxId.toNat + 1 < 2 ^ 64) :
    s.decideRequest lastKnownTxId = s.decideSync lastKnownTxId.toNat := by
  have next : (lastKnownTxId + 1).toNat = lastKnownTxId.toNat + 1 := by
    rw [UInt64.toNat_add]
    exact Nat.mod_eq_of_lt below
  rw [decideRequest, decideSync, next]

end KindServerImpl

/-- The chunk being filled and what was sent already. -/
structure Chunking where
  chunk : List Record
  sent : List SyncPayload

namespace Chunking

def empty : Chunking := { chunk := [], sent := [] }

def flush (maxTxId : Nat) (c : Chunking) : Chunking :=
  { chunk := [], sent := c.sent ++ [.snapshot { records := c.chunk, maxTxId }] }

def push (maxTxId : Nat) (c : Chunking) (rec : Record) : Chunking :=
  let c := { c with chunk := c.chunk ++ [rec] }
  if 100 ≤ c.chunk.length then c.flush maxTxId else c

/-- One turn of the loop over the tree. -/
def visit (maxTxId : Nat) (now : UInt64) (c : Chunking) (entry : String × DbRecord) : Chunking :=
  if isExpired entry.2.expiresAt now then c
  else c.push maxTxId { key := entry.1, value := entry.2.value, expiresAt := entry.2.expiresAt }

/-- The last chunk; an empty one is sent only to an empty history. -/
def finish (maxTxId : Nat) (c : Chunking) : Chunking :=
  if c.chunk ≠ [] ∨ maxTxId = 0 then c.flush maxTxId else c

/-- All the records collected, sent or not. -/
def records (c : Chunking) : List Record :=
  c.sent.flatMap (fun payload => match payload with
    | .snapshot chunk => chunk.records
    | .walRecord _ => []) ++ c.chunk

/-- All that was sent are chunks that carry this transaction id. -/
def Carries (maxTxId : Nat) (c : Chunking) : Prop :=
  ∀ payload ∈ c.sent, ∃ records, payload = .snapshot { records, maxTxId }

variable {maxTxId : Nat} {c : Chunking}

@[simp] theorem records_flush : (c.flush maxTxId).records = c.records := by
  simp [records, flush]

@[simp] theorem records_push (rec : Record) :
    (c.push maxTxId rec).records = c.records ++ [rec] := by
  unfold push
  dsimp only
  split
  · rw [records_flush]
    simp [records]
  · simp [records]

theorem records_visit (now : UInt64) (entry : String × DbRecord) :
    (c.visit maxTxId now entry).records = c.records ++
      if isExpired entry.2.expiresAt now then []
      else [{ key := entry.1, value := entry.2.value, expiresAt := entry.2.expiresAt }] := by
  unfold visit
  split
  · simp
  · rw [records_push]

theorem Carries.flush (carries : c.Carries maxTxId) : (c.flush maxTxId).Carries maxTxId := by
  intro payload member
  rcases List.mem_append.mp member with earlier | last
  · exact carries payload earlier
  · exact ⟨c.chunk, List.mem_singleton.mp last⟩

theorem Carries.visit (carries : c.Carries maxTxId) (now : UInt64) (entry : String × DbRecord) :
    (c.visit maxTxId now entry).Carries maxTxId := by
  unfold Chunking.visit
  split
  · exact carries
  · unfold push
    dsimp only
    split
    · exact Carries.flush (c := { c with chunk := _ }) carries
    · exact carries

theorem Carries.finish (carries : c.Carries maxTxId) : (c.finish maxTxId).Carries maxTxId := by
  unfold Chunking.finish
  split
  · exact carries.flush
  · exact carries

theorem records_finish_sent : (c.finish maxTxId).records = c.records := by
  unfold finish
  split
  · exact records_flush
  · rfl

/-- After the last chunk nothing is left unsent. -/
theorem chunk_finish : (c.finish maxTxId).chunk = [] := by
  unfold finish
  split
  · rfl
  · rename_i nothing
    simpa using (not_or.mp nothing).1

end Chunking

/-- The stream of an idle leader whose clock reads `clock key` at each record. -/
def KindServerImpl.snapshotStream (s : KindServerImpl) (clock : String → UInt64) :
    List SyncPayload :=
  ((s.tree.toList.foldl (fun c entry => c.visit s.globalVersion (clock entry.1) entry)
    Chunking.empty).finish s.globalVersion).sent

/-! ## Processing a stream of chunks -/

variable [Serde]

theorem processStream_snapshots {maxTxId : Nat} :
    ∀ {payloads : List SyncPayload} (replica : KindServerImpl),
      (∀ payload ∈ payloads, ∃ records, payload = .snapshot { records, maxTxId }) →
      (replica.processStream payloads).contents = overlay replica.contents
        ((Chunking.records { chunk := [], sent := payloads }).map Record.update) ∧
      (payloads ≠ [] → (replica.processStream payloads).globalVersion = maxTxId) := by
  intro payloads
  induction payloads with
  | nil => intro replica _; exact ⟨rfl, fun nonempty => absurd rfl nonempty⟩
  | cons payload rest ih =>
      intro replica chunks
      obtain ⟨records, rfl⟩ := chunks _ (List.mem_cons_self ..)
      obtain ⟨contents, version⟩ := ih (replica.installChunk { records, maxTxId })
        fun payload member => chunks payload (List.mem_cons_of_mem _ member)
      simp only [KindServerImpl.processStream, KindServerImpl.processPayload]
      refine ⟨?_, fun _ => ?_⟩
      · rw [contents, KindServerImpl.contents_installChunk, ← overlay_append]
        simp [Chunking.records]
      · cases rest with
        | nil => rfl
        | cons next rest => exact version (List.cons_ne_nil _ _)

/-- A snapshot does not reach the files. -/
theorem sameFiles_snapshots {maxTxId : Nat} {payloads : List SyncPayload}
    (chunks : ∀ payload ∈ payloads, ∃ records, payload = .snapshot { records, maxTxId })
    (replica : KindServerImpl) : replica.SameFiles (replica.processStream payloads) := by
  induction payloads generalizing replica with
  | nil => exact KindServerImpl.SameFiles.refl replica
  | cons payload rest ih =>
      obtain ⟨records, rfl⟩ := chunks _ List.mem_cons_self
      exact (replica.sameFiles_installChunk { records, maxTxId }).trans
        (ih (fun payload member => chunks payload (List.mem_cons_of_mem _ member)) _)

omit [Serde] in
/-- The records of a stream are the records that are live when they are read. -/
theorem KindServerImpl.snapshotStream_records (s : KindServerImpl) (clock : String → UInt64) :
    (∀ payload ∈ s.snapshotStream clock,
      ∃ records, payload = .snapshot { records, maxTxId := s.globalVersion }) ∧
    (Chunking.records { chunk := [], sent := s.snapshotStream clock }).map Record.update =
      s.liveUpdates clock := by
  have visited : ∀ (entries : List (String × DbRecord)) (c : Chunking),
      c.Carries s.globalVersion →
      (entries.foldl (fun c entry => c.visit s.globalVersion (clock entry.1) entry) c).Carries
        s.globalVersion ∧
      (entries.foldl (fun c entry => c.visit s.globalVersion (clock entry.1) entry) c).records.map
          Record.update = c.records.map Record.update ++
        (entries.filter fun entry => !isExpired entry.2.expiresAt (clock entry.1)).map
          fun entry => (entry.1, some entry.2.content) := by
    intro entries
    induction entries with
    | nil => intro c carries; exact ⟨carries, by simp⟩
    | cons entry rest ih =>
        intro c carries
        obtain ⟨carries', records⟩ := ih _ (carries.visit (clock entry.1) entry)
        refine ⟨carries', ?_⟩
        rw [List.foldl_cons, records, Chunking.records_visit]
        cases expired : isExpired entry.2.expiresAt (clock entry.1) with
        | true => simp [expired]
        | false => simp [expired, Record.update, DbRecord.content]
  obtain ⟨carries, records⟩ := visited s.tree.toList Chunking.empty
    (by simp [Chunking.Carries, Chunking.empty])
  refine ⟨carries.finish, ?_⟩
  have all := congrArg (List.map Record.update)
    (@Chunking.records_finish_sent s.globalVersion
      (s.tree.toList.foldl
        (fun c entry => c.visit s.globalVersion (clock entry.1) entry) Chunking.empty))
  rw [records] at all
  have unsent := @Chunking.chunk_finish s.globalVersion
      (s.tree.toList.foldl
        (fun c entry => c.visit s.globalVersion (clock entry.1) entry) Chunking.empty)
  unfold snapshotStream liveUpdates
  rw [Chunking.records, unsent] at all
  simpa [Chunking.records, Chunking.empty] using all

end KindDb
