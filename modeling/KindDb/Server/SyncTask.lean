import KindDb.Server.Serial
import KindDb.Server.Sync

/-! # The sync task step by step

The task that `sync` spawns decides between the log and a snapshot, loads the
version counter, walks through the tree, subscribes to the broadcasts and then
forwards them.  It reads shared state once in each step; what it sends waits in
order until the replica takes it. -/
set_option autoImplicit false

namespace KindDb

open KindDb.Lib KindDb.Lib.Overlay

inductive SyncTask
  | deciding (lastKnownTxId : Nat)
  | loading
  | iterating (maxTxId : Nat) (cursor : Option String) (chunk : List Record)
  | subscribing (startStreamingTxId : Nat)
  /-- `next` is the place of the receiver in the broadcasts -/
  | forwarding (startStreamingTxId next : Nat)
  | ended (startStreamingTxId : Nat)

/-- The message for a broadcast command. -/
def walRecordOf (logged : Nat × WalCommand) : SyncPayload :=
  .walRecord { txId := logged.1, payload := some { c := logged.2, k := 0, txId := logged.1 } }

namespace SyncTask

/-- One step, with what it sends. -/
def step [Serde] (now : UInt64) (s : KindServerImpl) : SyncTask → Option (SyncTask × List SyncPayload)
  | .deciding lastKnownTxId =>
      match s.decideSync lastKnownTxId with
      | none => some (.loading, [])
      | some records =>
          some (.subscribing ((records.getLast?.map Prod.fst).getD lastKnownTxId),
            records.map fun record => .walRecord { txId := record.1, payload := some record.2 })
  | .loading => some (.iterating s.globalVersion none [], [])
  | .iterating maxTxId cursor chunk =>
      match SortedMap.nextAbove s.tree cursor with
      | some (key, rec) =>
          let c := Chunking.visit maxTxId now { chunk, sent := [] } (key, rec)
          some (.iterating maxTxId (some key) c.chunk, c.sent)
      | none => some (.subscribing maxTxId, (Chunking.finish maxTxId { chunk, sent := [] }).sent)
  | .subscribing startStreamingTxId => some (.forwarding startStreamingTxId s.syncTx.length, [])
  | .forwarding startStreamingTxId next =>
      match s.syncTx[next]? with
      | some logged =>
          some (.forwarding startStreamingTxId (next + 1),
            if logged.1 ≤ startStreamingTxId then [] else [walRecordOf logged])
      | none => none
  | .ended _ => none

/-- The id up to which the task forwards nothing. -/
def startStreamingTxId : SyncTask → Nat
  | .subscribing start => start
  | .forwarding start _ => start
  | .ended start => start
  | _ => 0

end SyncTask

/-! ## What payloads bring -/

def SyncPayload.updates : SyncPayload → List (Update String Content)
  | .snapshot chunk => chunk.records.map Record.update
  | .walRecord record => (record.payload.map fun envelope => envelope.c.updates).getD []

def arriving (payloads : List SyncPayload) : List (Update String Content) :=
  payloads.flatMap SyncPayload.updates

/-- The updates of a list of numbered commands. -/
def carried (commands : List (Nat × WalCommand)) : List (Update String Content) :=
  commands.flatMap fun logged => logged.2.updates

@[simp] theorem arriving_append (first second : List SyncPayload) :
    arriving (first ++ second) = arriving first ++ arriving second := List.flatMap_append

@[simp] theorem carried_append (first second : List (Nat × WalCommand)) :
    carried (first ++ second) = carried first ++ carried second := List.flatMap_append

@[simp] theorem arriving_walRecordOf (commands : List (Nat × WalCommand)) :
    arriving (commands.map walRecordOf) = carried commands := by
  rw [arriving, List.flatMap_map]
  rfl

/-- All the payloads are chunks of the snapshot with this id. -/
def ChunksOf (maxTxId : Nat) (payloads : List SyncPayload) : Prop :=
  ∀ payload ∈ payloads, ∃ records, payload = .snapshot { records, maxTxId }

theorem arriving_chunks {maxTxId : Nat} {payloads : List SyncPayload}
    (chunks : ChunksOf maxTxId payloads) (chunk : List Record) :
    arriving payloads ++ chunk.map Record.update =
      (Chunking.records { chunk, sent := payloads }).map Record.update := by
  unfold Chunking.records
  rw [List.map_append, List.append_left_inj]
  induction payloads with
  | nil => rfl
  | cons payload rest ih =>
      obtain ⟨records, rfl⟩ := chunks payload List.mem_cons_self
      rw [List.flatMap_cons, List.map_append,
        ← ih fun payload member => chunks payload (List.mem_cons_of_mem _ member)]
      rfl

/-- A visit adds the record, sent or not, if it is live. -/
theorem visit_brings (maxTxId : Nat) (now : UInt64) (chunk : List Record)
    (entry : String × DbRecord) :
    let c := Chunking.visit maxTxId now { chunk, sent := [] } entry
    ChunksOf maxTxId c.sent ∧ arriving c.sent ++ c.chunk.map Record.update =
      chunk.map Record.update ++
        if isExpired entry.2.expiresAt now then [] else [(entry.1, some entry.2.content)] := by
  intro c
  have chunks : ChunksOf maxTxId c.sent :=
    Chunking.Carries.visit (c := { chunk, sent := [] }) nofun now entry
  refine ⟨chunks, ?_⟩
  rw [arriving_chunks chunks, Chunking.records_visit, List.map_append]
  split <;> simp [Chunking.records, Record.update, DbRecord.content]

theorem finish_brings (maxTxId : Nat) (chunk : List Record) :
    let sent := (Chunking.finish maxTxId { chunk, sent := [] }).sent
    ChunksOf maxTxId sent ∧ arriving sent = chunk.map Record.update := by
  intro sent
  have chunks : ChunksOf maxTxId sent := Chunking.Carries.finish (c := { chunk, sent := [] }) nofun
  have brings := arriving_chunks chunks (Chunking.finish maxTxId { chunk, sent := [] }).chunk
  rw [Chunking.records_finish_sent, Chunking.chunk_finish] at brings
  refine ⟨chunks, ?_⟩
  simpa [Chunking.records] using brings

end KindDb
