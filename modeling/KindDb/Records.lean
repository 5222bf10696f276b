import KindDb.Lib.Overlay

/-! # What is stored and logged

`DbRecord` and `SnapshotRecord` of `server.rs`, `WalCommand` and `WalEnvelope`
of `wal.rs`.  Times are the `u64` milliseconds the clock is cast to, so that a
deadline computed as `now + ms` wraps as in a release build; version numbers
and transaction ids count and are natural numbers. -/
set_option autoImplicit false

namespace KindDb

abbrev Bytes := List UInt8

structure DbRecord where
  value : Bytes
  expiresAt : Option UInt64
  version : Nat
deriving Repr, DecidableEq

structure SnapshotRecord where
  key : String
  record : DbRecord
deriving Repr, DecidableEq

inductive WalCommand
  | put (key : String) (value : Bytes) (expiresAt : Option UInt64)
  | delete (key : String)
  | txCommit (cmds : List WalCommand)
deriving Repr

structure WalEnvelope where
  c : WalCommand
  k : UInt32
  txId : Nat
deriving Repr

def isExpired (expiresAt : Option UInt64) (now : UInt64) : Bool :=
  match expiresAt with
  | some exp => now > exp
  | none => false

/-- `ttl_ms.map(|ms| now + ms)`. -/
def deadline (now : UInt64) (ttlMs : Option UInt64) : Option UInt64 := ttlMs.map (now + ·)

@[simp] theorem isExpired_none (now : UInt64) : isExpired none now = false := rfl

@[simp] theorem isExpired_some (exp now : UInt64) : isExpired (some exp) now = decide (exp < now) :=
  rfl

@[simp] theorem deadline_none (now : UInt64) : deadline now none = none := rfl

theorem isExpired_later {expiresAt : Option UInt64} {t t' : UInt64} (later : t ≤ t')
    (expired : isExpired expiresAt t = true) : isExpired expiresAt t' = true := by
  cases expiresAt with
  | none => exact expired
  | some exp =>
      simp only [isExpired_some, decide_eq_true_eq] at expired ⊢
      exact UInt64.lt_of_lt_of_le expired later

/-! ## What a reader can see of a record -/

/-- The client-visible part of a record: its value and its deadline. -/
abbrev Content := Bytes × Option UInt64

def DbRecord.content (r : DbRecord) : Content := (r.value, r.expiresAt)

def liveAt (now : UInt64) (held : Option Content) : Option Content :=
  held.filter fun c => !isExpired c.2 now

@[simp] theorem liveAt_none (now : UInt64) : liveAt now none = none := rfl

theorem liveAt_some (now : UInt64) (c : Content) :
    liveAt now (some c) = if isExpired c.2 now then none else some c := by
  cases expired : isExpired c.2 now <;> simp [liveAt, Option.filter, expired]

theorem liveAt_eq_none {now : UInt64} {held : Option Content} :
    liveAt now held = none ↔ ∀ c, held = some c → isExpired c.2 now = true := by
  cases held with
  | none => simp
  | some c => cases expired : isExpired c.2 now <;> simp [liveAt_some, expired]

/-- Without a deadline everything is live. -/
theorem liveAt_of_free {held : Option Content} (free : ∀ c, held = some c → c.2 = none)
    (now : UInt64) : liveAt now held = held := by
  cases held with
  | none => rfl
  | some c => simp [liveAt_some, free c rfl]

/-- What is live later is what is live later of what is live now. -/
theorem liveAt_liveAt {t t' : UInt64} (later : t ≤ t') (held : Option Content) :
    liveAt t' (liveAt t held) = liveAt t' held := by
  cases held with
  | none => rfl
  | some c =>
      cases expired : isExpired c.2 t with
      | false => simp [liveAt_some, expired]
      | true => simp [liveAt_some, expired, isExpired_later later expired]

theorem liveAt_congr_later {t t' : UInt64} (later : t ≤ t') {held held' : Option Content}
    (same : liveAt t held = liveAt t held') : liveAt t' held = liveAt t' held' := by
  rw [← liveAt_liveAt later held, same, liveAt_liveAt later]

/-! ## Commands as updates of the visible store -/

open Lib.Overlay

/-- Stores that look alike at a time look alike after the same updates. -/
theorem liveAt_overlay {t : UInt64} {store store' : String → Option Content}
    (alike : ∀ key, liveAt t (store key) = liveAt t (store' key))
    (updates : List (Update String Content)) (key : String) :
    liveAt t (overlay store updates key) = liveAt t (overlay store' updates key) := by
  by_cases named : key ∈ touched updates
  · rw [overlay_touched named store store']
  · rw [overlay_untouched named, overlay_untouched named, alike]

namespace WalCommand

/-- A command inside a `TxCommit`; a nested `TxCommit` is ignored everywhere. -/
def subUpdates : WalCommand → List (Update String Content)
  | .put key value expiresAt => [(key, some (value, expiresAt))]
  | .delete key => [(key, none)]
  | .txCommit _ => []

def updates : WalCommand → List (Update String Content)
  | .put key value expiresAt => [(key, some (value, expiresAt))]
  | .delete key => [(key, none)]
  | .txCommit cmds => cmds.flatMap subUpdates

/-- The keys a command writes or deletes. -/
def keys (c : WalCommand) : List String := touched c.updates

/-- The updates as records of the version the command got. -/
def recordUpdates (version : Nat) (c : WalCommand) : List (Update String DbRecord) :=
  c.updates.map fun u => (u.1, u.2.map fun held => { value := held.1, expiresAt := held.2, version })

@[simp] theorem touched_recordUpdates (version : Nat) (c : WalCommand) :
    touched (c.recordUpdates version) = c.keys := by
  simp [touched, recordUpdates, keys]

theorem content_recordUpdates (version : Nat) (c : WalCommand) :
    (c.recordUpdates version).map (fun u => (u.1, u.2.map DbRecord.content)) = c.updates := by
  simp only [recordUpdates, List.map_map]
  refine (List.map_congr_left fun u _ => ?_).trans (List.map_id _)
  obtain ⟨key, held⟩ := u
  cases held <;> rfl

end WalCommand

end KindDb
