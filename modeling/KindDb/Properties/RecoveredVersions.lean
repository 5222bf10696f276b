import KindDb.Properties.Durability
import KindDb.Server.Versions

/-! # Versions after a recovery

The replay writes the records of a transaction one version ahead of the
counter.  Any later command makes up for it; a log that ends with a transaction
does not, and then the first transaction on the recovered server can conflict
with what was there before it began: `recovered_versions_sound_iff`. -/
set_option autoImplicit false

namespace KindDb.RecoveredVersions

open KindDb.Lib KindDb.Lib.Overlay KindDb.Lib.Runs KindDb.Schema KindDb.Durability KindDb.Recovery

section Runs
variable [Serde]

/-- No record is newer than the counter, and a transaction begun now commits. -/
structure Sound (s : KindServerImpl) : Prop where
  bounded : KindServerImpl.VersionsBounded s
  commits : ∀ writeSet, (({ s.beginTransaction with writeSet } : TxHandle).commit s).1 = .ok ()

/-- The log ends with a transaction that puts a record still live at `t`. -/
def EndsInCommit (s : KindServerImpl) (t : UInt64) : Prop :=
  ∃ txId cmds, s.logged.getLast? = some (txId, .txCommit cmds) ∧
    ∃ key value expiresAt, .put key value expiresAt ∈ cmds ∧ isExpired expiresAt t = false

/-! ## The files of a run -/

/-- The id the next line of an empty log would get, or the first in the log. -/
def firstId (s : KindServerImpl) : Nat := (s.logged.head?.map Prod.fst).getD (s.globalVersion + 1)

structure Shaped (cs : Clocked) : Prop where
  leader : cs.2.isReplica = false
  readable : cs.2.Readable
  positive : ∀ logged ∈ cs.2.logged, 0 < logged.1
  increasing : (cs.2.logged.map Prod.fst).Pairwise (· < ·)
  bounded : ∀ logged ∈ cs.2.logged, logged.1 ≤ cs.2.globalVersion
  distinct : ∀ logged ∈ cs.2.logged, logged.2.keys.Nodup
  tree : VersionsUpTo cs.2.tree (cs.2.globalVersion + 1)
  snapshot : ∀ r, .record r ∈ cs.2.snapshotFile.getD [] →
    isExpired r.record.expiresAt cs.1 = true ∨ r.record.version ≤ firstId cs.2

theorem shaped_fresh (reg : SchemaRegistry) (hasSnapshot hasWal : Bool) (start : UInt64) :
    Shaped (start, KindServerImpl.fresh reg hasSnapshot hasWal false) := by
  have empty : (KindServerImpl.fresh reg hasSnapshot hasWal false).logged = [] := by
    cases hasWal <;> rfl
  refine ⟨rfl, ?_, by simp [empty], by simp [empty], by simp [empty], by simp [empty], ?_, ?_⟩
  · cases hasWal <;> rfl
  · exact fun key r held =>
      (KindServerImpl.versionsBounded_fresh reg hasSnapshot hasWal false key r held).trans
        (Nat.le_succ _)
  · intro r member
    cases hasSnapshot <;> cases member

/-- A snapshot that stays where it is stays old. -/
theorem Shaped.later {cs : Clocked} (shaped : Shaped cs) {now : UInt64} (later : cs.1 ≤ now)
    {s : KindServerImpl} (file : s.snapshotFile = cs.2.snapshotFile)
    (first : firstId cs.2 ≤ firstId s) :
    ∀ r, .record r ∈ s.snapshotFile.getD [] →
      isExpired r.record.expiresAt now = true ∨ r.record.version ≤ firstId s := by
  intro r member
  rw [file] at member
  rcases shaped.snapshot r member with expired | old
  · exact Or.inl (isExpired_later later expired)
  · exact Or.inr (old.trans first)

theorem Shaped.logged {clock now : UInt64} {s s' : KindServerImpl} {c : WalCommand}
    (shaped : Shaped (clock, s)) (later : clock ≤ now) (logged : Logged s s' c)
    (distinct : c.keys.Nodup) : Shaped (now, s') := by
  have file := logged.logged shaped.readable
  have version := logged.globalVersion
  have noWal : s.wal.isSome = false → s.logged = [] := by
    intro none
    rw [KindServerImpl.logged, Option.isSome_eq_false_iff.mp none |> Option.isNone_iff_eq_none.mp]
    rfl
  have first : firstId s ≤ firstId s' := by
    unfold firstId
    rw [file, version]
    cases wal : s.wal.isSome with
    | false => simp [noWal wal]
    | true =>
        cases s.logged with
        | nil => simp
        | cons entry rest => simp
  have entries : ∀ entry ∈ s'.logged, entry ∈ s.logged ∨ entry = (s.globalVersion + 1, c) := by
    intro entry member
    rw [file] at member
    split at member
    · rcases List.mem_append.mp member with old | new
      · exact Or.inl old
      · exact Or.inr (List.mem_singleton.mp new)
    · cases member
  refine ⟨logged.isReplica.trans shaped.leader, logged.readable shaped.readable,
    fun entry member => ?_, ?_, fun entry member => ?_, fun entry member => ?_,
    (logged.versionsUpTo shaped.tree).mono (Nat.le_succ _),
    shaped.later later logged.snapshotFile first⟩
  · rcases entries entry member with old | rfl
    · exact shaped.positive entry old
    · exact Nat.succ_pos _
  · rw [file]
    split
    · rw [List.map_append]
      refine List.pairwise_append.mpr ⟨shaped.increasing, List.pairwise_singleton _ _, ?_⟩
      intro id member new isNew
      obtain ⟨entry, old, rfl⟩ := List.mem_map.mp member
      rw [List.map_singleton, List.mem_singleton] at isNew
      have := shaped.bounded entry old
      dsimp only at this
      omega
    · exact List.Pairwise.nil
  · rw [version]
    rcases entries entry member with old | rfl
    · exact Nat.le_succ_of_le (shaped.bounded entry old)
    · exact le_rfl
  · rcases entries entry member with old | rfl
    · exact shaped.distinct entry old
    · exact distinct

theorem Shaped.unlogged {clock now : UInt64} {s s' : KindServerImpl} (shaped : Shaped (clock, s))
    (later : clock ≤ now) (quiet : Unlogged s s' now) : Shaped (now, s') := by
  have file := quiet.logged
  have version := quiet.globalVersion
  have first : firstId s' = firstId s := by rw [firstId, firstId, file, version]
  refine ⟨quiet.isReplica.trans shaped.leader, quiet.readable shaped.readable,
    file.symm ▸ shaped.positive, file.symm ▸ shaped.increasing, ?_, file.symm ▸ shaped.distinct,
    ?_, shaped.later later quiet.snapshotFile first.ge⟩
  · rw [file, version]
    exact shaped.bounded
  · rw [version]
    exact quiet.versionsUpTo shaped.tree

theorem Shaped.checkpoint {clock now : UInt64} {s : KindServerImpl} (shaped : Shaped (clock, s))
    (later : clock ≤ now) : Shaped (now, s.saveSnapshotAndTruncateWal now) := by
  cases held : s.snapshotFile with
  | none =>
      have same : s.saveSnapshotAndTruncateWal now = s := by
        simp [KindServerImpl.saveSnapshotAndTruncateWal, held]
      rw [same]
      exact ⟨shaped.leader, shaped.readable, shaped.positive, shaped.increasing, shaped.bounded,
        shaped.distinct, shaped.tree, shaped.later later rfl le_rfl⟩
  | some lines =>
      have became : s.saveSnapshotAndTruncateWal now =
          { s with snapshotFile := some (s.snapshotLines now), wal := s.wal.map Wal.truncate } := by
        simp [KindServerImpl.saveSnapshotAndTruncateWal, held]
      have empty : (s.wal.map Wal.truncate).getD [] = [] := by cases s.wal <;> rfl
      rw [became]
      have none : KindServerImpl.logged { s with
          snapshotFile := some (s.snapshotLines now), wal := s.wal.map Wal.truncate } = [] := by
        rw [KindServerImpl.logged, empty]
        rfl
      refine ⟨shaped.leader, ?_, by simp [none], by simp [none], by simp [none], by simp [none],
        shaped.tree, fun r member => Or.inr ?_⟩
      · rw [KindServerImpl.Readable, empty]
        rfl
      · obtain ⟨entry, taken, same⟩ := List.mem_map.mp member
        cases same
        have inTree := Std.ExtTreeMap.mem_toList_iff_getElem?_eq_some.mp (List.mem_filter.mp taken).1
        rw [firstId, none]
        exact shaped.tree entry.1 entry.2 inTree

theorem Shaped.restart {clock now : UInt64} {s : KindServerImpl} (shaped : Shaped (clock, s))
    (later : clock ≤ now) : Shaped (now, s.restart now) := by
  have counter : ∀ n, n ≤ (s.restart now).globalVersion ↔
      n = 0 ∨ (∃ r, Loads (s.snapshotFile.getD []) now r ∧ n ≤ r.record.version) ∨
        ∃ logged ∈ s.logged, n ≤ logged.1 := fun n => le_maxVer_recover _ shaped.positive
  refine ⟨shaped.leader, shaped.readable, shaped.positive, shaped.increasing,
    fun entry member => (counter _).mpr (Or.inr (Or.inr ⟨entry, member, le_rfl⟩)),
    shaped.distinct, versions_recover _ shaped.positive, fun r member => ?_⟩
  cases live : isExpired r.record.expiresAt now with
  | true => exact Or.inl rfl
  | false =>
      right
      cases first : s.logged with
      | nil =>
          have empty : (s.restart now).logged = [] := first
          rw [firstId, empty]
          exact Nat.le_succ_of_le
            ((counter _).mpr (Or.inr (Or.inl ⟨r, ⟨member, live⟩, le_rfl⟩)))
      | cons entry rest =>
          have before : r.record.version ≤ firstId s := by
            rcases shaped.snapshot r member with expired | old
            · rw [isExpired_later later expired] at live
              cases live
            · exact old
          have same : (s.restart now).logged = s.logged := rfl
          rw [firstId, first] at before
          rw [firstId, same, first]
          exact before

theorem Shaped.step {cs : Clocked} (shaped : Shaped cs) (event : UInt64 × Event)
    (later : cs.1 ≤ event.1) : Shaped (lifeStep cs event) := by
  obtain ⟨clock, s⟩ := cs
  obtain ⟨now, event⟩ := event
  cases event with
  | restart => exact shaped.restart later
  | op op =>
      by_cases running : op = .checkpoint
      · subst running
        exact shaped.checkpoint later
      · cases logs : op.command s now with
        | none =>
            exact shaped.unlogged later (KindServerImpl.exec_unlogged shaped.leader running logs)
        | some c =>
            exact shaped.logged later (KindServerImpl.exec_logged shaped.leader logs)
              (KindServerImpl.command_keys_nodup logs)

/-! ## The recovered tree -/

/-- A bounded tree raises no conflict with a transaction begun now. -/
theorem sound_iff {s : KindServerImpl} (leader : s.isReplica = false) :
    Sound s ↔ KindServerImpl.VersionsBounded s := by
  refine ⟨Sound.bounded, fun bounded => ⟨bounded, fun writeSet => ?_⟩⟩
  have clear : TxHandle.conflicts { s.beginTransaction with writeSet } s = false := by
    by_contra conflict
    rw [Bool.not_eq_false] at conflict
    obtain ⟨key, _, r, held, newer⟩ := (TxHandle.conflicts_iff _ s).mp conflict
    have := bounded key r held
    dsimp only [KindServerImpl.beginTransaction] at newer
    omega
  rw [TxHandle.commit_ok leader clear]

/-- Before the last line of the log nothing is ahead of its id. -/
theorem Shaped.before_last {clock t : UInt64} {s : KindServerImpl} (shaped : Shaped (clock, s))
    (later : clock ≤ t) {earlier : List (Nat × WalCommand)} {last : Nat × WalCommand}
    (split : s.logged = earlier ++ [last]) :
    let st := earlier.foldl (replayCommand s.schemaRegistry t)
      ((s.snapshotFile.getD []).foldl (loadSnapshotLine s.schemaRegistry t) empty)
    st.maxVer ≤ last.1 ∧ VersionsUpTo st.tree last.1 := by
  have positive : ∀ entry ∈ earlier, 0 < entry.1 := fun entry member =>
    shaped.positive entry (split ▸ List.mem_append_left _ member)
  have below : ∀ entry ∈ earlier, entry.1 < last.1 := by
    have increasing := shaped.increasing
    rw [split, List.map_append] at increasing
    exact fun entry member => (List.pairwise_append.mp increasing).2.2 entry.1
      (List.mem_map_of_mem member) last.1 (by simp)
  have loaded : ∀ r, Loads (s.snapshotFile.getD []) t r → r.record.version ≤ firstId s := by
    intro r ⟨member, live⟩
    rcases shaped.snapshot r member with expired | old
    · rw [isExpired_later later expired] at live
      cases live
    · exact old
  intro st
  have reaches : ∀ n, n ≤ st.maxVer ↔ n ≤ 0 ∨
      (∃ r, Loads (s.snapshotFile.getD []) t r ∧ n ≤ r.record.version) ∨
        ∃ entry ∈ earlier, n ≤ entry.1 := by
    intro n
    refine (le_maxVer_replay positive _).trans ?_
    rw [le_maxVer_load, or_assoc]
    rfl
  cases earlier with
  | nil =>
      have first : firstId s = last.1 := by rw [firstId, split]; rfl
      have counter : st.maxVer ≤ last.1 := by
        by_contra ahead
        rcases (reaches st.maxVer).mp le_rfl with zero | ⟨r, loads, old⟩ | ⟨entry, member, _⟩
        · omega
        · have := loaded r loads
          omega
        · cases member
      exact ⟨counter, (versions_load _).mono counter⟩
  | cons head rest =>
      have first : firstId s = head.1 := by rw [firstId, split]; rfl
      have counter : st.maxVer < last.1 := by
        have headBelow := below head List.mem_cons_self
        by_contra ahead
        rcases (reaches last.1).mp (not_lt.mp ahead) with zero | ⟨r, loads, old⟩ | ⟨entry, member, le⟩
        · omega
        · have := loaded r loads
          omega
        · have := below entry member
          omega
      refine ⟨counter.le, (versions_replay positive ?_).mono counter⟩
      exact (versions_load _).mono (Nat.le_succ _)

theorem Shaped.recovered_iff {clock t : UInt64} {s : KindServerImpl} (shaped : Shaped (clock, s))
    (later : clock ≤ t) :
    KindServerImpl.VersionsBounded (s.restart t) ↔ ¬ EndsInCommit s t := by
  have recovered : VersionsUpTo (s.logged.foldl (replayCommand s.schemaRegistry t)
      ((s.snapshotFile.getD []).foldl (loadSnapshotLine s.schemaRegistry t) empty)).tree
        (s.logged.foldl (replayCommand s.schemaRegistry t)
          ((s.snapshotFile.getD []).foldl (loadSnapshotLine s.schemaRegistry t) empty)).maxVer ↔
      KindServerImpl.VersionsBounded (s.restart t) := by
    unfold KindServerImpl.logged
    rw [← recover_eq]
    rfl
  rw [← recovered]
  rcases List.eq_nil_or_concat s.logged with none | ⟨earlier, last, split⟩
  · refine iff_of_true ?_ ?_
    · rw [none]
      exact versions_load _
    · rintro ⟨txId, cmds, ends, _⟩
      rw [none] at ends
      cases ends
  · rw [List.concat_eq_append] at split
    obtain ⟨counter, upTo⟩ := shaped.before_last later split
    have member : last ∈ s.logged := split ▸ List.mem_append_right _ (List.mem_singleton_self _)
    have positive := shaped.positive last member
    have ends : s.logged.getLast? = some last := by rw [split, List.getLast?_concat]
    rw [split, List.foldl_concat]
    generalize earlier.foldl (replayCommand s.schemaRegistry t) _ = st at counter upTo
    have reached : (replayCommand s.schemaRegistry t st last).maxVer = last.1 := by
      rw [maxVer_replayCommand, if_pos positive, max_eq_right counter]
    rw [reached]
    obtain ⟨txId, cmd⟩ := last
    cases cmd with
    | put | delete =>
        refine iff_of_true ?_ ?_
        · exact upTo.replayCommand positive (by simpa using counter)
        · rintro ⟨txId, cmds, same, _⟩
          rw [ends] at same
          cases same
    | txCommit cmds =>
        have same : replayCommand s.schemaRegistry t st (txId, .txCommit cmds) =
            cmds.foldl (replaySubCommand s.schemaRegistry t) { st with maxVer := txId } := by
          have counted : (if 0 < txId then max st.maxVer txId else st.maxVer + 1) = txId :=
            (if_pos positive).trans (max_eq_right counter)
          simp only [replayCommand, counted]
        rw [same]
        constructor
        · rintro bounded ⟨txId', cmds', isLast, key, value, expiresAt, inside, live⟩
          rw [ends] at isLast
          cases isLast
          have ahead := @lookup_replaySubCommands _ s.schemaRegistry t { st with maxVer := txId }
            _ _ _ _ (shaped.distinct _ member) inside live
          have := bounded key _ ahead
          dsimp only at this
          omega
        · intro notLive
          refine @VersionsUpTo.replayExpired _ s.schemaRegistry t { st with maxVer := txId } _ _ upTo
            fun key value expiresAt inside => ?_
          by_contra live
          rw [Bool.not_eq_true] at live
          exact notLive ⟨txId, cmds, ends, key, value, expiresAt, inside, live⟩

/-! ## Runs -/

/-- After every run the recovered versions are sound, exactly if the log does
not end with a transaction that is in part still live. -/
theorem recovered_versions_sound_iff (reg : SchemaRegistry) (hasSnapshot hasWal : Bool)
    (start : UInt64) (events : List (UInt64 × Event))
    (ordered : (start :: events.map Prod.fst).Pairwise (· ≤ ·)) (t : UInt64)
    (later : (run lifeStep (start, .fresh reg hasSnapshot hasWal false) events).1 ≤ t) :
    let s := (run lifeStep (start, .fresh reg hasSnapshot hasWal false) events).2
    Sound (s.restart t) ↔ ¬ EndsInCommit s t := by
  have shaped : Shaped (run lifeStep (start, .fresh reg hasSnapshot hasWal false) events) :=
    run_invariant (fun cs event later shaped => shaped.step event later) events _
      (clocked events _ ordered) (shaped_fresh reg hasSnapshot hasWal start)
  intro s
  rw [sound_iff (s := s.restart t) shaped.leader]
  exact shaped.recovered_iff later

end Runs

/-! ## A log that ends with a transaction -/

def setA : WriteSet :=
  WriteSet.empty.insert "a" (some { value := [1], expiresAt := none, version := 0 })

def committed : List (UInt64 × Event) :=
  [(0, .op (.commit { writeSet := setA, snapshotVersion := 0 }))]

theorem logged_committed [Serde] :
    (run lifeStep (0, .fresh .new true true false) committed).2.logged =
      [(1, .txCommit [.put "a" [1] none])] := by
  have file : (run lifeStep (0, .fresh .new true true false) committed).2.wal =
      some (Wal.append [] 1 (.txCommit [.put "a" [1] none])) := rfl
  rw [KindServerImpl.logged, file, Option.getD_some, Wal.readAllCommands_append]
  rfl

theorem first_commit_conflicts :
    ¬ ∀ [Serde] (reg : SchemaRegistry) (events : List (UInt64 × Event)),
      (0 :: events.map Prod.fst).Pairwise (· ≤ ·) → ∀ t,
      (run lifeStep (0, .fresh reg true true false) events).1 ≤ t →
      Sound ((run lifeStep (0, .fresh reg true true false) events).2.restart t) := by
  intro claim
  let _ : Serde := SerdeJson.instSerde
  have sound := claim .new committed (by decide) 0 (UInt64.le_refl 0)
  have shaped : Shaped (run lifeStep (0, .fresh .new true true false) committed) :=
    (shaped_fresh .new true true 0).step _ (UInt64.le_refl 0)
  refine (shaped.recovered_iff (UInt64.le_refl 0)).mp sound.bounded ?_
  have ends := congrArg List.getLast? logged_committed
  exact ⟨1, [.put "a" [1] none], ends, "a", [1], none, List.mem_singleton_self _, rfl⟩

open SerdeJson in
theorem recovered_versions_sound_committed :
    Sound ((run lifeStep (0, .fresh .new true true false) committed).2.restart 0) ↔
      ¬ EndsInCommit (run lifeStep (0, .fresh .new true true false) committed).2 0 :=
  recovered_versions_sound_iff .new true true 0 committed (by decide) 0 (UInt64.le_refl 0)

end KindDb.RecoveredVersions
