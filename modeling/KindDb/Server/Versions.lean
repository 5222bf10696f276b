import KindDb.Server.Effects

/-! # Versions in the files and after a recovery

`logged` is what the log says, `maxVer_recover` the version counter that a
recovery arrives at.  A record recovered from a transaction gets the version
after the counter, so a recovered tree is bounded only by the counter plus one
(`version_recover_le`). -/
set_option autoImplicit false

namespace KindDb

open KindDb.Lib KindDb.Lib.Overlay KindDb.Cache KindDb.Schema

variable [Serde]

/-- The commands in the log, with their transaction ids. -/
def KindServerImpl.logged (s : KindServerImpl) : List (Nat × WalCommand) :=
  (Wal.readAllCommands (s.wal.getD [])).getD []

/-- Every line of the log is text. -/
def KindServerImpl.Readable (s : KindServerImpl) : Prop :=
  (Wal.readAllCommands (s.wal.getD [])).isSome = true

omit [Serde] in
/-- No record is newer than a bound. -/
def Recovery.VersionsUpTo (tree : Tree) (bound : Nat) : Prop :=
  ∀ (key : String) r, tree[key]? = some r → r.version ≤ bound

section Logging
variable {s s' : KindServerImpl} {c : WalCommand}

theorem Logged.readable (logged : Logged s s' c) (readable : s.Readable) : s'.Readable := by
  unfold KindServerImpl.Readable at *
  rw [logged.wal]
  cases held : s.wal with
  | none => rfl
  | some file =>
      rw [held] at readable
      simpa [Wal.readAllCommands_append] using readable

theorem Logged.logged (logged : Logged s s' c) (readable : s.Readable) :
    s'.logged = if s.wal.isSome then s.logged ++ [(s.globalVersion + 1, c)] else [] := by
  unfold KindServerImpl.Readable at readable
  unfold KindServerImpl.logged
  rw [logged.wal]
  cases held : s.wal with
  | none => simp
  | some file =>
      rw [held] at readable
      obtain ⟨commands, found⟩ := Option.isSome_iff_exists.mp readable
      simp only [Option.getD_some] at found
      simp [Wal.readAllCommands_append, found]

theorem Logged.versionsUpTo (logged : Logged s s' c)
    (upTo : Recovery.VersionsUpTo s.tree (s.globalVersion + 1)) :
    Recovery.VersionsUpTo s'.tree s'.globalVersion := by
  intro key r held
  by_cases written : key ∈ c.keys
  · exact (logged.version_written written held).le
  · rw [logged.globalVersion]
    exact upTo key r (logged.unwritten written ▸ held)

omit [Serde] in
theorem Unlogged.versionsUpTo {now : UInt64} {bound : Nat} (quiet : Unlogged s s' now)
    (upTo : Recovery.VersionsUpTo s.tree bound) : Recovery.VersionsUpTo s'.tree bound := by
  intro key r held
  rcases quiet.tree key with same | ⟨gone, _⟩
  · exact upTo key r (same ▸ held)
  · rw [gone] at held
    cases held

/-- What is in the log was there or is the command. -/
theorem Logged.mem_logged (logged : Logged s s' c) {entry : Nat × WalCommand}
    (member : entry ∈ s'.logged) : entry ∈ s.logged ∨ entry = (s.globalVersion + 1, c) := by
  unfold KindServerImpl.logged at *
  rw [logged.wal] at member
  cases held : s.wal with
  | none => simp [held] at member
  | some file =>
      rw [held] at member
      simp only [Option.map_some, Option.getD_some, Wal.readAllCommands_append] at member ⊢
      cases found : Wal.readAllCommands file with
      | none => simp [found] at member
      | some commands => simpa [found] using member

theorem Unlogged.logged {now : UInt64} (quiet : Unlogged s s' now) : s'.logged = s.logged := by
  rw [KindServerImpl.logged, quiet.wal]
  rfl

theorem Unlogged.readable {now : UInt64} (quiet : Unlogged s s' now) (readable : s.Readable) :
    s'.Readable := by
  rw [KindServerImpl.Readable, quiet.wal]
  exact readable

end Logging

/-! ## The version counter of a recovery -/

namespace Recovery

variable {reg : SchemaRegistry} {now : UInt64}

theorem recover_eq (snapshot : List SnapshotLine) (wal : WalFile) :
    recover reg now snapshot wal =
      ((Wal.readAllCommands wal).getD []).foldl (replayCommand reg now)
        (snapshot.foldl (loadSnapshotLine reg now) empty) := by
  unfold recover
  cases Wal.readAllCommands wal <;> rfl

theorem maxVer_insertRecord (st : Recovery) (key : String) (record : DbRecord) :
    (st.insertRecord reg key record).maxVer = st.maxVer := rfl

theorem maxVer_removeKey (st : Recovery) (key : String) :
    (st.removeKey reg key).maxVer = st.maxVer := by
  unfold removeKey
  cases st.tree[key]? <;> rfl

theorem maxVer_replaySubCommands (cmds : List WalCommand) (st : Recovery) :
    (cmds.foldl (replaySubCommand reg now) st).maxVer = st.maxVer := by
  induction cmds generalizing st with
  | nil => rfl
  | cons cmd rest ih =>
      rw [List.foldl_cons, ih]
      cases cmd with
      | put key value expiresAt =>
          simp only [replaySubCommand]
          split <;> rfl
      | delete key => exact maxVer_removeKey st key
      | txCommit cmds => rfl

theorem maxVer_replayCommand (st : Recovery) (logged : Nat × WalCommand) :
    (replayCommand reg now st logged).maxVer =
      if 0 < logged.1 then max st.maxVer logged.1 else st.maxVer + 1 := by
  obtain ⟨txId, cmd⟩ := logged
  cases cmd with
  | put key value expiresAt =>
      simp only [replayCommand]
      split <;> rfl
  | delete key => exact maxVer_removeKey _ key
  | txCommit cmds => exact maxVer_replaySubCommands cmds _

/-- A record of the snapshot that the recovery takes. -/
def Loads (snapshot : List SnapshotLine) (now : UInt64) (r : SnapshotRecord) : Prop :=
  .record r ∈ snapshot ∧ isExpired r.record.expiresAt now = false

theorem le_maxVer_load (n : Nat) (snapshot : List SnapshotLine) (st : Recovery) :
    n ≤ (snapshot.foldl (loadSnapshotLine reg now) st).maxVer ↔
      n ≤ st.maxVer ∨ ∃ r, Loads snapshot now r ∧ n ≤ r.record.version := by
  induction snapshot generalizing st with
  | nil => simp [Loads]
  | cons line rest ih =>
      rw [List.foldl_cons, ih]
      cases line with
      | skipped => simp [loadSnapshotLine, Loads]
      | record first =>
          cases expired : isExpired first.record.expiresAt now with
          | true =>
              have same : ∀ r, Loads (.record first :: rest) now r ↔ Loads rest now r := by
                intro r
                constructor
                · rintro ⟨member, live⟩
                  rcases List.mem_cons.mp member with here | later
                  · cases here
                    rw [expired] at live
                    cases live
                  · exact ⟨later, live⟩
                · rintro ⟨member, live⟩
                  exact ⟨List.mem_cons_of_mem _ member, live⟩
              simp [loadSnapshotLine, expired, same]
          | false =>
              have either : ∀ r, Loads (.record first :: rest) now r ↔
                  r = first ∨ Loads rest now r := by
                intro r
                simp only [Loads, List.mem_cons, SnapshotLine.record.injEq]
                constructor
                · rintro ⟨here | later, live⟩
                  · exact Or.inl here
                  · exact Or.inr ⟨later, live⟩
                · rintro (rfl | ⟨later, live⟩)
                  · exact ⟨Or.inl rfl, expired⟩
                  · exact ⟨Or.inr later, live⟩
              simp [loadSnapshotLine, expired, either, maxVer_insertRecord, or_assoc]

theorem le_maxVer_replay {n : Nat} {commands : List (Nat × WalCommand)}
    (positive : ∀ logged ∈ commands, 0 < logged.1) (st : Recovery) :
    n ≤ (commands.foldl (replayCommand reg now) st).maxVer ↔
      n ≤ st.maxVer ∨ ∃ logged ∈ commands, n ≤ logged.1 := by
  induction commands generalizing st with
  | nil => simp
  | cons first rest ih =>
      rw [List.foldl_cons, ih fun logged member => positive logged (List.mem_cons_of_mem _ member),
        maxVer_replayCommand, if_pos (positive first List.mem_cons_self)]
      simp [or_assoc]

/-- The counter of a recovery passes every id of the log, those it does not
count included. -/
theorem id_le_maxVer_replay {commands : List (Nat × WalCommand)} (st : Recovery) :
    st.maxVer ≤ (commands.foldl (replayCommand reg now) st).maxVer ∧
      ∀ logged ∈ commands, logged.1 ≤ (commands.foldl (replayCommand reg now) st).maxVer := by
  induction commands generalizing st with
  | nil => exact ⟨le_rfl, nofun⟩
  | cons first rest ih =>
      obtain ⟨grows, passed⟩ := ih (replayCommand reg now st first)
      have counter := @maxVer_replayCommand _ reg now st first
      have here : st.maxVer ≤ (replayCommand reg now st first).maxVer ∧
          first.1 ≤ (replayCommand reg now st first).maxVer := by
        rw [counter]
        split <;> omega
      rw [List.foldl_cons]
      refine ⟨here.1.trans grows, fun logged member => ?_⟩
      rcases List.mem_cons.mp member with rfl | later
      · exact here.2.trans grows
      · exact passed logged later

/-- The counter of a recovery is the highest version it has seen. -/
theorem le_maxVer_recover {n : Nat} (snapshot : List SnapshotLine) {wal : WalFile}
    (positive : ∀ logged ∈ (Wal.readAllCommands wal).getD [], 0 < logged.1) :
    n ≤ (recover reg now snapshot wal).maxVer ↔
      n = 0 ∨ (∃ r, Loads snapshot now r ∧ n ≤ r.record.version) ∨
        ∃ logged ∈ (Wal.readAllCommands wal).getD [], n ≤ logged.1 := by
  rw [recover_eq, le_maxVer_replay positive, le_maxVer_load, or_assoc]
  simp [empty]

/-! ## The versions of the recovered records -/

variable {st : Recovery} {bound : Nat}

omit [Serde] in
theorem VersionsUpTo.mono {tree : Tree} {bound' : Nat} (upTo : VersionsUpTo tree bound)
    (le : bound ≤ bound') : VersionsUpTo tree bound' :=
  fun key r held => (upTo key r held).trans le

theorem VersionsUpTo.insertRecord (upTo : VersionsUpTo st.tree bound) (key : String)
    {record : DbRecord} (le : record.version ≤ bound) :
    VersionsUpTo (st.insertRecord reg key record).tree bound := by
  intro k r held
  have held : (st.tree.insert key record)[k]? = some r := held
  rw [SortedMap.lookup_insert] at held
  split at held
  · cases Option.some.inj held
    exact le
  · exact upTo k r held

theorem VersionsUpTo.removeKey (upTo : VersionsUpTo st.tree bound) (key : String) :
    VersionsUpTo (st.removeKey reg key).tree bound := by
  intro k r held
  rw [tree_removeKey, SortedMap.lookup_erase] at held
  split at held
  · cases held
  · exact upTo k r held

/-- After the snapshot no record is newer than the counter. -/
theorem versions_load (snapshot : List SnapshotLine) :
    VersionsUpTo (snapshot.foldl (loadSnapshotLine reg now) empty).tree
      (snapshot.foldl (loadSnapshotLine reg now) empty).maxVer := by
  induction snapshot using List.reverseRecOn with
  | nil =>
      intro key r held
      simp [empty] at held
  | append_singleton snapshot line ih =>
      rw [List.foldl_concat]
      cases line with
      | skipped => exact ih
      | record first =>
          simp only [loadSnapshotLine]
          split
          · exact ih
          · exact @VersionsUpTo.insertRecord _ reg
              { snapshot.foldl (loadSnapshotLine reg now) empty with maxVer := _ } _
              (ih.mono (le_max_left _ _)) first.key _ (le_max_right _ _)

theorem VersionsUpTo.replaySubCommands {cmds : List WalCommand}
    (upTo : VersionsUpTo st.tree bound) (le : st.maxVer + 1 ≤ bound) :
    VersionsUpTo (cmds.foldl (replaySubCommand reg now) st).tree bound := by
  induction cmds using List.reverseRecOn with
  | nil => exact upTo
  | append_singleton cmds cmd ih =>
      rw [List.foldl_concat]
      cases cmd with
      | put key value expiresAt =>
          simp only [replaySubCommand]
          split
          · exact ih
          · refine ih.insertRecord key ?_
            rw [maxVer_replaySubCommands]
            exact le
      | delete key => exact ih.removeKey key
      | txCommit _ => exact ih

/-- A plain command writes the counter, a transaction the counter plus one. -/
theorem VersionsUpTo.replayCommand {logged : Nat × WalCommand} (positive : 0 < logged.1)
    (upTo : VersionsUpTo st.tree bound)
    (le : max st.maxVer logged.1 + (match logged.2 with | .txCommit _ => 1 | _ => 0) ≤ bound) :
    VersionsUpTo (Recovery.replayCommand reg now st logged).tree bound := by
  obtain ⟨txId, cmd⟩ := logged
  have counter : (if 0 < txId then max st.maxVer txId else st.maxVer + 1) = max st.maxVer txId :=
    if_pos positive
  simp only [Recovery.replayCommand, counter]
  cases cmd with
  | put key value expiresAt =>
      dsimp only
      split
      · exact upTo
      · exact @VersionsUpTo.insertRecord _ reg { st with maxVer := max st.maxVer txId } _
          upTo key _ le
  | delete key =>
      exact @VersionsUpTo.removeKey _ reg { st with maxVer := max st.maxVer txId } _ upTo key
  | txCommit cmds =>
      exact @VersionsUpTo.replaySubCommands _ reg now { st with maxVer := max st.maxVer txId } _ _
        upTo le

theorem versions_replay {commands : List (Nat × WalCommand)}
    (positive : ∀ logged ∈ commands, 0 < logged.1) (upTo : VersionsUpTo st.tree (st.maxVer + 1)) :
    VersionsUpTo (commands.foldl (replayCommand reg now) st).tree
      ((commands.foldl (replayCommand reg now) st).maxVer + 1) := by
  induction commands generalizing st with
  | nil => exact upTo
  | cons first rest ih =>
      have here := positive first List.mem_cons_self
      have counter := @maxVer_replayCommand _ reg now st first
      rw [if_pos here] at counter
      refine ih (fun logged member => positive logged (List.mem_cons_of_mem _ member)) ?_
      rw [counter]
      refine (upTo.mono (Nat.succ_le_succ (le_max_left _ _))).replayCommand here ?_
      split
      · exact le_rfl
      · exact Nat.le_succ _

/-- A recovered record is at most one version ahead of the counter. -/
theorem versions_recover (snapshot : List SnapshotLine) {wal : WalFile}
    (positive : ∀ logged ∈ (Wal.readAllCommands wal).getD [], 0 < logged.1) :
    VersionsUpTo (recover reg now snapshot wal).tree ((recover reg now snapshot wal).maxVer + 1) := by
  rw [recover_eq]
  exact versions_replay positive ((versions_load snapshot).mono (Nat.le_succ _))

/-! ## The sub-commands of a transaction -/

theorem lookup_replaySubCommand_other {cmd : WalCommand} {key : String}
    (other : key ∉ touched cmd.subUpdates) :
    (replaySubCommand reg now st cmd).tree[key]? = st.tree[key]? := by
  cases cmd with
  | put k value expiresAt =>
      have differs : ¬ k = key := fun same => other (by simp [WalCommand.subUpdates, touched, same])
      simp only [replaySubCommand]
      split
      · rfl
      · exact (SortedMap.lookup_insert st.tree k key _).trans (if_neg differs)
  | delete k =>
      have differs : ¬ k = key := fun same => other (by simp [WalCommand.subUpdates, touched, same])
      rw [replaySubCommand, tree_removeKey, SortedMap.lookup_erase, if_neg differs]
  | txCommit _ => rfl

theorem lookup_replaySubCommands_other {cmds : List WalCommand} {key : String}
    (other : key ∉ touched (cmds.flatMap WalCommand.subUpdates)) :
    (cmds.foldl (replaySubCommand reg now) st).tree[key]? = st.tree[key]? := by
  induction cmds generalizing st with
  | nil => rfl
  | cons cmd rest ih =>
      simp only [touched, List.flatMap_cons, List.map_append, List.mem_append, not_or] at other
      rw [List.foldl_cons, ih other.2, lookup_replaySubCommand_other other.1]

/-- An unexpired put of a transaction ends up one version ahead of the counter. -/
theorem lookup_replaySubCommands {cmds : List WalCommand} {key : String} {value : Bytes}
    {expiresAt : Option UInt64}
    (distinct : (touched (cmds.flatMap WalCommand.subUpdates)).Nodup)
    (member : .put key value expiresAt ∈ cmds) (live : isExpired expiresAt now = false) :
    (cmds.foldl (replaySubCommand reg now) st).tree[key]? =
      some { value, expiresAt, version := st.maxVer + 1 } := by
  induction cmds generalizing st with
  | nil => cases member
  | cons cmd rest ih =>
      simp only [touched, List.flatMap_cons, List.map_append] at distinct
      obtain ⟨_, later, apart⟩ := List.nodup_append.mp distinct
      rw [List.foldl_cons]
      rcases List.mem_cons.mp member with here | there
      · subst here
        have absent : key ∉ touched (rest.flatMap WalCommand.subUpdates) := fun named =>
          apart key (by simp [WalCommand.subUpdates]) key named rfl
        rw [lookup_replaySubCommands_other absent]
        simp only [replaySubCommand, live]
        exact (SortedMap.lookup_insert st.tree key key _).trans (if_pos rfl)
      · have counter : (replaySubCommand reg now st cmd).maxVer = st.maxVer :=
          maxVer_replaySubCommands [cmd] st
        rw [ih later there, counter]

/-- A transaction whose puts have all expired adds no record. -/
theorem VersionsUpTo.replayExpired {cmds : List WalCommand} (upTo : VersionsUpTo st.tree bound)
    (expired : ∀ key value expiresAt, .put key value expiresAt ∈ cmds →
      isExpired expiresAt now = true) :
    VersionsUpTo (cmds.foldl (replaySubCommand reg now) st).tree bound := by
  induction cmds generalizing st with
  | nil => exact upTo
  | cons cmd rest ih =>
      refine ih ?_ fun key value expiresAt member =>
        expired key value expiresAt (List.mem_cons_of_mem _ member)
      cases cmd with
      | put key value expiresAt =>
          rw [replaySubCommand, if_pos (expired key value expiresAt List.mem_cons_self)]
          exact upTo
      | delete key => exact upTo.removeKey key
      | txCommit _ => exact upTo

end Recovery

end KindDb
