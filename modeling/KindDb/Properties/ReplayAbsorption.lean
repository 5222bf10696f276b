import KindDb.SerdeJson
import KindDb.Server.CheckpointAlone

/-! # A log replayed over a snapshot that contains part of it

Replaying a log over a tree that some beginning of it went into leads where
replaying it over the tree without that beginning leads.  So the log may
outlive the snapshot: a stop between the rename and the truncation loses
nothing of what the snapshot file has received.  What the writer still buffers
it has not received, and of that only the keys come back that the log
mentions. -/
set_option autoImplicit false

namespace KindDb.ReplayAbsorption

open KindDb.Lib KindDb.Lib.Overlay KindDb.Lib.Runs KindDb.Schema KindDb.Checkpoint KindDb.Recovery

section Absorption
variable [Serde]

/-- The loop of `new` over the commands of a log. -/
def replayed (reg : SchemaRegistry) (now : UInt64) (commands : List (Nat × WalCommand))
    (base : Recovery) : Recovery := commands.foldl (replayCommand reg now) base

omit [Serde] in
def updates (commands : List (Nat × WalCommand)) : List (Update String Content) :=
  commands.flatMap fun logged => logged.2.updates

omit [Serde] in
def DeadlineFree (commands : List (Nat × WalCommand)) : Prop :=
  ∀ u ∈ updates commands, ∀ held, u.2 = some held → held.2 = none

omit [Serde] in
/-- What a recovery reads in the file of a writer. -/
def filed (w : BufWriter Piece) : List (Update String Content) :=
  (Checkpoint.records w.file).map fun r => (r.key, some r.record.content)

omit [Serde] in
/-- What is still buffered has expired or is of a key that the log mentions. -/
def Buffered (st : KindServerImpl × Checkpoint) (commands : List (Nat × WalCommand))
    (t : UInt64) : Prop :=
  ∀ r ∈ Checkpoint.records st.2.writer.buf,
    isExpired r.record.expiresAt t = true ∨ r.key ∈ touched (updates commands)

theorem contents_replayed (reg : SchemaRegistry) (now : UInt64)
    {commands : List (Nat × WalCommand)} (free : DeadlineFree commands) (base : Recovery) :
    (replayed reg now commands base).contents = overlay base.contents (updates commands) := by
  have view := view_foldl reg now _ (fun logged : Nat × WalCommand => logged.2.updates)
    (view_replayCommand reg now) commands base
  have contents := congrArg Prod.fst view
  rw [IndexReplay.replay_store] at contents
  exact contents.trans (congrArg _ (effectiveAt_of_deadlineFree free now))

omit [Serde] in
theorem updates_append (first second : List (Nat × WalCommand)) :
    updates (first ++ second) = updates first ++ updates second := List.flatMap_append

omit [Serde] in
theorem DeadlineFree.left {first second : List (Nat × WalCommand)}
    (free : DeadlineFree (first ++ second)) : DeadlineFree first := by
  intro u member
  apply free u
  rw [updates_append]
  exact List.mem_append_left _ member

/-- The clocks of the two replays need not agree. -/
theorem replay_absorbs (reg reg₀ : SchemaRegistry) (now now₀ : UInt64)
    {p q : List (Nat × WalCommand)} (free : DeadlineFree (p ++ q)) (base : Recovery) :
    (replayed reg now (p ++ q) (replayed reg₀ now₀ p base)).contents =
      (replayed reg now (p ++ q) base).contents := by
  rw [contents_replayed reg now free, contents_replayed reg now free,
    contents_replayed reg₀ now₀ free.left, updates_append]
  exact overlay_absorbs ..

/-! ## What a stop leaves behind -/

variable {s : KindServerImpl} {t : UInt64} {w : BufWriter Piece} {done : List SnapshotRecord}

theorem mem_done_iff (written : Written t s.tree.toList w done) {r : SnapshotRecord} :
    r ∈ done ↔ r ∈ Checkpoint.records w.file ∨ r ∈ Checkpoint.records w.buf := by
  rw [← written.perm.mem_iff, BufWriter.contents, Checkpoint.records_append, List.mem_append]

/-- The file of a writer that has taken the whole tree shows a key as the tree
does, unless a live record of the key is still buffered. -/
theorem file_shows_iff (written : Written t s.tree.toList w done) (key : String) :
    overlay (fun _ => none) (effectiveAt t (filed w)) key = liveAt t (s.contents key) ↔
      ∀ r ∈ Checkpoint.records w.buf, r.key = key → isExpired r.record.expiresAt t = true := by
  have keys : ((Checkpoint.records w.file ++ Checkpoint.records w.buf).map (·.key)).Nodup := by
    rw [← Checkpoint.records_append]
    exact (written.perm.map _).nodup_iff.mpr written.distinct
  rw [List.map_append] at keys
  obtain ⟨inFile, _, apart⟩ := List.nodup_append.mp keys
  have distinct : (touched (filed w)).Nodup := by
    rw [touched, filed, List.map_map]
    exact inFile
  have held : ∀ r, r ∈ Checkpoint.records w.file ∨ r ∈ Checkpoint.records w.buf →
      s.tree[r.key]? = some r.record :=
    fun r either => written.in_tree ((mem_done_iff written).mpr either)
  by_cases there : ∃ r ∈ Checkpoint.records w.file, r.key = key
  · obtain ⟨r, member, rfl⟩ := there
    refine iff_of_true ?_ fun other buffered same => ?_
    · rw [overlay_effectiveAt t distinct (List.mem_map_of_mem member), KindServerImpl.contents,
        held r (Or.inl member), Option.map_some, liveAt_some, Option.any_some]
    · exact absurd same.symm (apart _ (List.mem_map_of_mem member) _ (List.mem_map_of_mem buffered))
  · have absent : key ∉ touched (filed w) := by
      rw [touched, filed, List.map_map]
      intro named
      obtain ⟨r, member, same⟩ := List.mem_map.mp named
      exact there ⟨r, member, same⟩
    rw [overlay_effectiveAt_untouched t absent, eq_comm, liveAt_eq_none, KindServerImpl.contents]
    constructor
    · intro expired r buffered same
      subst same
      rw [held r (Or.inr buffered)] at expired
      exact expired _ rfl
    · intro expired content found
      obtain ⟨record, inTree, rfl⟩ := Option.map_eq_some_iff.mp found
      by_contra live
      rw [Bool.not_eq_true] at live
      have taken := written.live (key, record) (mem_entries.mpr inTree) live
      rcases (mem_done_iff written).mp taken with inFile | buffered
      · exact there ⟨_, inFile, rfl⟩
      · have := expired _ buffered rfl
        simp only [ofEntry] at this
        rw [DbRecord.content] at live
        rw [live] at this
        cases this

/-- What a stop between the rename and the truncation leaves recovers. -/
theorem contents_stopped {commands : List (Nat × WalCommand)} (free : DeadlineFree commands)
    (logged : Wal.readAllCommands (s.wal.getD []) = some commands) (w : BufWriter Piece)
    (t : UInt64) :
    ({ s with snapshotFile := some (lines w.file) }.restart t).contents =
      overlay (overlay (fun _ => none) (effectiveAt t (filed w))) (updates commands) := by
  have wal : walUpdates (s.wal.getD []) = updates commands := by
    rw [walUpdates, logged]
    rfl
  rw [KindServerImpl.contents_restart, KindServerImpl.onDisk, fileUpdates, Option.getD_some,
    updates_lines, wal, effectiveAt_append, overlay_append, effectiveAt_of_deadlineFree free]
  rfl

/-- A key that the log does not mention is still as it was in the base. -/
theorem contents_unmentioned {base : Recovery} {p q : List (Nat × WalCommand)}
    (free : DeadlineFree p) {reg : SchemaRegistry} {now : UInt64}
    (tree : s.contents = (replayed reg now p base).contents) {key : String}
    (absent : key ∉ touched (updates (p ++ q))) :
    overlay base.contents (updates (p ++ q)) key = s.contents key := by
  have before : key ∉ touched (updates p) := by
    rw [updates_append, touched_append] at absent
    exact fun member => absent (List.mem_append_left _ member)
  rw [tree, contents_replayed reg now free, overlay_untouched absent, overlay_untouched before]

/-- A log is absorbed by every tree that a beginning of it went into.  Of a
server with such a tree and that log, stopped between the rename and the
truncation of a checkpoint, the files recover what the whole log makes of the
base exactly if what is still buffered has expired or is mentioned in the log. -/
theorem absorbed_and_recovered_iff (base : Recovery) (p q : List (Nat × WalCommand))
    (free : DeadlineFree (p ++ q)) :
    (∀ (reg reg₀ : SchemaRegistry) (now now₀ : UInt64),
      (replayed reg now (p ++ q) (replayed reg₀ now₀ p base)).contents =
        (replayed reg now (p ++ q) base).contents) ∧
    ∀ (s : KindServerImpl) (reg : SchemaRegistry) (t t₀ : UInt64) (readings : List UInt64)
      (st : KindServerImpl × Checkpoint), s.contents = (replayed reg t₀ p base).contents →
      Wal.readAllCommands (s.wal.getD []) = some (p ++ q) → (∀ now ∈ readings, now ≤ t) →
      runFrom Checkpoint.step (s, .start) readings = some st → st.2.stage = .renamed →
      (Recovers st.1 t (fun key => liveAt t ((replayed reg t (p ++ q) base).contents key)) ↔
        Buffered st (p ++ q) t) := by
  refine ⟨fun reg reg₀ now now₀ => replay_absorbs reg reg₀ now now₀ free base, ?_⟩
  intro s reg t t₀ readings st tree logged saved ran renamed
  have progress := progress_run saved ran
  rw [Progress, renamed] at progress
  obtain ⟨same, done, written⟩ := progress
  have each : ∀ key, (st.1.restart t).contents key =
        liveAt t ((replayed reg t (p ++ q) base).contents key) ↔
      (key ∉ touched (updates (p ++ q)) → ∀ r ∈ Checkpoint.records st.2.writer.buf, r.key = key →
        isExpired r.record.expiresAt t = true) := by
    intro key
    rw [same, contents_stopped free logged, contents_replayed reg t free]
    by_cases mentioned : key ∈ touched (updates (p ++ q))
    · refine iff_of_true ?_ fun absent => absurd mentioned absent
      rw [overlay_touched mentioned _ base.contents, liveAt_of_free]
      intro content held
      exact free _ (mem_of_overlay mentioned held) content rfl
    · rw [overlay_untouched mentioned, contents_unmentioned free.left tree mentioned,
        file_shows_iff written key]
      simp [mentioned]
  unfold Recovers Buffered
  simp only [each]
  constructor
  · intro expired r buffered
    by_cases mentioned : r.key ∈ touched (updates (p ++ q))
    · exact Or.inr mentioned
    · exact Or.inl (expired r.key mentioned r buffered rfl)
  · intro covered key absent r buffered same
    subst same
    exact (covered r buffered).resolve_right absent

end Absorption

/-! ## A stop before the truncation -/

open SerdeJson

/-- A record that only the old snapshot holds. -/
def older : SnapshotRecord :=
  { key := "a", record := { value := [1], expiresAt := none, version := 1 } }

def newer : List (Nat × WalCommand) := [(2, .put "b" [2] none)]

def base : Recovery := loadSnapshotLine .new 0 .empty (.record older)

/-- The server that has recovered from the old snapshot. -/
def recovered : KindServerImpl := .new (some [.record older]) .new (some []) false 0

def server : KindServerImpl := (recovered.put { key := "b", value := [2], ttlMs := none } 0).2

/-- Begin, write "a", write "b", rename. -/
def cutShort : List UInt64 := [0, 0, 0, 0]

theorem cutShort_at_zero : ∀ now ∈ cutShort, now ≤ 0 := by
  simp [cutShort]

theorem logged_put : Logged recovered server (.put "b" [2] none) :=
  @KindServerImpl.put_logged _ recovered 0 rfl { key := "b", value := [2], ttlMs := none }

theorem deadlineFree_newer : DeadlineFree (newer ++ []) := by
  intro u member held content
  cases List.mem_singleton.mp (show u ∈ [("b", some (([2], none) : Content))] from member)
  cases Option.some.inj content
  rfl

theorem read_server : Wal.readAllCommands (server.wal.getD []) = some (newer ++ []) := by
  rw [logged_put.wal, show recovered.wal = some [] from rfl, Option.map_some, Option.getD_some,
    Wal.readAllCommands_append]
  rfl

theorem contents_server : server.contents = (replayed .new 0 newer base).contents := by
  funext key
  rw [logged_put.contents, contents_replayed _ _ (List.append_nil newer ▸ deadlineFree_newer)]
  rfl

/-- At the stop nothing has reached the file. -/
theorem stopped : (runFrom Checkpoint.step (server, .start) cutShort).map
    (fun st => (st.2.stage, st.2.writer.file.length)) = some (.renamed, 0) := by
  decide +kernel

theorem stop_before_truncation_loses :
    ¬ ∀ (base : Recovery) (p q : List (Nat × WalCommand)), DeadlineFree (p ++ q) →
      (∀ (reg : SchemaRegistry) (now : UInt64),
        (replayed reg now (p ++ q) (replayed reg now p base)).contents =
          (replayed reg now (p ++ q) base).contents) ∧
      ∀ (s : KindServerImpl) (reg : SchemaRegistry) (t t₀ : UInt64) (readings : List UInt64)
        (st : KindServerImpl × Checkpoint), s.contents = (replayed reg t₀ p base).contents →
        Wal.readAllCommands (s.wal.getD []) = some (p ++ q) → (∀ now ∈ readings, now ≤ t) →
        runFrom Checkpoint.step (s, .start) readings = some st → st.2.stage = .renamed →
        Recovers st.1 t (fun key => liveAt t ((replayed reg t (p ++ q) base).contents key)) := by
  intro claim
  obtain ⟨st, reached, point⟩ := Option.map_eq_some_iff.mp stopped
  obtain ⟨renamed, empty⟩ := Prod.mk.inj point
  have kept : (st.1.restart 0).contents "a" =
      liveAt 0 ((replayed .new 0 (newer ++ []) base).contents "a") :=
    (claim base newer [] deadlineFree_newer).2 server .new 0 0 cutShort st contents_server
      read_server cutShort_at_zero reached renamed "a"
  have held : liveAt 0 ((replayed .new 0 (newer ++ []) base).contents "a") = some ([1], none) := by
    decide
  have progress : Progress server 0 st := progress_run cutShort_at_zero reached
  rw [Progress, renamed] at progress
  have files : fileUpdates (st.1.snapshotFile.getD []) (st.1.wal.getD []) =
      [("b", some (([2], none) : Content))] := by
    rw [progress.1, List.length_eq_zero_iff.mp empty, fileUpdates, walUpdates, read_server]
    rfl
  rw [KindServerImpl.contents_restart, KindServerImpl.onDisk, files, held] at kept
  exact absurd kept (by decide)

theorem absorbed_and_recovered_iff_server : ∃ st,
    runFrom Checkpoint.step (server, .start) cutShort = some st ∧
      (Recovers st.1 0 (fun key => liveAt 0 ((replayed .new 0 (newer ++ []) base).contents key)) ↔
        Buffered st (newer ++ []) 0) := by
  obtain ⟨st, reached, point⟩ := Option.map_eq_some_iff.mp stopped
  obtain ⟨renamed, _⟩ := Prod.mk.inj point
  exact ⟨st, reached, (absorbed_and_recovered_iff base newer [] deadlineFree_newer).2 server .new
    0 0 cutShort st contents_server read_server cutShort_at_zero reached renamed⟩

end KindDb.ReplayAbsorption
