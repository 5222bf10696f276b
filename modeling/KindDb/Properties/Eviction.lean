import KindDb.Server.Effects
import KindDb.Server.Scans
import KindDb.SerdeJson

/-! # Whether clients can tell that expired records are gone

Two runs of the same requests, one of them after a sweep at time `t`.  Their
states differ by leftovers only: records that had expired by `t` and still lie
in the tree of the unswept server.  Lookups, scans and `cas` take a leftover
for an absent record; `delete` does not, nor does the conflict check of a
commit. -/
set_option autoImplicit false

namespace KindDb.Eviction

open KindDb.Lib KindDb.Lib.Overlay KindDb.Lib.Runs KindDb.Schema KindDb.KindServerImpl

inductive ClientRequest
  | get (key : String)
  | put (req : PutRequest)
  | delete (key : String)
  | cas (req : CasRequest)
  | rangeScan (req : RangeScanRequest)
  | prefixScan (req : PrefixScanRequest)
  | commit (tx : TxHandle)

/-- What a client learns: records, success, or the kind of the error. -/
inductive Response
  | found (record : Record)
  | records (list : List Record)
  | success (done : Bool)
  | committed
  | conflict
  | notFound
  | refused
deriving Repr, DecidableEq

def ofLookup : Except Status Record → Response
  | .ok record => .found record
  | .error (.notFound _) => .notFound
  | .error (.permissionDenied _) => .refused

def ofWrite : Except Status Bool → Response
  | .ok done => .success done
  | .error (.notFound _) => .notFound
  | .error (.permissionDenied _) => .refused

def ofCommit : Except DbError Unit → Response
  | .ok () => .committed
  | .error .conflict => .conflict
  | .error .notFound => .notFound
  | .error (.commitFailed _) => .refused

section Requests
variable [Serde] [ParseF64]

/-- One request at one clock reading. -/
def serve (s : KindServerImpl) (request : UInt64 × ClientRequest) : Response × KindServerImpl :=
  let now := request.1
  match request.2 with
  | .get key => ((s.get key now).map ofLookup id)
  | .put req => ((s.put req now).map ofWrite id)
  | .delete key => ((s.delete key).map ofWrite id)
  | .cas req => ((s.cas req now).map ofWrite id)
  | .rangeScan req => (.records (s.rangeScan req fun _ => now), s)
  | .prefixScan req => (.records (s.prefixScan req fun _ => now), s)
  | .commit tx => ((tx.commit s).map ofCommit id)

/-! ## Leftovers -/

section Trees
omit [Serde] [ParseF64]

/-- The unswept server still holds a record that the swept one does not. -/
def Leftover (pair : KindServerImpl × KindServerImpl) (key : String) : Prop :=
  (pair.1.tree[key]?).isSome = true ∧ pair.2.tree[key]? = none

/-- The records that make a commit conflict. -/
def Newer (tx : TxHandle) (s : KindServerImpl) (key : String) : Prop :=
  key ∈ tx.writeSet.keys ∧ ∃ r, s.tree[key]? = some r ∧ tx.snapshotVersion < r.version

/-- The server `u` is the server `w` with leftovers. -/
structure Alike (t : UInt64) (u w : KindServerImpl) : Prop where
  leaders : u.isReplica = false ∧ w.isReplica = false
  globalVersion : u.globalVersion = w.globalVersion
  cache : u.cache = w.cache
  tree : ∀ k : String, u.tree[k]? = w.tree[k]? ∨
    (w.tree[k]? = none ∧ ∃ r, u.tree[k]? = some r ∧ isExpired r.expiresAt t = true)

variable {t : UInt64} {u w : KindServerImpl}

/-- From `t` on, the two trees have the same live records. -/
theorem Alike.live (alike : Alike t u w) {now : UInt64} (later : t ≤ now) (key : String) :
    (u.tree[key]?).filter (fun r => !isExpired r.expiresAt now) =
      (w.tree[key]?).filter fun r => !isExpired r.expiresAt now := by
  rcases alike.tree key with same | ⟨gone, r, held, expired⟩
  · rw [same]
  · simp [gone, held, Option.filter, isExpired_later later expired]

theorem Alike.newer_iff (alike : Alike t u w) (tx : TxHandle) (key : String) :
    Newer tx w key ↔ Newer tx u key ∧ ¬ Leftover (u, w) key := by
  unfold Newer Leftover
  rcases alike.tree key with same | ⟨gone, r, held, _⟩
  · rw [same]
    refine ⟨fun newer => ⟨newer, fun leftover => ?_⟩, And.left⟩
    obtain ⟨_, r, held, _⟩ := newer
    rw [held] at leftover
    cases leftover.2
  · simp [gone, held]

theorem Alike.casMatches (alike : Alike t u w) {now : UInt64} (later : t ≤ now)
    (req : CasRequest) : u.casMatches req now = w.casMatches req now := by
  unfold KindServerImpl.casMatches
  rcases alike.tree req.key with same | ⟨gone, r, held, expired⟩
  · rw [same]
  · simp [gone, held, isExpired_later later expired]

end Trees

variable {t : UInt64} {u w : KindServerImpl}

omit [ParseF64] in
/-- Carrying out one command on both sides leaves no more leftovers. -/
theorem Alike.logged {u' w' : KindServerImpl} {c : WalCommand} (alike : Alike t u w)
    (left : Logged u u' c) (right : Logged w w' c) (cache : u'.cache = w'.cache) :
    Alike t u' w' where
  leaders := ⟨left.isReplica.trans alike.leaders.1, right.isReplica.trans alike.leaders.2⟩
  globalVersion := by rw [left.globalVersion, right.globalVersion, alike.globalVersion]
  cache := cache
  tree := by
    intro k
    by_cases written : k ∈ c.keys
    · left
      rw [left.tree, right.tree, alike.globalVersion]
      exact overlay_touched (by simpa using written) _ _
    · rw [left.unwritten written, right.unwritten written]
      exact alike.tree k

/-! ## The requests one by one -/

omit [ParseF64] in
/-- A lookup that misses the cache leaves nothing expired under its key. -/
theorem lookup_get (s : KindServerImpl) (key k : String) (now : UInt64) :
    (s.get key now).2.tree[k]? =
      if s.cache.peek key = none ∧ key = k then
        (s.tree[k]?).filter fun r => !isExpired r.expiresAt now
      else s.tree[k]? := by
  rw [get_state]
  cases s.cache.peek key with
  | some val => simp
  | none =>
      cases held : s.tree[key]? with
      | none =>
          by_cases same : key = k
          · subst same
            simp [held]
          · simp [same]
      | some r =>
          cases expired : isExpired r.expiresAt now with
          | false =>
              by_cases same : key = k
              · subst same
                simp [held, expired, Option.filter]
              · simp [same, expired]
          | true =>
              have erased := SortedMap.lookup_erase s.tree key k
              by_cases same : key = k
              · subst same
                simp [held, expired, Option.filter, evict, treeRemove, removeRecordFromIndex]
              · simpa [same, expired, evict, treeRemove, removeRecordFromIndex] using erased

omit [ParseF64] in
theorem get_answers (s : KindServerImpl) (key : String) (now : UInt64) :
    ofLookup (s.get key now).1 =
      match s.cache.peek key, (s.tree[key]?).filter fun r => !isExpired r.expiresAt now with
      | some val, _ => .found { key, value := val, expiresAt := none }
      | none, some r => .found { key, value := r.value, expiresAt := r.expiresAt }
      | none, none => .notFound := by
  unfold KindServerImpl.get Cache.LruCache.peek
  obtain ⟨hit, cache⟩ := s.cache.get key
  cases hit with
  | some val => rfl
  | none =>
      dsimp only
      cases s.tree[key]? with
      | none => rfl
      | some r => cases expired : isExpired r.expiresAt now <;> simp [expired, Option.filter, ofLookup]

omit [ParseF64] in
theorem Alike.get (alike : Alike t u w) {now : UInt64} (later : t ≤ now) (key : String) :
    ofLookup (u.get key now).1 = ofLookup (w.get key now).1 ∧
      Alike t (u.get key now).2 (w.get key now).2 := by
  have quiet := get_unlogged u key now
  have quiet' := get_unlogged w key now
  refine ⟨?_, ⟨quiet.isReplica.trans alike.leaders.1, quiet'.isReplica.trans alike.leaders.2⟩,
    ?_, ?_, fun k => ?_⟩
  · rw [get_answers, get_answers, alike.cache, alike.live later]
  · rw [quiet.globalVersion, quiet'.globalVersion, alike.globalVersion]
  · rw [get_cache, get_cache, alike.cache]
  · rw [lookup_get, lookup_get, alike.cache]
    by_cases visited : w.cache.peek key = none ∧ key = k
    · rw [if_pos visited, if_pos visited]
      exact Or.inl (alike.live later k)
    · rw [if_neg visited, if_neg visited]
      exact alike.tree k

omit [ParseF64] in
theorem Alike.put (alike : Alike t u w) (now : UInt64) (req : PutRequest) :
    (u.put req now).1 = (w.put req now).1 ∧ Alike t (u.put req now).2 (w.put req now).2 := by
  refine ⟨?_, alike.logged (put_logged alike.leaders.1 req) (put_logged alike.leaders.2 req) ?_⟩
  · rw [put_eq u alike.leaders.1, put_eq w alike.leaders.2]
  · rw [put_eq u alike.leaders.1, put_eq w alike.leaders.2]
    dsimp only
    rw [alike.cache]

omit [ParseF64] in
theorem Alike.cas (alike : Alike t u w) {now : UInt64} (later : t ≤ now) (req : CasRequest) :
    (u.cas req now).1 = (w.cas req now).1 ∧ Alike t (u.cas req now).2 (w.cas req now).2 := by
  have same := alike.casMatches later req
  by_cases holds : u.casMatches req now = true
  · have holds' : w.casMatches req now = true := same ▸ holds
    refine ⟨?_, alike.logged (cas_logged alike.leaders.1 holds) (cas_logged alike.leaders.2 holds') ?_⟩
    · rw [cas_eq u alike.leaders.1, cas_eq w alike.leaders.2, if_pos holds, if_pos holds']
    · rw [cas_eq u alike.leaders.1, cas_eq w alike.leaders.2, if_pos holds, if_pos holds',
        casUnindex_eq, casUnindex_eq w, casWrite_eq, casWrite_eq]
      dsimp only
      rw [alike.cache]
  · have holds' : ¬ w.casMatches req now = true := same ▸ holds
    rw [cas_eq u alike.leaders.1, cas_eq w alike.leaders.2, if_neg holds, if_neg holds']
    exact ⟨rfl, alike⟩

omit [ParseF64] in
/-- The two deletes agree unless a leftover is deleted. -/
theorem Alike.delete (alike : Alike t u w) (key : String) :
    (ofWrite (u.delete key).1 = ofWrite (w.delete key).1 ↔ ¬ Leftover (u, w) key) ∧
      (ofWrite (u.delete key).1 = ofWrite (w.delete key).1 →
        Alike t (u.delete key).2 (w.delete key).2) := by
  cases held : u.tree[key]? with
  | none =>
      have free : w.tree[key]? = none := by
        rcases alike.tree key with same | ⟨gone, _⟩
        · rw [← same, held]
        · exact gone
      rw [delete_absent u alike.leaders.1 held, delete_absent w alike.leaders.2 free]
      refine ⟨iff_of_true rfl fun leftover => ?_, fun _ => alike⟩
      simp [Leftover, held] at leftover
  | some old =>
      cases found : w.tree[key]? with
      | none =>
          have leftover : Leftover (u, w) key := ⟨by simp [held], found⟩
          have differ : ofWrite (u.delete key).1 ≠ ofWrite (w.delete key).1 := by
            rw [delete_present u alike.leaders.1 held, delete_absent w alike.leaders.2 found]
            simp [ofWrite]
          exact ⟨iff_of_false differ (not_not.mpr leftover), fun same => absurd same differ⟩
      | some old' =>
          have same : ofWrite (u.delete key).1 = ofWrite (w.delete key).1 := by
            rw [delete_present u alike.leaders.1 held, delete_present w alike.leaders.2 found]
          refine ⟨iff_of_true same fun leftover => ?_, fun _ => ?_⟩
          · simp [Leftover, found] at leftover
          · refine alike.logged (delete_logged alike.leaders.1 (by simp [held]))
              (delete_logged alike.leaders.2 (by simp [found])) ?_
            rw [delete_present u alike.leaders.1 held, delete_present w alike.leaders.2 found]
            dsimp only
            rw [alike.cache]

omit [ParseF64] in
theorem commit_cache (version : Nat) (entries : List (String × Option DbRecord))
    (s : KindServerImpl) :
    (entries.foldl (TxHandle.applyEntry version) s).cache =
      entries.foldl (fun cache entry => cache.invalidate entry.1) s.cache := by
  induction entries generalizing s with
  | nil => rfl
  | cons entry rest ih => rw [List.foldl_cons, ih, TxHandle.applyEntry_eq, List.foldl_cons]

omit [ParseF64] in
/-- The two commits agree unless only leftovers make the one conflict. -/
theorem Alike.commit (alike : Alike t u w) (tx : TxHandle) :
    (ofCommit (tx.commit u).1 = ofCommit (tx.commit w).1 ↔
      ((∃ key, Newer tx u key) → ∃ key, Newer tx u key ∧ ¬ Leftover (u, w) key)) ∧
      (ofCommit (tx.commit u).1 = ofCommit (tx.commit w).1 →
        Alike t (tx.commit u).2 (tx.commit w).2) := by
  have right : tx.conflicts w = true ↔ ∃ key, Newer tx u key ∧ ¬ Leftover (u, w) key := by
    rw [TxHandle.conflicts_iff]
    exact exists_congr fun key => alike.newer_iff tx key
  have left : tx.conflicts u = true ↔ ∃ key, Newer tx u key := TxHandle.conflicts_iff tx u
  rw [← left, ← right]
  cases conflict : tx.conflicts u with
  | true =>
      rw [TxHandle.commit_conflict alike.leaders.1 conflict]
      cases conflict' : tx.conflicts w with
      | true =>
          rw [TxHandle.commit_conflict alike.leaders.2 conflict']
          exact ⟨iff_of_true rfl fun _ => rfl, fun _ => alike⟩
      | false =>
          rw [TxHandle.commit_ok alike.leaders.2 conflict']
          exact ⟨iff_of_false (nomatch ·) (by simp), (nomatch ·)⟩
  | false =>
      have conflict' : tx.conflicts w = false := by
        rw [← Bool.not_eq_true, right]
        intro ⟨key, newer, _⟩
        rw [left.mpr ⟨key, newer⟩] at conflict
        cases conflict
      have same : ofCommit (tx.commit u).1 = ofCommit (tx.commit w).1 := by
        rw [TxHandle.commit_ok alike.leaders.1 conflict, TxHandle.commit_ok alike.leaders.2 conflict']
      refine ⟨iff_of_true same (by simp), fun _ => alike.logged (commit_logged alike.leaders.1 conflict)
        (commit_logged alike.leaders.2 conflict') ?_⟩
      rw [TxHandle.commit_ok alike.leaders.1 conflict, TxHandle.commit_ok alike.leaders.2 conflict',
        commit_cache, commit_cache]
      dsimp only
      rw [alike.cache]

/-! ## Whole runs -/

/-- The request is not a delete that finds a leftover, nor a commit that only
leftovers keep from going through. -/
def Unnoticed (pair : KindServerImpl × KindServerImpl) (request : UInt64 × ClientRequest) : Prop :=
  match request.2 with
  | .delete key => ¬ Leftover pair key
  | .commit tx => (∃ key, Newer tx pair.1 key) → ∃ key, Newer tx pair.1 key ∧ ¬ Leftover pair key
  | _ => True

/-- The answers agree exactly if the request does not notice the leftovers. -/
theorem serve_same_iff (alike : Alike t u w) (request : UInt64 × ClientRequest)
    (later : t ≤ request.1) :
    (serve u request).1 = (serve w request).1 ↔ Unnoticed (u, w) request := by
  obtain ⟨now, request⟩ := request
  cases request with
  | get key => exact iff_of_true (alike.get later key).1 trivial
  | put req => exact iff_of_true (congrArg ofWrite (alike.put now req).1) trivial
  | cas req => exact iff_of_true (congrArg ofWrite (alike.cas later req).1) trivial
  | rangeScan req =>
      exact iff_of_true (congrArg Response.records (scan_congr (alike.live later) _ _)) trivial
  | prefixScan req =>
      refine iff_of_true (congrArg Response.records ?_) trivial
      rw [prefixScan_eq, prefixScan_eq]
      exact scan_congr (alike.live later) _ _
  | delete key => exact (alike.delete key).1
  | commit tx => exact (alike.commit tx).1

theorem Alike.serve (alike : Alike t u w) (request : UInt64 × ClientRequest)
    (later : t ≤ request.1) (same : (serve u request).1 = (serve w request).1) :
    Alike t (serve u request).2 (serve w request).2 := by
  obtain ⟨now, request⟩ := request
  cases request with
  | get key => exact (alike.get later key).2
  | put req => exact (alike.put now req).2
  | cas req => exact (alike.cas later req).2
  | rangeScan req => exact alike
  | prefixScan req => exact alike
  | delete key => exact (alike.delete key).2 same
  | commit tx => exact (alike.commit tx).2 same

omit [ParseF64] in
theorem alike_sweep (s : KindServerImpl) (leader : s.isReplica = false) (t : UInt64) :
    Alike t s (s.sweep t) := by
  have frame := (evict_spec (s.expiredEntries t) s).2
  rw [← sweep_eq] at frame
  refine ⟨⟨leader, (sweep_unlogged s t).isReplica.trans leader⟩,
    (sweep_unlogged s t).globalVersion.symm, ?_, fun k => ?_⟩
  · rw [frame]
  · rcases (sweep_unlogged s t).tree k with same | evicted
    · exact Or.inl same.symm
    · exact Or.inr evicted

/-- The answers to any requests from `t` on are the same with and without a
sweep at `t` exactly if none of the requests notices the leftovers. -/
theorem sweep_invisible_iff (s : KindServerImpl) (leader : s.isReplica = false) (t : UInt64)
    (requests : List (UInt64 × ClientRequest)) (later : ∀ request ∈ requests, t ≤ request.1) :
    answers serve s requests = answers serve (s.sweep t) requests ↔
      StepsMeet (both serve) Unnoticed (s, s.sweep t) requests :=
  answers_eq_iff (R := Alike t) (Q := fun request => t ≤ request.1) (C := Unnoticed)
    (fun _ _ request later alike => serve_same_iff alike request later)
    (fun _ _ request later alike same => alike.serve request later same)
    requests s (s.sweep t) later (alike_sweep s leader t)

end Requests

/-! ## A record that has expired -/

open SerdeJson

local instance instParseF64 : ParseF64 := ⟨fun _ => none⟩

/-- A leader whose one record has expired by the time 6. -/
def withExpired : KindServerImpl :=
  run serverStep (.fresh .new false false false)
    [(0, .put { key := "a", value := [1], ttlMs := some 5 })]

theorem sweep_invisible_to_lookup :
    answers serve withExpired [(6, .get "a")] = answers serve (withExpired.sweep 6) [(6, .get "a")] :=
  (sweep_invisible_iff withExpired rfl 6 [(6, .get "a")] (by decide)).mpr ⟨trivial, trivial⟩

theorem delete_notices_leftover :
    answers serve withExpired [(6, .delete "a")] = [.success true] ∧
      answers serve (withExpired.sweep 6) [(6, .delete "a")] = [.success false] := by
  decide

end KindDb.Eviction
