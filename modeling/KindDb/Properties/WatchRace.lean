import KindDb.Properties.CacheAgreement
import KindDb.Properties.WatchLag
import KindDb.Server.Sections

/-! # Watchers of concurrent calls

A call writes to the tree and sends its event in two accesses, and between them
others may do the same.  `cas` and `commit` do both in one section of the WAL
mutex; `put` and `delete` do not.  As long as no other call names the key of a
`put` or a `delete` that is in progress, a call that has written a key and has
still to tell is the only one, and the tree still holds what it will tell; so a
watcher that has received everything is right about every key that no call in
progress has still to tell. -/
set_option autoImplicit false

namespace KindDb

open KindDb.Lib KindDb.Lib.Overlay KindDb.Lib.Runs KindDb.KindServerImpl
open KindDb.WatchMirror KindDb.IndexExactness

namespace Access

def announced : Access → Option WatchEvent
  | .watch event => some event
  | _ => none

def writesTo (key : String) : Access → Bool
  | .insert k _ _ => k = key
  | .remove k => k = key
  | .evict k => k = key
  | _ => false

/-- The access writes the key for a client, or tells of it. -/
def concerns (key : String) : Access → Bool
  | .insert k _ _ => k = key
  | .remove k => k = key
  | .watch event => event.key = key
  | _ => false

theorem change_watchTx [Serde] (version : Nat) (s : KindServerImpl) (access : Access) :
    (access.change version s).watchTx = s.watchTx ++ access.announced.toList := by
  cases access <;> first | rfl | exact (List.append_nil _).symm

/-- An access that does not write the key leaves its value. -/
theorem values_change [Serde] (version : Nat) (s : KindServerImpl) {access : Access}
    {key : String} (other : access.writesTo key = false) :
    values (access.change version s) key = values s key := by
  have untouched : key ∉ touched (access.treeUpdates version) := by
    cases access with
    | insert k | remove k | evict k =>
        simp only [writesTo, decide_eq_false_iff_not] at other
        simpa [treeUpdates, touched] using Ne.symm other
    | _ => simp [treeUpdates, touched]
  unfold values
  rw [lookup_change, overlay_untouched untouched]

end Access

namespace WatchRace

open KindDb.WatchLag (Typed)

/-! ## What a call has still to tell -/

/-- What a watcher holds for the key of an event after it. -/
def brings (event : WatchEvent) : Option Bytes :=
  if event.operationType = "PUT" then event.newValue else none

theorem absorb_self {event : WatchEvent} (typed : Typed event) (m : String → Option Bytes) :
    absorb m event event.key = brings event := by
  unfold absorb brings
  rcases typed with isPut | isDelete
  · rw [if_pos isPut, if_pos isPut, Function.update_self]
  · have notPut : event.operationType ≠ "PUT" := by simp [isDelete]
    rw [if_neg notPut, if_neg notPut, if_pos isDelete, Function.update_self]

/-- Before it writes the key again the worker is bound to tell of it, and tells
that it holds `held`. -/
def tells (key : String) (held : Option Bytes) : List Access → Bool
  | [] => false
  | access :: rest =>
      match access.announced with
      | some event => if event.key = key then brings event = held else tells key held rest
      | none => !access.mayEnd && !access.writesTo key && tells key held rest

/-- What comes behind an access. -/
def Followed (rest : List Access) : Access → Prop
  | .insert key value _ => tells key (some value) rest = true
  | .remove key => tells key none rest = true
  | .watch event => Typed event ∧ ∀ held, tells event.key held rest = false
  | access => access.mayEnd = true → ∀ key held, tells key held rest = false

def Speaking : List Access → Prop
  | [] => True
  | access :: rest => Followed rest access ∧ Speaking rest

/-- All that is written or told is written and told in the section. -/
def Guarded : List Access → Prop
  | [] => True
  | access :: rest =>
      ((∃ key, access.concerns key = true) → Access.inSection rest = true) ∧
        (access = .lock → ∀ key held, tells key held rest = false) ∧ Guarded rest

def Within (keys : List String) (todo : List Access) : Prop :=
  ∀ access ∈ todo, ∀ key, access.concerns key = true → key ∈ keys

variable {key : String} {held held' : Option Bytes} {pre rest todo : List Access} {access : Access}

theorem tells_pass (silent : access.announced = none) (goesOn : access.mayEnd = false)
    (other : access.writesTo key = false) :
    tells key held (access :: rest) = tells key held rest := by
  simp [tells, silent, goesOn, other]

theorem tells_end (silent : access.announced = none) (mayEnd : access.mayEnd = true) :
    tells key held (access :: rest) = false := by
  simp [tells, silent, mayEnd]

theorem tells_write (writes : access.writesTo key = true) :
    tells key held (access :: rest) = false := by
  cases access with
  | insert | remove | evict => simp [tells, Access.announced, writes]
  | _ => cases writes

theorem tells_unique (first : tells key held todo = true) (second : tells key held' todo = true) :
    held = held' := by
  induction todo with
  | nil => cases first
  | cons access rest ih =>
      simp only [tells] at first second
      cases announced : access.announced with
      | some event =>
          rw [announced] at first second
          by_cases same : event.key = key
          · simp only [same, if_true, decide_eq_true_eq] at first second
            exact first.symm.trans second
          · simp only [same, if_false] at first second
            exact ih first second
      | none =>
          simp only [announced, Bool.and_eq_true] at first second
          exact ih first.2 second.2

/-- What is told is told by an access of the worker. -/
theorem concerns_of_tells (bound : tells key held todo = true) :
    ∃ access ∈ todo, access.concerns key = true := by
  induction todo with
  | nil => cases bound
  | cons access rest ih =>
      have later : tells key held rest = true →
          ∃ a ∈ access :: rest, a.concerns key = true := by
        intro bound
        obtain ⟨a, member, concerns⟩ := ih bound
        exact ⟨a, List.mem_cons_of_mem _ member, concerns⟩
      simp only [tells] at bound
      cases announced : access.announced with
      | some event =>
          rw [announced] at bound
          by_cases same : event.key = key
          · refine ⟨access, List.mem_cons_self, ?_⟩
            cases access with
            | watch e =>
                cases Option.some.inj announced
                simpa [Access.concerns] using same
            | _ => cases announced
          · simp only [same, if_false] at bound
            exact later bound
      | none =>
          simp only [announced, Bool.and_eq_true] at bound
          exact later bound.2

/-- In the section from the write on. -/
theorem inSection_of_tells (guarded : Guarded todo) (bound : tells key held todo = true) :
    Access.inSection todo = true := by
  induction todo with
  | nil => cases bound
  | cons access rest ih =>
      obtain ⟨placed, outside, later⟩ := guarded
      simp only [tells] at bound
      cases access with
      | lock =>
          have silent := outside rfl key held
          simp [Access.announced, silent] at bound
      | unlock => rfl
      | watch event =>
          exact placed ⟨event.key, by simp [Access.concerns]⟩
      | _ =>
          simp only [Access.announced, Bool.and_eq_true] at bound
          exact ih later bound.2

/-! ## The programs -/

/-- An access that always goes on, and neither writes nor tells for a client. -/
structure Passive (access : Access) : Prop where
  goesOn : access.mayEnd = false
  unconcerned : ∀ key, access.concerns key = false
  notLock : access ≠ .lock

theorem passive_of_indexing (indexing : access.isIndexing = true) : Passive access := by
  cases access with
  | file | unfile => exact ⟨rfl, fun _ => rfl, by simp⟩
  | _ => cases indexing

theorem passive_of_clears (clears : access.Clears) : Passive access := by
  rcases clears with ⟨ik, key, rfl⟩ | ⟨key, rfl⟩ <;> exact ⟨rfl, fun _ => rfl, by simp⟩

theorem Passive.followed (passive : Passive access) : Followed rest access := by
  have ends := passive.goesOn
  cases access with
  | insert k => simpa [Access.concerns] using passive.unconcerned k
  | remove k => simpa [Access.concerns] using passive.unconcerned k
  | watch event => simpa [Access.concerns] using passive.unconcerned event.key
  | _ =>
      intro mayEnd
      rw [ends] at mayEnd
      cases mayEnd

theorem Passive.announced (passive : Passive access) : access.announced = none := by
  cases access with
  | watch event => simpa [Access.concerns] using passive.unconcerned event.key
  | _ => rfl

theorem passive_append (keys : List String) (passive : ∀ a ∈ pre, Passive a) :
    (Speaking (pre ++ rest) ↔ Speaking rest) ∧ (Guarded (pre ++ rest) ↔ Guarded rest) ∧
      (Within keys (pre ++ rest) ↔ Within keys rest) ∧
      ∀ key held, tells key held rest = false → tells key held (pre ++ rest) = false := by
  induction pre with
  | nil => exact ⟨Iff.rfl, Iff.rfl, Iff.rfl, fun _ _ silent => silent⟩
  | cons access pre ih =>
      obtain ⟨speaking, guarded, within, silent⟩ := ih fun a member =>
        passive a (List.mem_cons_of_mem _ member)
      have here := passive access List.mem_cons_self
      refine ⟨(and_iff_right here.followed).trans speaking, ?_, ?_, fun key held none => ?_⟩
      · refine (and_iff_right ?_).trans ((and_iff_right ?_).trans guarded)
        · rintro ⟨key, concerns⟩
          rw [here.unconcerned key] at concerns
          cases concerns
        · exact fun isLock => absurd isLock here.notLock
      · refine List.forall_mem_cons.trans ((and_iff_right fun key concerns => ?_).trans within)
        rw [here.unconcerned key] at concerns
        cases concerns
      · simp [tells, here.announced, silent key held none]

theorem tells_indexing (indexing : ∀ a ∈ pre, a.isIndexing = true) (key : String)
    (held : Option Bytes) : tells key held (pre ++ rest) = tells key held rest := by
  induction pre with
  | nil => rfl
  | cons access pre ih =>
      have later := ih fun a member => indexing a (List.mem_cons_of_mem _ member)
      have quiet := indexing access List.mem_cons_self
      cases access with
      | file | unfile => exact (tells_pass rfl rfl rfl).trans later
      | _ => cases quiet

section Programs
variable [Serde] (s : KindServerImpl)

theorem tells_applies (entries : List (String × Option DbRecord))
    (silent : ∀ key held, tells key held rest = false) (key : String) (held : Option Bytes) :
    tells key held (entries.flatMap s.applyAccesses ++ rest) = false := by
  induction entries with
  | nil => exact silent key held
  | cons entry entries ih =>
      obtain ⟨k, written⟩ := entry
      rw [List.flatMap_cons, List.append_assoc]
      by_cases same : k = key
      · have writes : decide (k = key) = true := by simpa using same
        cases written with
        | none => exact (tells_pass rfl rfl rfl).trans (tells_write writes)
        | some rec => exact (tells_pass rfl rfl rfl).trans (tells_write writes)
      · cases written with
        | none =>
            have other : (Access.remove k).writesTo key = false := by
              simpa [Access.writesTo] using same
            refine (tells_pass rfl rfl rfl).trans ((tells_pass rfl rfl other).trans ?_)
            refine (if_neg same).trans ?_
            exact (tells_pass rfl rfl rfl).trans ih
        | some rec =>
            have other : (Access.insert k rec.value rec.expiresAt).writesTo key = false := by
              simpa [Access.writesTo] using same
            simp only [applyAccesses, List.cons_append, List.append_assoc]
            refine (tells_pass rfl rfl rfl).trans ((tells_pass rfl rfl other).trans ?_)
            rw [tells_indexing (CacheAgreement.filing_indexing s k rec.value)]
            refine (if_neg same).trans ?_
            exact (tells_pass rfl rfl rfl).trans ih

theorem filing_append (key : String) (value : Bytes) (keys : List String) :
    (Speaking (s.filing key value ++ rest) ↔ Speaking rest) ∧
      (Guarded (s.filing key value ++ rest) ↔ Guarded rest) ∧
      (Within keys (s.filing key value ++ rest) ↔ Within keys rest) ∧
      ∀ k held, tells k held rest = false → tells k held (s.filing key value ++ rest) = false :=
  passive_append keys fun a member =>
    passive_of_indexing (CacheAgreement.filing_indexing s key value a member)

theorem speaking_applies (entries : List (String × Option DbRecord))
    (silent : ∀ key held, tells key held rest = false) (speaking : Speaking rest) :
    Speaking (entries.flatMap s.applyAccesses ++ rest) := by
  induction entries with
  | nil => exact speaking
  | cons entry entries ih =>
      obtain ⟨k, written⟩ := entry
      have later := tells_applies s entries silent
      rw [List.flatMap_cons, List.append_assoc]
      cases written with
      | none =>
          refine ⟨Bool.false_ne_true.elim, ?_, ⟨Or.inr rfl, fun held => ?_⟩,
            Bool.false_ne_true.elim, ih⟩
          · simp [Followed, tells, Access.announced, brings]
          · exact (tells_pass rfl rfl rfl).trans (later k held)
      | some rec =>
          simp only [applyAccesses, List.cons_append, List.append_assoc]
          refine ⟨Bool.false_ne_true.elim, ?_, (filing_append s k rec.value []).1.mpr
            ⟨⟨Or.inl rfl, fun held => ?_⟩, Bool.false_ne_true.elim, ih⟩⟩
          · refine (tells_indexing (CacheAgreement.filing_indexing s k rec.value) _ _).trans ?_
            simp [tells, Access.announced, brings, putEvent]
          · exact (tells_pass rfl rfl rfl).trans (later k held)

theorem guarded_applies (entries : List (String × Option DbRecord))
    (inside : Access.inSection rest = true) (guarded : Guarded rest) :
    Guarded (entries.flatMap s.applyAccesses ++ rest) := by
  have locked : ∀ {pre : List Access}, (∀ a ∈ pre, a.isPlain = true) →
      Access.inSection (pre ++ rest) = true := fun plain =>
    (Access.plain_append plain).1.trans inside
  have all := Access.applyAccesses_plain s entries
  -- every final part of the turns is followed by the section's end
  have parts : ∀ pre : List Access, (∀ a ∈ pre, a.isPlain = true) → Guarded (pre ++ rest) := by
    intro pre
    induction pre with
    | nil => exact fun _ => guarded
    | cons access pre ih =>
        intro plain
        have later := fun a member => plain a (List.mem_cons_of_mem access member)
        refine ⟨fun _ => locked later, fun isLock => ?_, ih later⟩
        have here := plain access List.mem_cons_self
        rw [isLock] at here
        cases here
  exact parts _ all

end Programs

end WatchRace

namespace Job

/-- The keys that a job writes for its client. -/
def keys : Job → List String
  | .call made => made.keys
  | _ => []

/-- The job writes and tells under the WAL mutex. -/
def isGuarded : Job → Bool
  | .call (.cas _) => true
  | .call (.commit _) => true
  | _ => false

end Job

namespace WatchRace

variable {key : String} {held held' : Option Bytes} {pre rest todo : List Access} {access : Access}

section Programs
variable [Serde] (s : KindServerImpl)

theorem within_applies (entries : List (String × Option DbRecord)) :
    Within (entries.map Prod.fst) (entries.flatMap s.applyAccesses) := by
  intro access member key concerns
  obtain ⟨⟨k, written⟩, listed, turn⟩ := List.mem_flatMap.mp member
  suffices same : key = k by
    rw [same]
    exact List.mem_map_of_mem listed
  cases written with
  | none =>
      simp only [applyAccesses, List.mem_cons, List.not_mem_nil, or_false] at turn
      rcases turn with rfl | rfl | rfl | rfl
      · cases concerns
      · simpa [Access.concerns, eq_comm] using concerns
      · simpa [Access.concerns, eq_comm] using concerns
      · cases concerns
  | some rec =>
      simp only [applyAccesses, List.mem_cons, List.mem_append, List.not_mem_nil, or_false]
        at turn
      rcases turn with rfl | rfl | filed | rfl | rfl
      · cases concerns
      · simpa [Access.concerns, eq_comm] using concerns
      · have passive :=
          passive_of_indexing (CacheAgreement.filing_indexing s k rec.value access filed)
        rw [passive.unconcerned] at concerns
        cases concerns
      · simpa [Access.concerns, putEvent, eq_comm] using concerns
      · cases concerns

/-- What the programs keep to. -/
structure Shaped (job : Job) (todo : List Access) : Prop where
  speaking : Speaking todo
  guarded : job.isGuarded = true → Guarded todo
  within : Within job.keys todo

omit [Serde] in
theorem Shaped.append {job : Job} (shaped : Shaped job rest) (passive : ∀ a ∈ pre, Passive a) :
    Shaped job (pre ++ rest) := by
  obtain ⟨speaking, guarded, within, _⟩ := passive_append job.keys passive
  exact ⟨speaking.mpr shaped.speaking, fun isGuarded => guarded.mpr (shaped.guarded isGuarded),
    within.mpr shaped.within⟩

omit [Serde] in
theorem shaped_checks {job : Job} (entries : List (String × Option DbRecord))
    (snapshotVersion : Nat) (silent : ∀ key held, tells key held rest = false)
    (shaped : Shaped job rest) :
    Shaped job (entries.map (fun entry => .check entry.1 snapshotVersion) ++ rest) ∧
      ∀ key held, tells key held
        (entries.map (fun entry => .check entry.1 snapshotVersion) ++ rest) = false := by
  induction entries with
  | nil => exact ⟨shaped, silent⟩
  | cons entry entries ih =>
      obtain ⟨later, quiet⟩ := ih
      have unconcerned : ∀ key, (Access.check entry.1 snapshotVersion).concerns key = false :=
        fun _ => rfl
      refine ⟨⟨⟨fun _ => quiet, later.speaking⟩, fun isGuarded => ⟨?_, ?_, later.guarded isGuarded⟩,
        List.forall_mem_cons.mpr ⟨fun key concerns => ?_, later.within⟩⟩,
        fun key held => tells_end rfl rfl⟩
      · rintro ⟨key, concerns⟩
        rw [unconcerned key] at concerns
        cases concerns
      · intro isLock
        cases isLock
      · rw [unconcerned key] at concerns
        cases concerns

/-- A program keeps to the shape, and is not bound to tell anything yet. -/
structure Begins (job : Job) (todo : List Access) : Prop where
  shaped : Shaped job todo
  silent : ∀ key held, tells key held todo = false

omit [Serde] in
theorem begins_reply (job : Job) (outcome : Outcome) : Begins job [.reply outcome] :=
  ⟨⟨⟨fun _ _ _ => rfl, trivial⟩, fun _ => by simp [Guarded, Access.concerns],
    by simp [Within, Access.concerns]⟩, fun _ _ => tells_end rfl rfl⟩

omit [Serde] in
/-- The end of a section. -/
theorem begins_unlock (job : Job) (outcome : Outcome) : Begins job [.unlock, .reply outcome] :=
  ⟨⟨⟨Bool.false_ne_true.elim, fun _ _ _ => rfl, trivial⟩,
    fun _ => by simp [Guarded, Access.concerns], by simp [Within, Access.concerns]⟩,
    fun _ _ => rfl⟩

theorem begins_put (req : PutRequest) (expiresAt : Option UInt64) :
    Begins (.call (.put req)) (s.putAccesses req expiresAt) := by
  have cached : ∀ a ∈ caching req.key req.value expiresAt, Passive a := by
    intro a member
    unfold caching at member
    split at member
    · rw [List.mem_singleton.mp member]
      exact ⟨rfl, fun _ => rfl, by simp⟩
    · cases member
  refine ⟨⟨⟨Bool.false_ne_true.elim, ?_⟩, Bool.false_ne_true.elim, ?_⟩, fun key held => ?_⟩
  · refine (filing_append s req.key req.value []).1.mpr ?_
    refine (passive_append [] cached).1.mpr ?_
    simp [Speaking, Followed, tells, Access.announced, Access.mayEnd, brings, putEvent,
      WatchLag.Typed]
  · refine List.forall_mem_cons.mpr ⟨fun _ => Bool.false_ne_true.elim, ?_⟩
    refine (filing_append s req.key req.value _).2.2.1.mpr ?_
    refine (passive_append _ cached).2.2.1.mpr ?_
    simp [Within, Access.concerns, Job.keys, Call.keys, putEvent]
  · refine (tells_pass rfl rfl rfl).trans ?_
    refine (filing_append s req.key req.value []).2.2.2 key held ?_
    refine (passive_append [] cached).2.2.2 key held ?_
    by_cases same : req.key = key
    · simp [tells, Access.announced, Access.mayEnd, Access.writesTo, same]
    · simp [tells, Access.announced, Access.mayEnd, Access.writesTo, same, putEvent]

omit [Serde] in
theorem begins_delete (key : String) : Begins (.call (.delete key)) (deleteAccesses key) := by
  have silent : ∀ k held, tells k held (deleteAccesses key).tail = false := by
    intro k held
    by_cases same : key = k
    · exact tells_write (by simpa [Access.writesTo] using same)
    · simp [deleteAccesses, tells, Access.announced, same, Access.mayEnd]
  refine ⟨⟨⟨fun _ => silent, ?_⟩, Bool.false_ne_true.elim, ?_⟩, fun _ _ => tells_end rfl rfl⟩
  · simp [Speaking, Followed, tells, Access.announced, Access.mayEnd, Access.writesTo, brings,
      WatchLag.Typed]
  · simp [deleteAccesses, Within, Access.concerns, Job.keys, Call.keys]

theorem begins_cas (req : CasRequest) (expiresAt : Option UInt64) :
    Begins (.call (.cas req)) (s.casAccesses req expiresAt) := by
  refine ⟨⟨⟨Bool.false_ne_true.elim, fun _ key held => ?_,
    (filing_append s req.key req.newValue []).1.mpr ?_⟩, fun _ => ?_, ?_⟩,
    fun _ _ => (tells_pass rfl rfl rfl).trans (tells_end rfl rfl)⟩
  · refine (filing_append s req.key req.newValue []).2.2.2 key held ?_
    by_cases same : req.key = key
    · simp [tells, Access.announced, Access.mayEnd, Access.writesTo, same]
    · simp [tells, Access.announced, Access.mayEnd, Access.writesTo, same, putEvent]
  · simp [Speaking, Followed, tells, Access.announced, Access.mayEnd, brings, putEvent,
      WatchLag.Typed]
  · refine ⟨by simp [Access.concerns], fun _ _ _ => tells_end rfl rfl, by simp [Access.concerns],
      by simp, (filing_append s req.key req.newValue []).2.1.mpr ?_⟩
    simp [Guarded, Access.concerns, Access.inSection]
  · refine List.forall_mem_cons.mpr ⟨fun _ => Bool.false_ne_true.elim,
      List.forall_mem_cons.mpr ⟨fun _ => Bool.false_ne_true.elim, ?_⟩⟩
    refine (filing_append s req.key req.newValue _).2.2.1.mpr ?_
    simp [Within, Access.concerns, Job.keys, Call.keys, putEvent]

theorem begins_commit (tx : TxHandle) : Begins (.call (.commit tx)) (s.commitAccesses tx) := by
  obtain ⟨ending, silent⟩ := begins_unlock (.call (.commit tx)) (.call (.commit (.ok ())))
  have applies : Shaped (.call (.commit tx)) (tx.writeSet.entries.flatMap s.applyAccesses ++
      [.unlock, .reply (.call (.commit (.ok ())))]) := by
    refine ⟨speaking_applies s _ silent ending.speaking,
      fun isGuarded => guarded_applies s _ rfl (ending.guarded isGuarded), ?_⟩
    exact List.forall_mem_append.mpr ⟨within_applies s tx.writeSet.entries, ending.within⟩
  have logging : ∀ a ∈ [Access.fetchAdd, .append (commitCommand tx), .send (commitCommand tx)],
      Passive a := by
    simp only [List.forall_mem_cons]
    exact ⟨⟨rfl, fun _ => rfl, by simp⟩, ⟨rfl, fun _ => rfl, by simp⟩,
      ⟨rfl, fun _ => rfl, by simp⟩, by simp⟩
  obtain ⟨checks, still⟩ := shaped_checks tx.writeSet.entries tx.snapshotVersion
    (fun key held => (passive_append [] logging).2.2.2 key held
      (tells_applies s tx.writeSet.entries silent key held)) (applies.append logging)
  exact ⟨⟨⟨Bool.false_ne_true.elim, checks.speaking⟩,
    fun isGuarded => ⟨by simp [Access.concerns], fun _ => still, checks.guarded isGuarded⟩,
    List.forall_mem_cons.mpr ⟨fun _ => Bool.false_ne_true.elim, checks.within⟩⟩,
    fun key held => (tells_pass rfl rfl rfl).trans (still key held)⟩

theorem begins_accesses (now : UInt64) (job : Job) : Begins job (s.accesses now job) := by
  have refused := begins_reply job
  cases job with
  | get key =>
      exact ⟨⟨⟨fun _ _ _ => tells_end rfl rfl, fun _ _ _ => rfl, trivial⟩,
        Bool.false_ne_true.elim, by simp [Within, accesses, Access.concerns]⟩,
        fun _ _ => tells_end rfl rfl⟩
  | sweeper =>
      exact ⟨⟨⟨fun _ _ _ => rfl, trivial⟩, Bool.false_ne_true.elim,
        by simp [Within, accesses, Access.concerns]⟩, fun _ _ => tells_end rfl rfl⟩
  | call call =>
      cases call with
      | beginTransaction =>
          exact ⟨⟨⟨fun _ _ _ => rfl, trivial⟩, Bool.false_ne_true.elim,
            by simp [Within, accesses, Access.concerns]⟩, fun _ _ => tells_end rfl rfl⟩
      | delete key =>
          simp only [accesses]
          split
          · exact refused _
          · exact begins_delete key
      | put req =>
          simp only [accesses]
          split
          · exact refused _
          · exact begins_put s req _
      | cas req =>
          simp only [accesses]
          split
          · exact refused _
          · exact begins_cas s req _
      | commit tx =>
          simp only [accesses]
          split
          · exact refused _
          · exact begins_commit s tx

end Programs

/-! ## One access -/

section Onward
variable (leads : Access.Onward access rest todo)
include leads

/-- An access that always goes on is followed by what stands behind it. -/
theorem tells_onward (goesOn : access.mayEnd = false) (key : String) (held : Option Bytes) :
    tells key held todo = tells key held rest := by
  cases leads with
  | on unfiling =>
      refine tells_indexing (fun a member => ?_) key held
      obtain ⟨ik, k, rfl⟩ := unfiling a member
      rfl
  | answered clearing answers =>
      cases access with
      | deleteLookup | cacheGet | getLookup => cases goesOn
      | _ => cases answers
  | released locks =>
      rcases locks with ⟨req, rfl⟩ | ⟨key, snapshotVersion, rfl⟩
      · cases goesOn
      · cases goesOn
  | collecting isCollect clearing =>
      obtain ⟨cursor, toRemove, rfl⟩ := isCollect
      cases goesOn
  | finished last =>
      rcases last with ⟨outcome, rfl⟩ | rfl
      · cases goesOn
      · cases goesOn

/-- Where a worker may drop the rest, it is bound to nothing. -/
theorem silent_onward (mayEnd : access.mayEnd = true) (followed : Followed rest access)
    (key : String) (held : Option Bytes) : tells key held todo = false := by
  have cleared : ∀ {pre last : List Access}, (∀ a ∈ pre, a.Clears) →
      tells key held last = false → tells key held (pre ++ last) = false := by
    intro pre last clearing silent
    exact (passive_append [] fun a member => passive_of_clears (clearing a member)).2.2.2
      key held silent
  cases leads with
  | on unfiling =>
      refine cleared (fun a member => Or.inl (unfiling a member)) ?_
      cases access with
      | insert | remove | watch => cases mayEnd
      | _ => exact followed mayEnd key held
  | answered clearing answers => exact cleared clearing (tells_end rfl rfl)
  | released locks => rfl
  | collecting isCollect clearing => exact cleared clearing (tells_end rfl rfl)
  | finished last => rfl

theorem Shaped.onward {job : Job} (shaped : Shaped job (access :: rest)) : Shaped job todo := by
  obtain ⟨⟨followed, speaking⟩, guarded, within⟩ := shaped
  have behind : Shaped job rest :=
    ⟨speaking, fun isGuarded => (guarded isGuarded).2.2, (List.forall_mem_cons.mp within).2⟩
  cases leads with
  | on unfiling =>
      exact behind.append fun a member => passive_of_clears (Or.inl (unfiling a member))
  | answered clearing answers =>
      exact (begins_reply job _).shaped.append fun a member =>
        passive_of_clears (clearing a member)
  | released locks => exact (begins_unlock job _).shaped
  | collecting isCollect clearing =>
      obtain ⟨cursor, toRemove, rfl⟩ := isCollect
      refine Shaped.append ?_ fun a member => passive_of_clears (clearing a member)
      refine ⟨⟨fun _ => followed rfl, speaking⟩, fun isGuarded => ⟨?_, ?_, behind.guarded isGuarded⟩,
        List.forall_mem_cons.mpr ⟨fun _ => Bool.false_ne_true.elim, behind.within⟩⟩
      · simp [Access.concerns]
      · simp
  | finished last =>
      exact ⟨trivial, fun _ => trivial, fun a member => by cases member⟩

end Onward

/-- What an access changes of what its worker has still to tell about a key. -/
inductive Telling [Serde] (key : String) (access : Access) (rest todo : List Access) : Prop
  | keeps (unwritten : access.writesTo key = false)
      (elsewhere : ∀ event, access.announced = some event → WatchLag.Typed event ∧ event.key ≠ key)
      (same : ∀ held, tells key held todo = tells key held (access :: rest))
  | writes {value : Option Bytes} (concerns : access.concerns key = true)
      (silent : access.announced = none) (bound : tells key value todo = true)
      (holds : ∀ version s, values (access.change version s) key = value)
  | announces {event : WatchEvent} (tellsOf : access = .watch event) (typed : WatchLag.Typed event)
      (concerned : event.key = key) (bound : tells key (brings event) (access :: rest) = true)
      (told : ∀ held, tells key held todo = false)

theorem telling [Serde] (leads : Access.Onward access rest todo) (followed : Followed rest access)
    (notEvict : ∀ k, access ≠ .evict k) (key : String) : Telling key access rest todo := by
  have same_or : access.announced = none → access.writesTo key = false →
      ∀ held, tells key held todo = tells key held (access :: rest) := by
    intro silent unwritten held
    cases ends : access.mayEnd with
    | true => rw [silent_onward leads ends followed, tells_end silent ends]
    | false => rw [tells_onward leads ends, tells_pass silent ends unwritten]
  have unsaid : access.announced = none → ∀ event, access.announced = some event →
      WatchLag.Typed event ∧ event.key ≠ key := by
    intro silent event said
    rw [silent] at said
    cases said
  cases access with
  | insert k value expiresAt =>
      by_cases same : k = key
      · subst same
        refine .writes (by simp [Access.concerns]) rfl
          ((tells_onward leads rfl _ _).trans followed) fun version s => ?_
        unfold values
        rw [Access.lookup_change]
        simp [Access.treeUpdates, overlay_cons]
      · exact .keeps (by simpa [Access.writesTo] using same) (unsaid rfl)
          (same_or rfl (by simpa [Access.writesTo] using same))
  | remove k =>
      by_cases same : k = key
      · subst same
        refine .writes (by simp [Access.concerns]) rfl
          ((tells_onward leads rfl _ _).trans followed) fun version s => ?_
        unfold values
        rw [Access.lookup_change]
        simp [Access.treeUpdates, overlay_cons]
      · exact .keeps (by simpa [Access.writesTo] using same) (unsaid rfl)
          (same_or rfl (by simpa [Access.writesTo] using same))
  | evict k => exact absurd rfl (notEvict k)
  | watch event =>
      obtain ⟨typed, ended⟩ := followed
      have onwards := tells_onward leads rfl
      by_cases same : event.key = key
      · subst same
        refine .announces rfl typed rfl (by simp [tells, Access.announced]) fun held => ?_
        exact (onwards event.key held).trans (ended held)
      · refine .keeps rfl (fun e isEvent => ?_) fun held => ?_
        · cases Option.some.inj isEvent
          exact ⟨typed, same⟩
        · exact (onwards key held).trans (by simp [tells, Access.announced, same])
  | _ => exact .keeps rfl (unsaid rfl) (same_or rfl rfl)

/-! ## Runs -/

/-- Two calls in progress name a common key only if both write it and tell of
it in a section of the WAL mutex, and no expired record is evicted. -/
structure Apart {κ : Type} (jobs : κ → Job) (pool : WorkerPool κ) (event : κ × UInt64) : Prop where
  guarded : ∀ i j, i ≠ j → Worker.todo (pool.workers i) ≠ [] → Worker.todo (pool.workers j) ≠ [] →
    ∀ key ∈ (jobs i).keys, key ∈ (jobs j).keys → (jobs i).isGuarded = true ∧
      (jobs j).isGuarded = true
  unexpired : ∀ key rest, Worker.todo (pool.workers event.1) ≠ .evict key :: rest

/-- What holds in every state of a run, for a watcher who read the tree of
`base` when it subscribed. -/
structure Underway {κ : Type} (jobs : κ → Job) (base : KindServerImpl) (pool : WorkerPool κ) :
    Prop where
  exclusive : WorkerPool.Exclusive pool
  shaped : ∀ i, Shaped (jobs i) (Worker.todo (pool.workers i))
  held : ∀ key i value, tells key value (Worker.todo (pool.workers i)) = true →
    values pool.shared.server key = value
  settled : ∃ sent, pool.shared.server.watchTx = base.watchTx ++ sent ∧
    ∀ key, (∀ i value, tells key value (Worker.todo (pool.workers i)) = false) →
      sent.foldl absorb (values base) key = values pool.shared.server key

section Runs
variable {κ : Type} {jobs : κ → Job} {base s : KindServerImpl} {pool pool' : WorkerPool κ}
  {event : κ × UInt64}

theorem underway_start (s : KindServerImpl) : Underway jobs s (.start s) where
  exclusive := WorkerPool.exclusive_start s
  shaped _ := ⟨trivial, fun _ => trivial, fun _ member => by cases member⟩
  held _ _ _ bound := by cases bound
  settled := ⟨[], (List.append_nil _).symm, fun _ _ => rfl⟩

/-- A watcher may subscribe at any time. -/
theorem Underway.subscribed (underway : Underway jobs base pool) :
    Underway jobs pool.shared.server pool :=
  ⟨underway.exclusive, underway.shaped, underway.held,
    [], (List.append_nil _).symm, fun _ _ => rfl⟩

/-- While one worker writes a key no other has still to tell of it. -/
theorem Underway.alone (underway : Underway jobs base pool) (apart : Apart jobs pool event)
    {version : Nat} (running : pool.workers event.1 = some (.running version (access :: rest)))
    (concerns : access.concerns key = true) {j : κ} (other : j ≠ event.1) (held : Option Bytes) :
    tells key held (Worker.todo (pool.workers j)) = false := by
  by_contra bound
  rw [Bool.not_eq_false] at bound
  have mine := underway.shaped event.1
  rw [running, Worker.todo_running] at mine
  obtain ⟨a, member, theirs⟩ := concerns_of_tells bound
  have busy : Worker.todo (pool.workers event.1) ≠ [] := by
    rw [running, Worker.todo_running]
    exact List.cons_ne_nil _ _
  obtain ⟨guarded, guarded'⟩ := apart.guarded event.1 j other.symm busy
    (List.ne_nil_of_mem member) key (mine.within access List.mem_cons_self key concerns)
    ((underway.shaped j).within a member key theirs)
  have inside : Access.inSection (access :: rest) = true := by
    have behind := (mine.guarded guarded).1 ⟨key, concerns⟩
    cases access with
    | insert | remove | watch => exact behind
    | _ => cases concerns
  have me := underway.exclusive.held event.1
    (by rwa [running, Worker.todo_running])
  have they := underway.exclusive.held j
    (inSection_of_tells ((underway.shaped j).guarded guarded') bound)
  rw [me] at they
  exact other (Option.some.inj they).symm

variable [Serde] [DecidableEq κ]

theorem Underway.begin (underway : Underway jobs base pool) (idle : pool.workers event.1 = none)
    (exclusive : WorkerPool.Exclusive (⟨pool.shared, Function.update pool.workers event.1
      (some (.running 0 (pool.shared.server.accesses event.2 (jobs event.1))))⟩ : WorkerPool κ)) :
    Underway jobs base ⟨pool.shared, Function.update pool.workers event.1
      (some (.running 0 (pool.shared.server.accesses event.2 (jobs event.1))))⟩ := by
  obtain ⟨shaped, silent⟩ := begins_accesses pool.shared.server event.2 (jobs event.1)
  -- neither before its first access nor after it is the worker bound to tell
  have same : ∀ key i value, tells key value (Worker.todo (Function.update pool.workers event.1
      (some (.running 0 (pool.shared.server.accesses event.2 (jobs event.1)))) i)) =
      tells key value (Worker.todo (pool.workers i)) := by
    intro key i value
    by_cases mine : i = event.1
    · subst mine
      rw [Function.update_self, idle]
      exact silent key value
    · rw [Function.update_of_ne mine]
  obtain ⟨sent, channel, settled⟩ := underway.settled
  refine ⟨exclusive, fun i => ?_, fun key i value bound => ?_, sent, channel, fun key none => ?_⟩
  · by_cases mine : i = event.1
    · subst mine
      simpa only [Function.update_self, Worker.todo_running] using shaped
    · simpa only [Function.update_of_ne mine] using underway.shaped i
  · exact underway.held key i value ((same key i value).symm.trans bound)
  · exact settled key fun i value => (same key i value).symm.trans (none i value)

theorem Underway.next (underway : Underway jobs base pool) (apart : Apart jobs pool event)
    {version : Nat} (running : pool.workers event.1 = some (.running version (access :: rest)))
    {walLock : Option κ} (exclusive : WorkerPool.Exclusive
      (⟨⟨access.change version pool.shared.server, walLock⟩, Function.update pool.workers event.1
        (some (access.next event.2 pool.shared.server version rest))⟩ : WorkerPool κ)) :
    Underway jobs base ⟨⟨access.change version pool.shared.server, walLock⟩,
      Function.update pool.workers event.1
        (some (access.next event.2 pool.shared.server version rest))⟩ := by
  have leads : Access.Onward access rest
      (Worker.todo (some (access.next event.2 pool.shared.server version rest))) :=
    Access.onward_next event.2
  have mine := underway.shaped event.1
  have unexpired := apart.unexpired
  rw [running, Worker.todo_running] at mine unexpired
  have notEvict : ∀ k, access ≠ .evict k := fun k isEvict => unexpired k rest (by rw [isEvict])
  have telling := telling leads mine.speaking.1 notEvict
  obtain ⟨sent, channel, settled⟩ := underway.settled
  refine ⟨exclusive, fun i => ?_, fun key i value bound => ?_,
    sent ++ access.announced.toList, ?_, fun key none => ?_⟩
  · by_cases same : i = event.1
    · subst same
      simpa only [Function.update_self] using mine.onward leads
    · simpa only [Function.update_of_ne same] using underway.shaped i
  · have before : tells key value (Worker.todo (pool.workers i)) = true →
        values pool.shared.server key = value := underway.held key i value
    by_cases me : i = event.1
    · subst me
      simp only [Function.update_self] at bound
      rw [running, Worker.todo_running] at before
      cases telling key with
      | keeps unwritten elsewhere same =>
          exact (Access.values_change _ _ unwritten).trans (before ((same value).symm.trans bound))
      | writes concerns silent bound' holds =>
          rw [tells_unique bound bound']
          exact holds _ _
      | announces tellsOf typed concerned bound' told =>
          rw [told value] at bound
          cases bound
    · simp only [Function.update_of_ne me] at bound
      cases telling key with
      | keeps unwritten => exact (Access.values_change _ _ unwritten).trans (before bound)
      | writes concerns =>
          rw [underway.alone apart running concerns me value] at bound
          cases bound
      | announces tellsOf =>
          subst tellsOf
          exact (Access.values_change _ _ rfl).trans (before bound)
  · dsimp only
    rw [Access.change_watchTx, channel, List.append_assoc]
  · have mineNone : ∀ value, tells key value (Worker.todo (some (access.next event.2
        pool.shared.server version rest))) = false := fun value => by
      simpa only [Function.update_self] using none event.1 value
    rw [List.foldl_append]
    cases telling key with
    | keeps unwritten elsewhere same =>
        have was : sent.foldl absorb (values base) key = values pool.shared.server key := by
          refine settled key fun i value => ?_
          by_cases me : i = event.1
          · subst me
            rw [running, Worker.todo_running, ← same value]
            exact mineNone value
          · simpa only [Function.update_of_ne me] using none i value
        refine Eq.trans ?_ (was.trans (Access.values_change _ _ unwritten).symm)
        cases announced : access.announced with
        | none => rfl
        | some event => exact absorb_other (elsewhere event announced).2.symm
    | writes concerns silent bound =>
        rw [mineNone] at bound
        cases bound
    | @announces said tellsOf typed concerned bound =>
        subst tellsOf concerned
        have holds : values pool.shared.server said.key = brings said := by
          refine underway.held said.key event.1 _ ?_
          rwa [running, Worker.todo_running]
        exact (absorb_self typed _).trans (holds.symm.trans (Access.values_change _ _ rfl).symm)

theorem Underway.step (apart : Apart jobs pool event)
    (stepped : pool.step jobs event = some pool') (underway : Underway jobs base pool) :
    Underway jobs base pool' := by
  have exclusive := underway.exclusive.step stepped
  rcases WorkerPool.step_cases stepped with ⟨idle, rfl⟩ |
    ⟨version, access, rest, walLock, running, rfl⟩
  · exact underway.begin idle exclusive
  · exact underway.next apart running exclusive

/-- A watcher who subscribes at any time of such a run, and reads the tree then,
is right later about every key that no call in progress names. -/
theorem racing_mirror (jobs : κ → Job) (s : KindServerImpl)
    (earlier later : List (κ × UInt64)) (middle : WorkerPool κ)
    (first : runFrom (WorkerPool.step jobs) (.start s) earlier = some middle)
    (second : runFrom (WorkerPool.step jobs) middle later = some pool)
    (apart : EachMeets (WorkerPool.step jobs) (Apart jobs) (.start s) earlier)
    (apart' : EachMeets (WorkerPool.step jobs) (Apart jobs) middle later)
    (req : WatchRequest) (key : String)
    (settled : ∀ i, Worker.todo (pool.workers i) ≠ [] → key ∉ (jobs i).keys) :
    (watch req (received (subscribe middle.shared.server) pool.shared.server)).foldl absorb
        (values middle.shared.server) key =
      if key.startsWith (req.keyPrefix.getD "") then values pool.shared.server key
      else values middle.shared.server key := by
  have subscribing := (runFrom_invariant (fun _ _ _ => Underway.step) earlier _ _ apart first
    (underway_start s)).subscribed
  have underway := runFrom_invariant (fun _ _ _ => Underway.step) later _ _ apart' second
    subscribing
  obtain ⟨sent, channel, told⟩ := underway.settled
  have silent : ∀ i value, tells key value (Worker.todo (pool.workers i)) = false := by
    intro i value
    by_contra bound
    rw [Bool.not_eq_false] at bound
    obtain ⟨access, member, concerns⟩ := concerns_of_tells bound
    exact settled i (List.ne_nil_of_mem member)
      ((underway.shaped i).within access member key concerns)
  have heard : received (subscribe middle.shared.server) pool.shared.server = sent.map some := by
    rw [received, subscribe, channel, List.drop_left]
  rw [heard, absorb_watch req sent rfl, told key silent]

end Runs

/-! ## A watcher between a write and its event -/

open SerdeJson

/-- A `cas` that creates the key, and a transaction that replaces its value. -/
def writers (i : Bool) : Job :=
  .call (if i then .cas { key := "a", expectedValue := [], newValue := [1], ttlMs := none }
    else .commit {
      writeSet := WriteSet.empty.insert "a" (some { value := [2], expiresAt := none, version := 0 })
      snapshotVersion := 1 })

def upToInsert : List (Bool × UInt64) := List.replicate 8 (true, 0)

/-- The transaction begins, and waits for the mutex. -/
def afterInsert : List (Bool × UInt64) :=
  (false, 0) :: (List.replicate 3 (true, 0) ++ List.replicate 11 (false, 0))

def evicts : List Access → Bool
  | .evict _ :: _ => true
  | _ => false

def evictsNothing (pool : WorkerPool Bool) (event : Bool × UInt64) : Bool :=
  !evicts (Worker.todo (pool.workers event.1))

theorem apart_writers (pool : WorkerPool Bool) (event : Bool × UInt64)
    (passes : evictsNothing pool event = true) : Apart writers pool event := by
  refine ⟨fun i j _ _ _ _ _ _ => ⟨by cases i <;> rfl, by cases j <;> rfl⟩, fun key rest is => ?_⟩
  rw [evictsNothing, is] at passes
  cases passes

theorem racing_mirror_writers :
    ∃ middle pool, runFrom (WorkerPool.step writers) (.start CacheAgreement.fresh) upToInsert =
        some middle ∧
      runFrom (WorkerPool.step writers) middle afterInsert = some pool ∧
      (watch { keyPrefix := none } (received (subscribe middle.shared.server)
        pool.shared.server)).foldl absorb (values middle.shared.server) "a" =
        values pool.shared.server "a" := by
  have finished : ((runFrom (WorkerPool.step writers) (.start CacheAgreement.fresh)
      upToInsert).bind fun middle => (runFrom (WorkerPool.step writers) middle afterInsert).map
        fun pool => eachPasses (WorkerPool.step writers) evictsNothing middle afterInsert &&
          CacheAgreement.isQuiescent pool) = some true := by decide +kernel
  obtain ⟨middle, first, later⟩ := Option.bind_eq_some_iff.mp finished
  obtain ⟨pool, second, passed⟩ := Option.map_eq_some_iff.mp later
  obtain ⟨passes, quiet⟩ := Bool.and_eq_true_iff.mp passed
  have idle : ∀ i, Worker.todo (pool.workers i) ≠ [] → "a" ∉ (writers i).keys := by
    intro i busy
    refine absurd ?_ busy
    have all := CacheAgreement.quiescent_of_isQuiescent quiet i
    cases worker : pool.workers i with
    | none => rfl
    | some running =>
        cases running with
        | done outcome => rfl
        | running version todo => exact absurd worker (all version todo)
  refine ⟨middle, pool, first, second, ?_⟩
  refine (racing_mirror writers CacheAgreement.fresh upToInsert afterInsert middle first second
    (eachMeets_of_passes apart_writers (by decide +kernel))
    (eachMeets_of_passes apart_writers passes) { keyPrefix := none } "a" idle).trans (if_pos (by decide +kernel))

/-- Of two puts in progress on one key, the one that inserts last may tell first. -/
example : (runFrom (WorkerPool.step fun i => .call (CacheAgreement.twoPuts i))
    (.start CacheAgreement.fresh)
    (List.replicate 9 (false, 0) ++ List.replicate 10 (true, 0) ++ [(false, 0)])).map
    (fun pool => (mirror pool.shared.server.watchTx "a", values pool.shared.server "a")) =
    some (some [2], some [1]) := by decide +kernel

end WatchRace

end KindDb
