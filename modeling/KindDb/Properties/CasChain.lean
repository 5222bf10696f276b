import KindDb.Properties.LogOrder

/-! # Compare and swap under contention

The comparison and the insert of a `cas` lie in one section of the WAL mutex.
For a key that only `cas` calls name, the calls that succeed therefore take it
over one after the other: each of them has found what the one before it left,
or has found that expired.  No update is lost, and whoever has put a value
where nothing was keeps it until a call that expects this value succeeds, or
until it expires. -/
set_option autoImplicit false

namespace KindDb.CasChain

open KindDb.Lib KindDb.Lib.Overlay KindDb.Lib.Runs KindDb.KindServerImpl
open KindDb.LogOrder (step start Returned after isDone not_running)

/-! ## A register -/

/-- A `cas` that succeeds: its deadline, and the clock at its comparison, which
was the step of the run at `place`. -/
structure Swap (κ : Type) where
  caller : κ
  req : CasRequest
  expiresAt : Option UInt64
  place : Nat
  comparedAt : UInt64
deriving DecidableEq

section Register
variable {κ : Type}

namespace Swap

def accepts (swap : Swap κ) (held : Option Content) : Bool :=
  match liveAt swap.comparedAt held with
  | some content => content.1 = swap.req.expectedValue
  | none => swap.req.expectedValue = []

def leaves (swap : Swap κ) : Option Content := some (swap.req.newValue, swap.expiresAt)

end Swap

/-- A register with nothing but compare and swap. -/
def register (held : Option Content) (swap : Swap κ) : Option (Option Content) :=
  if swap.accepts held then some swap.leaves else none

theorem register_concat {held final : Option Content} {swaps : List (Swap κ)} {swap : Swap κ}
    (ran : runFrom register held swaps = some final) (accepted : swap.accepts final = true) :
    runFrom register held (swaps ++ [swap]) = some swap.leaves := by
  rw [runFrom_append, ran, Option.bind_some, runFrom, register, if_pos accepted]
  rfl

theorem accepts_iff (s : KindServerImpl) (swap : Swap κ) :
    swap.accepts (s.contents swap.req.key) = s.casMatches swap.req swap.comparedAt := by
  unfold Swap.accepts KindServerImpl.contents casMatches
  cases held : s.tree[swap.req.key]? with
  | none => simp
  | some r =>
      cases expired : isExpired r.expiresAt swap.comparedAt <;>
        simp [DbRecord.content, liveAt_some, expired]

end Register

/-! ## The stages of a call -/

/-- An action that only goes on to the next one and writes nothing. -/
def Quiet : Action → Prop
  | .fetchAdd => True
  | .append _ => True
  | .send _ => True
  | .watch _ => True
  | .unlock => True
  | _ => False

/-- A `cas` from its insert on. -/
def inserting (req : CasRequest) (expiresAt : Option UInt64) : List Action :=
  [.insert req.key req.newValue expiresAt, .watch (putEvent req.key req.newValue), .unlock,
    .reply (.write (.ok true))]

theorem inSection_quiet {front rest : List Action} (quiet : ∀ a ∈ front, Quiet a)
    (inside : inSection rest = true) : inSection (front ++ rest) = true := by
  induction front with
  | nil => exact inside
  | cons action front ih =>
      have later := ih fun a member => quiet a (List.mem_cons_of_mem _ member)
      have here := quiet action List.mem_cons_self
      cases action with
      | fetchAdd | append | send | watch => exact later
      | unlock => rfl
      | _ => exact here.elim

section Steps
variable [Serde] {Holder : Type} {me : Holder} {now : UInt64} {sh sh' : Shared Holder}
  {version : Nat} {action : Action} {rest : List Action} {thread : Thread}

theorem quiet_effect (quiet : Quiet action)
    (effect : action.Effect me now sh version rest sh' thread) (key : String) :
    (∃ v, thread = .running v rest) ∧ sh'.server.contents key = sh.server.contents key := by
  have moved := effect.thread
  have contents := effect.contents key
  cases action with
  | fetchAdd | append | send | watch | unlock => exact ⟨⟨_, moved⟩, contents⟩
  | _ => exact quiet.elim

end Steps

section Pools
variable {κ : Type}

/-- The swap is that of a call in the run: it began, and later compared. -/
structure Genuine (requests : κ → Request κ) (key : String) (events : List (κ × UInt64))
    (swap : Swap κ) : Prop where
  requested : requests swap.caller = .call (.cas swap.req)
  named : swap.req.key = key
  compared : events[swap.place]? = some (swap.caller, swap.comparedAt)
  begun : ∃ place began, place < swap.place ∧ events[place]? = some (swap.caller, began) ∧
    swap.expiresAt = deadline began swap.req.ttlMs

/-- How far a `cas` of the key has come, the swaps so far given. -/
inductive Stage (requests : κ → Request κ) (events : List (κ × UInt64)) (held : Option Content)
    (swaps : List (Swap κ)) (i : κ) (req : CasRequest) : Option Thread → Prop
  | idle (notYet : i ∉ swaps.map Swap.caller) : Stage requests events held swaps i req none
  | opening {version place : Nat} {began : UInt64} {todo : List Action}
      (begun : events[place]? = some (i, began))
      (early : todo = casProgram req (deadline began req.ttlMs) ∨
        todo = (casProgram req (deadline began req.ttlMs)).tail)
      (notYet : i ∉ swaps.map Swap.caller) :
      Stage requests events held swaps i req (some (.running version todo))
  | matched {version : Nat} {front : List Action} (swap : Swap κ) (caller : swap.caller = i)
      (same : swap.req = req) (genuine : Genuine requests req.key events swap)
      (accepted : swap.accepts held = true)
      (latest : ∀ earlier ∈ swaps, earlier.place < swap.place)
      (quiet : ∀ a ∈ front, Quiet a) (notYet : i ∉ swaps.map Swap.caller) :
      Stage requests events held swaps i req
        (some (.running version (front ++ inserting req swap.expiresAt)))
  | won {version : Nat} {front : List Action} (quiet : ∀ a ∈ front, Quiet a)
      (swapped : i ∈ swaps.map Swap.caller) :
      Stage requests events held swaps i req
        (some (.running version (front ++ [.reply (.write (.ok true))])))
  | lost {version : Nat} {front : List Action} (quiet : ∀ a ∈ front, Quiet a)
      (notYet : i ∉ swaps.map Swap.caller) :
      Stage requests events held swaps i req
        (some (.running version (front ++ [.reply (.write (.ok false))])))
  | succeeded (swapped : i ∈ swaps.map Swap.caller) :
      Stage requests events held swaps i req (some (.done (.write (.ok true))))
  | failed (notYet : i ∉ swaps.map Swap.caller) :
      Stage requests events held swaps i req (some (.done (.write (.ok false))))

variable {requests : κ → Request κ} {key : String} {events : List (κ × UInt64)}
  {held : Option Content} {swaps : List (Swap κ)} {i : κ} {req : CasRequest}
  {thread : Option Thread} {event : κ × UInt64}

theorem recalled {place : Nat} {seen : κ × UInt64} (there : events[place]? = some seen) :
    (events ++ [event])[place]? = some seen := by
  have less := (List.getElem?_eq_some_iff.mp there).1
  rw [List.getElem?_append_left less]
  exact there

theorem Genuine.mono {swap : Swap κ} (genuine : Genuine requests key events swap) :
    Genuine requests key (events ++ [event]) swap := by
  obtain ⟨requested, named, compared, place, began, before, begun, expiresAt⟩ := genuine
  exact ⟨requested, named, recalled compared, place, began, before, recalled begun, expiresAt⟩

theorem Genuine.place_lt {swap : Swap κ} (genuine : Genuine requests key events swap) :
    swap.place < events.length := (List.getElem?_eq_some_iff.mp genuine.compared).1

theorem Stage.mono (stage : Stage requests events held swaps i req thread) :
    Stage requests (events ++ [event]) held swaps i req thread := by
  cases stage with
  | idle notYet => exact .idle notYet
  | opening begun early notYet => exact .opening (recalled begun) early notYet
  | matched swap caller same genuine accepted latest quiet notYet =>
      exact .matched swap caller same genuine.mono accepted latest quiet notYet
  | won quiet swapped => exact .won quiet swapped
  | lost quiet notYet => exact .lost quiet notYet
  | succeeded swapped => exact .succeeded swapped
  | failed notYet => exact .failed notYet

/-- A swap by another call, while this one is outside the section. -/
theorem Stage.overtaken {swap : Swap κ} (other : swap.caller ≠ i)
    (outside : inSection (Thread.todo thread) = false)
    (stage : Stage requests events held swaps i req thread) :
    Stage requests events swap.leaves (swaps ++ [swap]) i req thread := by
  have kept : i ∉ swaps.map Swap.caller → i ∉ (swaps ++ [swap]).map Swap.caller := by
    intro notYet
    simpa [Ne.symm other] using notYet
  have stays : i ∈ swaps.map Swap.caller → i ∈ (swaps ++ [swap]).map Swap.caller := by
    intro swapped
    rw [List.map_append]
    exact List.mem_append_left _ swapped
  cases stage with
  | idle notYet => exact .idle (kept notYet)
  | opening begun early notYet => exact .opening begun early (kept notYet)
  | matched swap' caller same genuine accepted latest quiet notYet =>
      rw [Thread.todo_running, inSection_quiet quiet rfl] at outside
      cases outside
  | won quiet swapped => exact .won quiet (stays swapped)
  | lost quiet notYet => exact .lost quiet (kept notYet)
  | succeeded swapped => exact .succeeded (stays swapped)
  | failed notYet => exact .failed (kept notYet)

variable [Serde] [DecidableEq κ] {first final : Option Content} {pool pool' : Pool κ κ}
  {now : UInt64} {version : Nat} {action : Action} {rest : List Action} {shared : Shared κ}
  {next : Thread}

/-- The swaps of the key up to a moment of the run. -/
structure Recorded (requests : κ → Request κ) (key : String) (first : Option Content)
    (events : List (κ × UInt64)) (pool : Pool κ κ) (swaps : List (Swap κ)) : Prop where
  chain : runFrom register first swaps = some (pool.shared.server.contents key)
  once : (swaps.map Swap.caller).Nodup
  inOrder : swaps.Pairwise fun earlier later => earlier.place < later.place
  genuine : ∀ swap ∈ swaps, Genuine requests key events swap
  stages : ∀ i req, requests i = .call (.cas req) → req.key = key →
    Stage requests events (pool.shared.server.contents key) swaps i req (pool.threads i)

/-- Nobody writes a key that it does not name, and the mutex is held from
inside the sections only. -/
structure Orderly (requests : κ → Request κ) (pool : Pool κ κ) : Prop where
  leader : pool.shared.server.isReplica = false
  exclusive : pool.Exclusive (fun i updates => ∀ k ∈ touched updates, k ∈ (requests i).keys)
    fun i => i

omit [Serde] [DecidableEq κ] in
theorem orderly_start {s : KindServerImpl} (leader : s.isReplica = false) :
    Orderly requests (start s) :=
  ⟨leader, Pool.exclusive_idle (fun _ => ⟨[], fun _ member => (by cases member)⟩) (fun _ => rfl) rfl⟩

omit [Serde] in
theorem Orderly.begin (orderly : Orderly requests pool) {call : Call}
    (idle : pool.threads i = none) (made : (requests i).toCall pool.threads = some call) :
    Orderly requests ⟨pool.shared, Function.update pool.threads i
      (some (.running 0 (program pool.shared.server.isReplica now call)))⟩ := by
  rw [orderly.leader]
  refine ⟨orderly.leader, orderly.exclusive.begins (fun k named => ?_) idle⟩
  rwa [Call.touched_updates, Request.keys_toCall made] at named

theorem Orderly.act (orderly : Orderly requests pool)
    (running : pool.threads i = some (.running version (action :: rest)))
    (effect : action.Effect i now pool.shared version rest shared next) :
    Orderly requests (after pool i shared next) :=
  ⟨effect.isReplica.trans orderly.leader,
    orderly.exclusive.acts Function.injective_id running effect⟩

omit [DecidableEq κ] in
/-- A call that does not name the key leaves it alone. -/
theorem Orderly.elsewhere (orderly : Orderly requests pool)
    (running : pool.threads i = some (.running version (action :: rest)))
    (effect : action.Effect i now pool.shared version rest shared next)
    (unnamed : key ∉ (requests i).keys) :
    shared.server.contents key = pool.shared.server.contents key := by
  obtain ⟨updates, within, disciplined⟩ := orderly.exclusive.disciplined i
  rw [running] at disciplined
  have final : pending Action.written (action :: rest) <:+ updates := disciplined.1.2.2
  rw [effect.contents]
  refine overlay_untouched (fun named => unnamed (within key ?_)) _
  obtain ⟨u, member, rfl⟩ := List.mem_map.mp named
  refine List.mem_map_of_mem (final.subset ?_)
  rw [pending_cons]
  exact List.mem_append_left _ member

/-! ## One step -/

section Recording

omit [Serde] in
/-- A step that leaves the key and the swaps as they are. -/
theorem Recorded.onward (recorded : Recorded requests key first events pool swaps)
    (same : shared.server.contents key = pool.shared.server.contents key)
    (mine : ∀ req, requests i = .call (.cas req) → req.key = key →
      Stage requests (events ++ [event]) (pool.shared.server.contents key) swaps i req
        (some next)) :
    Recorded requests key first (events ++ [event]) (after pool i shared next) swaps := by
  obtain ⟨chain, once, inOrder, genuine, stages⟩ := recorded
  refine ⟨?_, once, inOrder, fun swap member => (genuine swap member).mono,
    fun j req requested named => ?_⟩
  · rw [chain]
    exact congrArg some same.symm
  · have held : (after pool i shared next).shared.server.contents key =
        pool.shared.server.contents key := same
    rw [held]
    by_cases self : j = i
    · subst self
      simpa only [after, Function.update_self] using mine req requested named
    · simpa only [after, Function.update_of_ne self] using (stages j req requested named).mono

omit [Serde] in
/-- A step that inserts. -/
theorem Recorded.insert (recorded : Recorded requests key first events pool swaps)
    {swap : Swap κ} (caller : swap.caller = i) (genuine : Genuine requests key events swap)
    (accepted : swap.accepts (pool.shared.server.contents key) = true)
    (latest : ∀ earlier ∈ swaps, earlier.place < swap.place)
    (notYet : i ∉ swaps.map Swap.caller)
    (written : shared.server.contents key = swap.leaves)
    (outside : ∀ j, j ≠ i → inSection (Thread.todo (pool.threads j)) = false)
    (mine : Stage requests (events ++ [event]) swap.leaves (swaps ++ [swap]) i swap.req
      (some next)) :
    Recorded requests key first (events ++ [event]) (after pool i shared next)
      (swaps ++ [swap]) := by
  obtain ⟨chain, once, inOrder, earlier, stages⟩ := recorded
  refine ⟨?_, ?_, ?_, fun other member => ?_, fun j req requested named => ?_⟩
  · rw [register_concat chain accepted]
    exact congrArg some written.symm
  · rw [List.map_append, List.map_singleton, caller]
    exact List.nodup_append.mpr ⟨once, List.nodup_singleton i, fun j member k single equal =>
      notYet (by rw [← List.mem_singleton.mp single, ← equal]; exact member)⟩
  · rw [List.pairwise_append]
    exact ⟨inOrder, List.pairwise_singleton _ _, fun a member b single => by
      rw [List.mem_singleton.mp single]
      exact latest a member⟩
  · rcases List.mem_append.mp member with old | new
    · exact (earlier other old).mono
    · rw [List.mem_singleton.mp new]
      exact genuine.mono
  · have held : (after pool i shared next).shared.server.contents key = swap.leaves := written
    rw [held]
    by_cases self : j = i
    · subst self
      have same : swap.req = req := by
        have asked := genuine.requested
        rw [caller, requested] at asked
        cases asked
        rfl
      simpa only [after, Function.update_self, same] using mine
    · have other : swap.caller ≠ j := fun equal => self (equal.symm.trans caller)
      have stage := (stages j req requested named).overtaken other (outside j self)
      simpa only [after, Function.update_of_ne self] using stage.mono

omit [DecidableEq κ] in
/-- The comparison of a `cas`. -/
theorem compares (requested : requests i = .call (.cas req)) {place : Nat} {began : UInt64}
    (begun : events[place]? = some (i, began))
    (fresh : ∀ earlier ∈ swaps, earlier.place < events.length)
    (notYet : i ∉ swaps.map Swap.caller)
    (effect : (Action.compare req).Effect i now pool.shared version
      (.fetchAdd :: .append (.put req.key req.newValue (deadline began req.ttlMs)) ::
        .send (.put req.key req.newValue (deadline began req.ttlMs)) ::
          inserting req (deadline began req.ttlMs)) shared next) :
    Stage requests (events ++ [(i, now)]) (pool.shared.server.contents req.key) swaps i req
      (some next) := by
  have became := effect.thread
  cases holds : pool.shared.server.casMatches req now with
  | false =>
      have lost : next = .running version ([.unlock] ++ [.reply (.write (.ok false))]) := by
        simpa [Action.endsEarly, holds, Action.takesVersion, casFailed] using became
      rw [lost]
      exact .lost (by simp [Quiet]) notYet
  | true =>
      let swap : Swap κ :=
        { caller := i, req, expiresAt := deadline began req.ttlMs, place := events.length
          comparedAt := now }
      have matched : next = .running version
          ([.fetchAdd, .append (.put req.key req.newValue (deadline began req.ttlMs)),
            .send (.put req.key req.newValue (deadline began req.ttlMs))] ++
              inserting req swap.expiresAt) := by
        simpa [Action.endsEarly, holds, Action.takesVersion] using became
      have earlier : place < events.length := (List.getElem?_eq_some_iff.mp begun).1
      have genuine : Genuine requests req.key (events ++ [(i, now)]) swap :=
        ⟨requested, rfl, by simp [swap], place, began, earlier, recalled begun, rfl⟩
      rw [matched]
      refine .matched swap rfl rfl genuine ?_ fresh (by simp [Quiet]) notYet
      exact (accepts_iff pool.shared.server swap).trans holds

/-- A step of a `cas` of the key. -/
theorem Recorded.act (recorded : Recorded requests key first events pool swaps)
    (orderly : Orderly requests pool) (requested : requests i = .call (.cas req))
    (named : req.key = key)
    (running : pool.threads i = some (.running version (action :: rest)))
    (effect : action.Effect i now pool.shared version rest shared next) :
    ∃ swaps', Recorded requests key first (events ++ [(i, now)]) (after pool i shared next)
      swaps' := by
  subst named
  have stage := recorded.stages i req requested rfl
  -- a step that writes nothing, when the stage after it is known
  have onward : shared.server.contents req.key = pool.shared.server.contents req.key →
      Stage requests (events ++ [(i, now)]) (pool.shared.server.contents req.key) swaps i req
        (some next) →
      ∃ swaps', Recorded requests req.key first (events ++ [(i, now)]) (after pool i shared next)
        swaps' := by
    intro same mine
    refine ⟨swaps, recorded.onward same fun req' requested' _ => ?_⟩
    rw [requested] at requested'
    cases requested'
    exact mine
  rw [running] at stage
  generalize todoIs : action :: rest = todo at stage
  generalize threadIs : some (Thread.running version todo) = thread at stage
  cases stage with
  | idle | succeeded | failed => cases threadIs
  | opening begun early notYet =>
      cases threadIs
      rcases early with whole | tail
      · rw [whole] at todoIs
        cases todoIs
        have became : next = .running version _ := effect.thread
        rw [became] at onward ⊢
        exact onward (effect.contents req.key) (.opening (recalled begun) (Or.inr rfl) notYet)
      · rw [tail] at todoIs
        cases todoIs
        refine onward (effect.contents req.key) (compares requested begun (fun earlier member => ?_)
          notYet effect)
        exact (recorded.genuine earlier member).place_lt
  | @matched _ front swap caller same genuine accepted latest quiet notYet =>
      cases threadIs
      cases front with
      | cons a front =>
          cases todoIs
          obtain ⟨⟨v, became⟩, kept⟩ := quiet_effect (quiet action List.mem_cons_self) effect req.key
          rw [became] at onward ⊢
          exact onward kept (.matched swap caller same genuine.mono accepted latest
            (fun a member => quiet a (List.mem_cons_of_mem _ member)) notYet)
      | nil =>
          cases todoIs
          have became : next = .running version _ := effect.thread
          have written : shared.server.contents req.key = swap.leaves := by
            rw [effect.contents]
            simp [overlay, Action.written, Swap.leaves, same]
          have inside : pool.shared.walLock = some i := by
            rw [orderly.exclusive.mutex i, running]
            rfl
          have outside : ∀ j, j ≠ i → inSection (Thread.todo (pool.threads j)) = false := by
            intro j other
            rw [← Bool.not_eq_true, ← orderly.exclusive.mutex j, inside]
            exact fun equal => other (Option.some.inj equal).symm
          refine ⟨swaps ++ [swap], recorded.insert caller genuine accepted latest notYet written
            outside ?_⟩
          have left : next = .running version
              ([.watch (putEvent req.key req.newValue), .unlock] ++ [.reply (.write (.ok true))]) :=
            became
          rw [left]
          exact .won (by simp [Quiet]) (by simp [caller])
  | @won _ front quiet swapped =>
      cases threadIs
      cases front with
      | cons a front =>
          cases todoIs
          obtain ⟨⟨v, became⟩, kept⟩ := quiet_effect (quiet action List.mem_cons_self) effect req.key
          rw [became] at onward ⊢
          exact onward kept (.won (fun a member => quiet a (List.mem_cons_of_mem _ member)) swapped)
      | nil =>
          cases todoIs
          have became : next = .done (.write (.ok true)) := effect.thread
          rw [became] at onward ⊢
          exact onward (effect.contents req.key) (.succeeded swapped)
  | @lost _ front quiet notYet =>
      cases threadIs
      cases front with
      | cons a front =>
          cases todoIs
          obtain ⟨⟨v, became⟩, kept⟩ := quiet_effect (quiet action List.mem_cons_self) effect req.key
          rw [became] at onward ⊢
          exact onward kept (.lost (fun a member => quiet a (List.mem_cons_of_mem _ member)) notYet)
      | nil =>
          cases todoIs
          have became : next = .done (.write (.ok false)) := effect.thread
          rw [became] at onward ⊢
          exact onward (effect.contents req.key) (.failed notYet)

end Recording

end Pools

/-! ## Two owners of a lock -/

end KindDb.CasChain
