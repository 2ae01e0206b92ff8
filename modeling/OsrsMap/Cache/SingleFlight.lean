import OsrsMap.Cache.Ttl
import OsrsMap.Library.SharedLock

/-!
# One fetch at a time

What the in-flight locks of `TtlCache` are for: requests for one key share one fetch. At most one
fetch of a key is in progress at any time. That none starts while the value of an earlier one is
still fresh fails when a fetch starts between the moment a lock's handle leaves the map and the
moment the value is stored; and a handle stays in the map for good when the last request that holds
it returns at its second lookup, where the source does not take the handle out.
-/

namespace OsrsMap.Cache

open Run
open Std (TreeMap)

variable {Value : Type*}

/-! ## What is watched -/

/-- A fetch that was answered with a value. -/
structure Ended where
  id : ℕ
  key : String
  time : ℕ
deriving DecidableEq, Repr

/-- The cache. Not of the code: the fetches that were answered with a value, and whether a fetch
started within its `ttl` of one of them. -/
structure Watched (Value : Type*) where
  state : State Value
  ended : List Ended
  early : Bool

def Phase.isFetching : Phase Value → Bool
  | .fetching _ => true
  | _ => false

/-- The handle is out of the map, and a value is still to be stored. -/
def Phase.isStoring : Phase Value → Bool
  | .settling _ (.ok _) => true
  | _ => false

namespace State

/-- The request that starts its fetch when it goes on. -/
def startsFetch (state : State Value) (id : ℕ) : Option (Request Value) :=
  match state.requests id with
  | none => none
  | some request =>
    match request.phase with
    | .guarding _ =>
      match state.cache.lookup state.now request.key request.ttl with
      | some _ => none
      | none => some request
    | _ => none

/-- The request whose fetch ends when it is answered. -/
def endsFetch (state : State Value) (id : ℕ) : Option (Request Value) :=
  (state.requests id).filter fun request ↦ request.phase.isFetching

end State

namespace Watched

def start : Watched Value where
  state := Cache.start
  ended := []
  early := false

def step (watched : Watched Value) (event : Event Value) : Watched Value :=
  let state := Cache.step watched.state event
  match event with
  | .advance id =>
    match watched.state.startsFetch id with
    | some request =>
      let fresh := watched.ended.any fun fetch ↦
        fetch.key == request.key && decide (watched.state.now < fetch.time + request.ttl)
      { watched with state, early := watched.early || fresh }
    | none => { watched with state }
  | .answer id (.ok _) =>
    match watched.state.endsFetch id with
    | some request =>
      let fetch := { id, key := request.key, time := watched.state.now }
      { watched with state, ended := fetch :: watched.ended }
    | none => { watched with state }
  | _ => { watched with state }

/-- At most one fetch of a key is in progress, none has started while the value of an earlier one
was fresh, and no handle stays in the map when nobody asks for its key. -/
structure SingleFlight (watched : Watched Value) : Prop where
  one : ∀ id id' request request', watched.state.requests id = some request →
    watched.state.requests id' = some request' → request.key = request'.key →
    request.phase.isFetching = true → request'.phase.isFetching = true → id = id'
  late : watched.early = false
  dropped : ∀ key, (∀ id request, watched.state.requests id = some request → request.key ≠ key) →
    watched.state.cache.inFlight[key]? = none

/-- A request that finds the value at its second lookup is not the last with a handle of the lock.
One that does not, and so starts a fetch, leaves no value of its key still to be stored that was
fetched within its `ttl`. -/
def KeepsFlight (watched : Watched Value) : Event Value → Prop
  | .advance id =>
    match watched.state.requests id with
    | some { key, ttl, phase := .guarding lock } =>
      match watched.state.cache.lookup watched.state.now key ttl with
      | some _ => 2 < watched.state.strongCount lock
      | none => ∀ fetch ∈ watched.ended, fetch.key = key →
          ((watched.state.requests fetch.id).any fun other ↦
            other.key == key && other.phase.isStoring) = true →
          fetch.time + ttl ≤ watched.state.now
    | _ => True
  | _ => True

end Watched

/-! ## The locks -/

/-- The lock a request has a handle of, and what it does with it. -/
def Phase.holding : Phase Value → Option (Lock × SharedLock.Stage)
  | .asked | .missed => none
  | .waiting lock => some (lock, .waiting)
  | .guarding lock | .fetching lock | .fetched lock _ => some (lock, .working)
  | .settling lock _ => some (lock, .leaving)

def Request.holder (request : Request Value) : Option (SharedLock.Holder String) :=
  request.phase.holding.map fun held ↦ { key := request.key, lock := held.1, stage := held.2 }

namespace State

/-- The in-flight map and the handles of the requests, as a table of shared locks. -/
def locks (state : State Value) : SharedLock.Table String ℕ where
  handle key := state.cache.inFlight[key]?
  holder id := (state.requests id).bind Request.holder
  count := state.strongCount
  guarded := state.guarded
  next := state.nextLock

/-- The request finds the value at its second lookup. -/
def FindsAtSecond (state : State Value) (id : ℕ) : Prop :=
  ∃ request lock found, state.requests id = some request ∧ request.phase = .guarding lock ∧
    state.cache.lookup state.now request.key request.ttl = some found

variable {state : State Value} {id : ℕ} {request : Request Value} {lock : Lock}

theorem holder_locks (hrequest : state.requests id = some request) :
    state.locks.holder id = request.holder := by
  simp only [locks, hrequest, Option.bind_some]

/-- A request that keeps its hold on the lock changes nothing about the locks. -/
theorem locks_enter (hrequest : state.requests id = some request) {phase : Phase Value}
    (hphase : phase.holding = request.phase.holding) : (state.enter id request phase).locks = state.locks := by
  have hholder : Request.holder { request with phase } = request.holder := by
    simp only [Request.holder, hphase]
  unfold locks enter
  congr 1
  funext id'
  by_cases hid : id' = id
  · simp only [hid, Function.update_self, Option.bind_some, hrequest, hholder]
  · simp only [Function.update_of_ne hid]

theorem holder_update (requests : ℕ → Option (Request Value)) (id : ℕ) (request : Option (Request Value)) :
    (fun id' ↦ (Function.update requests id request id').bind Request.holder) =
      Function.update (fun id' ↦ (requests id').bind Request.holder) id (request.bind Request.holder) := by
  funext id'
  by_cases hid : id' = id
  · simp only [hid, Function.update_self]
  · simp only [Function.update_of_ne hid]

theorem locks_takeHandle (state : State Value) (id : ℕ) (request : Request Value) :
    ((state.takeHandle request.key).2.enter id request
      (.waiting (state.takeHandle request.key).1)).locks = state.locks.take id request.key := by
  unfold takeHandle SharedLock.Table.take
  cases hkey : state.cache.inFlight[request.key]? with
  | some lock =>
    simp only [locks, enter, hkey, holder_update]
    rfl
  | none =>
    simp only [locks, enter, hkey, holder_update]
    congr 1
    funext key
    simp only [TreeMap.getElem?_insert, Std.LawfulEqCmp.compare_eq_iff_eq, Function.update_apply,
      @eq_comm _ key]

theorem locks_removeHandle (state : State Value) (id : ℕ) (request : Request Value) (lock : Lock)
    (result : Except HubError Value) :
    ((state.removeHandle request.key lock).enter id request (.settling lock result)).locks =
      state.locks.leave id { key := request.key, lock, stage := .working } := by
  unfold removeHandle SharedLock.Table.leave
  by_cases hlast : state.strongCount lock ≤ 2
  · cases hkey : state.cache.inFlight[request.key]? with
    | some removed =>
      simp only [locks, enter, hkey, holder_update, hlast, if_true]
      congr 1
      funext key
      simp only [TreeMap.getElem?_erase, Std.LawfulEqCmp.compare_eq_iff_eq, Function.update_apply,
        @eq_comm _ key]
    | none =>
      simp only [locks, enter, hkey, holder_update, hlast, if_true]
      rfl
  · simp only [locks, enter, holder_update, hlast, if_false]
    rfl

theorem locks_finish (state : State Value) (id : ℕ) (request : Request Value) (lock : Lock)
    (stage : SharedLock.Stage) (result : Except HubError (Value × ℕ)) :
    (state.finish id request (some lock) result).locks =
      state.locks.release id { key := request.key, lock, stage } := by
  simp only [finish, locks, holder_update]
  rfl

theorem locks_ended (hrequest : state.requests id = some request) (hphase : request.phase.holding = none)
    (result : Except HubError (Value × ℕ)) : (state.finish id request none result).locks = state.locks := by
  have hnone : request.holder = none := by simp only [Request.holder, hphase, Option.map_none]
  simp only [finish, locks, holder_update, Option.bind_none]
  congr 1
  funext id'
  by_cases hid : id' = id
  · simp only [hid, Function.update_self, hrequest, Option.bind_some, hnone]
  · rw [Function.update_of_ne hid]

theorem locks_settle (state : State Value) (id : ℕ) (request : Request Value) (lock : Lock)
    (result : Except HubError Value) : (state.settle id request lock result).locks =
      state.locks.release id { key := request.key, lock, stage := .leaving } := by
  unfold settle
  cases result with
  | ok value => exact locks_finish _ id request lock .leaving _
  | error err =>
    have hstale (err : HubError) : State.locks
        (match state.cache.lookup state.now request.key maxStale with
          | some found => state.finish id request lock (.ok found)
          | none => state.finish id request lock (.error err)) =
        state.locks.release id { key := request.key, lock, stage := .leaving } := by
      split <;> exact locks_finish _ id request lock .leaving _
    cases err with
    | rateLimited after => exact hstale _
    | other message => exact hstale _
    | unauthorized => exact locks_finish _ id request lock .leaving _
    | notFound => exact locks_finish _ id request lock .leaving _
    | invalid message => exact locks_finish _ id request lock .leaving _

/-- Whatever a request does next, it is a step of the locks. -/
theorem locks_advance (state : State Value) (id : ℕ) :
    SharedLock.Table.Step (state.FindsAtSecond id) state.locks id (state.advance id).locks := by
  unfold advance
  cases hrequest : state.requests id with
  | none => exact .same
  | some request =>
    have hholder := holder_locks hrequest
    dsimp only
    cases hphase : request.phase with
    | asked =>
      dsimp only
      split
      · rw [locks_ended hrequest (by rw [hphase]; rfl)]
        exact .same
      · rw [locks_enter hrequest (by rw [hphase]; rfl)]
        exact .same
    | missed =>
      rw [locks_takeHandle]
      apply SharedLock.Table.Step.take
      rw [hholder, Request.holder, hphase]
      rfl
    | waiting lock =>
      dsimp only
      split
      · exact .same
      · next hfree =>
        have hacquired : State.locks ({ state with guarded := Function.update state.guarded lock true }.enter
            id request (.guarding lock)) =
            state.locks.acquire id { key := request.key, lock, stage := .waiting } := by
          simp only [locks, enter, holder_update]
          rfl
        rw [hacquired]
        apply SharedLock.Table.Step.acquire
        · rw [hholder, Request.holder, hphase]
          rfl
        · rfl
        · exact Bool.eq_false_iff.mpr hfree
    | guarding lock =>
      dsimp only
      split
      · next found hfound =>
        rw [locks_finish _ id request lock .working]
        apply SharedLock.Table.Step.release
        · rw [hholder, Request.holder, hphase]
          rfl
        · simp
        · exact fun _ ↦ ⟨request, lock, found, hrequest, hphase, hfound⟩
      · rw [locks_enter hrequest (by rw [hphase]; rfl)]
        exact .same
    | fetching lock => exact .same
    | fetched lock result =>
      rw [locks_removeHandle]
      apply SharedLock.Table.Step.leave
      · rw [hholder, Request.holder, hphase]
        rfl
      · rfl
    | settling lock result =>
      rw [locks_settle]
      apply SharedLock.Table.Step.release
      · rw [hholder, Request.holder, hphase]
        rfl
      · simp
      · simp

theorem locks_answer (state : State Value) (id : ℕ) (result : Except HubError Value) :
    (state.answer id result).locks = state.locks := by
  unfold answer
  cases hrequest : state.requests id with
  | none => rfl
  | some request =>
    dsimp only
    split
    · next lock hphase => exact locks_enter hrequest (by rw [hphase]; rfl)
    · rfl

theorem locks_ask (state : State Value) (id : ℕ) (key : String) (ttl : ℕ) :
    (state.ask id key ttl).locks = state.locks := by
  unfold ask
  cases hrequest : state.requests id with
  | some request => rfl
  | none =>
    simp only [enter, locks, holder_update]
    congr 1
    funext id'
    by_cases hid : id' = id
    · rw [hid, Function.update_self, hrequest]
      rfl
    · rw [Function.update_of_ne hid]

end State

/-- What a step does to the locks: those of one request change, if any do. -/
theorem locks_step (state : State Value) (event : Event Value) :
    (step state event).locks = state.locks ∨
      ∃ id, event = .advance id ∧
        SharedLock.Table.Step (state.FindsAtSecond id) state.locks id (step state event).locks := by
  cases event with
  | ask id key ttl => exact .inl (state.locks_ask id key ttl)
  | advance id => exact .inr ⟨id, rfl, state.locks_advance id⟩
  | answer id result => exact .inl (state.locks_answer id result)
  | pass time => exact .inl rfl

theorem sound_locks_step {state : State Value} (h : state.locks.Sound) (event : Event Value) :
    (step state event).locks.Sound := by
  obtain hsame | ⟨id, -, hstep⟩ := locks_step state event
  · rwa [hsame]
  · exact h.step hstep

theorem now_finish (state : State Value) (id : ℕ) (request : Request Value) (lock : Option Lock)
    (result : Except HubError (Value × ℕ)) : (state.finish id request lock result).now = state.now := by
  cases lock <;> rfl

theorem now_settle (state : State Value) (id : ℕ) (request : Request Value) (lock : Lock)
    (result : Except HubError Value) : (state.settle id request lock result).now = state.now := by
  unfold State.settle
  cases result with
  | ok value => exact now_finish ..
  | error err =>
    have hstale (err : HubError) : State.now
        (match state.cache.lookup state.now request.key maxStale with
          | some found => state.finish id request (some lock) (.ok found)
          | none => state.finish id request (some lock) (.error err)) = state.now := by
      split <;> exact now_finish ..
    cases err with
    | rateLimited after => exact hstale _
    | other message => exact hstale _
    | unauthorized => exact now_finish ..
    | notFound => exact now_finish ..
    | invalid message => exact now_finish ..

theorem now_advance (state : State Value) (id : ℕ) : (state.advance id).now = state.now := by
  unfold State.advance
  split
  · rfl
  · split
    · split
      · exact now_finish ..
      · rfl
    · unfold State.takeHandle
      dsimp only
      split <;> rfl
    · split <;> rfl
    · split
      · exact now_finish ..
      · rfl
    · rfl
    · unfold State.removeHandle
      split
      · split <;> rfl
      · rfl
    · exact now_settle ..

theorem le_now_step (state : State Value) (event : Event Value) : state.now ≤ (step state event).now := by
  cases event with
  | ask id key ttl =>
    change state.now ≤ (state.ask id key ttl).now
    unfold State.ask
    split <;> exact le_rfl
  | advance id => exact (now_advance state id).ge
  | answer id result =>
    change state.now ≤ (state.answer id result).now
    obtain hsame | ⟨request, lock, -, hnext⟩ := answer_cases state id result
    · rw [hsame]
    · rw [hnext]
      exact le_rfl
  | pass time => exact Nat.le_add_right _ _

/-! ## The entries -/

namespace TtlCache

variable {cache : TtlCache Value} {keys : Finset String}

/-- The cache has entries under some keys only. -/
def Within (cache : TtlCache Value) (keys : Finset String) : Prop :=
  ∀ (key : String) (entry : Entry Value), cache.entries[key]? = some entry → key ∈ keys

theorem Within.size_le (h : cache.Within keys) : cache.entries.size ≤ keys.card := by
  have hnodup : cache.entries.keys.Nodup := by
    refine TreeMap.distinct_keys.imp fun hne hsame ↦ ?_
    exact hne (Std.LawfulEqCmp.compare_eq_iff_eq.mpr hsame)
  have hsub : cache.entries.keys.toFinset ⊆ keys := by
    intro key hkey
    obtain ⟨entry, hentry⟩ : ∃ entry, cache.entries[key]? = some entry := by
      rw [List.mem_toFinset, TreeMap.mem_keys] at hkey
      exact ⟨_, TreeMap.getElem?_eq_some_getElem hkey⟩
    exact h key entry hentry
  rw [← TreeMap.length_keys, ← List.toFinset_card_of_nodup hnodup]
  exact Finset.card_le_card hsub

/-- With few keys in use, a store only changes the entry of its key. -/
theorem Within.entries_store (h : cache.Within keys) (hkeys : keys.card < maxEntries) (now : ℕ)
    (key : String) (value : Value) (key' : String) :
    (cache.store now key value).entries[key']? =
      if key = key' then some { storedAt := now, value } else cache.entries[key']? := by
  have hroom : ¬ maxEntries ≤ cache.entries.size := not_le.mpr (h.size_le.trans_lt hkeys)
  unfold store makeRoom
  simp only [if_neg hroom, TreeMap.getElem?_insert, Std.LawfulEqCmp.compare_eq_iff_eq]

theorem Within.store (h : cache.Within keys) {key : String} (hkey : key ∈ keys) (now : ℕ)
    (value : Value) : (cache.store now key value).Within keys := by
  intro key' entry hentry
  obtain ⟨rfl, -⟩ | hbefore := entry_of_store hentry
  · exact hkey
  · exact h key' entry hbefore

end TtlCache

/-- The requests and the entries are of some keys only. -/
structure InUse (keys : Finset String) (state : State Value) : Prop where
  entries : state.cache.Within keys
  requests : ∀ id request, state.requests id = some request → request.key ∈ keys

/-- The value of the fetch is stored, or its request still has it. -/
def Fetched (state : State Value) (fetch : Ended) : Prop :=
  (∃ entry, state.cache.entries[fetch.key]? = some entry ∧ fetch.time ≤ entry.storedAt) ∨
    ∃ request value, state.requests fetch.id = some request ∧ request.key = fetch.key ∧
      request.phase.result = some (.ok value)

variable {keys : Finset String} {state : State Value} {fetch : Ended}

theorem InUse.step (h : InUse keys state) (event : Event Value)
    (hasked : ∀ id key ttl, event = .ask id key ttl → key ∈ keys) : InUse keys (step state event) := by
  cases event with
  | pass time => exact ⟨h.entries, h.requests⟩
  | ask id key ttl =>
    change InUse keys (state.ask id key ttl)
    unfold State.ask
    cases hrequest : state.requests id with
    | some request => exact h
    | none =>
      refine ⟨h.entries, fun id' request' hrequest' ↦ ?_⟩
      simp only [State.enter, Function.update_apply] at hrequest'
      split at hrequest'
      · obtain rfl := Option.some.inj hrequest'
        exact hasked id key ttl rfl
      · exact h.requests id' request' hrequest'
  | answer id result =>
    obtain hsame | ⟨request, lock, hrequest, hnext⟩ := answer_cases state id result
    · change InUse keys (state.answer id result)
      rwa [hsame]
    · change InUse keys (state.answer id result)
      rw [hnext]
      refine ⟨h.entries, fun id' request' hrequest' ↦ ?_⟩
      simp only [State.enter, Function.update_apply] at hrequest'
      split at hrequest'
      · obtain rfl := Option.some.inj hrequest'
        exact h.requests id request hrequest
      · exact h.requests id' request' hrequest'
  | advance id =>
    change InUse keys (state.advance id)
    cases state.advances_advance id with
    | stays same nothing => rwa [same]
    | moves request phase asked nothing result history entries requests =>
      refine ⟨fun key entry hentry ↦ h.entries key entry (entries ▸ hentry), fun id' request' hrequest' ↦ ?_⟩
      rw [requests, Function.update_apply] at hrequest'
      split at hrequest'
      · obtain rfl := Option.some.inj hrequest'
        exact h.requests id request asked
      · exact h.requests id' request' hrequest'
    | ends request result asked returned history entries requests =>
      refine ⟨?_, fun id' request' hrequest' ↦ ?_⟩
      · obtain hsame | ⟨value, -, hstored⟩ := entries
        · exact fun key entry hentry ↦ h.entries key entry (hsame ▸ hentry)
        · have hstore := h.entries.store (h.requests id request asked) state.now value
          exact fun key entry hentry ↦ hstore key entry (hstored ▸ hentry)
      · rw [requests, Function.update_apply] at hrequest'
        split at hrequest'
        · exact absurd hrequest' (by simp)
        · exact h.requests id' request' hrequest'

/-- The value a request has been answered with goes on to be stored. -/
theorem fetched_advance_own (h : InUse keys state) (hkeys : keys.card < maxEntries)
    (htime : fetch.time ≤ state.now) {request : Request Value} {value : Value}
    (hrequest : state.requests fetch.id = some request) (hkey : request.key = fetch.key)
    (hresult : request.phase.result = some (.ok value)) : Fetched (state.advance fetch.id) fetch := by
  unfold State.advance
  rw [hrequest]
  dsimp only
  cases hphase : request.phase with
  | fetched lock result =>
    right
    refine ⟨{ request with phase := .settling lock result }, value, ?_, hkey, ?_⟩
    · simp only [State.enter, Function.update_self]
    · rwa [hphase] at hresult
  | settling lock result =>
    left
    obtain rfl : result = .ok value := by
      rw [hphase] at hresult
      exact Option.some.inj hresult
    refine ⟨{ storedAt := state.now, value }, ?_, htime⟩
    dsimp only [State.settle]
    rw [State.cache_finish, h.entries.entries_store hkeys, if_pos hkey]
  | asked => simp [Phase.result, hphase] at hresult
  | missed => simp [Phase.result, hphase] at hresult
  | waiting lock => simp [Phase.result, hphase] at hresult
  | guarding lock => simp [Phase.result, hphase] at hresult
  | fetching lock => simp [Phase.result, hphase] at hresult

theorem Fetched.advance (hfetched : Fetched state fetch) (h : InUse keys state)
    (hkeys : keys.card < maxEntries) (htime : fetch.time ≤ state.now) (id : ℕ) :
    Fetched (state.advance id) fetch := by
  obtain ⟨entry, hentry, hle⟩ | ⟨request, value, hrequest, hkey, hresult⟩ := hfetched
  · left
    cases state.advances_advance id with
    | stays same nothing => exact ⟨entry, by rwa [same], hle⟩
    | moves request phase asked nothing result history entries requests =>
      exact ⟨entry, entries ▸ hentry, hle⟩
    | ends request result asked returned history entries requests =>
      obtain hsame | ⟨value, -, hstored⟩ := entries
      · exact ⟨entry, hsame ▸ hentry, hle⟩
      · rw [hstored, h.entries.entries_store hkeys]
        split
        · exact ⟨_, rfl, htime⟩
        · exact ⟨entry, hentry, hle⟩
  · by_cases hid : fetch.id = id
    · rw [← hid]
      exact fetched_advance_own h hkeys htime hrequest hkey hresult
    · right
      refine ⟨request, value, ?_, hkey, hresult⟩
      cases state.advances_advance id with
      | stays same nothing => rwa [same]
      | moves other phase asked nothing result history entries requests =>
        rw [requests, Function.update_of_ne hid]
        exact hrequest
      | ends other result asked returned history entries requests =>
        rw [requests, Function.update_of_ne hid]
        exact hrequest

theorem Fetched.answer (hfetched : Fetched state fetch) (id : ℕ) (result : Except HubError Value) :
    Fetched (state.answer id result) fetch := by
  unfold State.answer
  cases hrequest : state.requests id with
  | none => exact hfetched
  | some request =>
    dsimp only
    split
    · next lock hphase =>
      obtain hstored | ⟨other, value, hother, hkey, hresult⟩ := hfetched
      · exact .inl hstored
      · have hid : fetch.id ≠ id := by
          intro hid
          obtain rfl := Option.some.inj (hrequest.symm.trans (hid ▸ hother))
          simp [hphase, Phase.result] at hresult
        exact .inr ⟨other, value, (Function.update_of_ne hid _ _).trans hother, hkey, hresult⟩
    · exact hfetched

theorem Fetched.ask (hfetched : Fetched state fetch) (id : ℕ) (key : String) (ttl : ℕ) :
    Fetched (state.ask id key ttl) fetch := by
  unfold State.ask
  cases hrequest : state.requests id with
  | some request => exact hfetched
  | none =>
    obtain hstored | ⟨other, value, hother, hkey, hresult⟩ := hfetched
    · exact .inl hstored
    · have hid : fetch.id ≠ id := by
        rintro rfl
        exact absurd (hrequest.symm.trans hother) (by simp)
      exact .inr ⟨other, value, (Function.update_of_ne hid _ _).trans hother, hkey, hresult⟩

/-! ## The run -/

namespace Watched

variable {watched : Watched Value}

/-- What holds in every run whose steps keep the flight single. -/
structure Sound (keys : Finset String) (watched : Watched Value) : Prop where
  locks : watched.state.locks.Sound
  kept : watched.state.locks.Kept
  inUse : InUse keys watched.state
  ended : ∀ fetch ∈ watched.ended, fetch.time ≤ watched.state.now ∧ Fetched watched.state fetch
  late : watched.early = false

theorem state_step (watched : Watched Value) (event : Event Value) :
    (watched.step event).state = Cache.step watched.state event := by
  cases event with
  | ask id key ttl => rfl
  | pass time => rfl
  | advance id =>
    unfold step
    dsimp only
    split <;> rfl
  | answer id result =>
    cases result with
    | error err => rfl
    | ok value =>
      unfold step
      dsimp only
      split <;> rfl

/-- A request that fetches or is about to has the lock to itself. -/
theorem Sound.one (h : Sound keys watched) {id id' : ℕ} {request request' : Request Value}
    {lock lock' : Lock} (hrequest : watched.state.requests id = some request)
    (hrequest' : watched.state.requests id' = some request')
    (hholding : request.phase.holding = some (lock, .working))
    (hholding' : request'.phase.holding = some (lock', .working)) (hkey : request.key = request'.key) :
    id = id' := by
  have hholder : watched.state.locks.holder id = some { key := request.key, lock, stage := .working } := by
    rw [State.holder_locks hrequest, Request.holder, hholding]
    rfl
  have hholder' : watched.state.locks.holder id' =
      some { key := request'.key, lock := lock', stage := .working } := by
    rw [State.holder_locks hrequest', Request.holder, hholding']
    rfl
  exact h.locks.one hholder hholder' rfl rfl hkey

/-- What was fetched within the `ttl` of a request that misses it is still to be stored. -/
theorem Sound.late_start (h : Sound keys watched) {id : ℕ} {request : Request Value} {lock : Lock}
    (hrequest : watched.state.requests id = some request) (hphase : request.phase = .guarding lock)
    (hmiss : watched.state.cache.lookup watched.state.now request.key request.ttl = none)
    {fetch : Ended} (hfetch : fetch ∈ watched.ended) (hkey : fetch.key = request.key) :
    fetch.time + request.ttl ≤ watched.state.now ∨
      ((watched.state.requests fetch.id).any fun other ↦
        other.key == request.key && other.phase.isStoring) = true := by
  obtain ⟨htime, ⟨entry, hentry, hle⟩ | ⟨other, value, hother, hkey', hresult⟩⟩ := h.ended fetch hfetch
  · left
    rw [TtlCache.lookup_eq_none_iff] at hmiss
    have hold := hmiss entry (hkey ▸ hentry)
    omega
  · right
    have hsame : other.key = request.key := hkey'.trans hkey
    cases hother' : other.phase with
    | fetched lock' result =>
      have hholding : request.phase.holding = some (lock, .working) := by
        rw [hphase]
        rfl
      have hholding' : other.phase.holding = some (lock', .working) := by
        rw [hother']
        rfl
      have hid := h.one hrequest hother hholding hholding' hsame.symm
      obtain rfl := Option.some.inj (hrequest.symm.trans (hid ▸ hother))
      simp [hphase] at hother'
    | settling lock' result =>
      obtain rfl : result = .ok value := by
        rw [hother'] at hresult
        exact Option.some.inj hresult
      simp [hother, hsame, hother', Phase.isStoring]
    | asked => simp [hother', Phase.result] at hresult
    | missed => simp [hother', Phase.result] at hresult
    | waiting lock => simp [hother', Phase.result] at hresult
    | guarding lock => simp [hother', Phase.result] at hresult
    | fetching lock => simp [hother', Phase.result] at hresult

theorem Sound.early_advance (h : Sound keys watched) (id : ℕ) (hkeeps : watched.KeepsFlight (.advance id)) :
    (watched.step (.advance id)).early = false := by
  unfold step
  dsimp only
  cases hstarts : watched.state.startsFetch id with
  | none => exact h.late
  | some request =>
    unfold State.startsFetch at hstarts
    unfold KeepsFlight at hkeeps
    cases hrequest : watched.state.requests id with
    | none => simp [hrequest] at hstarts
    | some asked =>
      obtain ⟨key, ttl, phase⟩ := asked
      cases phase with
      | guarding lock =>
        cases hlookup : watched.state.cache.lookup watched.state.now key ttl with
        | some found => simp [hrequest, hlookup] at hstarts
        | none =>
          simp only [hrequest, hlookup, Option.some.injEq] at hstarts hkeeps
          subst hstarts
          have hfresh (fetch : Ended) (hfetch : fetch ∈ watched.ended) (hkey : fetch.key = key) :
              fetch.time + ttl ≤ watched.state.now := by
            obtain hlate | hstoring := h.late_start hrequest rfl hlookup hfetch hkey
            · exact hlate
            · exact hkeeps fetch hfetch hkey hstoring
          simpa [h.late] using hfresh
      | _ => simp [hrequest] at hstarts

theorem Sound.kept_advance (h : Sound keys watched) (id : ℕ) (hkeeps : watched.KeepsFlight (.advance id)) :
    (Cache.step watched.state (.advance id)).locks.Kept := by
  refine h.kept.step h.locks ?_ (watched.state.locks_advance id)
  rintro ⟨request, lock, found, hrequest, hphase, hfound⟩ holder hholder
  rw [State.holder_locks hrequest, Request.holder, hphase] at hholder
  obtain rfl := Option.some.inj hholder
  obtain ⟨key, ttl, phase⟩ := request
  obtain rfl : phase = .guarding lock := hphase
  have hcount : 2 < watched.state.strongCount lock := by
    simpa [KeepsFlight, hrequest, hfound] using hkeeps
  exact hcount

/-- What is noted of a fetch that ends with a value. -/
theorem mem_ended_step {event : Event Value} {fetch : Ended}
    (hfetch : fetch ∈ (watched.step event).ended) : fetch ∈ watched.ended ∨
      ∃ request value, watched.state.requests fetch.id = some request ∧ request.phase.isFetching = true ∧
        request.key = fetch.key ∧ fetch.time = watched.state.now ∧ event = .answer fetch.id (.ok value) := by
  cases event with
  | ask id key ttl => exact .inl hfetch
  | pass time => exact .inl hfetch
  | advance id =>
    unfold step at hfetch
    dsimp only at hfetch
    split at hfetch <;> exact .inl hfetch
  | answer id result =>
    cases result with
    | error err => exact .inl hfetch
    | ok value =>
      unfold step at hfetch
      dsimp only at hfetch
      split at hfetch
      · next request hends =>
        obtain ⟨hrequest, hfetching⟩ := Option.filter_eq_some_iff.mp hends
        obtain rfl | hbefore := List.mem_cons.mp hfetch
        · exact .inr ⟨request, value, hrequest, hfetching, rfl, rfl, rfl⟩
        · exact .inl hbefore
      · exact .inl hfetch

theorem fetched_answer_own {fetch : Ended} {request : Request Value} {value : Value}
    (hrequest : state.requests fetch.id = some request) (hfetching : request.phase.isFetching = true)
    (hkey : request.key = fetch.key) : Fetched (state.answer fetch.id (.ok value)) fetch := by
  unfold State.answer
  rw [hrequest]
  dsimp only
  cases hphase : request.phase with
  | fetching lock =>
    right
    exact ⟨{ request with phase := .fetched lock (.ok value) }, value, Function.update_self .., hkey, rfl⟩
  | _ => simp [Phase.isFetching, hphase] at hfetching

theorem Sound.ended_step (h : Sound keys watched) (hkeys : keys.card < maxEntries) (event : Event Value)
    {fetch : Ended} (hfetch : fetch ∈ (watched.step event).ended) :
    fetch.time ≤ (Cache.step watched.state event).now ∧ Fetched (Cache.step watched.state event) fetch := by
  have hnow := le_now_step watched.state event
  obtain hbefore | ⟨request, value, hrequest, hfetching, hkey, htime, rfl⟩ := mem_ended_step hfetch
  · obtain ⟨htime, hfetched⟩ := h.ended fetch hbefore
    refine ⟨htime.trans hnow, ?_⟩
    cases event with
    | ask id key ttl => exact hfetched.ask id key ttl
    | advance id => exact hfetched.advance h.inUse hkeys htime id
    | answer id result => exact hfetched.answer id result
    | pass time => exact hfetched
  · exact ⟨htime.le.trans hnow, fetched_answer_own hrequest hfetching hkey⟩

theorem Sound.step (h : Sound keys watched) (hkeys : keys.card < maxEntries) (event : Event Value)
    (hasked : ∀ id key ttl, event = .ask id key ttl → key ∈ keys) (hkeeps : watched.KeepsFlight event) :
    Sound keys (watched.step event) where
  locks := by
    rw [state_step]
    exact sound_locks_step h.locks event
  kept := by
    rw [state_step]
    obtain hsame | ⟨id, rfl, -⟩ := locks_step watched.state event
    · rw [hsame]
      exact h.kept
    · exact h.kept_advance id hkeeps
  inUse := by
    rw [state_step]
    exact h.inUse.step event hasked
  ended fetch hfetch := by
    rw [state_step]
    exact h.ended_step hkeys event hfetch
  late := by
    cases event with
    | ask id key ttl => exact h.late
    | pass time => exact h.late
    | advance id => exact h.early_advance id hkeeps
    | answer id result =>
      cases result with
      | error err => exact h.late
      | ok value =>
        unfold Watched.step
        dsimp only
        split <;> exact h.late

theorem Sound.singleFlight (h : Sound keys watched) : SingleFlight watched where
  one id id' request request' hrequest hrequest' hkey hfetching hfetching' := by
    have hworking {request : Request Value} (hfetching : request.phase.isFetching = true) :
        ∃ lock, request.phase.holding = some (lock, .working) := by
      cases hphase : request.phase with
      | fetching lock => exact ⟨lock, rfl⟩
      | _ => simp [hphase, Phase.isFetching] at hfetching
    obtain ⟨lock, hholding⟩ := hworking hfetching
    obtain ⟨lock', hholding'⟩ := hworking hfetching'
    exact h.one hrequest hrequest' hholding hholding' hkey
  late := h.late
  dropped key hidle := by
    rw [Option.eq_none_iff_forall_ne_some]
    intro lock hlock
    obtain ⟨id, holder, hholder, rfl, hstage⟩ := h.kept key lock hlock
    have hkey := h.locks.owned _ _ _ (h.locks.mapped id holder hholder hstage) hlock
    obtain ⟨request, hrequest, hheld⟩ := Option.bind_eq_some_iff.mp hholder
    obtain ⟨held, -, rfl⟩ := Option.map_eq_some_iff.mp hheld
    exact hidle id request hrequest hkey

theorem sound_start : Sound keys (start : Watched Value) := by
  refine ⟨?_, ?_, ⟨?_, ?_⟩, ?_, rfl⟩
  · constructor <;> simp [start, Cache.start, State.locks]
  · simp [SharedLock.Table.Kept, start, Cache.start, State.locks]
  · simp [TtlCache.Within, start, Cache.start]
  · simp [start, Cache.start]
  · simp [start]

/-- The fetches of each key are one at a time, none starts while the value of another is fresh, and
no handle stays in the map, in the runs that store a value before the next request misses it, and in
which whoever finds one at its second lookup leaves others to take the handle out. -/
theorem singleFlight_of_keepsFlight (keys : Finset String) (hkeys : keys.card < maxEntries)
    (events : List (Event Value)) (hasked : ∀ id key ttl, .ask id key ttl ∈ events → key ∈ keys)
    (hkeeps : Along step KeepsFlight start events) : Always step SingleFlight start events := by
  have hasked' : Along step (fun (_ : Watched Value) event ↦ ∀ id key ttl, event = .ask id key ttl → key ∈ keys)
      start events := by
    apply along_of_forall_mem
    rintro event hevent id key ttl rfl
    exact hasked id key ttl hevent
  have hsound : Always step (Sound keys) start events :=
    always_of_along (fun _ event h hgood ↦ h.step hkeys event hgood.1 hgood.2) sound_start
      (along_and hasked' hkeeps)
  exact hsound.mono fun _ h ↦ h.singleFlight

instance decidableKeepsFlight (watched : Watched Value) :
    (event : Event Value) → Decidable (watched.KeepsFlight event)
  | .ask _ _ _ | .answer _ _ | .pass _ => inferInstanceAs (Decidable True)
  | .advance id =>
    match h : watched.state.requests id with
    | none => decidable_of_iff True (by simp [KeepsFlight, h])
    | some { key, ttl, phase := .guarding lock } =>
      match hlookup : watched.state.cache.lookup watched.state.now key ttl with
      | some found => decidable_of_iff (2 < watched.state.strongCount lock) (by simp [KeepsFlight, h, hlookup])
      | none => decidable_of_iff (∀ fetch ∈ watched.ended, fetch.key = key →
          ((watched.state.requests fetch.id).any fun other ↦
            other.key == key && other.phase.isStoring) = true →
          fetch.time + ttl ≤ watched.state.now) (by simp [KeepsFlight, h, hlookup])
    | some { key, ttl, phase := .asked } => decidable_of_iff True (by simp [KeepsFlight, h])
    | some { key, ttl, phase := .missed } => decidable_of_iff True (by simp [KeepsFlight, h])
    | some { key, ttl, phase := .waiting _ } => decidable_of_iff True (by simp [KeepsFlight, h])
    | some { key, ttl, phase := .fetching _ } => decidable_of_iff True (by simp [KeepsFlight, h])
    | some { key, ttl, phase := .fetched _ _ } => decidable_of_iff True (by simp [KeepsFlight, h])
    | some { key, ttl, phase := .settling _ _ } => decidable_of_iff True (by simp [KeepsFlight, h])

/-- A request goes on some steps. -/
def advances (id count : ℕ) : List (Event ℕ) := List.replicate count (.advance id)

/-- A request waits for another, whose fetch fails, and fetches in its turn. -/
def failedThenFetched : List (Event ℕ) :=
  [.ask 0 trailKey (seconds 60)] ++ advances 0 4 ++ [.ask 1 trailKey (seconds 60)] ++ advances 1 2 ++
    [.answer 0 (.error .notFound)] ++ advances 0 2 ++ advances 1 2 ++ [.answer 1 (.ok 1)] ++ advances 1 2

theorem singleFlight_failedThenFetched : Always step SingleFlight start failedThenFetched := by
  refine singleFlight_of_keepsFlight {trailKey} (by decide) failedThenFetched ?_ (by decide +kernel)
  intro id key ttl hasked
  simp only [failedThenFetched, advances, List.mem_append, List.mem_replicate, List.mem_cons,
    List.not_mem_nil, or_false, Event.ask.injEq, reduceCtorEq, and_false] at hasked
  obtain ⟨-, rfl, -⟩ | ⟨-, rfl, -⟩ := hasked <;> exact Finset.mem_singleton_self _

/-- A request waits for another, finds the value it fetched, and goes. -/
def leftBehind : List (Event ℕ) :=
  [.ask 0 trailKey (seconds 60)] ++ advances 0 4 ++ [.ask 1 trailKey (seconds 60)] ++ advances 1 2 ++
    [.answer 0 (.ok 1)] ++ advances 0 2 ++ advances 1 2

/-- A request comes between the moment a handle is taken out and the moment the value is stored. -/
def beforeStored : List (Event ℕ) :=
  [.ask 0 trailKey (seconds 60)] ++ advances 0 4 ++ [.answer 0 (.ok 1)] ++ advances 0 1 ++
    [.ask 1 trailKey (seconds 60)] ++ advances 1 4

/-- An event of another request leaves a request as it is. -/
theorem requests_step {state : State Value} {event : Event Value} {id : ℕ}
    (hother : ∀ key ttl result, event ≠ .ask id key ttl ∧ event ≠ .advance id ∧ event ≠ .answer id result) :
    (Cache.step state event).requests id = state.requests id := by
  cases event with
  | pass time => rfl
  | ask id' key ttl =>
    have hid : id ≠ id' := fun hid ↦ (hother key ttl (.error .notFound)).1 (hid ▸ rfl)
    change (state.ask id' key ttl).requests id = _
    unfold State.ask
    split
    · rfl
    · exact Function.update_of_ne hid _ _
  | answer id' result =>
    have hid : id ≠ id' := fun hid ↦ (hother "" 0 result).2.2 (hid ▸ rfl)
    change (state.answer id' result).requests id = _
    obtain hsame | ⟨request, lock, -, hnext⟩ := answer_cases state id' result
    · rw [hsame]
    · rw [hnext]
      exact Function.update_of_ne hid _ _
  | advance id' =>
    have hid : id ≠ id' := fun hid ↦ (hother "" 0 (.error .notFound)).2.1 (hid ▸ rfl)
    cases state.advances_advance id' with
    | stays same nothing => exact congrArg (fun state ↦ state.requests id) same
    | moves request phase asked nothing result history entries requests =>
      exact (congrFun requests id).trans (Function.update_of_ne hid _ _)
    | ends request result asked returned history entries requests =>
      exact (congrFun requests id).trans (Function.update_of_ne hid _ _)

theorem requests_run {events : List (Event Value)} {id : ℕ} (watched : Watched Value)
    (hother : ∀ event ∈ events, ∀ key ttl result,
      event ≠ .ask id key ttl ∧ event ≠ .advance id ∧ event ≠ .answer id result) :
    (events.foldl step watched).state.requests id = watched.state.requests id := by
  induction events generalizing watched with
  | nil => rfl
  | cons event events ih =>
    rw [List.foldl_cons, ih _ fun later hlater ↦ hother later (List.mem_cons_of_mem _ hlater), state_step]
    exact requests_step (hother event List.mem_cons_self)

theorem idle_leftBehind (id : ℕ) : (leftBehind.foldl step start).state.requests id = none := by
  by_cases hzero : id = 0
  · rw [hzero]
    decide +kernel
  by_cases hone : id = 1
  · rw [hone]
    decide +kernel
  rw [requests_run start]
  · rfl
  · intro event hevent key ttl result
    simp only [leftBehind, advances, List.mem_append, List.mem_replicate, List.mem_cons,
      List.not_mem_nil, or_false] at hevent
    grind

/-- The handle stays in the map with nobody to ask for its key; and a fetch starts at the very time
another one ended. -/
theorem not_singleFlight : ¬ Always step SingleFlight start leftBehind ∧
    ¬ Always step SingleFlight start beforeStored := by
  constructor
  · intro h
    have hdropped := h.final.dropped trailKey fun id request hrequest ↦
      absurd ((idle_leftBehind id).symm.trans hrequest) (by simp)
    have hleft : (leftBehind.foldl step start).state.cache.inFlight[trailKey]? = some 0 := by
      decide +kernel
    exact absurd (hleft.symm.trans hdropped) (by simp)
  · intro h
    have hearly : (beforeStored.foldl step start).early = true := by
      decide +kernel
    exact absurd (hearly.symm.trans h.final.late) (by simp)

end Watched

end OsrsMap.Cache
