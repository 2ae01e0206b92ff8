import OsrsMap.Library.Run
import Std.Data.TreeMap
import Mathlib.Logic.Function.Basic

/-!
# The read-through cache for hub responses

`TtlCache::get_or_fetch_dated` (`server/src/hub/cache.rs`) as a machine of many requests: each
step of a request is one of the places where the source takes a lock or awaits, so that requests
interleave as they do on the server's threads. Times are nanoseconds.

A value is served from before the hub answered `NotFound` exactly in the runs in which, while the
key is withdrawn, a request comes upon an entry that is not old enough yet, or an `Ok` answered
earlier is still to be stored. The entry that a withdrawn key leaves is nowhere removed.
-/

namespace OsrsMap.Cache

open Run
open Std (TreeMap)

variable {Value : Type*}

/-! ## The cache -/

/-- `MAX_ENTRIES`. -/
def maxEntries : ℕ := 2000

def seconds (count : ℕ) : ℕ := count * 1000000000

/-- `MAX_STALE`: how long an expired entry may still be served when the hub is unavailable. -/
def maxStale : ℕ := seconds 3600

inductive HubError where
  | unauthorized
  | notFound
  | invalid (message : String)
  | rateLimited (after : ℕ)
  | other (message : String)
deriving DecidableEq, Repr

structure Entry (Value : Type*) where
  storedAt : ℕ
  value : Value

/-- An `Arc<tokio::sync::Mutex<()>>`, by number. -/
abbrev Lock := ℕ

structure TtlCache (Value : Type*) where
  entries : TreeMap String (Entry Value)
  inFlight : TreeMap String Lock

namespace TtlCache

/-- The entry and how long ago it was stored, when younger than `maxAge`. -/
def lookup (cache : TtlCache Value) (now : ℕ) (key : String) (maxAge : ℕ) : Option (Value × ℕ) :=
  (cache.entries[key]?.map fun entry ↦ (entry.value, now - entry.storedAt)).filter
    fun found ↦ decide (found.2 < maxAge)

/-- What `store` makes room with: entries too old to be served, or all of them. -/
def makeRoom (entries : TreeMap String (Entry Value)) (now : ℕ) : TreeMap String (Entry Value) :=
  if maxEntries ≤ entries.size then
    let kept := entries.filter fun _ entry ↦ decide (now - entry.storedAt < maxStale)
    if maxEntries ≤ kept.size then ∅ else kept
  else entries

def store (cache : TtlCache Value) (now : ℕ) (key : String) (value : Value) : TtlCache Value :=
  { cache with entries := (makeRoom cache.entries now).insert key { storedAt := now, value } }

theorem lookup_eq_some_iff {cache : TtlCache Value} {now maxAge : ℕ} {key : String}
    {found : Value × ℕ} :
    cache.lookup now key maxAge = some found ↔
      ∃ entry, cache.entries[key]? = some entry ∧ now - entry.storedAt < maxAge ∧
        found = (entry.value, now - entry.storedAt) := by
  unfold lookup
  cases cache.entries[key]? with
  | none => simp
  | some entry =>
    simp only [Option.map_some, Option.filter_some, Option.some.injEq, exists_eq_left']
    split
    · next hage => simpa [of_decide_eq_true hage] using eq_comm
    · next hage => simpa using fun hyoung ↦ absurd (decide_eq_true hyoung) hage

/-- Nothing is younger than `maxAge` under the key. -/
def Outlived (cache : TtlCache Value) (now : ℕ) (key : String) (maxAge : ℕ) : Prop :=
  ∀ entry, cache.entries[key]? = some entry → maxAge ≤ now - entry.storedAt

theorem lookup_eq_none_iff {cache : TtlCache Value} {now maxAge : ℕ} {key : String} :
    cache.lookup now key maxAge = none ↔ cache.Outlived now key maxAge := by
  rw [Option.eq_none_iff_forall_ne_some]
  constructor
  · intro h entry hentry
    by_contra hyoung
    exact h _ (lookup_eq_some_iff.mpr ⟨entry, hentry, not_le.mp hyoung, rfl⟩)
  · intro h found hfound
    obtain ⟨entry, hentry, hyoung, -⟩ := lookup_eq_some_iff.mp hfound
    exact absurd (h entry hentry) (not_le.mpr hyoung)

theorem entry_of_makeRoom {entries : TreeMap String (Entry Value)} {now : ℕ} {key : String}
    {entry : Entry Value} (h : (makeRoom entries now)[key]? = some entry) :
    entries[key]? = some entry := by
  unfold makeRoom at h
  split at h
  · dsimp only at h
    split at h
    · simp at h
    · rw [TreeMap.getElem?_filter'] at h
      exact (Option.filter_eq_some_iff.mp h).1
  · exact h

/-- After a store an entry is the one stored or was there before. -/
theorem entry_of_store {cache : TtlCache Value} {now : ℕ} {key key' : String} {value : Value}
    {entry : Entry Value} (h : (cache.store now key value).entries[key']? = some entry) :
    (key = key' ∧ entry = { storedAt := now, value }) ∨ cache.entries[key']? = some entry := by
  unfold store at h
  rw [TreeMap.getElem?_insert] at h
  split at h
  · next hkey =>
    exact .inl ⟨Std.LawfulEqCmp.eq_of_compare hkey, (Option.some.inj h).symm⟩
  · exact .inr (entry_of_makeRoom h)

end TtlCache

/-! ## Requests -/

/-- Where `get_or_fetch_dated` is in a request that is not over. -/
inductive Phase (Value : Type*) where
  /-- Before the first lookup. -/
  | asked
  /-- Before taking the lock's handle from `in_flight`. -/
  | missed
  /-- At `lock.lock().await`. -/
  | waiting (lock : Lock)
  /-- Before the second lookup, with the lock held from here on. -/
  | guarding (lock : Lock)
  /-- At `fetch().await`. -/
  | fetching (lock : Lock)
  /-- Before taking the handle out of `in_flight`. -/
  | fetched (lock : Lock) (result : Except HubError Value)
  /-- Before the `match result`. -/
  | settling (lock : Lock) (result : Except HubError Value)

/-- What the hub answered the request's fetch. -/
def Phase.result : Phase Value → Option (Except HubError Value)
  | .fetched _ result | .settling _ result => some result
  | _ => none

structure Request (Value : Type*) where
  key : String
  ttl : ℕ
  phase : Phase Value

/-- What is observed of the cache: what the hub answered a fetch, and what a request returned. -/
inductive Happening (Value : Type*) where
  | answered (key : String) (result : Except HubError Value)
  | returned (key : String) (result : Except HubError (Value × ℕ))
deriving DecidableEq

/-- The cache with its requests. `strongCount` is that of each lock's `Arc`, `history` is newest
first. -/
structure State (Value : Type*) where
  cache : TtlCache Value
  strongCount : Lock → ℕ
  guarded : Lock → Bool
  nextLock : Lock
  requests : ℕ → Option (Request Value)
  now : ℕ
  history : List (Happening Value)

def start : State Value where
  cache := { entries := ∅, inFlight := ∅ }
  strongCount := fun _ ↦ 0
  guarded := fun _ ↦ false
  nextLock := 0
  requests := fun _ ↦ none
  now := 0
  history := []

namespace State

def enter (state : State Value) (id : ℕ) (request : Request Value) (phase : Phase Value) :
    State Value :=
  { state with requests := Function.update state.requests id (some { request with phase }) }

/-- The request is over, and what it held of the lock is dropped. -/
def finish (state : State Value) (id : ℕ) (request : Request Value) (lock : Option Lock)
    (result : Except HubError (Value × ℕ)) : State Value :=
  let ended := { state with
    requests := Function.update state.requests id none
    history := .returned request.key result :: state.history }
  match lock with
  | none => ended
  | some lock =>
    { ended with
      strongCount := Function.update state.strongCount lock (state.strongCount lock - 1)
      guarded := Function.update state.guarded lock false }

/-- `Arc::clone(in_flight.entry(key.to_owned()).or_default())`. -/
def takeHandle (state : State Value) (key : String) : Lock × State Value :=
  match state.cache.inFlight[key]? with
  | some lock =>
    (lock, { state with
      strongCount := Function.update state.strongCount lock (state.strongCount lock + 1) })
  | none =>
    (state.nextLock, { state with
      cache := { state.cache with inFlight := state.cache.inFlight.insert key state.nextLock }
      strongCount := Function.update state.strongCount state.nextLock 2
      nextLock := state.nextLock + 1 })

/-- `if Arc::strong_count(&lock) <= 2 { in_flight.remove(key); }` -/
def removeHandle (state : State Value) (key : String) (lock : Lock) : State Value :=
  if state.strongCount lock ≤ 2 then
    match state.cache.inFlight[key]? with
    | some removed =>
      { state with
        cache := { state.cache with inFlight := state.cache.inFlight.erase key }
        strongCount := Function.update state.strongCount removed (state.strongCount removed - 1) }
    | none => state
  else state

/-- The `match result` a request ends with. -/
def settle (state : State Value) (id : ℕ) (request : Request Value) (lock : Lock) :
    Except HubError Value → State Value
  | .ok value =>
    { state with cache := state.cache.store state.now request.key value }.finish id request lock
      (.ok (value, 0))
  | .error err =>
    match err with
    | .rateLimited _ | .other _ =>
      match state.cache.lookup state.now request.key maxStale with
      | some found => state.finish id request lock (.ok found)
      | none => state.finish id request lock (.error err)
    | _ => state.finish id request lock (.error err)

/-- The request goes on to the next place where it takes a lock or awaits. -/
def advance (state : State Value) (id : ℕ) : State Value :=
  match state.requests id with
  | none => state
  | some request =>
    match request.phase with
    | .asked =>
      match state.cache.lookup state.now request.key request.ttl with
      | some found => state.finish id request none (.ok found)
      | none => state.enter id request .missed
    | .missed =>
      let (lock, state) := state.takeHandle request.key
      state.enter id request (.waiting lock)
    | .waiting lock =>
      if state.guarded lock then state
      else
        { state with guarded := Function.update state.guarded lock true }.enter id request
          (.guarding lock)
    | .guarding lock =>
      match state.cache.lookup state.now request.key request.ttl with
      | some found => state.finish id request lock (.ok found)
      | none => state.enter id request (.fetching lock)
    | .fetching _ => state
    | .fetched lock result =>
      (state.removeHandle request.key lock).enter id request (.settling lock result)
    | .settling lock result => state.settle id request lock result

/-- The hub answers the request's fetch. -/
def answer (state : State Value) (id : ℕ) (result : Except HubError Value) : State Value :=
  match state.requests id with
  | some request =>
    match request.phase with
    | .fetching lock =>
      { state with history := .answered request.key result :: state.history }.enter id request
        (.fetched lock result)
    | _ => state
  | none => state

def ask (state : State Value) (id : ℕ) (key : String) (ttl : ℕ) : State Value :=
  match state.requests id with
  | some _ => state
  | none => state.enter id { key, ttl, phase := .asked } .asked

end State

inductive Event (Value : Type*) where
  | ask (id : ℕ) (key : String) (ttl : ℕ)
  | advance (id : ℕ)
  | answer (id : ℕ) (result : Except HubError Value)
  | pass (time : ℕ)

def step (state : State Value) : Event Value → State Value
  | .ask id key ttl => state.ask id key ttl
  | .advance id => state.advance id
  | .answer id result => state.answer id result
  | .pass time => { state with now := state.now + time }

/-! ## Withdrawn keys -/

/-- The last `Ok` or `NotFound` the hub answered a fetch of the key with was `NotFound`. -/
def withdrawn (key : String) : List (Happening Value) → Bool
  | [] => false
  | .answered key' (.ok _) :: before => key' != key && withdrawn key before
  | .answered key' (.error .notFound) :: before => key' == key || withdrawn key before
  | _ :: before => withdrawn key before

/-- The hub answered `NotFound` right after `before`, and no `Ok` since. -/
def NotFoundSince (key : String) (history before : List (Happening Value)) : Prop :=
  ∃ between, history = between ++ .answered key (.error .notFound) :: before ∧
    ∀ value, .answered key (.ok value) ∉ between

/-- A value was returned that had been fetched before the hub answered `NotFound`, with no `Ok`
since that answer. -/
def Leaked (key : String) (history : List (Happening Value)) : Prop :=
  ∃ value age after since before,
    history = after ++ .returned key (.ok (value, age)) :: since ∧
      NotFoundSince key since before ∧ .answered key (.ok value) ∈ before

/-- How old an entry may be that the request takes, when its next step looks for one. -/
def Request.looksUp (request : Request Value) : Option ℕ :=
  match request.phase with
  | .asked | .guarding _ => some request.ttl
  | .settling _ (.error (.rateLimited _)) | .settling _ (.error (.other _)) => some maxStale
  | _ => none

/-- What is left under a withdrawn key is too old for the request that comes upon it, and no
request still has an `Ok` for it to store. -/
def SparesWithdrawn (state : State Value) : Event Value → Prop
  | .advance id => ∀ request, state.requests id = some request →
      withdrawn request.key state.history = true →
        (∀ maxAge, request.looksUp = some maxAge →
          state.cache.Outlived state.now request.key maxAge) ∧
        ∀ lock value, request.phase ≠ .settling lock (.ok value)
  | _ => True

theorem notFoundSince_cons {key : String} {happening : Happening Value}
    {history before : List (Happening Value)} :
    NotFoundSince key (happening :: history) before ↔
      (happening = .answered key (.error .notFound) ∧ history = before) ∨
        (∀ value, happening ≠ .answered key (.ok value)) ∧ NotFoundSince key history before := by
  constructor
  · rintro ⟨between, hsplit, hbetween⟩
    obtain ⟨rfl, hbefore⟩ | ⟨between, rfl, rfl⟩ := List.cons_eq_append_iff.mp hsplit
    · exact .inl (by simpa [eq_comm] using hbefore)
    · simp only [List.mem_cons, not_or] at hbetween
      exact .inr ⟨fun value ↦ (hbetween value).1 ∘ Eq.symm, between, rfl,
        fun value ↦ (hbetween value).2⟩
  · rintro (⟨rfl, rfl⟩ | ⟨hhead, between, rfl, hbetween⟩)
    · exact ⟨[], rfl, by simp⟩
    · refine ⟨happening :: between, rfl, fun value ↦ ?_⟩
      simp only [List.mem_cons, not_or]
      exact ⟨(hhead value) ∘ Eq.symm, hbetween value⟩

theorem withdrawn_iff {key : String} {history : List (Happening Value)} :
    withdrawn key history = true ↔ ∃ before, NotFoundSince key history before := by
  induction history with
  | nil => simp [withdrawn, NotFoundSince]
  | cons happening history ih =>
    simp only [notFoundSince_cons, exists_or, exists_and_left, exists_eq', and_true, ← ih]
    cases happening with
    | returned key' result => simp [withdrawn]
    | answered key' result =>
      cases result with
      | ok value => simp [withdrawn]
      | error err => cases err <;> simp [withdrawn]

theorem leaked_cons {key : String} {happening : Happening Value} {history : List (Happening Value)} :
    Leaked key (happening :: history) ↔
      (∃ value age before, happening = .returned key (.ok (value, age)) ∧
        NotFoundSince key history before ∧ .answered key (.ok value) ∈ before) ∨
      Leaked key history := by
  constructor
  · rintro ⟨value, age, after, since, before, hsplit, hsince, hbefore⟩
    obtain ⟨rfl, hhead⟩ | ⟨after, rfl, rfl⟩ := List.cons_eq_append_iff.mp hsplit
    · obtain ⟨rfl, rfl⟩ := List.cons.inj hhead
      exact .inl ⟨value, age, before, rfl, hsince, hbefore⟩
    · exact .inr ⟨value, age, after, since, before, rfl, hsince, hbefore⟩
  · rintro (⟨value, age, before, rfl, hsince, hbefore⟩ |
      ⟨value, age, after, since, before, rfl, hsince, hbefore⟩)
    · exact ⟨value, age, [], history, before, rfl, hsince, hbefore⟩
    · exact ⟨value, age, happening :: after, since, before, rfl, hsince, hbefore⟩

/-! ## What a step does -/

namespace State

/-- What the next step of a request returns, when it ends the request. -/
def returns (state : State Value) (request : Request Value) :
    Option (Except HubError (Value × ℕ)) :=
  match request.phase with
  | .asked | .guarding _ => (state.cache.lookup state.now request.key request.ttl).map .ok
  | .settling _ (.ok value) => some (.ok (value, 0))
  | .settling _ (.error err) =>
    match err with
    | .rateLimited _ | .other _ =>
      some ((state.cache.lookup state.now request.key maxStale).elim (.error err) .ok)
    | _ => some (.error err)
  | _ => none

theorem returns_ok_iff (state : State Value) (request : Request Value) (found : Value × ℕ) :
    state.returns request = some (.ok found) ↔
      (∃ maxAge, request.looksUp = some maxAge ∧
        state.cache.lookup state.now request.key maxAge = some found) ∨
      ∃ lock value, request.phase = .settling lock (.ok value) ∧ (value, 0) = found := by
  have hstale (err : HubError) :
      (state.cache.lookup state.now request.key maxStale).elim (Except.error err) Except.ok =
        Except.ok found ↔
        state.cache.lookup state.now request.key maxStale = some found := by
    cases state.cache.lookup state.now request.key maxStale <;> simp
  unfold returns Request.looksUp
  cases hphase : request.phase with
  | settling lock result =>
    cases result with
    | ok value => simp
    | error err => cases err <;> simp [hstale]
  | _ => simp

@[simp]
theorem history_enter (state : State Value) (id : ℕ) (request : Request Value)
    (phase : Phase Value) : (state.enter id request phase).history = state.history := rfl

@[simp]
theorem history_finish (state : State Value) (id : ℕ) (request : Request Value)
    (lock : Option Lock) (result : Except HubError (Value × ℕ)) :
    (state.finish id request lock result).history =
      .returned request.key result :: state.history := by
  cases lock <;> rfl

@[simp]
theorem cache_finish (state : State Value) (id : ℕ) (request : Request Value)
    (lock : Option Lock) (result : Except HubError (Value × ℕ)) :
    (state.finish id request lock result).cache = state.cache := by
  cases lock <;> rfl

@[simp]
theorem requests_finish (state : State Value) (id : ℕ) (request : Request Value)
    (lock : Option Lock) (result : Except HubError (Value × ℕ)) :
    (state.finish id request lock result).requests =
      Function.update state.requests id none := by
  cases lock <;> rfl

theorem takeHandle_frame (state : State Value) (key : String) :
    (state.takeHandle key).2.history = state.history ∧
      (state.takeHandle key).2.cache.entries = state.cache.entries ∧
      (state.takeHandle key).2.requests = state.requests := by
  unfold takeHandle
  cases state.cache.inFlight[key]? <;> exact ⟨rfl, rfl, rfl⟩

theorem removeHandle_frame (state : State Value) (key : String) (lock : Lock) :
    (state.removeHandle key lock).history = state.history ∧
      (state.removeHandle key lock).cache.entries = state.cache.entries ∧
      (state.removeHandle key lock).requests = state.requests := by
  unfold removeHandle
  split
  · cases state.cache.inFlight[key]? <;> exact ⟨rfl, rfl, rfl⟩
  · exact ⟨rfl, rfl, rfl⟩

/-- Everything a step of a request does to the history, the entries and the requests. -/
inductive Advances (state : State Value) (id : ℕ) (next : State Value) : Prop
  | stays (same : next = state)
    (nothing : ∀ request, state.requests id = some request → state.returns request = none)
  | moves (request : Request Value) (phase : Phase Value)
    (asked : state.requests id = some request)
    (nothing : state.returns request = none)
    (result : ∀ result, phase.result = some result → request.phase.result = some result)
    (history : next.history = state.history)
    (entries : next.cache.entries = state.cache.entries)
    (requests : next.requests = Function.update state.requests id (some { request with phase }))
  | ends (request : Request Value) (result : Except HubError (Value × ℕ))
    (asked : state.requests id = some request)
    (returned : state.returns request = some result)
    (history : next.history = .returned request.key result :: state.history)
    (entries : next.cache.entries = state.cache.entries ∨ ∃ value,
      request.phase.result = some (.ok value) ∧
        next.cache.entries = (state.cache.store state.now request.key value).entries)
    (requests : next.requests = Function.update state.requests id none)

theorem advances_lookup {state : State Value} {id : ℕ} {request : Request Value} {maxAge : ℕ}
    {lock : Option Lock} {otherwise : State Value}
    (hrequest : state.requests id = some request)
    (hreturns : state.returns request =
      (state.cache.lookup state.now request.key maxAge).map .ok)
    (hmiss : state.returns request = none → state.Advances id otherwise) :
    state.Advances id
      (match state.cache.lookup state.now request.key maxAge with
        | some found => state.finish id request lock (.ok found)
        | none => otherwise) := by
  cases hlookup : state.cache.lookup state.now request.key maxAge with
  | none => exact hmiss (by rw [hreturns, hlookup]; rfl)
  | some found =>
    refine .ends request (.ok found) hrequest (by rw [hreturns, hlookup]; rfl) ?_ (.inl ?_) ?_
    all_goals simp

theorem advances_settle {state : State Value} {id : ℕ} {request : Request Value} {lock : Lock}
    {result : Except HubError Value} (hrequest : state.requests id = some request)
    (hphase : request.phase = .settling lock result) :
    state.Advances id (state.settle id request lock result) := by
  have herror (err : HubError) (hreturns : state.returns request = some (.error err)) :
      state.Advances id (state.finish id request lock (.error err)) := by
    refine .ends request (.error err) hrequest hreturns ?_ (.inl ?_) ?_
    all_goals simp
  cases result with
  | ok value =>
    refine .ends request (.ok (value, 0)) hrequest (by simp [returns, hphase]) ?_ (.inr ?_) ?_
    · simp [settle]
    · exact ⟨value, by simp [Phase.result, hphase], by simp [settle]⟩
    · simp [settle]
  | error err =>
    have hstale (hreturns : state.returns request =
        some ((state.cache.lookup state.now request.key maxStale).elim (.error err) .ok)) :
        state.Advances id
          (match state.cache.lookup state.now request.key maxStale with
            | some found => state.finish id request lock (.ok found)
            | none => state.finish id request lock (.error err)) := by
      cases hlookup : state.cache.lookup state.now request.key maxStale with
      | none => exact herror err (by rw [hreturns, hlookup]; rfl)
      | some found =>
        refine .ends request (.ok found) hrequest (by rw [hreturns, hlookup]; rfl) ?_ (.inl ?_) ?_
        all_goals simp
    cases err with
    | rateLimited after => exact hstale (by simp [returns, hphase])
    | other message => exact hstale (by simp [returns, hphase])
    | unauthorized => exact herror _ (by simp [returns, hphase])
    | notFound => exact herror _ (by simp [returns, hphase])
    | invalid message => exact herror _ (by simp [returns, hphase])

theorem advances_advance (state : State Value) (id : ℕ) : state.Advances id (state.advance id) := by
  unfold advance
  cases hrequest : state.requests id with
  | none => exact .stays rfl (by simp [hrequest])
  | some request =>
    have hnothing (hreturns : state.returns request = none) :
        ∀ other, state.requests id = some other → state.returns other = none := by
      intro other hother
      rwa [← Option.some.inj (hrequest.symm.trans hother)]
    dsimp only
    cases hphase : request.phase with
    | asked =>
      refine advances_lookup hrequest (by simp [returns, hphase]) fun hreturns ↦ ?_
      exact .moves request .missed hrequest hreturns (by simp [Phase.result]) rfl rfl rfl
    | missed =>
      obtain ⟨hhistory, hentries, hrequests⟩ := state.takeHandle_frame request.key
      refine .moves request (.waiting (state.takeHandle request.key).1) hrequest
        (by simp [returns, hphase]) (by simp [Phase.result]) hhistory hentries ?_
      simp only [enter, hrequests]
    | waiting lock =>
      dsimp only
      split
      · exact .stays rfl (hnothing (by simp [returns, hphase]))
      · exact .moves request (.guarding lock) hrequest (by simp [returns, hphase])
          (by simp [Phase.result]) rfl rfl rfl
    | guarding lock =>
      refine advances_lookup hrequest (by simp [returns, hphase]) fun hreturns ↦ ?_
      exact .moves request (.fetching lock) hrequest hreturns (by simp [Phase.result]) rfl rfl rfl
    | fetching lock => exact .stays rfl (hnothing (by simp [returns, hphase]))
    | fetched lock result =>
      obtain ⟨hhistory, hentries, hrequests⟩ := state.removeHandle_frame request.key lock
      refine .moves request (.settling lock result) hrequest (by simp [returns, hphase]) ?_
        hhistory hentries ?_
      · simp [Phase.result, hphase]
      · simp only [enter, hrequests]
    | settling lock result => exact advances_settle hrequest hphase

end State

/-! ## Values come from the hub -/

/-- Whatever the cache holds and its requests have been answered is in the history. -/
structure Sound (state : State Value) : Prop where
  entries : ∀ key entry, state.cache.entries[key]? = some entry →
    .answered key (.ok entry.value) ∈ state.history
  requests : ∀ id request result, state.requests id = some request →
    request.phase.result = some result → .answered request.key result ∈ state.history

theorem sound_start : Sound (start : State Value) where
  entries key entry h := by simp [start] at h
  requests id request result h := by simp [start] at h

theorem Sound.returns {state : State Value} (h : Sound state) {id : ℕ} {request : Request Value}
    (hrequest : state.requests id = some request) {value : Value} {age : ℕ}
    (hreturns : state.returns request = some (.ok (value, age))) :
    .answered request.key (.ok value) ∈ state.history := by
  obtain ⟨maxAge, -, hfound⟩ | ⟨lock, value', hphase, hvalue⟩ :=
    (state.returns_ok_iff request _).mp hreturns
  · obtain ⟨entry, hentry, -, hvalue⟩ := TtlCache.lookup_eq_some_iff.mp hfound
    rw [(Prod.mk.inj hvalue).1]
    exact h.entries _ _ hentry
  · rw [← (Prod.mk.inj hvalue).1]
    exact h.requests id request _ hrequest (by rw [hphase]; rfl)

theorem sound_advance {state : State Value} (h : Sound state) (id : ℕ) :
    Sound (state.advance id) := by
  cases state.advances_advance id with
  | stays same nothing => rwa [same]
  | moves request phase asked nothing result history entries requests =>
    refine ⟨fun key entry hentry ↦ ?_, fun id' request' result' hrequest hresult ↦ ?_⟩
    · rw [history]
      exact h.entries key entry (entries ▸ hentry)
    · rw [requests, Function.update_apply] at hrequest
      rw [history]
      split at hrequest
      · obtain rfl := Option.some.inj hrequest
        exact h.requests id request result' asked (result _ hresult)
      · exact h.requests id' request' result' hrequest hresult
  | ends request result asked returned history entries requests =>
    refine ⟨fun key entry hentry ↦ ?_, fun id' request' result' hrequest hresult ↦ ?_⟩
    · rw [history]
      refine List.mem_cons_of_mem _ ?_
      obtain hsame | ⟨value, hresult, hstored⟩ := entries
      · exact h.entries key entry (hsame ▸ hentry)
      · rw [hstored] at hentry
        obtain ⟨rfl, rfl⟩ | hold := TtlCache.entry_of_store hentry
        · exact h.requests id request _ asked hresult
        · exact h.entries key entry hold
    · rw [requests, Function.update_apply] at hrequest
      rw [history]
      split at hrequest
      · simp at hrequest
      · exact List.mem_cons_of_mem _ (h.requests id' request' result' hrequest hresult)

/-- An answer is the only other step that adds to the history. -/
theorem answer_cases (state : State Value) (id : ℕ) (result : Except HubError Value) :
    state.answer id result = state ∨
      ∃ request lock, state.requests id = some request ∧
        state.answer id result =
          { state with history := .answered request.key result :: state.history }.enter id request
            (.fetched lock result) := by
  unfold State.answer
  cases hrequest : state.requests id with
  | none => exact .inl rfl
  | some request =>
    dsimp only
    split
    · next lock _ => exact .inr ⟨request, lock, rfl, rfl⟩
    · exact .inl rfl

theorem sound_answer {state : State Value} (h : Sound state) (id : ℕ)
    (result : Except HubError Value) : Sound (state.answer id result) := by
  obtain hsame | ⟨request, lock, hrequest, hnext⟩ := answer_cases state id result
  · rwa [hsame]
  · rw [hnext]
    refine ⟨fun key entry hentry ↦ List.mem_cons_of_mem _ (h.entries key entry hentry),
      fun id' request' result' hrequest' hresult ↦ ?_⟩
    simp only [State.enter, Function.update_apply] at hrequest'
    split at hrequest'
    · obtain rfl := Option.some.inj hrequest'
      obtain rfl : result = result' := Option.some.inj hresult
      exact List.mem_cons_self
    · exact List.mem_cons_of_mem _ (h.requests id' request' result' hrequest' hresult)

theorem sound_ask {state : State Value} (h : Sound state) (id : ℕ) (key : String) (ttl : ℕ) :
    Sound (state.ask id key ttl) := by
  unfold State.ask
  cases state.requests id with
  | some request => exact h
  | none =>
    refine ⟨h.entries, fun id' request' result' hrequest hresult ↦ ?_⟩
    simp only [State.enter, Function.update_apply] at hrequest
    split at hrequest
    · obtain rfl := Option.some.inj hrequest
      simp [Phase.result] at hresult
    · exact h.requests id' request' result' hrequest hresult

theorem sound_step {state : State Value} (h : Sound state) (event : Event Value) :
    Sound (step state event) := by
  cases event with
  | ask id key ttl => exact sound_ask h id key ttl
  | advance id => exact sound_advance h id
  | answer id result => exact sound_answer h id result
  | pass time => exact ⟨h.entries, h.requests⟩

/-! ## When a withdrawn value is served -/

theorem notFoundSince_mem {key : String} {history before : List (Happening Value)} {value : Value}
    (h : NotFoundSince key history before) (hmem : .answered key (.ok value) ∈ history) :
    .answered key (.ok value) ∈ before := by
  obtain ⟨between, rfl, hbetween⟩ := h
  simpa [hbetween value] using hmem

/-- A step of a request leaks exactly when it returns a value for a key that is withdrawn. -/
theorem leaked_advance {state : State Value} (h : Sound state) (id : ℕ) (key : String) :
    Leaked key (state.advance id).history ↔ Leaked key state.history ∨
      ∃ request found, state.requests id = some request ∧ request.key = key ∧
        state.returns request = some (.ok found) ∧ withdrawn key state.history = true := by
  cases state.advances_advance id with
  | stays same nothing =>
    rw [same]
    refine (or_iff_left ?_).symm
    rintro ⟨request, found, hrequest, -, hreturns, -⟩
    simp [nothing request hrequest] at hreturns
  | moves request phase asked nothing result history entries requests =>
    simp [history, asked, nothing]
  | ends request result asked returned history entries requests =>
    rw [history, leaked_cons, or_comm]
    refine or_congr_right ⟨?_, ?_⟩
    · rintro ⟨value, age, before, hreturned, hsince, -⟩
      obtain ⟨rfl, rfl⟩ := Happening.returned.inj hreturned
      exact ⟨request, (value, age), asked, rfl, returned, withdrawn_iff.mpr ⟨before, hsince⟩⟩
    · rintro ⟨request', ⟨value, age⟩, hrequest, rfl, hreturns, hwithdrawn⟩
      obtain rfl : request = request' := Option.some.inj (asked.symm.trans hrequest)
      obtain rfl : result = .ok (value, age) := Option.some.inj (returned.symm.trans hreturns)
      obtain ⟨before, hsince⟩ := withdrawn_iff.mp hwithdrawn
      exact ⟨value, age, before, rfl, hsince, notFoundSince_mem hsince (h.returns asked returned)⟩

theorem sparesWithdrawn_advance_iff (state : State Value) (id : ℕ) :
    SparesWithdrawn state (.advance id) ↔ ∀ request, state.requests id = some request →
      withdrawn request.key state.history = true →
      ∀ found, state.returns request ≠ some (.ok found) := by
  refine forall₃_congr fun request _ _ ↦ ?_
  simp only [← TtlCache.lookup_eq_none_iff, ne_eq, State.returns_ok_iff]
  constructor
  · rintro ⟨hnone, hphase⟩ found (⟨maxAge, hlooks, hfound⟩ | ⟨lock, value, hsettling, -⟩)
    · simp [hnone maxAge hlooks] at hfound
    · exact hphase lock value hsettling
  · intro hnone
    refine ⟨fun maxAge hlooks ↦ ?_, fun lock value hsettling ↦ ?_⟩
    · exact Option.eq_none_iff_forall_ne_some.mpr
        fun found hfound ↦ hnone found (.inl ⟨maxAge, hlooks, hfound⟩)
    · exact hnone (value, 0) (.inr ⟨lock, value, hsettling, rfl⟩)

theorem leaked_answer (state : State Value) (id : ℕ) (result : Except HubError Value)
    (key : String) : Leaked key (state.answer id result).history ↔ Leaked key state.history := by
  obtain hsame | ⟨request, lock, -, hnext⟩ := answer_cases state id result
  · rw [hsame]
  · rw [hnext, State.history_enter, leaked_cons]
    simp

theorem leaked_ask (state : State Value) (id : ℕ) (key' : String) (ttl : ℕ) (key : String) :
    Leaked key (state.ask id key' ttl).history ↔ Leaked key state.history := by
  unfold State.ask
  cases state.requests id <;> rfl

/-- A step keeps every key from leaking exactly when it spares the withdrawn ones. -/
theorem kept_step_iff {state : State Value} (h : Sound state)
    (hkept : ∀ key, ¬ Leaked key state.history) (event : Event Value) :
    (∀ key, ¬ Leaked key (step state event).history) ↔ SparesWithdrawn state event := by
  cases event with
  | ask id key' ttl => exact iff_of_true (by simpa [step, leaked_ask] using hkept) trivial
  | answer id result => exact iff_of_true (by simpa [step, leaked_answer] using hkept) trivial
  | pass time => exact iff_of_true hkept trivial
  | advance id =>
    rw [sparesWithdrawn_advance_iff]
    simp only [step, leaked_advance h, hkept, false_or]
    constructor
    · intro hnone request hrequest hwithdrawn found hreturns
      exact hnone request.key ⟨request, found, hrequest, rfl, hreturns, hwithdrawn⟩
    · rintro hnone key ⟨request, found, hrequest, rfl, hreturns, hwithdrawn⟩
      exact hnone request hrequest hwithdrawn found hreturns

theorem not_leaked_start (key : String) : ¬ Leaked key (start : State Value).history := by
  rintro ⟨_, _, _, _, _, hsplit, -⟩
  simp [start] at hsplit

/-- No request is ever answered from before a `NotFound`, exactly in the runs that come upon
nothing young enough under a withdrawn key. -/
theorem no_leak_iff_spares_withdrawn (events : List (Event Value)) :
    Always step (fun state ↦ ∀ key, ¬ Leaked key state.history) start events ↔
      Along step SparesWithdrawn start events :=
  always_iff_along_of_invariant (fun _ event h ↦ sound_step h event)
    (fun _ event h hkept ↦ kept_step_iff h hkept event) sound_start not_leaked_start

/-- A request with nobody else around, and what the hub answers it if it is asked. -/
def alone (id : ℕ) (key : String) (ttl : ℕ) (result : Except HubError Value) :
    List (Event Value) :=
  [.ask id key ttl, .advance id, .advance id, .advance id, .advance id, .answer id result,
    .advance id, .advance id]

def trailKey : String := "trail-recent:day:7"

/-- A trail is read, and made private; the next minute's read finds the hub rate limited. -/
def privateThenLimited : List (Event ℕ) :=
  alone 0 trailKey (seconds 60) (.ok 1) ++ [.pass (seconds 61)] ++
    alone 1 trailKey (seconds 60) (.error .notFound) ++ [.pass (seconds 61)] ++
    alone 2 trailKey (seconds 60) (.error (.rateLimited (seconds 5)))

theorem history_privateThenLimited :
    (privateThenLimited.foldl step start).history =
      [.returned trailKey (.ok (1, seconds 122)),
        .answered trailKey (.error (.rateLimited (seconds 5))),
        .returned trailKey (.error .notFound), .answered trailKey (.error .notFound),
        .returned trailKey (.ok (1, 0)), .answered trailKey (.ok 1)] := by
  decide +kernel

/-- The trail is served again, two minutes after it was read. -/
theorem leaked_when_limited :
    ¬ Always step (fun state ↦ ∀ key, ¬ Leaked key state.history) start privateThenLimited := by
  intro h
  refine h.final trailKey ?_
  rw [history_privateThenLimited]
  exact ⟨1, seconds 122, [], _, _, rfl, ⟨[_, _], rfl, by simp⟩, by simp⟩

end OsrsMap.Cache
