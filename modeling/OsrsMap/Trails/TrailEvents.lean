import OsrsMap.Hub.EventRange
import OsrsMap.Library.Newest
import OsrsMap.Trails.GetTrails

/-!
# The events along a trail

`get_player_trail_events` (`server/src/hub/profile.rs`): a player's events over the span of their trail, as the
hub has them. Without small drops they are read in two parts, the drops and the rest, so that neither crowds
out the other. The hub is any server here; what is said of one that does as its documentation says is said of
what it had when it was asked.
-/

namespace OsrsMap.Trails

open Cache (HubError)
open OsrsMap.Hub (EventPages Value)
open Newest (NewestFirst sortNewest)

/-- `RANGE_EVENTS_MAX`: how many events are read at most, of drops and of everything else. -/
def rangeEventsMax : ℕ := 2000

def lootTypes : String := "loot,pk_loot"

def otherTypes : String :=
  "death,level_up,collection_log,superior_spawn,achievement_diary,combat_task,slayer_task_complete"

/-- What the hub is asked of its `/events`. Times are milliseconds. -/
structure EventsQuery where
  accounts : String
  fromMs : ℤ
  limit : ℕ
  toMs : Option ℤ
  types : Option String
  minValue : Option ℤ
deriving DecidableEq, Repr

/-- The hub's `/events`. -/
abbrev EventsHub (σ : Type*) := EventsQuery → EventPages σ

/-! ## Reading -/

/-- Any functions in place of the parsers of times and numbers. -/
structure Parsers where
  time : String → Option ℤ
  number : String → Option ℤ

variable {σ : Type*} (parse : Parsers) (hub : EventsHub σ)

/-- The events up to `toMs`. -/
def eventsUntil (events : List Value) (toMs : Option ℤ) : List Value :=
  match toMs with
  | some toMs => events.filter fun event ↦ (Hub.occurredAt parse.time event).all fun time ↦ time ≤ toMs
  | none => events

/-- When an event occurred; one without a readable time is older than all others. -/
def occurred (event : Value) : WithBot ℤ := Hub.occurredAt parse.time event

/-- What `fetch_range` asks the hub, a cursor apart. -/
def rangeQuery (account : String) (range : ℤ × Option ℤ) (types : Option String) (minValue : Option ℤ) :
    EventsQuery where
  accounts := account
  fromMs := range.1
  limit := Hub.rangePage
  toMs := range.2
  types
  minValue

/-- An account's events in a range, newest first: only those of `types` worth `minValue` or more when given. -/
def fetchRange (state : σ) (account : String) (range : ℤ × Option ℤ) (types : Option String)
    (minValue : Option ℤ) : Except HubError (List Value) × σ :=
  let read := Hub.readRange parse.time (hub (rangeQuery account range types minValue)) range.1 rangeEventsMax state
  (read.events.map fun events ↦ eventsUntil parse events range.2, read.hub)

/-- What `get_player_trail_events` reads from the hub when its cache has nothing. -/
def trailEvents (state : σ) (account : String) (range : ℤ × Option ℤ) (minLoot : ℤ) :
    Except HubError (List Value) × σ :=
  if 0 < minLoot then
    match fetchRange parse hub state account range (some lootTypes) (some minLoot) with
    | (.error err, state) => (.error err, state)
    | (.ok drops, state) =>
      match fetchRange parse hub state account range (some otherTypes) none with
      | (.error err, state) => (.error err, state)
      | (.ok rest, state) => (.ok (sortNewest (occurred parse) (drops ++ rest)), state)
  else fetchRange parse hub state account range none none

structure TrailEventsQuery where
  days : Option ℤ
  fromSecs : Option ℤ
  toSecs : Option ℤ
  minLoot : Option ℤ

/-- `get_player_trail_events` at `now`, in milliseconds, without the cache and what becomes of the events on
their way to the site. -/
def getPlayerTrailEvents (context : HubContext) (now : ℤ) (member : String) (query : TrailEventsQuery)
    (state : σ) : Except HistoryError (List Value) × σ :=
  if ¬ context.historyEnabled then (.error .disabled, state)
  else
    match context.hubId member with
    | none => (.error (.hub .notFound), state)
    | some account =>
      match Span.of query.days query.fromSecs query.toSecs (now / 1000) with
      | .error message => (.error (.badRequest message), state)
      | .ok span =>
        let minLoot := max (query.minLoot.getD 0) 0
        let (events, state) := trailEvents parse hub state account (span.start now, span.stop) minLoot
        (events.mapError .hub, state)

/-! ## A hub that does as documented -/

/-- `Value::as_i64`. -/
def asI64 : Value → Option ℤ
  | .number text => parse.number text
  | _ => none

def typeOf (event : Value) : Option String := (event.get "type").bind Value.asStr

def valueGp (event : Value) : Option ℤ := (event.get "value_gp").bind (asI64 parse)

def accountOf (event : Value) : Option String := ((event.get "account").bind (Value.get "id")).bind Value.asStr

/-- Of the account, and in the range. -/
def covers (account : String) (range : ℤ × Option ℤ) (event : Value) : Bool :=
  decide (accountOf event = some account) &&
    (Hub.occurredAt parse.time event).any fun time ↦
      decide (range.1 ≤ time) && range.2.all fun toMs ↦ decide (time ≤ toMs)

/-- An event that a query asks for. -/
def EventsQuery.takes (query : EventsQuery) (event : Value) : Bool :=
  covers parse query.accounts (query.fromMs, query.toMs) event &&
    (query.types.all fun types ↦ (typeOf event).any fun type ↦ type ∈ listParam (some types)) &&
    query.minValue.all fun least ↦ (valueGp parse event).any fun value ↦ decide (least ≤ value)

/-- The hub has its events newest first, and hands out those that a query asks for in full pages. -/
structure Documented (feed : σ → List Value) : Prop where
  newestFirst : ∀ state, NewestFirst (occurred parse) (feed state)
  serves : ∀ state query, Pages.Serves (hub query)
    (fun batch next ↦ Hub.isRangeCursor next = true ∧ batch.length = query.limit) state none
    ((feed state).filter (query.takes parse))

/-- A drop, as the server tells it from the rest. -/
def isLoot (event : Value) : Bool := (typeOf event).any fun type ↦ type ∈ listParam (some lootTypes)

/-- An event of the rest that the map shows. -/
def isOther (event : Value) : Bool := (typeOf event).any fun type ↦ type ∈ listParam (some otherTypes)

theorem isLoot_eq_false_of_isOther {event : Value} (h : isOther event = true) : isLoot event = false := by
  unfold isOther at h
  unfold isLoot
  cases htype : typeOf event with
  | none => rfl
  | some type =>
    rw [htype, Option.any_some, decide_eq_true_eq] at h
    rw [Option.any_some, decide_eq_false_iff_not]
    have hapart : ∀ type ∈ listParam (some otherTypes), type ∉ listParam (some lootTypes) := by decide +kernel
    exact hapart type h

variable {parse hub} {feed : σ → List Value} {state : σ} {account : String} {range : ℤ × Option ℤ} {minLoot : ℤ}

theorem eventsUntil_of_covers {events : List Value} (h : ∀ event ∈ events, covers parse account range event = true) :
    eventsUntil parse events range.2 = events := by
  unfold eventsUntil
  split
  · next toMs hto =>
    refine List.filter_eq_self.mpr fun event hevent ↦ ?_
    have hcovers := h event hevent
    simp only [covers, hto, Option.all_some, Bool.and_eq_true, Option.any_eq_true] at hcovers
    obtain ⟨-, time, htime, -, hle⟩ := hcovers
    rwa [htime, Option.all_some]
  · rfl

variable (parse) in
/-- Of a list that is handed out in full pages as much is read as may be. -/
theorem events_readRange_of_full {page : EventPages σ} {list : List Value} (fromMs : ℤ)
    (h : Pages.Serves page (fun batch next ↦ Hub.isRangeCursor next = true ∧ batch.length = Hub.rangePage) state
      none list) :
    (Hub.readRange parse.time page fromMs rangeEventsMax state).events = .ok (list.take rangeEventsMax) := by
  obtain ⟨taken, hread, hprefix, htaken⟩ := Hub.events_readRange_of_serves parse.time fromMs rangeEventsMax
    (h.mono fun _ _ hpage ↦ ⟨hpage.1, hpage.2.ge⟩)
  rw [hread]
  obtain rfl | henough : taken = list ∨ rangeEventsMax ≤ taken.length := by
    refine htaken.imp_right fun hmany ↦ hmany.elim id fun hall ↦ le_trans ?_ hall
    decide
  · rfl
  · rw [List.prefix_iff_eq_take.mp hprefix, List.take_take, min_eq_left henough]

/-- One read has the newest events that it asks for. -/
theorem fetchRange_of_documented (h : Documented parse hub feed) (state : σ) (account : String)
    (range : ℤ × Option ℤ) (types : Option String) (minValue : Option ℤ) :
    (fetchRange parse hub state account range types minValue).1 =
      .ok (((feed state).filter ((rangeQuery account range types minValue).takes parse)).take rangeEventsMax) := by
  have hread := events_readRange_of_full parse range.1 (h.serves state (rangeQuery account range types minValue))
  unfold fetchRange
  dsimp only
  rw [hread]
  have hcovers : ∀ event ∈ ((feed state).filter ((rangeQuery account range types minValue).takes parse)).take
      rangeEventsMax, covers parse account range event = true := by
    intro event hevent
    have htakes := (List.mem_filter.mp (List.mem_of_mem_take hevent)).2
    rw [EventsQuery.takes, Bool.and_eq_true, Bool.and_eq_true] at htakes
    exact htakes.1.1
  exact congrArg Except.ok (eventsUntil_of_covers hcovers)

/-- A drop that is worth as much, of the account and in the range. -/
def isDrop (parse : Parsers) (account : String) (range : ℤ × Option ℤ) (minLoot : ℤ) (event : Value) : Bool :=
  covers parse account range event && isLoot event && (valueGp parse event).any fun value ↦ decide (minLoot ≤ value)

/-- Where the hub is when the rest is read. -/
def afterDrops (parse : Parsers) (hub : EventsHub σ) (state : σ) (account : String) (range : ℤ × Option ℤ)
    (minLoot : ℤ) : σ :=
  (fetchRange parse hub state account range (some lootTypes) (some minLoot)).2

/-- Without small drops: the newest of the drops and the newest of the rest, sorted into one. -/
theorem trailEvents_of_pos (h : Documented parse hub feed) (hloot : 0 < minLoot) :
    (trailEvents parse hub state account range minLoot).1 = .ok (sortNewest (occurred parse)
      (((feed state).filter (isDrop parse account range minLoot)).take rangeEventsMax ++
        ((feed (afterDrops parse hub state account range minLoot)).filter fun event ↦
          covers parse account range event && isOther event).take rangeEventsMax)) := by
  have hdrops := fetchRange_of_documented h state account range (some lootTypes) (some minLoot)
  have hrest := fetchRange_of_documented h (afterDrops parse hub state account range minLoot) account range
    (some otherTypes) none
  have hother : (rangeQuery account range (some otherTypes) none).takes parse =
      fun event ↦ covers parse account range event && isOther event := by
    funext event
    exact Bool.and_true _
  rw [hother, afterDrops] at hrest
  unfold trailEvents
  rw [if_pos hloot, afterDrops]
  rcases hfirst : fetchRange parse hub state account range (some lootTypes) (some minLoot) with ⟨read, after⟩
  rw [hfirst] at hdrops hrest
  dsimp only at hdrops hrest ⊢
  subst hdrops
  dsimp only
  rcases hsecond : fetchRange parse hub after account range (some otherTypes) none with ⟨read, later⟩
  rw [hsecond] at hrest
  dsimp only at hrest
  subst hrest
  rfl

/-- With small drops: the newest of all kinds. -/
theorem trailEvents_of_nonpos (h : Documented parse hub feed) (hloot : minLoot ≤ 0) :
    (trailEvents parse hub state account range minLoot).1 =
      .ok (((feed state).filter (covers parse account range)).take rangeEventsMax) := by
  have hread := fetchRange_of_documented h state account range none none
  have hall : (rangeQuery account range none none).takes parse = covers parse account range := by
    funext event
    exact (Bool.and_true _).trans (Bool.and_true _)
  rw [hall] at hread
  unfold trailEvents
  rwa [if_neg (not_lt.mpr hloot)]

/-- Of a hub that does as documented: all that was read comes newest first. Without small drops these are the
newest of the drops and, however many of those there are, the newest of the rest; with them they are the newest
of all kinds. -/
theorem trailEvents_newest (h : Documented parse hub feed) (state : σ) (account : String) (range : ℤ × Option ℤ)
    (minLoot : ℤ) :
    ∃ events, (trailEvents parse hub state account range minLoot).1 = .ok events ∧
      NewestFirst (occurred parse) events ∧
      (0 < minLoot →
        events.filter isLoot = ((feed state).filter (isDrop parse account range minLoot)).take rangeEventsMax ∧
          (events.filter fun event ↦ !isLoot event) =
            ((feed (afterDrops parse hub state account range minLoot)).filter fun event ↦
              covers parse account range event && isOther event).take rangeEventsMax) ∧
      (minLoot ≤ 0 → events = ((feed state).filter (covers parse account range)).take rangeEventsMax) := by
  have hordered (state : σ) (p : Value → Bool) : NewestFirst (occurred parse) (((feed state).filter p).take rangeEventsMax) :=
    ((h.newestFirst state).filter _).take
  obtain hloot | hloot := lt_or_ge 0 minLoot
  · refine ⟨_, trailEvents_of_pos h hloot, Newest.newestFirst_sortNewest _ _, fun _ ↦ ?_,
      fun hnot ↦ absurd hloot (not_lt.mpr hnot)⟩
    have hdrops : ∀ event ∈ ((feed state).filter (isDrop parse account range minLoot)).take rangeEventsMax,
        isLoot event = true := by
      intro event hevent
      have hdrop := (List.mem_filter.mp (List.mem_of_mem_take hevent)).2
      rw [isDrop, Bool.and_eq_true, Bool.and_eq_true] at hdrop
      exact hdrop.1.2
    have hrest : ∀ event ∈ ((feed (afterDrops parse hub state account range minLoot)).filter fun event ↦
        covers parse account range event && isOther event).take rangeEventsMax, isLoot event = false := by
      intro event hevent
      have hother := (List.mem_filter.mp (List.mem_of_mem_take hevent)).2
      rw [Bool.and_eq_true] at hother
      exact isLoot_eq_false_of_isOther hother.2
    exact ⟨Newest.filter_sortNewest_append (hordered _ _) hdrops hrest,
      Newest.filter_not_sortNewest_append (hordered _ _) hdrops hrest⟩
  · exact ⟨_, trailEvents_of_nonpos h hloot, hordered _ _, fun hpos ↦ absurd hpos (not_lt.mpr hloot), fun _ ↦ rfl⟩

/-! ## A hub -/

/-- A hub with a list of events, which it hands out in full pages. -/
def listHub (parse : Parsers) (list : List Value) : EventsHub Unit := fun query ↦
  Pages.cutting query.limit Hub.cursorPosition Hub.rangeCursor (list.filter (query.takes parse))

theorem documented_listHub {list : List Value} (h : NewestFirst (occurred parse) list) :
    Documented parse (listHub parse list) fun _ ↦ list where
  newestFirst _ := h
  serves _ query := by
    apply (Pages.serves_cutting Hub.cursorPosition_rangeCursor (list.filter (query.takes parse))).mono
    rintro page _ ⟨hfull, position, rfl⟩
    exact ⟨Hub.isRangeCursor_rangeCursor position, hfull⟩

/-- Times and numbers that are one digit. -/
def digits : Parsers where
  time text := text.toList.head?.map fun char ↦ (char.toNat : ℤ) - 48
  number text := text.toList.head?.map fun char ↦ (char.toNat : ℤ) - 48

/-- An event of an account. -/
def eventOf (account type time value : String) : Value :=
  .object [("type", .string type), ("account", .object [("id", .string account)]),
    ("occurred_at", .string time), ("value_gp", .number value)]

def threeEvents : List Value :=
  [eventOf "7" "death" "9" "0", eventOf "7" "loot" "8" "1", eventOf "7" "pk_loot" "5" "6"]

theorem newestFirst_threeEvents : NewestFirst (occurred digits) threeEvents := by
  have hkeys : ([9, 8, 5] : List (WithBot ℤ)).Pairwise fun newer older ↦ older ≤ newer := by decide
  have hevents : (threeEvents.map (occurred digits)).Pairwise fun newer older ↦ older ≤ newer := hkeys
  exact List.pairwise_map.mp hevents

theorem trailEvents_newest_threeEvents :
    ∃ events, (trailEvents digits (listHub digits threeEvents) () "7" (0, none) 5).1 = .ok events ∧
      events.filter isLoot = [eventOf "7" "pk_loot" "5" "6"] ∧
      (events.filter fun event ↦ !isLoot event) = [eventOf "7" "death" "9" "0"] := by
  obtain ⟨events, hread, -, hpos, -⟩ := trailEvents_newest (documented_listHub newestFirst_threeEvents) () "7" (0, none) 5
  exact ⟨events, hread, hpos (by decide)⟩

end OsrsMap.Trails
