import OsrsMap.Page.TrailEvents

/-!
# The events that the map shows along a trail

`eventPasses` (`site/src/data/event-view.js`) lets the events of a trail onto the map that the filters let
through. The server reads a trail's events by the types that the map shows, and leaves out the drops that it
would not (`Api.getTrailEvents`): through the filters it makes no difference, as long as there are no more of
them than it reads.
-/

namespace OsrsMap.Page

open Run
open Cache (HubError)
open Hub (Value)
open Trails (Span HubContext HistoryError EventsHub Parsers Documented TrailEventsQuery covers isLoot isOther isDrop
  trailEvents afterDrops rangeEventsMax typeOf valueGp getPlayerTrailEvents)
open Site (MapEvent eventKind eventKinds)

/-- The filters: which kinds are on, by their keys, and from how much a drop is shown. -/
structure EventFilters where
  kinds : String → Bool
  minLoot : ℤ

/-- Whether the filters let an event onto the map. -/
def eventPasses (event : MapEvent) (filters : EventFilters) : Bool :=
  match eventKind event with
  | none => false
  | some kind => filters.kinds kind && (kind != "loot" || decide (filters.minLoot ≤ event.valueGp))

variable {σ : Type*} (parse : Parsers) (place : Value → Option (Option ℤ × Option ℤ × ℤ))

/-- An event as the site gets it, under the name of the player that it was asked for; where it happened is in
the plugin's own data. -/
def mapEvent (member : String) (event : Value) : MapEvent where
  id := ((event.get "id").bind Value.asStr).getD ""
  member
  type := (typeOf event).getD ""
  timeMs := (Hub.occurredAt parse.time event).map Int.cast
  location := place event
  valueGp := (valueGp parse event).getD 0

/-- What is asked of the server: `spanParams` and `min_loot`. -/
def EventsRequest.query (request : EventsRequest) (span : Span) : TrailEventsQuery where
  days := span.params.1
  fromSecs := span.params.2.1
  toSecs := span.params.2.2
  minLoot := some request.minLoot

/-! ## The types that the map shows -/

theorem listParam_lootTypes : Trails.listParam (some Trails.lootTypes) = ["loot", "pk_loot"] := by decide +kernel

theorem listParam_otherTypes : Trails.listParam (some Trails.otherTypes) =
    ["death", "level_up", "collection_log", "superior_spawn", "achievement_diary", "combat_task",
      "slayer_task_complete"] := by
  decide +kernel

variable {parse place} {member : String} {event : Value} {filters : EventFilters}

/-- The server reads every type that the map shows, and tells the same ones apart as drops. -/
theorem kind_mapEvent {kind : String} (h : eventKind (mapEvent parse place member event) = some kind) :
    kind = "loot" ∧ isLoot event = true ∨ kind ≠ "loot" ∧ isLoot event = false ∧ isOther event = true := by
  obtain ⟨⟨key, types⟩, hfound, rfl⟩ := Option.map_eq_some_iff.mp h
  have htype := List.find?_some hfound
  have hmem := List.mem_of_find?_eq_some hfound
  unfold isLoot isOther
  rw [listParam_lootTypes, listParam_otherTypes]
  dsimp only [mapEvent] at htype ⊢
  cases hof : typeOf event with
  | none =>
    rw [hof, Option.getD_none] at htype
    simp only [eventKinds, List.mem_cons, Prod.mk.injEq, List.not_mem_nil, or_false] at hmem
    obtain ⟨-, rfl⟩ | ⟨-, rfl⟩ | ⟨-, rfl⟩ | ⟨-, rfl⟩ := hmem <;> exact absurd htype (by decide)
  | some type =>
    rw [hof, Option.getD_some, List.contains_iff_mem] at htype
    simp only [Option.any_some]
    simp only [eventKinds, List.mem_cons, Prod.mk.injEq, List.not_mem_nil, or_false] at hmem
    obtain ⟨rfl, rfl⟩ | ⟨rfl, rfl⟩ | ⟨rfl, rfl⟩ | ⟨rfl, rfl⟩ := hmem
    · exact .inl ⟨rfl, decide_eq_true htype⟩
    all_goals
      simp only [List.mem_cons, List.not_mem_nil, or_false] at htype
      refine .inr ⟨by decide, ?_⟩
      rcases htype with rfl | rfl | rfl | rfl | rfl <;> decide

/-- An event that passes is a drop worth enough, or one of the rest. -/
theorem isDrop_or_isOther_of_passes (h : eventPasses (mapEvent parse place member event) filters = true) :
    isLoot event = true ∧ filters.minLoot ≤ (valueGp parse event).getD 0 ∨
      isLoot event = false ∧ isOther event = true := by
  unfold eventPasses at h
  split at h
  · cases h
  · next kind hkind =>
    obtain ⟨rfl, hloot⟩ | ⟨-, hother⟩ := kind_mapEvent hkind
    · simp only [bne_self_eq_false, Bool.false_or, Bool.and_eq_true, decide_eq_true_eq] at h
      exact .inl ⟨hloot, h.2⟩
    · exact .inr hother

/-! ## Through the filters -/

section Passing

variable (parse : Parsers) (hub : EventsHub σ) (feed : σ → List Value) (state : σ) (account : String)
  (range : ℤ × Option ℤ) (minLoot : ℤ)

/-- The hub has no more events than are read: of drops that are worth enough and of the rest, or of all. -/
structure Roomy : Prop where
  drops : 0 < minLoot → ((feed state).filter (isDrop parse account range minLoot)).length ≤ rangeEventsMax
  rest : 0 < minLoot → ((feed (afterDrops parse hub state account range minLoot)).filter fun event ↦
    covers parse account range event && isOther event).length ≤ rangeEventsMax
  all : minLoot ≤ 0 → ((feed state).filter (covers parse account range)).length ≤ rangeEventsMax

/-- Where the hub is when the events that are no drops are read. -/
def restState : σ := if 0 < minLoot then afterDrops parse hub state account range minLoot else state

/-- The account's events in the range, as the hub has them when they are read. -/
def had : List Value :=
  ((feed state).filter fun event ↦ covers parse account range event && isLoot event) ++
    (feed (restState parse hub state account range minLoot)).filter fun event ↦
      covers parse account range event && !isLoot event

/-- What the filters let onto the map. -/
def passing (filters : EventFilters) (place : Value → Option (Option ℤ × Option ℤ × ℤ)) (member : String)
    (events : List Value) : List MapEvent :=
  (events.map (mapEvent parse place member)).filter fun event ↦ eventPasses event filters

variable {parse hub feed state account range minLoot}

theorem passing_filter (events : List Value) (p : Value → Bool) :
    passing parse filters place member (events.filter p) =
      (events.filter fun event ↦ eventPasses (mapEvent parse place member event) filters && p event).map
        (mapEvent parse place member) := by
  rw [passing, List.filter_map, List.filter_filter]
  rfl

theorem passing_congr {events : List Value} {p q : Value → Bool}
    (h : ∀ event, eventPasses (mapEvent parse place member event) filters = true → p event = q event) :
    passing parse filters place member (events.filter p) = passing parse filters place member (events.filter q) := by
  rw [passing_filter, passing_filter]
  refine congrArg _ (List.filter_congr fun event _ ↦ ?_)
  cases hpasses : eventPasses (mapEvent parse place member event) filters with
  | false => rw [Bool.false_and, Bool.false_and]
  | true => rw [h event hpasses]

theorem passing_append (first second : List Value) : passing parse filters place member (first ++ second) =
    passing parse filters place member first ++ passing parse filters place member second := by
  rw [passing, List.map_append, List.filter_append]
  rfl

theorem passing_perm {events others : List Value} (h : events.Perm others) :
    (passing parse filters place member events).Perm (passing parse filters place member others) :=
  (h.map _).filter _

/-- Whatever least worth of drops the server is asked for, as long as it is no more than that of the filters,
they let the same events onto the map as of all that the hub had. -/
theorem passing_trailEvents (h : Documented parse hub feed)
    (hroomy : Roomy parse hub feed state account range minLoot)
    (hminLoot : 0 < minLoot → minLoot ≤ filters.minLoot) :
    ∃ events, (trailEvents parse hub state account range minLoot).1 = .ok events ∧
      (passing parse filters place member events).Perm
        (passing parse filters place member (had parse hub feed state account range minLoot)) := by
  unfold had restState
  obtain hpos | hnonpos := lt_or_ge 0 minLoot
  · refine ⟨_, Trails.trailEvents_of_pos h hpos, ?_⟩
    rw [List.take_of_length_le (hroomy.drops hpos), List.take_of_length_le (hroomy.rest hpos), if_pos hpos]
    refine (passing_perm (Newest.sortNewest_perm _ _)).trans (.of_eq ?_)
    rw [passing_append, passing_append]
    congr 1
    · refine passing_congr fun event hpasses ↦ ?_
      obtain ⟨hloot, hworth⟩ | ⟨hloot, -⟩ := isDrop_or_isOther_of_passes hpasses
      · -- A drop that is shown is worth something, so its value is known.
        have hvalue : ((valueGp parse event).any fun value ↦ decide (minLoot ≤ value)) = true := by
          cases hof : valueGp parse event with
          | none =>
            rw [hof, Option.getD_none] at hworth
            exact absurd (hpos.trans_le (hminLoot hpos)) (not_lt.mpr hworth)
          | some value =>
            rw [hof, Option.getD_some] at hworth
            exact decide_eq_true ((hminLoot hpos).trans hworth)
        rw [isDrop, hvalue, Bool.and_true]
      · rw [isDrop, hloot, Bool.and_false, Bool.false_and]
    · refine passing_congr fun event hpasses ↦ ?_
      obtain ⟨hloot, -⟩ | ⟨hloot, hother⟩ := isDrop_or_isOther_of_passes hpasses
      · have hother : isOther event = false := by
          cases hother : isOther event with
          | false => rfl
          | true => exact absurd (Trails.isLoot_eq_false_of_isOther hother) (by simp [hloot])
        rw [hloot, hother]
        rfl
      · rw [hloot, hother]
        rfl
  · refine ⟨_, Trails.trailEvents_of_nonpos h hnonpos, ?_⟩
    rw [List.take_of_length_le (hroomy.all hnonpos), if_neg (not_lt.mpr hnonpos)]
    refine passing_perm ((List.filter_append_perm isLoot _).symm.trans (.of_eq ?_))
    rw [List.filter_filter, List.filter_filter]
    congr 1
    · exact List.filter_congr fun event _ ↦ Bool.and_comm _ _
    · exact List.filter_congr fun event _ ↦ Bool.and_comm _ _

end Passing

/-! ## The page and the server -/

section Served

variable (parse : Parsers) (place : Value → Option (Option ℤ × Option ℤ × ℤ)) (hub : EventsHub σ)
  (knows : ℤ → HubContext → σ → Prop)

/-- The events are what the server answers to the request, at some time and knowing what it may know then, of the
hub as it may be then. -/
def EventsRequest.Served (request : EventsRequest) (events : List MapEvent) : Prop :=
  ∃ (context : HubContext) (now : ℤ) (state : σ) (span : Span) (values : List Value), knows now context state ∧
    request.span = some span ∧
    (getPlayerTrailEvents parse hub context now request.name (request.query span) state).1 = .ok values ∧
    events = values.map (mapEvent parse place request.name)

/-- What the filters let onto the map of the events is what they let onto it of those that the hub had when the
server read them: of the account that the server knew the player by, over the span. -/
def ShowsAll (feed : σ → List Value) (name : String) (span : Span) (minLoot : ℤ) (events : List MapEvent) : Prop :=
  ∃ (context : HubContext) (now : ℤ) (state : σ) (account : String), knows now context state ∧
    context.hubId name = some account ∧ span.Showable (now / 1000) ∧
    (Roomy parse hub feed state account (span.start now, span.stop) (max minLoot 0) →
      ∀ filters : EventFilters, minLoot ≤ filters.minLoot →
        (events.filter fun event ↦ eventPasses event filters).Perm
          (passing parse filters place name
            (had parse hub feed state account (span.start now, span.stop) (max minLoot 0))))

variable {parse place hub knows} {feed : σ → List Value}

/-- What the server answers through its handler. -/
theorem showsAll_of_served (h : Documented parse hub feed) {request : EventsRequest} {events : List MapEvent}
    (hserved : request.Served parse place hub knows events) : ∃ span, request.span = some span ∧
      ShowsAll parse place hub knows feed request.name span.clamped request.minLoot events := by
  obtain ⟨context, now, state, span, values, hknows, hspan, hanswer, rfl⟩ := hserved
  refine ⟨span, hspan, ?_⟩
  unfold getPlayerTrailEvents at hanswer
  split_ifs at hanswer with henabled
  split at hanswer
  · cases hanswer
  · next account haccount =>
    split at hanswer
    · cases hanswer
    · next read hread =>
      obtain ⟨rfl, hshowable⟩ := Span.of_params_iff.mp hread
      refine ⟨context, now, state, account, hknows, haccount, hshowable, fun hroomy filters hminLoot ↦ ?_⟩
      have hasked : (request.query span).minLoot.getD 0 = request.minLoot := rfl
      have hless (hpos : 0 < max request.minLoot 0) : max request.minLoot 0 ≤ filters.minLoot := by
        omega
      obtain ⟨had, hhad, hperm⟩ := @passing_trailEvents σ place request.name filters parse hub feed state account
        (span.clamped.start now, span.clamped.stop) (max request.minLoot 0) h hroomy hless
      dsimp only at hanswer
      rw [hasked, hhad] at hanswer
      obtain rfl := Except.ok.inj hanswer
      exact hperm

namespace TrailMarks

variable (parse place hub knows) in
/-- Events that come in are the server's answer to the request. -/
def Serving (marks : TrailMarks) : MarksEvent → Prop
  | .answer index events => ∀ request ∈ marks.requests[index]?, request.Served parse place hub knows events
  | _ => True

variable (parse place hub knows) in
/-- Every answer was the server's. -/
def AllServed (marks : TrailMarks) : Prop :=
  ∀ request events, (request, some events) ∈ marks.answered → request.Served parse place hub knows events

variable (parse place hub knows feed) in
/-- A player's events are under way or are not shared, or the map shows of them what the filters let through of
all that the hub had of the player's account over the time that is picked. -/
def Shown (marks : TrailMarks) (name : String) : Prop :=
  ∃ note, marks.trailEvents.get name = some note ∧ marks.UpToDate note ∧
    ((∃ request ∈ marks.requests, request.name = name ∧ note = request.noted) ∨
      (∃ request, (request, none) ∈ marks.answered ∧ request.name = name ∧ note = request.noted) ∨
      ∃ span, marks.span = some span ∧ ∃ minLoot ≤ marks.minLoot,
        ShowsAll parse place hub knows feed name span.clamped minLoot note.events)

variable {marks : TrailMarks}

theorem answered_loadTrailEvents (marks : TrailMarks) : marks.loadTrailEvents.answered = marks.answered := by
  unfold loadTrailEvents
  generalize marks.onMap.filter marks.due = names
  induction names generalizing marks with
  | nil => rfl
  | cons name names ih => exact ih (marks.ask name)

theorem allServed_of_answered {after : TrailMarks} (h : marks.AllServed parse place hub knows)
    (hsame : after.answered = marks.answered) : after.AllServed parse place hub knows := by
  rw [AllServed, hsame]
  exact h

theorem allServed_append {after : TrailMarks} (h : marks.AllServed parse place hub knows) {request : EventsRequest}
    {answer : Option (List MapEvent)} (hanswered : after.answered = marks.answered ++ [(request, answer)])
    (hserved : ∀ events, answer = some events → request.Served parse place hub knows events) :
    after.AllServed parse place hub knows := by
  intro other events hmem
  rw [hanswered] at hmem
  obtain hold | hlast := List.mem_append.mp hmem
  · exact h other events hold
  · obtain ⟨rfl, hevents⟩ := Prod.mk.inj (List.mem_singleton.mp hlast)
    exact hserved events hevents.symm

theorem allServed_step (h : marks.AllServed parse place hub knows) {event : MarksEvent}
    (hserving : marks.Serving parse place hub knows event) : (marks.step event).AllServed parse place hub knows := by
  cases event with
  | pick _ | draw _ | forget _ | pass _ => exact allServed_of_answered h rfl
  | load => exact allServed_of_answered h (answered_loadTrailEvents marks)
  | filter minLoot => exact allServed_of_answered h (answered_loadTrailEvents _)
  | answer index events =>
    dsimp only [step]
    cases hrequest : marks.requests[index]? with
    | none => exact h
    | some request =>
      have hserved : ∀ taken, some events = some taken → request.Served parse place hub knows taken := by
        intro taken htaken
        obtain rfl := Option.some.inj htaken
        exact hserving request hrequest
      refine allServed_append h ?_ hserved
      dsimp only [eventsAnswered]
      split_ifs <;> rfl
  | fail index status =>
    dsimp only [step]
    cases hrequest : marks.requests[index]? with
    | none => exact h
    | some request =>
      dsimp only [eventsFailed]
      split_ifs
      · have hanswered : ∀ events, none = some events → request.Served parse place hub knows events :=
          fun _ hevents ↦ nomatch hevents
        exact allServed_append h rfl hanswered
      · exact allServed_of_answered h rfl
      · exact allServed_of_answered h rfl

/-- Whenever the trails have been fetched: of every player on the map whose events are shared and there, the map
shows through its filters what it would of all that the hub had over the time that is picked, whatever was
asked before, in whatever order it was answered and whatever failed. -/
theorem shown_after_load (h : Documented parse hub feed) {now : ℤ} (hlate : trailEventsRefreshMs ≤ now)
    (span : Option Span) (minLoot : ℤ) {events : List MarksEvent}
    (htimely : Along step Timely (new now span minLoot) events)
    (hserving : Along step (Serving parse place hub knows) (new now span minLoot) events) :
    ∀ name ∈ (events.foldl step (new now span minLoot)).onMap,
      (events.foldl step (new now span minLoot)).loadTrailEvents.Shown parse place hub knows feed name := by
  intro name hname
  have hstart : (new now span minLoot).AllServed parse place hub knows := fun _ _ hmem ↦ (List.not_mem_nil hmem).elim
  have hall : Always step (AllServed parse place hub knows) (new now span minLoot) events :=
    always_of_along (fun _ _ h hevent ↦ allServed_step h hevent) hstart hserving
  obtain ⟨note, hnote, huptodate, hcase⟩ := (always_noted hlate span minLoot htimely).final.marked_loadTrailEvents hname
  refine ⟨note, hnote, huptodate, hcase.imp_right (Or.symm ∘ Or.imp_left ?_)⟩
  rintro ⟨request, hmem, rfl, hspan, hloot⟩
  rw [answered_loadTrailEvents] at hmem
  obtain ⟨picked, hpicked, hshows⟩ := showsAll_of_served h (hall.final request note.events hmem)
  refine ⟨picked, ?_, request.minLoot, hloot.symm.trans_le huptodate.minLoot, hshows⟩
  rw [← huptodate.span, hspan, hpicked]

/-- A server that knows Ann. -/
def knowsAnn : HubContext where
  historyEnabled := true
  hubId name := if name = "Ann" then some "7" else none
  accountTrail _ _ := .ok none

/-- That is all it ever knows. -/
def OnlyAnn (_ : ℤ) (context : HubContext) (_ : Unit) : Prop := context = knowsAnn

/-- The server answers with what the hub has, newest first. -/
theorem served_threeEvents :
    EventsRequest.Served Trails.digits (fun _ ↦ none) (Trails.listHub Trails.digits Trails.threeEvents) OnlyAnn
      ⟨"Ann", [], 1791209430000, some (.days 1), 0, 0⟩
      (Trails.threeEvents.map (mapEvent Trails.digits (fun _ ↦ none) "Ann")) :=
  ⟨knowsAnn, 9000, (), .days 1, Trails.threeEvents, rfl, rfl, rfl, rfl⟩

/-- Ann's trail is drawn and her events are fetched. -/
def annsEvents : List MarksEvent :=
  [.draw ["Ann"], .load, .answer 0 (Trails.threeEvents.map (mapEvent Trails.digits (fun _ ↦ none) "Ann"))]

theorem shown_annsEvents :
    (annsEvents.foldl step (new 1791209430000 (some (.days 1)) 0)).loadTrailEvents.Shown Trails.digits
      (fun _ ↦ none) (Trails.listHub Trails.digits Trails.threeEvents) OnlyAnn (fun _ ↦ Trails.threeEvents) "Ann" := by
  have hserving : Along step
      (Serving Trails.digits (fun _ ↦ none) (Trails.listHub Trails.digits Trails.threeEvents) OnlyAnn)
      (new 1791209430000 (some (.days 1)) 0) annsEvents := by
    refine ⟨trivial, trivial, fun request hrequest ↦ ?_, trivial⟩
    obtain rfl : request = ⟨"Ann", [], 1791209430000, some (.days 1), 0, 0⟩ := (Option.some.inj hrequest).symm
    exact served_threeEvents
  exact shown_after_load (Trails.documented_listHub Trails.newestFirst_threeEvents) (by decide)
    (some (.days 1)) 0 (by decide +kernel) hserving "Ann" (by decide +kernel)

end TrailMarks

end Served

end OsrsMap.Page
