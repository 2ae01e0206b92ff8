import OsrsMap.Library.Ordered
import OsrsMap.Library.Run
import OsrsMap.Site.NextChange
import OsrsMap.Trails.TrailEvents

/-!
# The events along the trails on the map

`MapPage.loadTrailEvents` (`site/src/map-page/map-page.js`): the events of the players whose trails are on the
map are asked for where that hasn't been done lately, over the time that is picked and without the drops that
the filters hide. What was asked is noted before the answer is there, and an answer is taken only when the note
is still the same one and the time that it was asked for is still picked. Answers come in any order.

A span stands for its `spanKey`. What the live feed adds is left out.
-/

namespace OsrsMap.Page

open Run
open Trails (Span)
open Site (MapEvent eventKind)

/-- `TRAIL_EVENTS_REFRESH_MS`. -/
def trailEventsRefreshMs : ℤ := 10 * 60 * 1000

/-- What was fetched for a player, or is being fetched. `ref` tells one object from another. -/
structure EventNote where
  events : List MapEvent
  atMs : ℤ
  span : Option Span
  minLoot : ℤ
  ref : ℕ

/-- A request for the events of a player; `known` are those that the page had. -/
structure EventsRequest where
  name : String
  known : List MapEvent
  atMs : ℤ
  span : Option Span
  minLoot : ℤ
  ref : ℕ

/-- What is noted before the answer. -/
def EventsRequest.noted (request : EventsRequest) : EventNote where
  events := request.known
  atMs := request.atMs
  span := request.span
  minLoot := request.minLoot
  ref := request.ref

/-- What the page knows of the events along the trails: `span` is the time that is picked, `minLoot` that of the
filters, `onMap` whose trails are on the map. Not of the code: the requests that were answered, without events
where those are not shared. -/
structure TrailMarks where
  now : ℤ
  span : Option Span
  minLoot : ℤ
  onMap : List String
  trailEvents : OrderedMap String EventNote
  requests : List EventsRequest
  nextRef : ℕ
  answered : List (EventsRequest × Option (List MapEvent))

inductive MarksEvent where
  /-- Another time is picked. -/
  | pick (span : Option Span)
  /-- Other trails are drawn. -/
  | draw (names : List String)
  /-- `loadTrails` forgets the events of trails that are off. -/
  | forget (on : List String)
  /-- The trails were fetched. -/
  | load
  /-- Other drops are let onto the map. -/
  | filter (minLoot : ℤ)
  | answer (index : ℕ) (events : List MapEvent)
  | fail (index : ℕ) (status : Option ℕ)
  | pass (ms : ℕ)

namespace TrailMarks

/-- Of a page that was just made. -/
def new (now : ℤ) (span : Option Span) (minLoot : ℤ) : TrailMarks where
  now
  span
  minLoot
  onMap := []
  trailEvents := .empty
  requests := []
  nextRef := 0
  answered := []

variable (marks : TrailMarks)

/-- Whether a player's events are to be fetched. -/
def due (name : String) : Bool :=
  match marks.trailEvents.get name with
  | none => true
  | some fetched =>
    trailEventsRefreshMs ≤ marks.now - fetched.atMs ∨ fetched.span ≠ marks.span ∨ marks.minLoot < fetched.minLoot

/-- A player's events are asked for. -/
def ask (name : String) : TrailMarks :=
  let known := ((marks.trailEvents.get name).map EventNote.events).getD []
  let request : EventsRequest :=
    { name, known, atMs := marks.now, span := marks.span, minLoot := marks.minLoot, ref := marks.nextRef }
  { marks with
    trailEvents := marks.trailEvents.set name request.noted
    requests := marks.requests ++ [request]
    nextRef := marks.nextRef + 1 }

/-- `loadTrailEvents`, up to where it waits. -/
def loadTrailEvents : TrailMarks := (marks.onMap.filter marks.due).foldl ask marks

/-- The answer is still wanted. -/
def wanted (request : EventsRequest) : Bool :=
  ((marks.trailEvents.get request.name).any fun note ↦ note.ref = request.ref) && marks.span = request.span

/-- What is known of a player is set. -/
def keep (request : EventsRequest) (events : List MapEvent) (atMs : ℤ) : TrailMarks :=
  { marks with
    trailEvents := marks.trailEvents.set request.name
      { events, atMs, span := request.span, minLoot := request.minLoot, ref := marks.nextRef }
    nextRef := marks.nextRef + 1 }

/-- The answer to a request. -/
def eventsAnswered (request : EventsRequest) (events : List MapEvent) : TrailMarks :=
  let marks := { marks with answered := marks.answered ++ [(request, some events)] }
  if marks.wanted request then marks.keep request events request.atMs else marks

/-- A request failed; 404 says that the events are not shared. -/
def eventsFailed (request : EventsRequest) (status : Option ℕ) : TrailMarks :=
  if status = some 404 then { marks with answered := marks.answered ++ [(request, none)] }
  else if marks.wanted request then marks.keep request request.known 0
  else marks

def step : MarksEvent → TrailMarks
  | .pick span => { marks with span }
  | .draw names => { marks with onMap := names }
  | .forget on => { marks with trailEvents := marks.trailEvents.retain (· ∈ on) }
  | .load => marks.loadTrailEvents
  | .filter minLoot => { marks with minLoot }.loadTrailEvents
  | .answer index events =>
    match marks.requests[index]? with
    | none => marks
    | some request => { marks with requests := marks.requests.eraseIdx index }.eventsAnswered request events
  | .fail index status =>
    match marks.requests[index]? with
    | none => marks
    | some request => { marks with requests := marks.requests.eraseIdx index }.eventsFailed request status
  | .pass ms => { marks with now := marks.now + ms }

/-! ## What is kept -/

/-- An answer that comes while another time is picked than it was asked for is not the one that is noted: the
new time was asked for by then. -/
def Timely (marks : TrailMarks) : MarksEvent → Prop
  | .answer index _ | .fail index _ => ∀ request ∈ marks.requests[index]?,
      ((marks.trailEvents.get request.name).any fun note ↦ note.ref = request.ref) = true →
        marks.span = request.span
  | _ => True

instance decidableTimely (marks : TrailMarks) : (event : MarksEvent) → Decidable (marks.Timely event)
  | .answer _ _ | .fail _ _ => inferInstanceAs (Decidable (∀ _ ∈ _, _ → _))
  | .pick _ | .draw _ | .forget _ | .load | .filter _ | .pass _ => inferInstanceAs (Decidable True)

/-- What a note says: it is being fetched, it failed and is due, it is what was answered to the request, or the
events are not shared and it has what was known before. -/
inductive Tells (marks : TrailMarks) (name : String) (note : EventNote) : Prop
  | underWay (request : EventsRequest) (mem : request ∈ marks.requests) (name_eq : request.name = name)
    (noted : note = request.noted)
  | failed (atMs : note.atMs = 0)
  | answered (request : EventsRequest) (mem : (request, some note.events) ∈ marks.answered)
    (name_eq : request.name = name) (span : note.span = request.span) (minLoot : note.minLoot = request.minLoot)
    (atMs : note.atMs = request.atMs)
  | notShared (request : EventsRequest) (mem : (request, none) ∈ marks.answered) (name_eq : request.name = name)
    (noted : note = request.noted)

/-- No two requests under way are noted alike, and time has gone by since 1970. -/
structure Apart (marks : TrailMarks) : Prop where
  fresh : ∀ request ∈ marks.requests, request.ref < marks.nextRef
  freshNotes : ∀ name note, marks.trailEvents.get name = some note → note.ref < marks.nextRef
  refs : (marks.requests.map EventsRequest.ref).Nodup
  own : ∀ name note, marks.trailEvents.get name = some note → ∀ request ∈ marks.requests,
    request.ref = note.ref → request.name = name ∧ note = request.noted
  late : trailEventsRefreshMs ≤ marks.now

/-- Every note says what it is. -/
structure Noted (marks : TrailMarks) : Prop extends Apart marks where
  tells : ∀ name note, marks.trailEvents.get name = some note → marks.Tells name note

variable {marks}

theorem noted_new {now : ℤ} (hlate : trailEventsRefreshMs ≤ now) (span : Option Span) (minLoot : ℤ) :
    (new now span minLoot).Noted where
  fresh _ hrequest := nomatch hrequest
  freshNotes _ _ hnote := nomatch hnote
  refs := .nil
  own _ _ hnote := nomatch hnote
  late := hlate
  tells _ _ hnote := nomatch hnote

theorem Tells.mono {after : TrailMarks} {name : String} {note : EventNote} (h : marks.Tells name note)
    (hrequests : ∀ request ∈ marks.requests, note = request.noted → request ∈ after.requests)
    (hanswered : marks.answered ⊆ after.answered) : after.Tells name note := by
  cases h with
  | underWay request mem name_eq noted => exact .underWay request (hrequests request mem noted) name_eq noted
  | failed atMs => exact .failed atMs
  | answered request mem name_eq span minLoot atMs =>
    exact .answered request (hanswered mem) name_eq span minLoot atMs
  | notShared request mem name_eq noted => exact .notShared request (hanswered mem) name_eq noted

/-! ## Asking -/

theorem noted_ask (h : marks.Noted) (name : String) : (marks.ask name).Noted := by
  have hnew (request : EventsRequest) (hrequest : request ∈ marks.requests) : request.ref ≠ marks.nextRef :=
    (h.fresh request hrequest).ne
  constructor
  · constructor
    · intro request hrequest
      obtain hold | hlast := List.mem_append.mp hrequest
      · exact (h.fresh request hold).trans (Nat.lt_succ_self _)
      · obtain rfl := List.mem_singleton.mp hlast
        exact Nat.lt_succ_self _
    · intro other note hnote
      rw [ask, OrderedMap.get_set] at hnote
      split_ifs at hnote
      · obtain rfl := Option.some.inj hnote
        exact Nat.lt_succ_self _
      · exact (h.freshNotes other note hnote).trans (Nat.lt_succ_self _)
    · rw [ask, List.map_append, List.map_singleton, ← List.concat_eq_append]
      refine h.refs.concat fun hmem ↦ ?_
      obtain ⟨request, hrequest, href⟩ := List.mem_map.mp hmem
      exact hnew request hrequest href
    · intro other note hnote request hrequest href
      rw [ask, OrderedMap.get_set] at hnote
      obtain hold | hlast := List.mem_append.mp hrequest
      · split_ifs at hnote with hother
        · obtain rfl := Option.some.inj hnote
          exact absurd href (hnew request hold)
        · exact h.own other note hnote request hold href
      · obtain rfl := List.mem_singleton.mp hlast
        split_ifs at hnote with hother
        · exact ⟨hother.symm, (Option.some.inj hnote).symm⟩
        · exact absurd href.symm (h.freshNotes other note hnote).ne
    · exact h.late
  · intro other note hnote
    rw [ask, OrderedMap.get_set] at hnote
    split_ifs at hnote with hother
    · obtain rfl := Option.some.inj hnote
      exact .underWay _ (List.mem_append_right _ List.mem_cons_self) hother.symm rfl
    · exact (h.tells other note hnote).mono (fun _ hrequest _ ↦ List.mem_append_left _ hrequest)
        (List.Subset.refl _)

theorem noted_loadTrailEvents (h : marks.Noted) : marks.loadTrailEvents.Noted := by
  unfold loadTrailEvents
  generalize marks.onMap.filter marks.due = names
  induction names generalizing marks with
  | nil => exact h
  | cons name names ih => exact ih (noted_ask h name)

/-! ## Answers -/

variable {request : EventsRequest} {index : ℕ}

theorem apart_erase (h : marks.Apart) (index : ℕ) : { marks with requests := marks.requests.eraseIdx index }.Apart where
  fresh other hother := h.fresh other (List.eraseIdx_subset hother)
  freshNotes := h.freshNotes
  refs := ((List.eraseIdx_sublist _ _).map _).nodup h.refs
  own name note hnote other hother := h.own name note hnote other (List.eraseIdx_subset hother)
  late := h.late

/-- A note of another request loses nothing when a request is over. -/
theorem Tells.erase {name : String} {note : EventNote} (h : marks.Tells name note)
    (hrequest : marks.requests[index]? = some request) (hother : note.ref ≠ request.ref)
    (answered : List (EventsRequest × Option (List MapEvent))) (hanswered : marks.answered ⊆ answered) :
    { marks with requests := marks.requests.eraseIdx index, answered }.Tells name note := by
  refine h.mono (fun other hmem hnoted ↦ ?_) hanswered
  obtain ⟨place, hplace⟩ := List.getElem?_of_mem hmem
  refine List.mem_eraseIdx_iff_getElem?.mpr ⟨place, ?_, hplace⟩
  rintro rfl
  obtain rfl := Option.some.inj (hplace.symm.trans hrequest)
  exact hother (congrArg EventNote.ref hnoted)

/-- What is known of a player is set once the request is over, in place of what was noted for it. -/
theorem noted_keep (h : marks.Noted) (hrequest : marks.requests[index]? = some request)
    {answered : List (EventsRequest × Option (List MapEvent))} (hanswered : marks.answered ⊆ answered)
    {events : List MapEvent} {atMs : ℤ}
    (htells : atMs = 0 ∨ (request, some events) ∈ answered ∧ atMs = request.atMs) :
    ({ marks with requests := marks.requests.eraseIdx index, answered }.keep request events atMs).Noted := by
  have hmem : request ∈ marks.requests := List.mem_of_getElem? hrequest
  have herased := apart_erase h.toApart index
  constructor
  · constructor
    · intro other hother
      exact (herased.fresh other hother).trans (Nat.lt_succ_self _)
    · intro name note hnote
      rw [keep, OrderedMap.get_set] at hnote
      split_ifs at hnote
      · obtain rfl := Option.some.inj hnote
        exact Nat.lt_succ_self _
      · exact (herased.freshNotes name note hnote).trans (Nat.lt_succ_self _)
    · exact herased.refs
    · intro name note hnote other hother href
      rw [keep, OrderedMap.get_set] at hnote
      split_ifs at hnote
      · obtain rfl := Option.some.inj hnote
        exact absurd href (herased.fresh other hother).ne
      · exact herased.own name note hnote other hother href
    · exact herased.late
  · intro name note hnote
    rw [keep, OrderedMap.get_set] at hnote
    split_ifs at hnote with hname
    · obtain rfl := Option.some.inj hnote
      obtain hfailed | ⟨hanswer, hat⟩ := htells
      · exact .failed hfailed
      · exact .answered request hanswer hname.symm rfl rfl hat
    · have hother : note.ref ≠ request.ref := fun href ↦ hname (h.own name note hnote request hmem href.symm).1.symm
      exact ((h.tells name note hnote).erase hrequest hother answered hanswered).mono (fun _ hother _ ↦ hother)
        (List.Subset.refl _)

/-- Nothing changes but that a request is over, when none of the notes waits for it. -/
theorem noted_erase (h : marks.Noted) (hrequest : marks.requests[index]? = some request)
    {answered : List (EventsRequest × Option (List MapEvent))} (hanswered : marks.answered ⊆ answered)
    (htells : ∀ name note, marks.trailEvents.get name = some note → note.ref = request.ref →
      { marks with requests := marks.requests.eraseIdx index, answered }.Tells name note) :
    { marks with requests := marks.requests.eraseIdx index, answered }.Noted where
  toApart :=
    have herased := apart_erase h.toApart index
    ⟨herased.fresh, herased.freshNotes, herased.refs, herased.own, herased.late⟩
  tells name note hnote := by
    by_cases href : note.ref = request.ref
    · exact htells name note hnote href
    · exact (h.tells name note hnote).erase hrequest href answered hanswered

/-- An answer in time is wanted, or is not the one that is noted any more. -/
theorem not_noted_of_timely (h : marks.Noted) (hrequest : marks.requests[index]? = some request)
    (htimely : ((marks.trailEvents.get request.name).any fun note ↦ note.ref = request.ref) = true →
      marks.span = request.span) (hwanted : ¬ marks.wanted request = true) {name : String} {note : EventNote}
    (hnote : marks.trailEvents.get name = some note) : note.ref ≠ request.ref := by
  intro href
  obtain ⟨rfl, -⟩ := h.own name note hnote request (List.mem_of_getElem? hrequest) href.symm
  have hsame : ((marks.trailEvents.get request.name).any fun note ↦ note.ref = request.ref) = true := by
    rw [hnote, Option.any_some]
    exact decide_eq_true href
  apply hwanted
  rw [wanted, hsame, Bool.true_and]
  exact decide_eq_true (htimely hsame)

theorem noted_eventsAnswered (h : marks.Noted) (hrequest : marks.requests[index]? = some request)
    (htimely : ((marks.trailEvents.get request.name).any fun note ↦ note.ref = request.ref) = true →
      marks.span = request.span) (events : List MapEvent) :
    ({ marks with requests := marks.requests.eraseIdx index }.eventsAnswered request events).Noted := by
  have hanswered := List.subset_append_left marks.answered [(request, some events)]
  unfold eventsAnswered
  dsimp only
  split_ifs with hwanted
  · exact noted_keep h hrequest hanswered (.inr ⟨List.mem_append_right _ List.mem_cons_self, rfl⟩)
  · exact noted_erase h hrequest hanswered fun name note hnote href ↦
      absurd href (not_noted_of_timely h hrequest htimely hwanted hnote)

theorem noted_eventsFailed (h : marks.Noted) (hrequest : marks.requests[index]? = some request)
    (htimely : ((marks.trailEvents.get request.name).any fun note ↦ note.ref = request.ref) = true →
      marks.span = request.span) (status : Option ℕ) :
    ({ marks with requests := marks.requests.eraseIdx index }.eventsFailed request status).Noted := by
  unfold eventsFailed
  split_ifs with hnotShared hwanted
  · -- What was noted stays, with the events that were known.
    refine noted_erase h hrequest (List.subset_append_left _ _) fun name note hnote href ↦ ?_
    obtain ⟨hname, rfl⟩ := h.own name note hnote request (List.mem_of_getElem? hrequest) href.symm
    exact .notShared request (List.mem_append_right _ List.mem_cons_self) hname rfl
  · exact noted_keep h hrequest (List.Subset.refl _) (.inl rfl)
  · exact noted_erase h hrequest (List.Subset.refl _) fun name note hnote href ↦
      absurd href (not_noted_of_timely h hrequest htimely hwanted hnote)

/-! ## Runs -/

theorem noted_step (h : marks.Noted) {event : MarksEvent} (htimely : marks.Timely event) :
    (marks.step event).Noted := by
  have hframe (after : TrailMarks) (hnotes : after.trailEvents = marks.trailEvents)
      (hrequests : after.requests = marks.requests) (href : after.nextRef = marks.nextRef)
      (hanswered : after.answered = marks.answered) (hnow : marks.now ≤ after.now) : after.Noted := by
    obtain ⟨now, span, minLoot, onMap, trailEvents, requests, nextRef, answered⟩ := after
    dsimp only at hnotes hrequests href hanswered hnow
    subst hnotes hrequests href hanswered
    exact ⟨⟨h.fresh, h.freshNotes, h.refs, h.own, h.late.trans hnow⟩, fun name note hnote ↦
      (h.tells name note hnote).mono (fun _ hrequest _ ↦ hrequest) (List.Subset.refl _)⟩
  cases event with
  | pick span => exact hframe _ rfl rfl rfl rfl le_rfl
  | draw names => exact hframe _ rfl rfl rfl rfl le_rfl
  | forget on =>
    have hget (name : String) (note : EventNote)
        (hnote : (marks.trailEvents.retain (· ∈ on)).get name = some note) :
        marks.trailEvents.get name = some note := by
      rw [OrderedMap.get_retain] at hnote
      split_ifs at hnote
      exact hnote
    exact ⟨⟨h.fresh, fun name note hnote ↦ h.freshNotes name note (hget name note hnote), h.refs,
      fun name note hnote ↦ h.own name note (hget name note hnote), h.late⟩, fun name note hnote ↦
      (h.tells name note (hget name note hnote)).mono (fun _ hrequest _ ↦ hrequest) (List.Subset.refl _)⟩
  | load => exact noted_loadTrailEvents h
  | filter minLoot => exact noted_loadTrailEvents (hframe { marks with minLoot } rfl rfl rfl rfl le_rfl)
  | answer index events =>
    dsimp only [step]
    cases hrequest : marks.requests[index]? with
    | none => exact h
    | some request => exact noted_eventsAnswered h hrequest (htimely request hrequest) events
  | fail index status =>
    dsimp only [step]
    cases hrequest : marks.requests[index]? with
    | none => exact h
    | some request => exact noted_eventsFailed h hrequest (htimely request hrequest) status
  | pass ms => exact hframe _ rfl rfl rfl rfl (by dsimp only [step]; omega)

/-- What is noted of a player is for the time that is picked, lately asked for and with no drop left out that
the filters let through. -/
structure UpToDate (marks : TrailMarks) (note : EventNote) : Prop where
  span : note.span = marks.span
  minLoot : note.minLoot ≤ marks.minLoot
  young : marks.now - note.atMs < trailEventsRefreshMs

theorem upToDate_of_not_due {name : String} (h : ¬ marks.due name = true) :
    ∃ note, marks.trailEvents.get name = some note ∧ marks.UpToDate note := by
  unfold due at h
  split at h
  · exact absurd rfl h
  · next note hnote =>
    simp only [decide_eq_true_eq, not_or, not_le, not_lt, not_not] at h
    exact ⟨note, hnote, h.2.1, h.2.2, h.1⟩

/-- Asking leaves everyone up to date who was, and whoever is asked for. -/
theorem upToDate_ask {name other : String}
    (h : other = name ∨ ∃ note, marks.trailEvents.get other = some note ∧ marks.UpToDate note) :
    ∃ note, (marks.ask name).trailEvents.get other = some note ∧ (marks.ask name).UpToDate note := by
  by_cases hother : other = name
  · refine ⟨_, by rw [ask, OrderedMap.get_set, if_pos hother], rfl, le_rfl, ?_⟩
    change marks.now - marks.now < trailEventsRefreshMs
    rw [sub_self]
    decide
  · obtain ⟨note, hnote, huptodate⟩ := h.resolve_left hother
    refine ⟨note, ?_, huptodate.span, huptodate.minLoot, huptodate.young⟩
    rw [ask, OrderedMap.get_set, if_neg hother]
    exact hnote

theorem upToDate_loadTrailEvents {name : String} (hname : name ∈ marks.onMap) :
    ∃ note, marks.loadTrailEvents.trailEvents.get name = some note ∧ marks.loadTrailEvents.UpToDate note := by
  have hasked : name ∈ marks.onMap.filter marks.due ∨
      ∃ note, marks.trailEvents.get name = some note ∧ marks.UpToDate note := by
    by_cases hdue : marks.due name = true
    · exact .inl (List.mem_filter.mpr ⟨hname, hdue⟩)
    · exact .inr (upToDate_of_not_due hdue)
  unfold loadTrailEvents
  clear hname
  generalize marks.onMap.filter marks.due = names at hasked
  induction names generalizing marks with
  | nil => exact hasked.resolve_left List.not_mem_nil
  | cons first names ih =>
    rw [List.foldl_cons]
    apply ih
    obtain hmem | huptodate := hasked
    · obtain rfl | hmem := List.mem_cons.mp hmem
      · exact .inr (upToDate_ask (.inl rfl))
      · exact .inl hmem
    · exact .inr (upToDate_ask (.inr huptodate))

/-- A player's events are under way, or they are what was answered, or they are not shared and what was known when
they were asked for stays; for the time that is picked, with every drop that the filters let through. -/
def Marked (marks : TrailMarks) (name : String) : Prop :=
  ∃ note, marks.trailEvents.get name = some note ∧ marks.UpToDate note ∧
    ((∃ request ∈ marks.requests, request.name = name ∧ note = request.noted) ∨
      (∃ request, (request, some note.events) ∈ marks.answered ∧ request.name = name ∧ note.span = request.span ∧
        note.minLoot = request.minLoot) ∨
      ∃ request, (request, none) ∈ marks.answered ∧ request.name = name ∧ note = request.noted)

theorem Noted.marked (h : marks.Noted) {name : String} {note : EventNote}
    (hnote : marks.trailEvents.get name = some note) (huptodate : marks.UpToDate note) : marks.Marked name := by
  refine ⟨note, hnote, huptodate, ?_⟩
  cases h.tells name note hnote with
  | underWay request mem name_eq noted => exact .inl ⟨request, mem, name_eq, noted⟩
  | failed atMs =>
    -- What failed is as old as can be, and was asked for again.
    have hyoung := huptodate.young
    rw [atMs, sub_zero] at hyoung
    exact absurd h.late (not_le.mpr hyoung)
  | answered request mem name_eq span minLoot atMs => exact .inr (.inl ⟨request, mem, name_eq, span, minLoot⟩)
  | notShared request mem name_eq noted => exact .inr (.inr ⟨request, mem, name_eq, noted⟩)

theorem always_noted {now : ℤ} (hlate : trailEventsRefreshMs ≤ now) (span : Option Span) (minLoot : ℤ)
    {events : List MarksEvent} (htimely : Along step Timely (new now span minLoot) events) :
    Always step Noted (new now span minLoot) events :=
  always_of_along (fun _ _ h hevent ↦ noted_step h hevent) (noted_new hlate span minLoot) htimely

theorem Noted.marked_loadTrailEvents (h : marks.Noted) {name : String} (hname : name ∈ marks.onMap) :
    marks.loadTrailEvents.Marked name := by
  obtain ⟨note, hnote, huptodate⟩ := upToDate_loadTrailEvents hname
  exact (noted_loadTrailEvents h).marked hnote huptodate

/-- Whenever the trails have been fetched, what is known of every player on the map is under way or was answered,
for what is picked by then: no answer to an earlier question is taken for it. -/
theorem marked_after_load {now : ℤ} (hlate : trailEventsRefreshMs ≤ now) (span : Option Span) (minLoot : ℤ)
    {events : List MarksEvent} (htimely : Along step Timely (new now span minLoot) events) :
    ∀ name ∈ (events.foldl step (new now span minLoot)).onMap,
      (events.foldl step (new now span minLoot)).loadTrailEvents.Marked name :=
  fun _ hname ↦ (always_noted hlate span minLoot htimely).final.marked_loadTrailEvents hname

/-- Ann's events of a day, and then of a week with smaller drops; the answer that was asked for first comes
last. -/
def dayThenWeek : List MarksEvent :=
  [.draw ["Ann"], .load, .pick (some (.days 7)), .filter 0, .answer 1 [], .answer 0 []]

theorem marked_dayThenWeek :
    (dayThenWeek.foldl step (new 1791209430000 (some (.days 1)) 100000)).loadTrailEvents.Marked "Ann" :=
  marked_after_load (by decide) (some (.days 1)) 100000 (by decide +kernel) "Ann" (by decide +kernel)

def annsDeath : MapEvent where
  id := "17"
  member := "Ann"
  type := "death"
  timeMs := none
  location := none
  valueGp := 0

/-- A week is picked and then the day again, before the week was asked for; the day's answer comes in between. -/
def weekInBetween : List MarksEvent :=
  [.draw ["Ann"], .load, .pick (some (.days 7)), .answer 0 [annsDeath], .pick (some (.days 1))]

/-- An answer that comes while another time is picked is dropped, though the time that it is for stays noted as
fetched: once that is picked again, nothing is asked for. -/
theorem not_marked_weekInBetween :
    ¬ (weekInBetween.foldl step (new 1791209430000 (some (.days 1)) 100000)).loadTrailEvents.Marked "Ann" := by
  generalize hmarks : (weekInBetween.foldl step (new 1791209430000 (some (.days 1)) 100000)).loadTrailEvents = marks
  have hget : marks.trailEvents.get "Ann" = some ⟨[], 1791209430000, some (.days 1), 100000, 0⟩ := by
    rw [← hmarks]
    rfl
  have hrequests : marks.requests = [] := by
    rw [← hmarks]
    rfl
  have hanswered : marks.answered =
      [(⟨"Ann", [], 1791209430000, some (.days 1), 100000, 0⟩, some [annsDeath])] := by
    rw [← hmarks]
    rfl
  rintro ⟨note, hnote, -, ⟨request, hrequest, -⟩ | ⟨request, hmem, -⟩ | ⟨request, hmem, -⟩⟩
  · rw [hrequests] at hrequest
    cases hrequest
  · obtain rfl := Option.some.inj (hnote.symm.trans hget)
    rw [hanswered] at hmem
    obtain ⟨-, hevents⟩ := Prod.mk.inj (List.mem_singleton.mp hmem)
    cases hevents
  · rw [hanswered] at hmem
    obtain ⟨-, hevents⟩ := Prod.mk.inj (List.mem_singleton.mp hmem)
    cases hevents

end TrailMarks

end OsrsMap.Page
