import OsrsMap.Library.Capped
import OsrsMap.Library.Run
import OsrsMap.Site.NextChange
import Mathlib.Tactic.Positivity

/-!
# Event markers

`EventMarkers` (`site/src/canvas-map/event-markers.js`): the events of the last half hour on the live map.
The live feed brings them (`add`), again and again with the ones that were brought before, and the oldest
beyond a limit are taken off; the ones that had their time go when the map is drawn (`prune`). The
markers on trails are not modelled.
-/

namespace OsrsMap.Site

/-- `EVENT_MARKER_MS`: how long an event stays on the live map. -/
def eventMarkerMs : ℚ := 30 * 60 * 1000

/-- `EVENT_RING_MS`. -/
def eventRingMs : ℚ := 2400

/-- `EVENT_MARKERS_MAX`. -/
def eventMarkersMax : ℕ := 200

/-- `EVENT_FRESH_MS`: an event this recent is news. -/
def eventFreshMs : ℚ := 90000

def eventIsFresh (event : MapEvent) (now : ℚ) : Bool :=
  event.timeMs.any fun time ↦ now - time < eventFreshMs

/-- `{x, y, plane, color, known}`. -/
structure MarkerPlace where
  x : ℚ
  y : ℚ
  plane : ℤ
  color : String
  known : Bool
deriving DecidableEq, Repr

/-- A marker on the live map; `arrived` is when it came in as news. -/
structure LiveMarker where
  id : String
  event : MapEvent
  x : ℚ
  y : ℚ
  plane : ℤ
  color : String
  time : ℚ
  approximate : Bool
  arrived : Option ℚ
deriving DecidableEq, Repr

/-- `live` and `pops`, in the order they were put in. -/
structure EventMarkers where
  live : List LiveMarker
  pops : List (String × ℚ)

/-- `{now, place, news}`. -/
structure Placing where
  now : ℚ
  place : MapEvent → Option MarkerPlace
  news : Bool

/-- The marker of an event that may be on the map and has a place. -/
def Placing.marker (placing : Placing) (event : MapEvent) : Option LiveMarker :=
  match event.timeMs with
  | none => none
  | some time =>
    if event.id = "" ∨ eventMarkerMs ≤ placing.now - time ∨ eventKind event = none then none
    else
      (placing.place event).map fun spot ↦
        let fresh := placing.news && eventIsFresh event placing.now
        { id := event.id, event, x := spot.x, y := spot.y, plane := spot.plane, color := spot.color, time
          approximate := !spot.known && !fresh
          arrived := if fresh then some placing.now else none }

namespace EventMarkers

def empty : EventMarkers where
  live := []
  pops := []

/-- The loop over the events: what is live, and what was added. -/
def offer (placing : Placing) (state : List LiveMarker × List LiveMarker) (event : MapEvent) :
    List LiveMarker × List LiveMarker :=
  if state.1.any fun marker ↦ marker.id = event.id then state
  else
    match placing.marker event with
    | some marker => (state.1 ++ [marker], state.2 ++ [marker])
    | none => state

/-- Puts events on the live map that aren't on it yet, and gives the markers added. -/
def add (markers : EventMarkers) (events : List MapEvent) (placing : Placing) :
    EventMarkers × List LiveMarker :=
  let (live, added) := events.foldl (offer placing) (markers.live, [])
  ({ markers with live := Capped.cap LiveMarker.time LiveMarker.id eventMarkersMax live }, added)

/-- Forgets the live markers that have had their time. -/
def prune (markers : EventMarkers) (now : ℚ) : EventMarkers where
  live := markers.live.filter fun marker ↦ !decide (eventMarkerMs ≤ now - marker.time)
  pops := markers.pops.filter fun pop ↦ !decide (eventRingMs ≤ now - pop.2)

end EventMarkers

/-! ## Runs -/

inductive MarkersCall where
  | add (events : List MapEvent) (placing : Placing)
  | prune (now : ℚ)

def MarkersCall.now : MarkersCall → ℚ
  | add _ placing => placing.now
  | prune now => now

/-- The events that are handed in. -/
def MarkersCall.events : MarkersCall → List MapEvent
  | add events _ => events
  | prune _ => []

/-- The markers, and what was seen of the calls up to the last one: its time, the events with a place that
were offered, what it gave back and the ids of what the calls before it did, and the ids of what was taken
off for newer markers. -/
structure Watched where
  markers : EventMarkers
  now : ℚ
  offered : List MapEvent
  returned : List LiveMarker
  earlier : List String
  evicted : List String

namespace Watched

def start (now : ℚ) : Watched where
  markers := .empty
  now
  offered := []
  returned := []
  earlier := []
  evicted := []

def step (watched : Watched) : MarkersCall → Watched
  | .add events placing =>
    let (markers, added) := watched.markers.add events placing
    { markers
      now := placing.now
      offered := watched.offered ++ events.filter fun event ↦ (placing.marker event).isSome
      returned := added
      earlier := watched.earlier ++ watched.returned.map (·.id)
      evicted := watched.evicted ++
        ((watched.markers.live ++ added).filter fun marker ↦ marker ∉ markers.live).map (·.id) }
  | .prune now =>
    { watched with
      markers := watched.markers.prune now
      now
      returned := []
      earlier := watched.earlier ++ watched.returned.map (·.id) }

/-- The live markers are the newest: no more than there may be, of different events that are younger than half
an hour now, and of those events all that had a place, or as many as there may be of which none is older than
one that is missing. What the last call gave back is among them and was not given back before. -/
structure KeepsNewest (watched : Watched) : Prop where
  atMost : watched.markers.live.length ≤ eventMarkersMax
  distinct : (watched.markers.live.map (·.id)).Nodup
  offered : ∀ marker ∈ watched.markers.live, marker.event ∈ watched.offered ∧
    marker.id = marker.event.id ∧ marker.event.timeMs = some marker.time
  newest : ∀ event ∈ watched.offered, ∀ time, event.timeMs = some time →
    watched.now - time < eventMarkerMs → (∃ marker ∈ watched.markers.live, marker.id = event.id) ∨
      Capped.Beaten LiveMarker.time eventMarkersMax watched.markers.live time
  young : ∀ marker ∈ watched.markers.live, watched.now - marker.time < eventMarkerMs
  returned : ∀ marker ∈ watched.returned, marker ∈ watched.markers.live ∧ marker.id ∉ watched.earlier

end Watched

/-! ## The condition -/

/-- The ids and times of the events of a list that come on the map where some are here already. -/
def Placing.arriving (placing : Placing) : List String → List MapEvent → List (String × ℚ)
  | _, [] => []
  | here, event :: events =>
    match placing.marker event with
    | some marker =>
      if event.id ∈ here then arriving placing here events
      else (event.id, marker.time) :: arriving placing (here ++ [event.id]) events
    | none => arriving placing here events

/-- None of those who arrive is among the oldest beyond the limit, and none was taken off before. -/
def Watched.RoomFor (watched : Watched) (arriving : List (String × ℚ)) : Prop :=
  Capped.Fits eventMarkersMax (watched.markers.live.map (·.time) ++ arriving.map (·.2))
    (arriving.map (·.2)) ∧
  ∀ comer ∈ arriving, comer.1 ∉ watched.evicted

instance (watched : Watched) : DecidablePred watched.RoomFor :=
  fun _ ↦ inferInstanceAs (Decidable (_ ∧ _))

/-- No live marker has had its time, or as many as there may be have not, with those who arrive: then all that
have go for newer ones. -/
def Watched.Renewed (watched : Watched) (now : ℚ) (arriving : List (String × ℚ)) : Prop :=
  (∀ marker ∈ watched.markers.live, now - marker.time < eventMarkerMs) ∨
    eventMarkersMax ≤ watched.markers.live.countP (fun marker ↦ now - marker.time < eventMarkerMs) + arriving.length

instance (watched : Watched) (now : ℚ) : DecidablePred (watched.Renewed now) :=
  fun _ ↦ inferInstanceAs (Decidable (_ ∨ _))

/-- There is room for the events that a call puts on the map, and what had its time is not left on it. -/
def Watched.HasRoom (watched : Watched) : MarkersCall → Prop
  | .add events placing =>
    watched.RoomFor (placing.arriving (watched.markers.live.map (·.id)) events) ∧
      watched.Renewed placing.now (placing.arriving (watched.markers.live.map (·.id)) events)
  | .prune _ => True

instance (watched : Watched) : DecidablePred watched.HasRoom
  | .add _ _ => inferInstanceAs (Decidable (_ ∧ _))
  | .prune _ => inferInstanceAs (Decidable True)

/-! ## One call -/

variable {placing : Placing} {event : MapEvent} {marker : LiveMarker} {live : List LiveMarker}
  {events : List MapEvent}

theorem Placing.marker_spec (h : placing.marker event = some marker) : marker.id = event.id ∧
    marker.event = event ∧ event.timeMs = some marker.time ∧ placing.now - marker.time < eventMarkerMs := by
  unfold Placing.marker at h
  split at h
  · cases h
  · next time htime =>
    split at h
    · cases h
    · next hmay =>
      obtain ⟨spot, -, rfl⟩ := Option.map_eq_some_iff.mp h
      rw [not_or, not_or] at hmay
      exact ⟨rfl, rfl, htime, not_le.mp hmay.2.1⟩

/-- The events that may be on the map and have a place there. -/
theorem Placing.isSome_marker (placing : Placing) (event : MapEvent) :
    (placing.marker event).isSome ↔ ∃ time, event.timeMs = some time ∧ event.id ≠ "" ∧
      placing.now - time < eventMarkerMs ∧ (eventKind event).isSome ∧ (placing.place event).isSome := by
  unfold Placing.marker
  cases event.timeMs with
  | none => simp
  | some time =>
    dsimp only
    split
    · next hnot =>
      simp only [Option.isSome_none, Bool.false_eq_true, Option.some.injEq, exists_eq_left', false_iff]
      rintro ⟨hid, hyoung, hkind, -⟩
      obtain hnone | hold | hnone := hnot
      · exact hid hnone
      · exact hold.not_gt hyoung
      · rw [hnone] at hkind
        cases hkind
    · next hmay =>
      rw [not_or, not_or, not_le] at hmay
      obtain ⟨hid, hyoung, hkind⟩ := hmay
      simp [hid, hyoung, Option.isSome_iff_ne_none.mpr hkind]

theorem Placing.id_ne_of_isSome (h : (placing.marker event).isSome) : event.id ≠ "" := by
  obtain ⟨-, -, hid, -⟩ := (placing.isSome_marker event).mp h
  exact hid

/-- What the loop over events puts behind what is live: what arrives. -/
structure Placing.Offers (placing : Placing) (live : List LiveMarker) (events : List MapEvent)
    (new : List LiveMarker) : Prop where
  loop : ∀ added, events.foldl (EventMarkers.offer placing) (live, added) = (live ++ new, added ++ new)
  arriving : new.map (fun marker ↦ (marker.id, marker.time)) =
    placing.arriving (live.map (·.id)) events
  made : ∀ marker ∈ new, ∃ event ∈ events, placing.marker event = some marker
  nodup : ((live ++ new).map (·.id)).Nodup
  all : ∀ event ∈ events, (placing.marker event).isSome → event.id ∈ (live ++ new).map (·.id)

namespace Placing

variable {new : List LiveMarker}

theorem offers_nil (placing : Placing) (hlive : (live.map (·.id)).Nodup) :
    placing.Offers live [] [] where
  loop added := by simp
  arriving := rfl
  made _ hmarker := absurd hmarker List.not_mem_nil
  nodup := by simpa using hlive
  all _ hevent := absurd hevent List.not_mem_nil

theorem any_id_iff : (live.any fun marker ↦ marker.id = event.id) = true ↔
    event.id ∈ live.map (·.id) := by
  simp [List.any_eq_true, List.mem_map]

/-- An event that is on the map, or may not be there, is passed over. -/
theorem Offers.skip (h : placing.Offers live events new)
    (hskip : event.id ∈ live.map (·.id) ∨ placing.marker event = none) :
    placing.Offers live (event :: events) new where
  loop added := by
    rw [List.foldl_cons, ← h.loop added, EventMarkers.offer]
    obtain hmem | hnone := hskip
    · rw [if_pos (any_id_iff.mpr hmem)]
    · rw [hnone]
      dsimp only
      rw [ite_self]
  arriving := by
    rw [Placing.arriving, h.arriving]
    cases hmarker : placing.marker event with
    | none => rfl
    | some marker => exact (if_pos (hskip.resolve_right (by simp [hmarker]))).symm
  made marker hmarker := (h.made marker hmarker).imp fun _ ↦ .imp_left (List.mem_cons_of_mem _)
  nodup := h.nodup
  all other hother hsome := by
    obtain rfl | hother := List.mem_cons.mp hother
    · have hmem := hskip.resolve_right (Option.isSome_iff_ne_none.mp hsome)
      rw [List.map_append]
      exact List.mem_append_left _ hmem
    · exact h.all other hother hsome

/-- An event that is not on the map yet, and may be there, is put behind what is live. -/
theorem Offers.push (hmem : event.id ∉ live.map (·.id)) (hmarker : placing.marker event = some marker)
    (h : placing.Offers (live ++ [marker]) events new) :
    placing.Offers live (event :: events) (marker :: new) where
  loop added := by
    rw [List.foldl_cons, EventMarkers.offer, if_neg (mt any_id_iff.mp hmem), hmarker]
    dsimp only
    rw [h.loop, ← List.append_cons, ← List.append_cons]
  arriving := by
    have hid := (marker_spec hmarker).1
    rw [Placing.arriving, hmarker]
    dsimp only
    rw [if_neg hmem, List.map_cons, h.arriving, List.map_append, List.map_singleton, hid]
  made other hother := by
    obtain rfl | hother := List.mem_cons.mp hother
    · exact ⟨event, List.mem_cons_self, hmarker⟩
    · exact (h.made other hother).imp fun _ ↦ .imp_left (List.mem_cons_of_mem _)
  nodup := by
    rw [List.append_cons]
    exact h.nodup
  all other hother hsome := by
    rw [List.append_cons]
    obtain rfl | hother := List.mem_cons.mp hother
    · simp [(marker_spec hmarker).1]
    · exact h.all other hother hsome

/-- The loop puts what arrives behind what is live. -/
theorem exists_offers (placing : Placing) (events : List MapEvent) (hlive : (live.map (·.id)).Nodup) :
    ∃ new, placing.Offers live events new := by
  induction events generalizing live with
  | nil => exact ⟨[], placing.offers_nil hlive⟩
  | cons event events ih =>
    by_cases hmem : event.id ∈ live.map (·.id)
    · obtain ⟨new, hnew⟩ := ih hlive
      exact ⟨new, hnew.skip (.inl hmem)⟩
    · cases hmarker : placing.marker event with
      | none =>
        obtain ⟨new, hnew⟩ := ih hlive
        exact ⟨new, hnew.skip (.inr hmarker)⟩
      | some marker =>
        have hnext : ((live ++ [marker]).map (·.id)).Nodup := by
          rw [List.map_append, List.map_singleton, (marker_spec hmarker).1]
          exact List.nodup_append_comm.mp (List.nodup_cons.mpr ⟨hmem, hlive⟩)
        obtain ⟨new, hnew⟩ := ih hnext
        exact ⟨marker :: new, .push hmem hmarker hnew⟩

/-- A new marker is that of an event that was offered and may be on the map. -/
theorem Offers.spec (h : placing.Offers live events new) (hmarker : marker ∈ new) :
    marker.event ∈ events ∧ (placing.marker marker.event).isSome ∧ marker.id = marker.event.id ∧
      marker.event.timeMs = some marker.time ∧ placing.now - marker.time < eventMarkerMs := by
  obtain ⟨event, hevent, hmade⟩ := h.made marker hmarker
  obtain ⟨hid, rfl, htime, hyoung⟩ := marker_spec hmade
  exact ⟨hevent, by rw [hmade]; rfl, hid, htime, hyoung⟩

end Placing

/-! ## Every call -/

namespace Watched

/-- What holds of the markers and what was seen of the calls, where every id is that of events of one
time. -/
structure Sound (timeOf : String → Option ℚ) (watched : Watched) : Prop extends KeepsNewest watched where
  times : ∀ event ∈ watched.offered, event.timeMs = timeOf event.id
  gone : ∀ id ∈ watched.earlier ++ watched.returned.map (·.id),
    id ∈ watched.markers.live.map (·.id) ∨ id ∈ watched.evicted ∨
      ∃ time, timeOf id = some time ∧ eventMarkerMs ≤ watched.now - time
  given : ∀ id ∈ watched.markers.live.map (·.id) ++ watched.evicted,
    id ∈ watched.earlier ++ watched.returned.map (·.id)

variable {timeOf : String → Option ℚ} {watched : Watched} {now : ℚ}

theorem sound_start (timeOf : String → Option ℚ) (now : ℚ) : Sound timeOf (start now) where
  atMost := Nat.zero_le _
  distinct := List.nodup_nil
  offered _ hmarker := absurd hmarker List.not_mem_nil
  newest _ hevent := absurd hevent List.not_mem_nil
  young _ hmarker := absurd hmarker List.not_mem_nil
  returned _ hmarker := absurd hmarker List.not_mem_nil
  times _ hevent := absurd hevent List.not_mem_nil
  gone _ hid := absurd hid List.not_mem_nil
  given _ hid := absurd hid List.not_mem_nil

theorem Sound.time_eq (h : Sound timeOf watched) (hmarker : marker ∈ watched.markers.live) :
    timeOf marker.id = some marker.time := by
  obtain ⟨hevent, hid, htime⟩ := h.offered marker hmarker
  rw [hid, ← h.times _ hevent, htime]

theorem Sound.prune (h : Sound timeOf watched) (hnow : watched.now ≤ now) :
    Sound timeOf (watched.step (.prune now)) := by
  have hmem (marker : LiveMarker) : marker ∈ (watched.markers.prune now).live ↔
      marker ∈ watched.markers.live ∧ now - marker.time < eventMarkerMs := by
    simp [EventMarkers.prune]
  have hsub : (watched.markers.prune now).live.Sublist watched.markers.live := List.filter_sublist
  constructor
  · constructor
    · exact hsub.length_le.trans h.atMost
    · exact h.distinct.sublist (hsub.map _)
    · exact fun marker hmarker ↦ h.offered marker ((hmem marker).mp hmarker).1
    · intro event hevent time htime hyoung
      have hbefore : watched.now - time < eventMarkerMs := (sub_le_sub_right hnow time).trans_lt hyoung
      obtain ⟨marker, hmarker, hid⟩ | ⟨hfull, hall⟩ := h.newest event hevent time htime hbefore
      · have hsame : marker.time = time := by
          have := h.time_eq hmarker
          rw [hid, ← h.times event hevent, htime] at this
          exact (Option.some.inj this).symm
        exact .inl ⟨marker, (hmem marker).mpr ⟨hmarker, hsame ▸ hyoung⟩, hid⟩
      · have hkept : (watched.markers.prune now).live = watched.markers.live := by
          apply List.filter_eq_self.mpr
          intro marker hmarker
          have hle : now - marker.time ≤ now - time := sub_le_sub_left (hall marker hmarker) now
          simpa using hle.trans_lt hyoung
        exact .inr ⟨hkept ▸ hfull, hkept ▸ hall⟩
    · exact fun marker hmarker ↦ ((hmem marker).mp hmarker).2
    · exact fun _ hmarker ↦ absurd hmarker List.not_mem_nil
  · exact h.times
  · intro id hid
    have hid : id ∈ watched.earlier ++ watched.returned.map (·.id) := by simpa [step] using hid
    obtain hlive | hevicted | ⟨time, htime, hold⟩ := h.gone id hid
    · obtain ⟨marker, hmarker, rfl⟩ := List.mem_map.mp hlive
      by_cases hyoung : now - marker.time < eventMarkerMs
      · exact .inl (List.mem_map_of_mem ((hmem marker).mpr ⟨hmarker, hyoung⟩))
      · exact .inr (.inr ⟨marker.time, h.time_eq hmarker, not_lt.mp hyoung⟩)
    · exact .inr (.inl hevicted)
    · exact .inr (.inr ⟨time, htime, hold.trans (sub_le_sub_right hnow time)⟩)
  · intro id hid
    have hthere : id ∈ watched.markers.live.map (·.id) ++ watched.evicted := by
      obtain hlive | hevicted := List.mem_append.mp hid
      · exact List.mem_append_left _ ((hsub.map _).subset hlive)
      · exact List.mem_append_right _ hevicted
    exact List.mem_append_left _ (h.given id hthere)

/-- What is live after events were offered. -/
def liveAfter (watched : Watched) (new : List LiveMarker) : List LiveMarker :=
  Capped.cap LiveMarker.time LiveMarker.id eventMarkersMax (watched.markers.live ++ new)

theorem step_add {new : List LiveMarker} (hnew : placing.Offers watched.markers.live events new) :
    watched.step (.add events placing) =
      { markers := { watched.markers with live := watched.liveAfter new }
        now := placing.now
        offered := watched.offered ++ events.filter fun event ↦ (placing.marker event).isSome
        returned := new
        earlier := watched.earlier ++ watched.returned.map (·.id)
        evicted := watched.evicted ++
          ((watched.markers.live ++ new).filter fun marker ↦ marker ∉ watched.liveAfter new).map (·.id) } := by
  unfold step EventMarkers.add
  dsimp only
  rw [hnew.loop]
  rfl

section Add

variable {new : List LiveMarker} {time : ℚ} {id : String}

theorem liveAfter_sublist (watched : Watched) (new : List LiveMarker) :
    (watched.liveAfter new).Sublist (watched.markers.live ++ new) :=
  Capped.cap_sublist _ _ _ _

/-- The markers before the oldest go have the times of their ids. -/
theorem Sound.time_eq_of_offers (h : Sound timeOf watched)
    (hnew : placing.Offers watched.markers.live events new)
    (htimes : ∀ event ∈ events, event.id ≠ "" → event.timeMs = timeOf event.id)
    (hmarker : marker ∈ watched.markers.live ++ new) : timeOf marker.id = some marker.time := by
  obtain hlive | hadded := List.mem_append.mp hmarker
  · exact h.time_eq hlive
  · obtain ⟨hevent, hsome, hid, hmarkerTime, -⟩ := hnew.spec hadded
    rw [hid, ← htimes _ hevent (Placing.id_ne_of_isSome hsome), hmarkerTime]

/-- A marker that was there before the oldest went is there afterwards, or beaten. -/
theorem mem_liveAfter_or_beaten (hnew : placing.Offers watched.markers.live events new)
    (hmarker : marker ∈ watched.markers.live ++ new) : marker ∈ watched.liveAfter new ∨
      Capped.Beaten LiveMarker.time eventMarkersMax (watched.liveAfter new) marker.time :=
  or_iff_not_imp_left.mpr (Capped.beaten_of_notMem_cap hnew.nodup hmarker)

/-- An event that was on the map before the oldest went is on it afterwards, or beaten. -/
theorem Sound.there_or_beaten (h : Sound timeOf watched)
    (hnew : placing.Offers watched.markers.live events new)
    (htimes : ∀ event ∈ events, event.id ≠ "" → event.timeMs = timeOf event.id)
    (hid : id ∈ (watched.markers.live ++ new).map (·.id)) (htime : timeOf id = some time) :
    (∃ marker ∈ watched.liveAfter new, marker.id = id) ∨
      Capped.Beaten LiveMarker.time eventMarkersMax (watched.liveAfter new) time := by
  obtain ⟨marker, hmarker, rfl⟩ := List.mem_map.mp hid
  have hsame := (h.time_eq_of_offers hnew htimes hmarker).symm.trans htime
  obtain rfl : marker.time = time := Option.some.inj hsame
  exact (mem_liveAfter_or_beaten hnew hmarker).imp_left fun hlive ↦ ⟨marker, hlive, rfl⟩

/-- An id that was on the map before the oldest went is on it afterwards, or taken off. -/
theorem mem_liveAfter_or_evicted (hid : id ∈ (watched.markers.live ++ new).map (·.id)) :
    id ∈ (watched.liveAfter new).map (·.id) ∨ id ∈ watched.evicted ++
      ((watched.markers.live ++ new).filter fun marker ↦ marker ∉ watched.liveAfter new).map (·.id) := by
  obtain ⟨marker, hmarker, rfl⟩ := List.mem_map.mp hid
  by_cases hlive : marker ∈ watched.liveAfter new
  · exact .inl (List.mem_map_of_mem hlive)
  · apply Or.inr
    apply List.mem_append_right
    exact List.mem_map_of_mem (List.mem_filter.mpr ⟨hmarker, decide_eq_true hlive⟩)

/-- There is room if and only if what is added stays, and is nothing that was taken off. -/
theorem roomFor_iff (hnew : placing.Offers watched.markers.live events new) :
    watched.RoomFor (placing.arriving (watched.markers.live.map (·.id)) events) ↔
      (∀ marker ∈ new, marker ∈ watched.liveAfter new) ∧ ∀ marker ∈ new, marker.id ∉ watched.evicted := by
  have hfits := @Capped.fits_iff _ _ _ _ _ LiveMarker.time LiveMarker.id eventMarkersMax _ _ hnew.nodup
  rw [List.map_append] at hfits
  rw [RoomFor, ← hnew.arriving, List.map_map, List.forall_mem_map]
  exact and_congr_left fun _ ↦ hfits

/-- What had its time is older than all that has not: it is not on the map after events were offered if and only
if it was not before, or is among the oldest that go. -/
theorem renewed_iff (hnew : placing.Offers watched.markers.live events new) :
    watched.Renewed placing.now (placing.arriving (watched.markers.live.map (·.id)) events) ↔
      ∀ marker ∈ watched.liveAfter new, placing.now - marker.time < eventMarkerMs := by
  let young (marker : LiveMarker) : Prop := placing.now - marker.time < eventMarkerMs
  have hyoung : ∀ marker ∈ new, young marker := fun marker hmarker ↦ (hnew.spec hmarker).2.2.2.2
  have hcount : new.countP young = new.length :=
    List.countP_eq_length.mpr fun marker hmarker ↦ decide_eq_true (hyoung marker hmarker)
  have hkept := @Capped.forall_cap_iff _ _ _ _ _ LiveMarker.time LiveMarker.id eventMarkersMax _ young _ hnew.nodup
    fun old _ fresh _ hold hfresh ↦ by
      have hlt : placing.now - fresh.time < placing.now - old.time := lt_of_lt_of_le hfresh (not_lt.mp hold)
      exact (sub_lt_sub_iff_left placing.now).mp hlt
  rw [liveAfter, hkept, List.countP_append, hcount, Renewed, ← hnew.arriving, List.length_map]
  apply or_congr_left
  rw [List.forall_mem_append]
  exact ⟨fun hlive ↦ ⟨hlive, hyoung⟩, fun hall ↦ hall.1⟩

/-- What is added and was not taken off was not given back before: it is not on the map, and is too young
to have had its time. -/
theorem Sound.notMem_returned (h : Sound timeOf watched) (hnow : watched.now ≤ placing.now)
    (hnew : placing.Offers watched.markers.live events new)
    (htimes : ∀ event ∈ events, event.id ≠ "" → event.timeMs = timeOf event.id) (hmarker : marker ∈ new)
    (hstayed : marker.id ∉ watched.evicted) :
    marker.id ∉ watched.earlier ++ watched.returned.map (·.id) := by
  intro hreturned
  obtain hlive | hevicted | ⟨time, hidTime, hold⟩ := h.gone marker.id hreturned
  · have hnodup := hnew.nodup
    rw [List.map_append] at hnodup
    exact (List.nodup_append.mp hnodup).2.2 _ hlive _ (List.mem_map_of_mem hmarker) rfl
  · exact hstayed hevicted
  · have hsame := h.time_eq_of_offers hnew htimes (List.mem_append_right _ hmarker)
    obtain rfl : marker.time = time := Option.some.inj (hsame.symm.trans hidTime)
    obtain ⟨-, -, -, -, hyoung⟩ := hnew.spec hmarker
    exact (hold.trans (sub_le_sub_right hnow _)).not_gt hyoung

/-- An event that had a place and is younger than half an hour is on the map after events were offered, or
beaten. -/
theorem Sound.newest_add (h : Sound timeOf watched) (hnow : watched.now ≤ placing.now)
    (hnew : placing.Offers watched.markers.live events new)
    (htimes : ∀ event ∈ events, event.id ≠ "" → event.timeMs = timeOf event.id)
    (hevent : event ∈ watched.offered ++ events.filter fun event ↦ (placing.marker event).isSome)
    (htime : timeOf event.id = some time) (hyoung : placing.now - time < eventMarkerMs) :
    (∃ marker ∈ watched.liveAfter new, marker.id = event.id) ∨
      Capped.Beaten LiveMarker.time eventMarkersMax (watched.liveAfter new) time := by
  obtain hbefore | hadded := List.mem_append.mp hevent
  · have hyoungBefore : watched.now - time < eventMarkerMs := (sub_le_sub_right hnow time).trans_lt hyoung
    have heventTime : event.timeMs = some time := (h.times event hbefore).trans htime
    obtain ⟨marker, hmarker, hid⟩ | hbeaten := h.newest event hbefore time heventTime hyoungBefore
    · apply h.there_or_beaten hnew htimes _ htime
      exact List.mem_map.mpr ⟨marker, List.mem_append_left _ hmarker, hid⟩
    · exact .inr (hbeaten.cap h.distinct.of_map (List.subset_append_left _ _) hnew.nodup)
  · obtain ⟨hmem, hsome⟩ := List.mem_filter.mp hadded
    exact h.there_or_beaten hnew htimes (hnew.all event hmem hsome) htime

/-- What was given back is on the map after events were offered, was taken off, or had its time. -/
theorem Sound.gone_add (h : Sound timeOf watched) (hnow : watched.now ≤ placing.now)
    (hid : id ∈ (watched.earlier ++ watched.returned.map (·.id)) ++ new.map (·.id)) :
    id ∈ (watched.liveAfter new).map (·.id) ∨
      id ∈ watched.evicted ++
        ((watched.markers.live ++ new).filter fun marker ↦ marker ∉ watched.liveAfter new).map (·.id) ∨
      ∃ time, timeOf id = some time ∧ eventMarkerMs ≤ placing.now - time := by
  obtain hbefore | hadded := List.mem_append.mp hid
  · obtain hlive | hevicted | ⟨time, hidTime, hold⟩ := h.gone id hbefore
    · have hthere : id ∈ (watched.markers.live ++ new).map (·.id) := by
        rw [List.map_append]
        exact List.mem_append_left _ hlive
      exact or_assoc.mp (.inl (mem_liveAfter_or_evicted hthere))
    · exact .inr (.inl (List.mem_append_left _ hevicted))
    · exact .inr (.inr ⟨time, hidTime, hold.trans (sub_le_sub_right hnow time)⟩)
  · have hthere : id ∈ (watched.markers.live ++ new).map (·.id) := by
      rw [List.map_append]
      exact List.mem_append_right _ hadded
    exact or_assoc.mp (.inl (mem_liveAfter_or_evicted hthere))

/-- What is on the map after events were offered, or was taken off, was given back. -/
theorem Sound.given_add (h : Sound timeOf watched)
    (hid : id ∈ (watched.liveAfter new).map (·.id) ++ (watched.evicted ++
      ((watched.markers.live ++ new).filter fun marker ↦ marker ∉ watched.liveAfter new).map (·.id))) :
    id ∈ (watched.earlier ++ watched.returned.map (·.id)) ++ new.map (·.id) := by
  have hgiven (marker : LiveMarker) (hmarker : marker ∈ watched.markers.live ++ new) :
      marker.id ∈ (watched.earlier ++ watched.returned.map (·.id)) ++ new.map (·.id) := by
    obtain hlive | hadded := List.mem_append.mp hmarker
    · exact List.mem_append_left _ (h.given _ (List.mem_append_left _ (List.mem_map_of_mem hlive)))
    · exact List.mem_append_right _ (List.mem_map_of_mem hadded)
  obtain hlive | hevicted := List.mem_append.mp hid
  · obtain ⟨marker, hmarker, rfl⟩ := List.mem_map.mp hlive
    exact hgiven marker ((liveAfter_sublist watched new).subset hmarker)
  · obtain hbefore | hgone := List.mem_append.mp hevicted
    · exact List.mem_append_left _ (h.given id (List.mem_append_right _ hbefore))
    · obtain ⟨marker, hmarker, rfl⟩ := List.mem_map.mp hgone
      exact hgiven marker (List.mem_filter.mp hmarker).1

theorem Sound.add (h : Sound timeOf watched) (hnow : watched.now ≤ placing.now)
    (htimes : ∀ event ∈ events, event.id ≠ "" → event.timeMs = timeOf event.id)
    (hroom : watched.HasRoom (.add events placing)) : Sound timeOf (watched.step (.add events placing)) := by
  obtain ⟨new, hnew⟩ := placing.exists_offers events h.distinct
  obtain ⟨hstay, hstayed⟩ := (roomFor_iff hnew).mp hroom.1
  have hsub := liveAfter_sublist watched new
  have hoffered (event : MapEvent)
      (hevent : event ∈ watched.offered ++ events.filter fun event ↦ (placing.marker event).isSome) :
      event.timeMs = timeOf event.id := by
    obtain hbefore | hadded := List.mem_append.mp hevent
    · exact h.times event hbefore
    · obtain ⟨hmem, hsome⟩ := List.mem_filter.mp hadded
      exact htimes event hmem (Placing.id_ne_of_isSome hsome)
  rw [step_add hnew]
  constructor
  · constructor
    · exact (Capped.length_cap hnew.nodup).trans_le (min_le_left _ _)
    · exact hnew.nodup.sublist (hsub.map _)
    · intro marker hmarker
      dsimp only at hmarker ⊢
      obtain hlive | hadded := List.mem_append.mp (hsub.subset hmarker)
      · obtain ⟨hevent, hid⟩ := h.offered marker hlive
        exact ⟨List.mem_append_left _ hevent, hid⟩
      · obtain ⟨hevent, hsome, hid, hmarkerTime, -⟩ := hnew.spec hadded
        exact ⟨List.mem_append_right _ (List.mem_filter.mpr ⟨hevent, hsome⟩), hid, hmarkerTime⟩
    · intro event hevent time htime hyoung
      exact h.newest_add hnow hnew htimes hevent ((hoffered event hevent).symm.trans htime) hyoung
    · exact (renewed_iff hnew).mp hroom.2
    · intro marker hmarker
      exact ⟨hstay marker hmarker, h.notMem_returned hnow hnew htimes hmarker (hstayed marker hmarker)⟩
  · exact hoffered
  · exact fun id hid ↦ h.gone_add hnow hid
  · exact fun id hid ↦ h.given_add hid

/-- A call that keeps the newest had room for what it put on the map. -/
theorem Sound.hasRoom (h : Sound timeOf watched) (hnext : KeepsNewest (watched.step (.add events placing))) :
    watched.HasRoom (.add events placing) := by
  obtain ⟨new, hnew⟩ := placing.exists_offers events h.distinct
  have hreturned := hnext.returned
  have hyoung := hnext.young
  rw [step_add hnew] at hreturned hyoung
  refine ⟨(roomFor_iff hnew).mpr ⟨?_, ?_⟩, (renewed_iff hnew).mpr hyoung⟩
  · exact fun marker hmarker ↦ (hreturned marker hmarker).1
  · intro marker hmarker hevicted
    exact (hreturned marker hmarker).2 (h.given marker.id (List.mem_append_right _ hevicted))

end Add

/-- At every nondecreasing times, with events that have one time for every id: the live markers are the
newest and nothing is given back twice, as long as every call has room for what it puts on the map and leaves
nothing there that had its time, and no longer. -/
theorem keepsNewest_iff_hasRoom (calls : List MarkersCall) (now : ℚ)
    (hids : ∀ a ∈ calls.flatMap (·.events), ∀ b ∈ calls.flatMap (·.events),
      a.id ≠ "" → a.id = b.id → a.timeMs = b.timeMs)
    (hclock : Run.Along step (fun watched call ↦ watched.now ≤ call.now) (start now) calls) :
    Run.Always step KeepsNewest (start now) calls ↔ Run.Along step HasRoom (start now) calls := by
  let timeOf (id : String) : Option ℚ :=
    ((calls.flatMap (·.events)).find? fun event ↦ event.id = id).bind (·.timeMs)
  have htimes (call : MarkersCall) (hcall : call ∈ calls) (event : MapEvent) (hevent : event ∈ call.events)
      (hnamed : event.id ≠ "") : event.timeMs = timeOf event.id := by
    have hmem : event ∈ calls.flatMap (·.events) := List.mem_flatMap.mpr ⟨call, hcall, hevent⟩
    have hsome : ((calls.flatMap (·.events)).find? fun other ↦ other.id = event.id).isSome :=
      List.find?_isSome.mpr ⟨event, hmem, by simp⟩
    obtain ⟨first, hfirst⟩ := Option.isSome_iff_exists.mp hsome
    have hid : first.id = event.id := by simpa using List.find?_some hfirst
    dsimp only [timeOf]
    rw [hfirst, Option.bind_some]
    exact hids event hmem first (List.mem_of_find?_eq_some hfirst) hnamed hid.symm
  have hsound (watched : Watched) (call : MarkersCall) (h : Sound timeOf watched)
      (hcall : watched.now ≤ call.now ∧ ∀ event ∈ call.events, event.id ≠ "" → event.timeMs = timeOf event.id)
      (hroom : watched.HasRoom call) : Sound timeOf (watched.step call) := by
    cases call with
    | add events placing => exact h.add hcall.1 hcall.2 hroom
    | prune now => exact h.prune hcall.1
  have hroom (watched : Watched) (call : MarkersCall) (h : Sound timeOf watched)
      (hnext : KeepsNewest (watched.step call)) : watched.HasRoom call := by
    cases call with
    | add events placing => exact h.hasRoom hnext
    | prune now => trivial
  have hstart := sound_start timeOf now
  apply Run.always_iff_along_of_kept _ _ hstart hstart.toKeepsNewest
    (Run.along_and hclock (Run.along_of_forall_mem htimes))
  · exact fun watched call h hcall hnext ↦ hsound watched call h hcall (hroom watched call h hnext)
  · intro watched call h hcall
    exact ⟨hroom watched call h, fun hfits ↦ (hsound watched call h hcall hfits).toKeepsNewest⟩

/-! ## Too many at once -/

/-- Where more arrive than may be live, one that is given back is not on the map. -/
theorem not_keepsNewest_of_arriving (hdistinct : (watched.markers.live.map (·.id)).Nodup)
    (hmany : eventMarkersMax <
      (placing.arriving (watched.markers.live.map (·.id)) events).length) :
    ¬ KeepsNewest (watched.step (.add events placing)) := by
  obtain ⟨new, hnew⟩ := placing.exists_offers events hdistinct
  intro h
  have hlength := h.atMost
  have hreturned := h.returned
  rw [step_add hnew] at hlength hreturned
  dsimp only at hlength hreturned
  have hnodup : new.Nodup := (hnew.nodup.of_map).of_append_right
  have hall := (hnodup.subperm fun marker hmarker ↦ (hreturned marker hmarker).1).length_le
  rw [← hnew.arriving, List.length_map] at hmany
  omega

theorem length_arriving {here : List String} (hmay : ∀ event ∈ events, (placing.marker event).isSome)
    (hids : (events.map (·.id)).Nodup) (hhere : ∀ event ∈ events, event.id ∉ here) :
    (placing.arriving here events).length = events.length := by
  induction events generalizing here with
  | nil => rfl
  | cons event events ih =>
    obtain ⟨hfirst, hrest⟩ := List.nodup_cons.mp hids
    obtain ⟨marker, hmarker⟩ := Option.isSome_iff_exists.mp (hmay event List.mem_cons_self)
    rw [Placing.arriving, hmarker]
    dsimp only
    rw [if_neg (hhere event List.mem_cons_self), List.length_cons, List.length_cons,
      ih (fun other hother ↦ hmay other (List.mem_cons_of_mem _ hother)) hrest]
    intro other hother hmem
    obtain hmem | hmem := List.mem_append.mp hmem
    · exact hhere other (List.mem_cons_of_mem _ hother) hmem
    · exact hfirst (List.mem_map.mpr ⟨other, hother, List.mem_singleton.mp hmem⟩)

theorem not_keepsNewest_start {now : ℚ} (hmany : eventMarkersMax < (placing.arriving [] events).length) :
    ¬ Run.Always step KeepsNewest (start now) [.add events placing] := by
  intro h
  have hlive : (start now).markers.live.map (·.id) = [] := rfl
  refine not_keepsNewest_of_arriving ?_ ?_ h.final
  · rw [hlive]
    exact List.nodup_nil
  · rwa [hlive]

/-- A death at a time. -/
def death (id : String) (time : ℚ) : MapEvent where
  id
  member := "Alice"
  type := "death"
  timeMs := some time
  location := none
  valueGp := 0

def here (now : ℚ) : Placing where
  now
  place _ := some ⟨3200, 3200, 0, "red", true⟩
  news := true

/-- A death every second, one more than may be live. -/
def crowd : List MapEvent :=
  (List.range 201).map fun i ↦ death (String.ofList (List.replicate (i + 1) 'e')) (1000 * i)

theorem nodup_crowd : (crowd.map (·.id)).Nodup := by
  unfold crowd
  rw [List.map_map]
  apply List.nodup_range.map
  intro i j hsame
  have hlist : List.replicate (i + 1) 'e' = List.replicate (j + 1) 'e' := String.ofList_injective hsame
  simpa using congrArg List.length hlist

/-- All of them may be on the map, and have a place there. -/
theorem isSome_marker_crowd : ∀ event ∈ crowd, ((here 200000).marker event).isSome := by
  intro event hevent
  obtain ⟨i, hi, rfl⟩ := List.mem_map.mp hevent
  apply (Placing.isSome_marker _ _).mpr
  refine ⟨1000 * i, rfl, ?_, ?_, ?_, rfl⟩
  · intro hempty
    have hlist : List.replicate (i + 1) 'e' = [] := String.ofList_injective hempty
    simp at hlist
  · have hpositive : (0 : ℚ) ≤ 1000 * i := by positivity
    calc (200000 : ℚ) - 1000 * i ≤ 200000 := sub_le_self _ hpositive
      _ < eventMarkerMs := by decide +kernel
  · simp [eventKind, eventKinds, death]

theorem not_keepsNewest_crowd :
    (∀ a ∈ [MarkersCall.add crowd (here 200000)].flatMap (·.events),
      ∀ b ∈ [MarkersCall.add crowd (here 200000)].flatMap (·.events),
        a.id ≠ "" → a.id = b.id → a.timeMs = b.timeMs) ∧
    Run.Along step (fun watched call ↦ watched.now ≤ call.now) (start 0) [.add crowd (here 200000)] ∧
    ¬ Run.Always step KeepsNewest (start 0) [.add crowd (here 200000)] := by
  refine ⟨?_, ⟨?_, trivial⟩, ?_⟩
  · rw [List.flatMap_singleton]
    intro a ha b hb _ hsame
    rw [List.inj_on_of_nodup_map nodup_crowd ha hb hsame]
  · change (0 : ℚ) ≤ 200000
    decide +kernel
  · apply not_keepsNewest_start
    rw [length_arriving isSome_marker_crowd nodup_crowd fun _ _ ↦ List.not_mem_nil, crowd,
      List.length_map, List.length_range]
    decide

/-- A death is offered again with a later one, before and after the map is pruned. -/
def threeCalls : List MarkersCall :=
  [.add [death "a" 0] (here 1000), .prune 2000, .add [death "b" 2000, death "a" 0] (here 3000)]

theorem keepsNewest_iff_hasRoom_threeCalls : Run.Always step KeepsNewest (start 0) threeCalls :=
  (keepsNewest_iff_hasRoom threeCalls 0 (by decide +kernel) (by decide +kernel)).mpr (by decide +kernel)

end Watched

end OsrsMap.Site
