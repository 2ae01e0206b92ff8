import OsrsMap.Trails.Spans
import Mathlib.Data.List.Enum

/-!
# Play sessions in the menu

`sessionOptions` (`site/src/map-page/trail-sessions.js`): the play sessions of a player, as choices for the
time of the trails. A session is asked for with a little to spare on both sides, in whole seconds, and one
that goes on without an end; the server then checks how long that is and how long ago it starts.
-/

namespace OsrsMap.Site

open Trails (Span)

/-- `SESSION_PAD_S`. -/
def sessionPadS : ℤ := 60

/-- `SESSION_MIN_MS`: shorter than this there is no trail to speak of. -/
def sessionMinMs : ℤ := 2 * 60 * 1000

/-- `SESSION_MAX_MS`. -/
def sessionMaxMs : ℤ := 7 * 86400 * 1000 - 10 * 60 * 1000

/-- `SESSIONS_SHOWN`. -/
def sessionsShown : ℕ := 12

/-- `DAY_MS`. -/
def dayMs : ℤ := 86400 * 1000

/-- `SESSIONS_REFRESH_MS` of the map page: how long a list of sessions is shown. -/
def sessionsRefreshMs : ℤ := 60000

/-! ## Labels -/

/-- `Math.round(a / b)`. -/
def roundDiv (a b : ℤ) : ℤ := (2 * a + b) / (2 * b)

/-- How the browser reads a date and writes one: `new Date(text).getTime()`, which is none for NaN, the
midnight a time comes after, the time of day and the day of the month. -/
structure Dates where
  getTime : String → Option ℤ
  midnight : ℤ → ℤ
  clockTime : ℤ → String
  shortDay : ℤ → String

def formatDuration (ms : ℤ) : String :=
  let minutes := roundDiv ms 60000
  if minutes < 60 then toString minutes ++ "m"
  else
    let hours := minutes / 60
    let rest := minutes % 60
    if hours < 24 then
      if rest ≠ 0 then toString hours ++ "h " ++ toString rest ++ "m" else toString hours ++ "h"
    else toString (hours / 24) ++ "d " ++ toString (hours % 24) ++ "h"

def dayName (dates : Dates) (time nowMs : ℤ) : String :=
  let daysAgo := roundDiv (dates.midnight nowMs - dates.midnight time) dayMs
  if daysAgo = 0 then "Today" else if daysAgo = 1 then "Yesterday" else dates.shortDay time

/-- When a session that is over was, and how long. -/
def sessionLabel (dates : Dates) (start stop nowMs : ℤ) : String :=
  let ended :=
    if dayMs ≤ stop - start then dayName dates stop nowMs ++ " " ++ dates.clockTime stop
    else dates.clockTime stop
  dayName dates start nowMs ++ " " ++ dates.clockTime start ++ " to " ++ ended ++ ", " ++
    formatDuration (stop - start)

/-- A session that still goes on. -/
def openSessionLabel (dates : Dates) (start nowMs : ℤ) : String :=
  let day := dayName dates start nowMs
  if day = "Today" then "Now, since " ++ dates.clockTime start
  else
    "Now, since " ++ (if day = "Yesterday" then "yesterday" else day) ++ " " ++ dates.clockTime start

/-! ## Options -/

/-- What is read of a session as the server gives it. -/
structure PlaySession where
  startedAt : String
  endedAt : Option String
deriving DecidableEq, Repr

/-- `{start, end}` of a session; one that goes on has no end. -/
structure SessionTimes where
  start : ℤ
  stop : Option ℤ
deriving DecidableEq, Repr

structure SessionOption where
  value : String
  label : String
  start : ℤ
  fromSecs : ℤ
  toSecs : Option ℤ
deriving DecidableEq, Repr

/-- The times of a session that has a start and is not too short. -/
def PlaySession.times (dates : Dates) (session : PlaySession) : Option SessionTimes := do
  let start ← dates.getTime session.startedAt
  match session.endedAt with
  | none | some "" => some { start, stop := none }
  | some endedAt =>
    let stop ← dates.getTime endedAt
    if sessionMinMs ≤ stop - start then some { start, stop := some stop } else none

def SessionTimes.toOption (dates : Dates) (nowMs : ℤ) (times : SessionTimes) : SessionOption where
  value := "session:" ++ toString times.start
  label :=
    match times.stop with
    | none => openSessionLabel dates times.start nowMs
    | some stop => sessionLabel dates times.start stop nowMs
  start := times.start
  fromSecs := times.start / 1000 - sessionPadS
  toSecs := times.stop.map fun stop ↦ -(-stop / 1000) + sessionPadS

/-- A player's sessions, newest first, as choices for the time of the trails. -/
def sessionOptions (dates : Dates) (sessions : Option (List PlaySession)) (nowMs : ℤ) (picked : Option ℤ) :
    List SessionOption :=
  let listed := ((sessions.getD []).filterMap (PlaySession.times dates)).filter fun times ↦
    times.stop.getD nowMs - times.start ≤ sessionMaxMs
  (listed.zipIdx.filter fun entry ↦ entry.2 < sessionsShown ∨ picked = some entry.1.start).map fun entry ↦
    entry.1.toOption dates nowMs

variable {dates : Dates} {session : PlaySession} {times : SessionTimes} {nowMs : ℤ}

/-- The times a session is listed with. -/
theorem PlaySession.times_spec (h : session.times dates = some times) :
    dates.getTime session.startedAt = some times.start ∧
      (∀ stop ∈ times.stop, sessionMinMs ≤ stop - times.start) ∧
      ∀ stop ∈ times.stop, session.endedAt.bind dates.getTime = some stop := by
  unfold PlaySession.times at h
  obtain ⟨start, hstart, h⟩ := Option.bind_eq_some_iff.mp h
  split at h
  · obtain rfl := Option.some.inj h
    exact ⟨hstart, by simp, by simp⟩
  · obtain rfl := Option.some.inj h
    exact ⟨hstart, by simp, by simp⟩
  · next endedAt _ hended =>
    obtain ⟨stop, hstop, h⟩ := Option.bind_eq_some_iff.mp h
    split at h
    · next hlong =>
      obtain rfl := Option.some.inj h
      refine ⟨hstart, ?_, ?_⟩
      · rintro _ ⟨⟩
        exact hlong
      · rintro _ ⟨⟩
        rw [hended]
        exact hstop
    · cases h

/-- Every option is that of a session, which is not too long to be asked for. -/
theorem exists_of_mem_sessionOptions {sessions : Option (List PlaySession)} {picked : Option ℤ}
    {option : SessionOption} (h : option ∈ sessionOptions dates sessions nowMs picked) :
    ∃ session ∈ sessions.getD [], ∃ times, session.times dates = some times ∧
      times.stop.getD nowMs - times.start ≤ sessionMaxMs ∧ option = times.toOption dates nowMs := by
  obtain ⟨⟨times, index⟩, hentry, rfl⟩ := List.mem_map.mp h
  have hlisted := List.fst_mem_of_mem_zipIdx (List.mem_filter.mp hentry).1
  obtain ⟨htimes, hshort⟩ := List.mem_filter.mp hlisted
  obtain ⟨session, hsession, hread⟩ := List.mem_filterMap.mp htimes
  exact ⟨session, hsession, times, hread, of_decide_eq_true hshort, rfl⟩

/-! ## What the server takes -/

/-- A session that did not begin in the future, and began or ended within the last week. -/
def PlaySession.Recent (dates : Dates) (nowMs : ℤ) (session : PlaySession) : Prop :=
  ∀ start ∈ dates.getTime session.startedAt, start ≤ nowMs ∧
    (nowMs - 7 * dayMs ≤ start ∨
      ∃ stop, session.endedAt.bind dates.getTime = some stop ∧ nowMs - 7 * dayMs ≤ stop)

theorem PlaySession.Recent.le_stop (h : session.Recent dates nowMs) (htimes : session.times dates = some times) :
    times.start ≤ nowMs ∧ nowMs - 7 * dayMs ≤ times.stop.getD nowMs := by
  obtain ⟨hstart, hlong, hstop⟩ := PlaySession.times_spec htimes
  obtain ⟨hbegun, hrecent⟩ := h times.start hstart
  refine ⟨hbegun, ?_⟩
  cases htimesStop : times.stop with
  | none =>
    dsimp only [Option.getD_none, dayMs]
    omega
  | some stop =>
    have hmin : sessionMinMs ≤ stop - times.start := hlong stop htimesStop
    rw [Option.getD_some]
    obtain hstarted | ⟨ended, hended, hrecent⟩ := hrecent
    · unfold sessionMinMs at hmin
      omega
    · obtain rfl := Option.some.inj (hended.symm.trans (hstop stop htimesStop))
      exact hrecent

/-- The minutes to spare make up for the rounding, and for a session that goes on until the list is read
again. -/
theorem SessionTimes.showable {laterMs : ℤ} (hbegun : times.start ≤ nowMs)
    (hmin : ∀ stop ∈ times.stop, sessionMinMs ≤ stop - times.start)
    (hmax : times.stop.getD nowMs - times.start ≤ sessionMaxMs)
    (hrecent : nowMs - 7 * dayMs ≤ times.stop.getD nowMs) (hlater : nowMs ≤ laterMs)
    (hsoon : laterMs ≤ nowMs + sessionsRefreshMs) :
    (Span.between (times.toOption dates nowMs).fromSecs (times.toOption dates nowMs).toSecs).Showable
      (laterMs / 1000) := by
  obtain ⟨start, stop⟩ := times
  dsimp only at hbegun hmin hmax hrecent
  unfold sessionMaxMs at hmax
  unfold sessionsRefreshMs at hsoon
  unfold dayMs at hrecent
  cases stop with
  | none =>
    rw [Option.getD_none] at hmax hrecent
    constructor <;>
      dsimp only [SessionTimes.toOption, Span.start, Span.stop, Option.map_none, Option.getD_none,
        sessionPadS, Trails.maxTrailDays, Trails.oldestSpanDays] <;>
      omega
  | some stop =>
    have hlong : sessionMinMs ≤ stop - start := hmin stop rfl
    unfold sessionMinMs at hlong
    rw [Option.getD_some] at hmax hrecent
    constructor <;>
      dsimp only [SessionTimes.toOption, Span.start, Span.stop, Option.map_some, Option.getD_some,
        sessionPadS, Trails.maxTrailDays, Trails.oldestSpanDays] <;>
      omega

/-- Every session the menu offers is one the server takes, until the list is read again. -/
theorem sessionOptions_taken (dates : Dates) {sessions : Option (List PlaySession)} {nowMs : ℤ}
    (picked : Option ℤ) (hrecent : ∀ session ∈ sessions.getD [], session.Recent dates nowMs) :
    ∀ option ∈ sessionOptions dates sessions nowMs picked, ∀ laterMs, nowMs ≤ laterMs →
      laterMs ≤ nowMs + sessionsRefreshMs →
      Span.of none (some option.fromSecs) option.toSecs (laterMs / 1000) =
        .ok (.between option.fromSecs option.toSecs) := by
  intro option hoption laterMs hlater hsoon
  obtain ⟨session, hsession, times, htimes, hmax, rfl⟩ := exists_of_mem_sessionOptions hoption
  obtain ⟨-, hmin, -⟩ := PlaySession.times_spec htimes
  obtain ⟨hbegun, hstop⟩ := (hrecent session hsession).le_stop htimes
  apply Span.of_some_iff.mpr
  exact ⟨rfl, SessionTimes.showable hbegun hmin hmax hstop hlater hsoon⟩

/-- A browser in UTC, which reads the times of two sessions. -/
def utcDates : Dates where
  getTime text :=
    if text = "2026-10-05T19:05:00Z" then some 1791227100000
    else if text = "2026-10-05T14:10:30.500Z" then some 1791209430500
    else if text = "2026-10-05T16:32:00Z" then some 1791217920000
    else none
  midnight ms := ms / dayMs * dayMs
  clockTime ms :=
    let minutes := ms / 60000 % 1440
    toString (minutes / 600) ++ toString (minutes / 60 % 10) ++ ":" ++ toString (minutes % 60 / 10) ++
      toString (minutes % 10)
  shortDay ms := if ms / dayMs = 20731 then "5 Oct" else "another day"

/-- A session that goes on, and one that is over. -/
def twoSessions : List PlaySession :=
  [⟨"2026-10-05T19:05:00Z", none⟩, ⟨"2026-10-05T14:10:30.500Z", some "2026-10-05T16:32:00Z"⟩]

example : (sessionOptions utcDates (some twoSessions) 1791230400000 none).map (·.label) =
    ["Now, since 19:05", "Today 14:10 to 16:32, 2h 21m"] := by decide +kernel

theorem recent_twoSessions :
    ∀ session ∈ (some twoSessions).getD [], session.Recent utcDates 1791230400000 := by
  intro session hsession start hstart
  obtain rfl | hsession := List.mem_cons.mp hsession
  · obtain rfl := Option.some.inj hstart
    exact ⟨by decide, .inl (by decide)⟩
  · obtain rfl := List.mem_singleton.mp hsession
    obtain rfl := Option.some.inj hstart
    exact ⟨by decide, .inl (by decide)⟩

/-- The one that is over is taken at once, and the one that goes on also a minute later. -/
theorem sessionOptions_taken_twoSessions :
    Span.of none (some 1791209370) (some 1791217980) (1791230400000 / 1000) =
        .ok (.between 1791209370 (some 1791217980)) ∧
      Span.of none (some 1791227040) none (1791230460000 / 1000) = .ok (.between 1791227040 none) := by
  have hover : ⟨"session:1791209430500", "Today 14:10 to 16:32, 2h 21m", 1791209430500, 1791209370,
      some 1791217980⟩ ∈ sessionOptions utcDates (some twoSessions) 1791230400000 none := by decide +kernel
  have hgoing : ⟨"session:1791227100000", "Now, since 19:05", 1791227100000, 1791227040, none⟩ ∈
      sessionOptions utcDates (some twoSessions) 1791230400000 none := by decide +kernel
  exact ⟨sessionOptions_taken utcDates none recent_twoSessions _ hover 1791230400000 (by decide) (by decide),
    sessionOptions_taken utcDates none recent_twoSessions _ hgoing 1791230460000 (by decide) (by decide)⟩

end OsrsMap.Site
