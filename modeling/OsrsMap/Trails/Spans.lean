import OsrsMap.Trails.Paging

/-!
# What a trail may be asked for

`Span::of` (`server/src/hub/trails.rs`): the span a request asks for, or what to tell whoever asked. A
request comes with a number of days, or with a moment and maybe another one, in unix seconds.
-/

namespace OsrsMap.Trails

/-- `MAX_TRAIL_DAYS`. -/
def maxTrailDays : ℤ := 7

/-- `OLDEST_SPAN_DAYS`: how long ago a span may start. -/
def oldestSpanDays : ℤ := 30

/-- `Span::of`, at the time `now`. -/
def Span.of (days fromSecs toSecs : Option ℤ) (now : ℤ) : Except String Span :=
  match fromSecs with
  | none =>
    match toSecs with
    | some _ => .error "give from with to"
    | none => .ok (.days (min (max (days.getD 1) 1) maxTrailDays))
  | some fromSecs =>
    let stop := toSecs.getD now
    if stop ≤ fromSecs then .error "the span ends before it starts"
    else if maxTrailDays * 86400 < stop - fromSecs then
      .error ("a span is " ++ toString maxTrailDays ++ " days at most")
    else if fromSecs < now - oldestSpanDays * 86400 then
      .error ("a span starts " ++ toString oldestSpanDays ++ " days ago at most")
    else .ok (.between fromSecs toSecs)

/-- `spanParams` (`site/src/data/api.js`): the `days`, `from` and `to` that a span is asked for with. -/
def Span.params : Span → Option ℤ × Option ℤ × Option ℤ
  | .days count => (some count, none, none)
  | .between fromSecs toSecs => (none, some fromSecs, toSecs)

/-- The span with as many days as a trail can have. -/
def Span.clamped : Span → Span
  | .days count => .days (min (max count 1) maxTrailDays)
  | .between fromSecs toSecs => .between fromSecs toSecs

/-- A trail can be shown of the span at `now`: it is not empty, not longer than a trail can be and not from
before the hub's points. -/
structure Span.Showable (span : Span) (now : ℤ) : Prop where
  nonempty : span.start (now * 1000) < span.stop.getD (now * 1000)
  short : span.stop.getD (now * 1000) - span.start (now * 1000) ≤ maxTrailDays * 86400 * 1000
  recent : (now - oldestSpanDays * 86400) * 1000 ≤ span.start (now * 1000)

namespace Span

variable {days toSecs : Option ℤ} {fromSecs now : ℤ} {span : Span}

/-- A moment is taken when a trail of the span from it on can be shown. -/
theorem of_some_iff : Span.of days (some fromSecs) toSecs now = .ok span ↔
    span = .between fromSecs toSecs ∧ (between fromSecs toSecs).Showable now := by
  have hstop : (between fromSecs toSecs).stop.getD (now * 1000) = toSecs.getD now * 1000 := by
    cases toSecs <;> rfl
  have hstart : (between fromSecs toSecs).start (now * 1000) = fromSecs * 1000 := rfl
  unfold Span.of
  dsimp only
  constructor
  · intro h
    split_ifs at h with hempty hlong hold
    obtain rfl := (Except.ok.inj h).symm
    refine ⟨rfl, ?_, ?_, ?_⟩
    · rw [hstop, hstart]
      omega
    · rw [hstop, hstart]
      omega
    · rw [hstart]
      omega
  · rintro ⟨rfl, hnonempty, hshort, hrecent⟩
    rw [hstop, hstart] at hnonempty hshort
    rw [hstart] at hrecent
    rw [if_neg (by omega), if_neg (by omega), if_neg (by omega)]

/-- Whatever is taken, a trail of it can be shown. -/
theorem showable_of_ok {fromSecs : Option ℤ} (h : Span.of days fromSecs toSecs now = .ok span) :
    span.Showable now := by
  cases fromSecs with
  | some fromSecs =>
    obtain ⟨rfl, hshowable⟩ := of_some_iff.mp h
    exact hshowable
  | none =>
    cases toSecs with
    | some toSecs => cases h
    | none =>
      obtain rfl := (Except.ok.inj h).symm
      have hdays : 1 ≤ min (max (days.getD 1) 1) maxTrailDays := by
        exact le_min (le_max_right _ _) (by decide)
      have hmost : min (max (days.getD 1) 1) maxTrailDays ≤ 7 := min_le_right _ _
      generalize min (max (days.getD 1) 1) maxTrailDays = count at hdays hmost ⊢
      constructor
      · dsimp only [start, stop, Option.getD_none]
        omega
      · dsimp only [start, stop, Option.getD_none, maxTrailDays]
        omega
      · dsimp only [start, oldestSpanDays]
        omega

/-- What a span is asked for with is read as that span, whenever a trail of it can be shown. -/
theorem of_params_iff {asked : Span} : Span.of asked.params.1 asked.params.2.1 asked.params.2.2 now = .ok span ↔
    span = asked.clamped ∧ span.Showable now := by
  cases asked with
  | days count =>
    constructor
    · intro h
      exact ⟨(Except.ok.inj h).symm, showable_of_ok h⟩
    · rintro ⟨rfl, -⟩
      rfl
  | between fromSecs toSecs =>
    rw [params, of_some_iff]
    constructor
    · rintro ⟨rfl, hshowable⟩
      exact ⟨rfl, hshowable⟩
    · rintro ⟨rfl, hshowable⟩
      exact ⟨rfl, hshowable⟩

end Span

end OsrsMap.Trails
