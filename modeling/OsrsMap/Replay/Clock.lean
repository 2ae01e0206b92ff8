import OsrsMap.Library.Run
import Mathlib.Algebra.Order.Field.Basic
import Mathlib.Data.Rat.Cast.Order
import Mathlib.Tactic.Linarith
import Mathlib.Tactic.NormNum
import Mathlib.Tactic.Positivity

/-!
# The replay clock

The time shown while trails are replayed (`site/src/trail-scrubber/replay-clock.js`): the range
of the trails, the playing clock, the teleport being played out, the hold after a landing, the
waits that are skipped, and following the end. Times are seconds, elapsed times milliseconds,
over any ordered field in place of the site's floating point.

The clock stays in its range in every run in which no hop is played out to a landing that the
range has meanwhile left behind. That is the exact condition: `setRange` moves the time into the
new range, but not the hop that is under way.
-/

namespace OsrsMap.Replay

open Run

variable {α : Type*}

/-! ## The clock -/

/-- The teleport being played out: when the player left and landed, and how far it has got. -/
structure Hop (α : Type*) where
  leave : α
  land : α
  progress : α
deriving DecidableEq, Repr

/-- What `nextHop` answers: where the player hops next, and whether the hop is played out. -/
structure NextHop (α : Type*) where
  leave : α
  land : α
  animated : Bool
deriving DecidableEq, Repr

structure ReplayClock (α : Type*) where
  tMin : α
  tMax : α
  time : α
  playing : Bool
  speed : α
  skipIdle : Bool
  holdMs : α
  hop : Option (Hop α)
  hopMs : α
deriving DecidableEq, Repr

section Clock

variable [Field α] [LinearOrder α]

/-- `MAX_FRAME_MS`: a frame that took longer than this counts as this long. -/
def maxFrameMs : α := 250

/-- `IDLE_SKIP_S`: with idle time skipped, a wait longer than this is jumped over. -/
def idleSkipS : α := 600

/-- `IDLE_LEAD_S`: up to this long before the next thing that happens. -/
def idleLeadS : α := 30

/-- `LANDING_HOLD_MS`: how long the replay stands still where a player landed. -/
def landingHoldMs : α := 1500

/-- `HOP_MS`: how long a teleport that is played out takes. -/
def hopPlayMs : α := 1300

/-- `DEFAULT_SPEED`, in trail seconds per real second. -/
def defaultSpeed : α := 300

namespace ReplayClock

/-- The constructor of the source: an empty range, at its end, not playing. -/
def new : ReplayClock α where
  tMin := 0
  tMax := 0
  time := 0
  playing := false
  speed := defaultSpeed
  skipIdle := true
  holdMs := 0
  hop := none
  hopMs := 0

def atEnd (clock : ReplayClock α) : Bool := clock.tMax ≤ clock.time

def setRange (clock : ReplayClock α) (tMin tMax : α) : ReplayClock α :=
  let follow := clock.atEnd
  { clock with
    tMin := tMin
    tMax := tMax
    time := if follow then tMax else min (max clock.time tMin) tMax }

def seek (clock : ReplayClock α) (time : α) : ReplayClock α :=
  { clock with
    time := min (max time clock.tMin) clock.tMax
    holdMs := 0
    hop := none }

def play (clock : ReplayClock α) : ReplayClock α :=
  { clock with
    time := if clock.atEnd && clock.hop.isNone then clock.tMin else clock.time
    playing := true }

def pause (clock : ReplayClock α) : ReplayClock α :=
  { clock with
    playing := false
    holdMs := 0
    hop := clock.hop.map fun hop ↦ { hop with progress := 0 }
    hopMs := 0 }

/-- `if (this.atEnd && !this.hop) this.playing = false`, at the end of a tick. -/
def stopAtEnd (clock : ReplayClock α) : ReplayClock α :=
  { clock with playing := clock.playing && !(clock.atEnd && clock.hop.isNone) }

/-- A frame of a teleport that is played out. When it is over the clock goes on from `land`. -/
def playOut (clock : ReplayClock α) (hop : Hop α) (frameMs : α) : ReplayClock α :=
  let hopMs := clock.hopMs + frameMs
  if hopMs < hopPlayMs then
    { clock with hopMs := hopMs, hop := some { hop with progress := hopMs / hopPlayMs } }
  else
    stopAtEnd { clock with hopMs := hopMs, time := hop.land, hop := none }

/-- Where a frame takes the time before hops are looked at: on by the speed, or over a wait.
`next` is what `nextChange` answered: `none` when it wasn't asked, `some none` for nothing more. -/
def advance (clock : ReplayClock α) (frameMs : α) (next : Option (Option α)) : α :=
  match next with
  | some none => clock.tMax
  | some (some next) =>
    if idleSkipS < next - clock.time then
      min (next - idleLeadS) clock.tMax
    else
      min (clock.time + frameMs / 1000 * clock.speed) clock.tMax
  | none => min (clock.time + frameMs / 1000 * clock.speed) clock.tMax

/-- Stops for the hop that `nextHop` found in the span the frame moved over: at its start when it
is played out, where the player landed when it isn't. -/
def stopForHop (clock : ReplayClock α) (before : α) (hop : Option (NextHop α)) : ReplayClock α :=
  match hop with
  | none => clock
  | some hop =>
    if before < hop.land ∧ hop.land ≤ clock.time then
      if hop.animated then
        { clock with
          time := hop.leave
          hop := some { leave := hop.leave, land := hop.land, progress := 0 }
          hopMs := 0 }
      else
        { clock with time := hop.land, holdMs := landingHoldMs }
    else clock

/-- Moves on by a frame. With the clock: whether there is something new to show. -/
def tick (clock : ReplayClock α) (elapsedMs : α) (nextChange : Option (α → Option α))
    (nextHop : Option (α → α → Option (NextHop α))) : ReplayClock α × Bool :=
  if !clock.playing then (clock, false)
  else
    let frameMs := min elapsedMs maxFrameMs
    match clock.hop with
    | some hop => (clock.playOut hop frameMs, true)
    | none =>
      if 0 < clock.holdMs then ({ clock with holdMs := clock.holdMs - frameMs }, false)
      else
        let before := clock.time
        let next := if clock.skipIdle then nextChange.map fun ask ↦ ask clock.time else none
        let moved := { clock with time := clock.advance frameMs next }
        let hop := nextHop.bind fun ask ↦ ask before moved.time
        let stopped := (moved.stopForHop before hop).stopAtEnd
        (stopped, stopped.time != before || stopped.hop.isSome)

end ReplayClock

/-! ## Runs of the clock -/

/-- What is done to the clock. The speed and the skipping of waits are set by the controls
(`TrailScrubber.handleChange`), `setRange` by `TrailScrubber.setTimeline`. -/
inductive Operation (α : Type*) where
  | setRange (tMin tMax : α)
  | seek (time : α)
  | play
  | pause
  | tick (elapsedMs : α) (nextChange : Option (α → Option α))
      (nextHop : Option (α → α → Option (NextHop α)))
  | setSpeed (speed : α)
  | setSkipIdle (skipIdle : Bool)

def step (clock : ReplayClock α) : Operation α → ReplayClock α
  | .setRange tMin tMax => clock.setRange tMin tMax
  | .seek time => clock.seek time
  | .play => clock.play
  | .pause => clock.pause
  | .tick elapsedMs nextChange nextHop => (clock.tick elapsedMs nextChange nextHop).1
  | .setSpeed speed => { clock with speed := speed }
  | .setSkipIdle skipIdle => { clock with skipIdle := skipIdle }

/-- The time is in the range of the trails. -/
def InRange (clock : ReplayClock α) : Prop :=
  clock.tMin ≤ clock.time ∧ clock.time ≤ clock.tMax

instance (clock : ReplayClock α) : Decidable (InRange clock) :=
  inferInstanceAs (Decidable (_ ∧ _))

/-- What the clock may be asked in a state: ranges that are ranges, no time going backwards, a
speed above 0, and answers about the trails of that moment. -/
def Allowed (clock : ReplayClock α) : Operation α → Prop
  | .setRange tMin tMax => tMin ≤ tMax
  | .tick elapsedMs nextChange nextHop =>
    0 ≤ elapsedMs ∧ 0 < clock.speed ∧
      (∀ ask ∈ nextChange, ∀ time next, ask time = some next → time ≤ next) ∧
      ∀ ask ∈ nextHop, ∀ after upTo hop, ask after upTo = some hop →
        (clock.tMin ≤ hop.leave ∧ hop.leave ≤ clock.tMax) ∧
          (clock.tMin ≤ hop.land ∧ hop.land ≤ clock.tMax)
  | .setSpeed speed => 0 < speed
  | _ => True

/-- A hop that this step plays out to its end lands inside the range of that moment. -/
def HopEndsInRange (clock : ReplayClock α) : Operation α → Prop
  | .tick elapsedMs _ _ =>
    clock.playing = true → ∀ hop ∈ clock.hop,
      hopPlayMs ≤ clock.hopMs + min elapsedMs maxFrameMs →
        clock.tMin ≤ hop.land ∧ hop.land ≤ clock.tMax
  | _ => True

instance : (clock : ReplayClock α) → (operation : Operation α) →
    Decidable (HopEndsInRange clock operation)
  | clock, .tick elapsedMs _ _ =>
    inferInstanceAs (Decidable (clock.playing = true → ∀ hop ∈ clock.hop,
      hopPlayMs ≤ clock.hopMs + min elapsedMs maxFrameMs →
        clock.tMin ≤ hop.land ∧ hop.land ≤ clock.tMax))
  | _, .setRange _ _ | _, .seek _ | _, .play | _, .pause | _, .setSpeed _ | _, .setSkipIdle _ =>
    inferInstanceAs (Decidable True)

end Clock

/-! ## What each operation does to the range -/

section Range

variable [LinearOrder α]

namespace ReplayClock

theorem inRange_setRange (clock : ReplayClock α) {tMin tMax : α} (h : tMin ≤ tMax) :
    InRange (clock.setRange tMin tMax) := by
  unfold InRange setRange
  cases clock.atEnd with
  | true => exact ⟨h, le_rfl⟩
  | false => exact ⟨le_min (le_max_right _ _) h, min_le_right _ _⟩

theorem inRange_play {clock : ReplayClock α} (h : InRange clock) : InRange clock.play := by
  unfold InRange play
  cases clock.atEnd && clock.hop.isNone with
  | true => exact ⟨le_rfl, h.1.trans h.2⟩
  | false => exact h

@[simp]
theorem inRange_stopAtEnd (clock : ReplayClock α) : InRange clock.stopAtEnd ↔ InRange clock :=
  Iff.rfl

variable [Field α]

theorem inRange_seek {clock : ReplayClock α} (h : InRange clock) (time : α) :
    InRange (clock.seek time) :=
  ⟨le_min (le_max_right _ _) (h.1.trans h.2), min_le_right _ _⟩

/-- Playing a hop out keeps the range unless it ends at a landing outside of it. -/
theorem inRange_playOut {clock : ReplayClock α} (h : InRange clock) (hop : Hop α) (frameMs : α) :
    InRange (clock.playOut hop frameMs) ↔
      (hopPlayMs ≤ clock.hopMs + frameMs → clock.tMin ≤ hop.land ∧ hop.land ≤ clock.tMax) := by
  unfold playOut
  by_cases hends : clock.hopMs + frameMs < hopPlayMs
  · simp only [hends, if_true, not_le.mpr hends, false_imp_iff, iff_true]
    exact h
  · simp only [hends, if_false, not_lt.mp hends, true_imp_iff, inRange_stopAtEnd]
    rfl

theorem inRange_stopForHop {clock : ReplayClock α} (h : InRange clock) (before : α)
    {hop : Option (NextHop α)}
    (hhop : ∀ found ∈ hop, (clock.tMin ≤ found.leave ∧ found.leave ≤ clock.tMax) ∧
      (clock.tMin ≤ found.land ∧ found.land ≤ clock.tMax)) :
    InRange (clock.stopForHop before hop) := by
  unfold stopForHop
  cases hop with
  | none => exact h
  | some found =>
    obtain ⟨hleave, hland⟩ := hhop found rfl
    dsimp only
    split
    · cases found.animated with
      | true => exact hleave
      | false => exact hland
    · exact h

end ReplayClock

theorem inRange_new [Field α] : InRange (ReplayClock.new : ReplayClock α) := ⟨le_rfl, le_rfl⟩

end Range

section Ordered

variable [Field α] [LinearOrder α] [IsStrictOrderedRing α]

namespace ReplayClock

/-- Moving on never leaves the range: not by the speed, and not over a wait, which ends before
the next change and so after the time it began at. -/
theorem advance_mem {clock : ReplayClock α} (h : InRange clock) (hspeed : 0 < clock.speed)
    {frameMs : α} (hframe : 0 ≤ frameMs) (next : Option (Option α)) :
    clock.tMin ≤ clock.advance frameMs next ∧ clock.advance frameMs next ≤ clock.tMax := by
  have hrange : clock.tMin ≤ clock.tMax := h.1.trans h.2
  have hplayed : clock.time ≤ clock.time + frameMs / 1000 * clock.speed := by
    have hmoved : 0 ≤ frameMs / 1000 * clock.speed := by positivity
    exact le_add_of_nonneg_right hmoved
  have hstep : clock.tMin ≤ min (clock.time + frameMs / 1000 * clock.speed) clock.tMax :=
    le_min (h.1.trans hplayed) hrange
  unfold advance
  match next with
  | none => exact ⟨hstep, min_le_right _ _⟩
  | some none => exact ⟨hrange, le_rfl⟩
  | some (some next) =>
    dsimp only
    split
    · next hwait =>
      have hlead : clock.time ≤ next - idleLeadS := by
        unfold idleSkipS at hwait
        unfold idleLeadS
        linarith
      exact ⟨le_min (h.1.trans hlead) hrange, min_le_right _ _⟩
    · exact ⟨hstep, min_le_right _ _⟩

/-- A tick keeps the range exactly when a hop that it plays out to the end lands in it. -/
theorem inRange_tick {clock : ReplayClock α} (h : InRange clock) {elapsedMs : α}
    {nextChange : Option (α → Option α)} {nextHop : Option (α → α → Option (NextHop α))}
    (hallowed : Allowed clock (.tick elapsedMs nextChange nextHop)) :
    InRange (clock.tick elapsedMs nextChange nextHop).1 ↔
      HopEndsInRange clock (.tick elapsedMs nextChange nextHop) := by
  obtain ⟨helapsed, hspeed, -, hanswer⟩ := hallowed
  unfold tick HopEndsInRange
  cases hplaying : clock.playing with
  | false => simpa using h
  | true =>
    cases hhop : clock.hop with
    | some hop => simpa using inRange_playOut h hop (min elapsedMs maxFrameMs)
    | none =>
      simp only [Bool.not_true, Bool.false_eq_true, if_false, Option.mem_def, reduceCtorEq,
        false_imp_iff, implies_true, iff_true]
      split
      · exact h
      · have hframe : 0 ≤ min elapsedMs maxFrameMs := le_min helapsed (by norm_num [maxFrameMs])
        refine (inRange_stopAtEnd _).mpr (inRange_stopForHop ?_ _ ?_)
        · exact advance_mem h hspeed hframe _
        · intro found hfound
          obtain ⟨ask, hask, hfound⟩ := Option.bind_eq_some_iff.mp hfound
          exact hanswer ask hask _ _ found hfound

end ReplayClock

/-- What one operation does: the range is kept, but for a hop that ends outside of it. -/
theorem inRange_step {clock : ReplayClock α} (h : InRange clock) (operation : Operation α)
    (hallowed : Allowed clock operation) :
    InRange (step clock operation) ↔ HopEndsInRange clock operation := by
  cases operation with
  | setRange tMin tMax => exact iff_of_true (clock.inRange_setRange hallowed) trivial
  | seek time => exact iff_of_true (ReplayClock.inRange_seek h time) trivial
  | play => exact iff_of_true (ReplayClock.inRange_play h) trivial
  | pause => exact iff_of_true h trivial
  | tick elapsedMs nextChange nextHop => exact ReplayClock.inRange_tick h hallowed
  | setSpeed speed => exact iff_of_true h trivial
  | setSkipIdle skipIdle => exact iff_of_true h trivial

/-- A run of the clock stays in the range exactly when every hop it plays out to the end lands in
the range of that moment. -/
theorem time_in_range_iff_hops_end_in_range (operations : List (Operation α))
    (hallowed : Along step Allowed (ReplayClock.new : ReplayClock α) operations) :
    Always step InRange (ReplayClock.new : ReplayClock α) operations ↔
      Along step HopEndsInRange (ReplayClock.new : ReplayClock α) operations :=
  always_iff_along (fun _ operation h hgood ↦ inRange_step h operation hgood) inRange_new hallowed

end Ordered

/-- A hop from 10 s to 20 s that is played out, asked for at any time. -/
def hopAt20 : Operation ℚ :=
  .tick 250 none (some fun _ _ ↦ some { leave := 10, land := 20, animated := true })

/-- The range moves on to 50 s and later while the hop is under way. -/
def movedRangeRun : List (Operation ℚ) :=
  [.setRange 0 100, .play, hopAt20, .setRange 50 150] ++
    List.replicate 6 (.tick 250 none none)

/-- The same with a range that only grows: the hop ends where it should. -/
def grownRangeRun : List (Operation ℚ) :=
  [.setRange 0 100, .play, hopAt20, .setRange 15 150] ++
    List.replicate 6 (.tick 250 none none)

theorem allowed_hopAt20 {clock : ReplayClock ℚ} (hspeed : 0 < clock.speed)
    (hmin : clock.tMin ≤ 10) (hmax : 20 ≤ clock.tMax) : Allowed clock hopAt20 := by
  refine ⟨by norm_num, hspeed, by simp, ?_⟩
  intro ask hask after upTo hop hfound
  obtain rfl : _ = ask := Option.some.inj hask
  obtain rfl : _ = hop := Option.some.inj hfound
  exact ⟨⟨hmin, by linarith⟩, by linarith, hmax⟩

theorem allowed_tick_none {clock : ReplayClock ℚ} (hspeed : 0 < clock.speed) :
    Allowed clock (.tick 250 none none) :=
  ⟨by norm_num, hspeed, by simp, by simp⟩

theorem allowed_setRange {clock : ReplayClock ℚ} {tMin tMax : ℚ} (h : tMin ≤ tMax) :
    Allowed clock (.setRange tMin tMax) := h

/-- The hop is over six frames later, and the clock is at 20 s in a range that starts at 50 s. -/
theorem time_leaves_moved_range :
    Along step Allowed ReplayClock.new movedRangeRun ∧
      ¬ Always step InRange ReplayClock.new movedRangeRun := by
  constructor
  · refine ⟨allowed_setRange ?_, trivial, allowed_hopAt20 ?_ ?_ ?_, allowed_setRange ?_,
      allowed_tick_none ?_, allowed_tick_none ?_, allowed_tick_none ?_, allowed_tick_none ?_,
      allowed_tick_none ?_, allowed_tick_none ?_, trivial⟩
    all_goals decide +kernel
  · intro h
    have hlast : InRange (movedRangeRun.foldl step ReplayClock.new) := h.final
    revert hlast
    decide +kernel

theorem time_in_range_of_grownRangeRun :
    Always step InRange (ReplayClock.new : ReplayClock ℚ) grownRangeRun := by
  refine (time_in_range_iff_hops_end_in_range grownRangeRun ?_).mpr (by decide +kernel)
  refine ⟨allowed_setRange ?_, trivial, allowed_hopAt20 ?_ ?_ ?_, allowed_setRange ?_,
    allowed_tick_none ?_, allowed_tick_none ?_, allowed_tick_none ?_, allowed_tick_none ?_,
    allowed_tick_none ?_, allowed_tick_none ?_, trivial⟩
  all_goals decide +kernel

end OsrsMap.Replay
