import OsrsMap.Replay.Clock
import OsrsMap.Site.NextChange
import Mathlib.Data.Rat.Floor

/-!
# A replay played to its end

The replay clock ticks over the trails of a layer (`TrailScrubber.frame`, with `nextChange` and
`nextHop` as `MapPage` sets them): it skips what is idle, and stops for the hops of the player who is
watched.

However long the frames take, the replay ends, and no idle skip passes over anything that happens.
Every hop is stopped for once and in order exactly when no two of them land at the same time: the
next hop is looked for after the landing of the last one, so one that lands in the same second is
not found.
-/

namespace OsrsMap.Replay

open Run Site

/-! ## The replay -/

/-- What is replayed: the trails, whose replay is watched (`CanvasMap.replayPlayer`), and whether
less motion was asked for. -/
structure Playback where
  layer : MarkedLayer
  watched : String
  reducedMotion : Bool

/-- What the replay stopped for: a teleport that is played out, or a landing. -/
inductive Stop where
  | playedOut (leave land : ℚ)
  | stoodAt (land : ℚ)
deriving DecidableEq, Repr

def Stop.land : Stop → ℚ
  | playedOut _ land => land
  | stoodAt land => land

/-- What the clock began between two frames: a teleport is played out, or it stands where the player
landed. -/
def stopBetween (before after : ReplayClock ℚ) : Option Stop :=
  match before.hop, after.hop with
  | some _, _ => none
  | none, some hop => some (.playedOut hop.leave hop.land)
  | none, none =>
    if before.holdMs ≤ 0 ∧ 0 < after.holdMs then some (.stoodAt after.time) else none

namespace Playback

variable (playback : Playback)

/-- `CanvasMap.trailNextHop`: a teleport is played out, unless the user asked for less motion. -/
def trailNextHop (after upTo : ℚ) : Option (NextHop ℚ) :=
  (playback.layer.nextHop playback.watched after upTo).map fun hop ↦
    { leave := hop.leave
      land := hop.land
      animated := hop.kind == .teleport && !playback.reducedMotion }

/-- `TrailScrubber.frame`. -/
def frame (clock : ReplayClock ℚ) (elapsedMs : ℚ) : ReplayClock ℚ :=
  (clock.tick elapsedMs (some playback.layer.nextChangeAfter) (some playback.trailNextHop)).1

/-- What the replay stops for, frame by frame. -/
def stops (clock : ReplayClock ℚ) (frames : List ℚ) : List Stop :=
  observed playback.frame stopBetween clock frames

/-- The hops of the player who is watched that land after a time and not after another. -/
def hopsIn (after upTo : ℚ) : List LayerHop :=
  (playback.layer.hops playback.watched).filter fun hop ↦ after < hop.land ∧ hop.land ≤ upTo

/-- A hop as the replay should stop for it. -/
def stopFor (hop : LayerHop) : Stop :=
  if hop.kind == .teleport && !playback.reducedMotion then .playedOut hop.leave hop.land
  else .stoodAt hop.land

/-- Where a frame takes the time before hops are looked at. -/
def moved (clock : ReplayClock ℚ) (elapsedMs : ℚ) : ℚ :=
  clock.advance (min elapsedMs maxFrameMs)
    (if clock.skipIdle then some (playback.layer.nextChangeAfter clock.time) else none)

/-- The frame skips a wait: nothing more happens, or not for long. -/
structure SkipsIdle (clock : ReplayClock ℚ) : Prop where
  playing : clock.playing = true
  hop : clock.hop = none
  hold : clock.holdMs ≤ 0
  skipIdle : clock.skipIdle = true
  wait : ∀ change ∈ playback.layer.nextChangeAfter clock.time, idleSkipS < change - clock.time

/-- Nothing happens in the time that a frame skips. -/
def SkipsQuiet (clock : ReplayClock ℚ) (elapsedMs : ℚ) : Prop :=
  playback.SkipsIdle clock → Quiet playback.layer clock.time (playback.moved clock elapsedMs)

end Playback

/-- The clock plays from the start of its range. -/
structure Starts (clock : ReplayClock ℚ) : Prop where
  playing : clock.playing = true
  time : clock.time = clock.tMin
  hop : clock.hop = none
  range : clock.tMin ≤ clock.tMax
  speed : 0 < clock.speed

/-- Playing has stopped at the end of the range. -/
structure Ended (clock : ReplayClock ℚ) : Prop where
  playing : clock.playing = false
  time : clock.time = clock.tMax
  hop : clock.hop = none

/-- Whatever the frames, of which each takes some time: playing ends, every hop was stopped for once
and in order when it has, and the skips pass over nothing. -/
structure Replayed (playback : Playback) (clock : ReplayClock ℚ) (leastMs : ℚ) : Prop where
  ends : ∃ count, ∀ frames : List ℚ, (∀ elapsedMs ∈ frames, leastMs ≤ elapsedMs) →
    count ≤ frames.length → Ended (frames.foldl playback.frame clock)
  stops : ∀ frames : List ℚ, (∀ elapsedMs ∈ frames, leastMs ≤ elapsedMs) →
    (frames.foldl playback.frame clock).playing = false →
    playback.stops clock frames = (playback.hopsIn clock.tMin clock.tMax).map playback.stopFor
  skips : ∀ frames : List ℚ, (∀ elapsedMs ∈ frames, leastMs ≤ elapsedMs) →
    Along playback.frame playback.SkipsQuiet clock frames

/-- No two hops of the player who is watched land at the same time in the range. -/
def LandApart (playback : Playback) (clock : ReplayClock ℚ) : Prop :=
  ((playback.hopsIn clock.tMin clock.tMax).map LayerHop.land).Nodup

/-! ## What a frame does -/

/-- The clock after it stopped for a hop. -/
def stopAt (playback : Playback) (clock : ReplayClock ℚ) (hop : LayerHop) : ReplayClock ℚ :=
  match playback.stopFor hop with
  | .playedOut leave land =>
    { clock with time := leave, hop := some { leave, land, progress := 0 }, hopMs := 0 }
  | .stoodAt land => ReplayClock.stopAtEnd { clock with time := land, holdMs := landingHoldMs }

/-- The clock after it moved on without a stop. -/
def moveOn (playback : Playback) (clock : ReplayClock ℚ) (elapsedMs : ℚ) : ReplayClock ℚ :=
  ReplayClock.stopAtEnd { clock with time := playback.moved clock elapsedMs }

/-- What a frame makes of the clock. -/
inductive Ticked (playback : Playback) (clock : ReplayClock ℚ) (elapsedMs : ℚ) :
    ReplayClock ℚ → Prop where
  | stands (hplaying : clock.playing = false) : Ticked playback clock elapsedMs clock
  | playsOn (hop : Hop ℚ) (hplaying : clock.playing = true) (hhop : clock.hop = some hop)
      (progress : ℚ) (hshort : clock.hopMs + min elapsedMs maxFrameMs < hopPlayMs) :
      Ticked playback clock elapsedMs
        { clock with
          hopMs := clock.hopMs + min elapsedMs maxFrameMs
          hop := some { hop with progress } }
  | lands (hop : Hop ℚ) (hplaying : clock.playing = true) (hhop : clock.hop = some hop) :
      Ticked playback clock elapsedMs
        (ReplayClock.stopAtEnd
          { clock with
            hopMs := clock.hopMs + min elapsedMs maxFrameMs
            time := hop.land
            hop := none })
  | holds (hplaying : clock.playing = true) (hhop : clock.hop = none) (hhold : 0 < clock.holdMs) :
      Ticked playback clock elapsedMs
        { clock with holdMs := clock.holdMs - min elapsedMs maxFrameMs }
  | moves (hplaying : clock.playing = true) (hhop : clock.hop = none) (hhold : clock.holdMs ≤ 0)
      (hnone : ∀ hop ∈ playback.layer.nextHop playback.watched clock.time
          (playback.moved clock elapsedMs),
        ¬ (clock.time < hop.land ∧ hop.land ≤ playback.moved clock elapsedMs)) :
      Ticked playback clock elapsedMs (moveOn playback clock elapsedMs)
  | stops (hop : LayerHop) (hplaying : clock.playing = true) (hhop : clock.hop = none)
      (hhold : clock.holdMs ≤ 0)
      (hfound : playback.layer.nextHop playback.watched clock.time
        (playback.moved clock elapsedMs) = some hop)
      (hspan : clock.time < hop.land ∧ hop.land ≤ playback.moved clock elapsedMs) :
      Ticked playback clock elapsedMs (stopAt playback clock hop)

variable {playback : Playback} {clock after : ReplayClock ℚ} {elapsedMs : ℚ}

theorem stopForHop_eq {hop : LayerHop} {time : ℚ} (hspan : clock.time < hop.land ∧ hop.land ≤ time) :
    ReplayClock.stopAtEnd (ReplayClock.stopForHop { clock with time } clock.time
      (some
        { leave := hop.leave
          land := hop.land
          animated := hop.kind == .teleport && !playback.reducedMotion })) =
      stopAt playback clock hop := by
  unfold ReplayClock.stopForHop stopAt Playback.stopFor
  cases hanimated : hop.kind == .teleport && !playback.reducedMotion with
  | true => simp [hspan, ReplayClock.stopAtEnd]
  | false => simp [hspan]

/-- A frame that moves on stops for the hop it finds, or not at all. -/
theorem ticked_moved (hplaying : clock.playing = true) (hhop : clock.hop = none)
    (hhold : clock.holdMs ≤ 0) :
    Ticked playback clock elapsedMs
      (ReplayClock.stopAtEnd (ReplayClock.stopForHop
        { clock with time := playback.moved clock elapsedMs } clock.time
        (playback.trailNextHop clock.time (playback.moved clock elapsedMs)))) := by
  unfold Playback.trailNextHop
  cases hfound : playback.layer.nextHop playback.watched clock.time
      (playback.moved clock elapsedMs) with
  | none =>
    apply Ticked.moves hplaying hhop hhold
    intro hop hhop
    exact absurd (hfound.symm.trans hhop) (by simp)
  | some hop =>
    rw [Option.map_some]
    by_cases hspan : clock.time < hop.land ∧ hop.land ≤ playback.moved clock elapsedMs
    · rw [stopForHop_eq hspan]
      exact .stops hop hplaying hhop hhold hfound hspan
    · have hpasses : ReplayClock.stopForHop
          { clock with time := playback.moved clock elapsedMs } clock.time
          (some
            { leave := hop.leave
              land := hop.land
              animated := hop.kind == .teleport && !playback.reducedMotion }) =
          { clock with time := playback.moved clock elapsedMs } := if_neg hspan
      rw [hpasses]
      apply Ticked.moves hplaying hhop hhold
      intro other hother
      obtain rfl := Option.some.inj (hfound.symm.trans hother)
      exact hspan

theorem ticked_frame (playback : Playback) (clock : ReplayClock ℚ) (elapsedMs : ℚ) :
    Ticked playback clock elapsedMs (playback.frame clock elapsedMs) := by
  unfold Playback.frame ReplayClock.tick
  obtain ⟨tMin, tMax, time, playing, speed, skipIdle, holdMs, hop, hopMs⟩ := clock
  cases playing with
  | false => exact .stands rfl
  | true =>
    cases hop with
    | some hop =>
      simp only [Bool.not_true, Bool.false_eq_true, if_false, ReplayClock.playOut]
      split
      · next hshort => exact .playsOn hop rfl rfl _ hshort
      · exact .lands hop rfl rfl
    | none =>
      simp only [Bool.not_true, Bool.false_eq_true, if_false]
      split
      · next hhold => exact .holds rfl rfl hhold
      · next hhold => exact ticked_moved rfl rfl (not_lt.mp hhold)

/-! ## How far the replay has got -/

/-- The time from which the replay goes on: where a teleport that is played out lands. -/
def position (clock : ReplayClock ℚ) : ℚ := clock.hop.elim clock.time Hop.land

/-- The clock plays in its range, or has stopped at the end of it. -/
structure OnTrack (clock : ReplayClock ℚ) : Prop where
  speed : 0 < clock.speed
  position_le : position clock ≤ clock.tMax
  ended : clock.playing = false → Ended clock

theorem position_of_hop_none (hhop : clock.hop = none) : position clock = clock.time := by
  rw [position, hhop, Option.elim_none]

theorem position_of_hop {hop : Hop ℚ} (hhop : clock.hop = some hop) : position clock = hop.land := by
  rw [position, hhop, Option.elim_some]

theorem Starts.onTrack (h : Starts clock) : OnTrack clock where
  speed := h.speed
  position_le := by
    rw [position_of_hop_none h.hop, h.time]
    exact h.range
  ended hplaying := absurd (h.playing.symm.trans hplaying) (by decide)

/-- A clock that was let stop at the end has stopped there. -/
theorem onTrack_stopAtEnd (hspeed : 0 < clock.speed) (hle : clock.time ≤ clock.tMax)
    (hplaying : clock.playing = true) (hhop : clock.hop = none) : OnTrack clock.stopAtEnd where
  speed := hspeed
  position_le := by
    rw [position_of_hop_none (show clock.stopAtEnd.hop = none from hhop)]
    exact hle
  ended hstopped := by
    have hend : clock.tMax ≤ clock.time := by
      simpa [ReplayClock.stopAtEnd, ReplayClock.atEnd, hplaying, hhop] using hstopped
    exact ⟨hstopped, le_antisymm hle hend, hhop⟩

theorem playing_stopAtEnd (hhop : clock.hop = none)
    (h : clock.stopAtEnd.playing = true) : clock.time < clock.tMax := by
  have hahead : clock.playing = true ∧ ¬ clock.tMax ≤ clock.time := by
    simpa [ReplayClock.stopAtEnd, ReplayClock.atEnd, hhop] using h
  exact not_le.mp hahead.2

/-- How far a frame that does not skip moves at least. -/
def stride (leastMs : ℚ) (clock : ReplayClock ℚ) : ℚ :=
  min (min leastMs maxFrameMs / 1000 * clock.speed) (idleSkipS - idleLeadS)

variable {leastMs : ℚ}

theorem leastFrame_pos (hleast : 0 < leastMs) : 0 < min leastMs (maxFrameMs : ℚ) :=
  lt_min hleast (by norm_num [maxFrameMs])

theorem stride_pos (hleast : 0 < leastMs) (hspeed : 0 < clock.speed) : 0 < stride leastMs clock := by
  have hframe := leastFrame_pos hleast
  exact lt_min (by positivity) (by norm_num [idleSkipS, idleLeadS])

/-- A frame takes the time to the end of the range or moves it by a stride. -/
theorem moved_spec (playback : Playback) (hspeed : 0 < clock.speed) (helapsed : leastMs ≤ elapsedMs) :
    playback.moved clock elapsedMs ≤ clock.tMax ∧
      (playback.moved clock elapsedMs = clock.tMax ∨
        clock.time + stride leastMs clock ≤ playback.moved clock elapsedMs) := by
  have hplayed : clock.time + stride leastMs clock ≤
      clock.time + min elapsedMs maxFrameMs / 1000 * clock.speed := by
    have hframe : min leastMs maxFrameMs ≤ min elapsedMs (maxFrameMs : ℚ) :=
      min_le_min_right _ helapsed
    have hstride : min leastMs maxFrameMs / 1000 * clock.speed ≤
        min elapsedMs maxFrameMs / 1000 * clock.speed := by gcongr
    have hle : stride leastMs clock ≤ min leastMs maxFrameMs / 1000 * clock.speed :=
      min_le_left _ _
    exact add_le_add le_rfl (hle.trans hstride)
  have hmin {time : ℚ} (htime : clock.time + stride leastMs clock ≤ time) :
      min time clock.tMax ≤ clock.tMax ∧
        (min time clock.tMax = clock.tMax ∨
          clock.time + stride leastMs clock ≤ min time clock.tMax) := by
    refine ⟨min_le_right _ _, ?_⟩
    obtain hle | hle := le_total time clock.tMax
    · rw [min_eq_left hle]
      exact .inr htime
    · exact .inl (min_eq_right hle)
  unfold Playback.moved ReplayClock.advance
  split
  · exact ⟨le_rfl, .inl rfl⟩
  · next next hnext =>
    split
    · next hwait =>
      have hstride : stride leastMs clock ≤ idleSkipS - idleLeadS := min_le_right _ _
      exact hmin (by linarith)
    · exact hmin hplayed
  · exact hmin hplayed

theorem le_moved (playback : Playback) (hleast : 0 < leastMs) (hspeed : 0 < clock.speed) (helapsed : leastMs ≤ elapsedMs)
    (hle : clock.time ≤ clock.tMax) : clock.time ≤ playback.moved clock elapsedMs := by
  have hstride := stride_pos hleast hspeed
  obtain ⟨-, hend | hforth⟩ := moved_spec playback hspeed helapsed
  · rw [hend]
    exact hle
  · linarith

theorem stopFor_land (playback : Playback) (hop : LayerHop) :
    (playback.stopFor hop).land = hop.land := by
  unfold Playback.stopFor
  split <;> rfl

theorem position_moveOn (hhop : clock.hop = none) :
    position (moveOn playback clock elapsedMs) = playback.moved clock elapsedMs :=
  @position_of_hop_none (moveOn playback clock elapsedMs) hhop

theorem position_stopAt (playback : Playback) (hhop : clock.hop = none) (hop : LayerHop) :
    position (stopAt playback clock hop) = hop.land := by
  rw [← stopFor_land playback hop]
  unfold stopAt
  split
  · next leave land hstop => rw [hstop]; rfl
  · next land hstop =>
    rw [hstop]
    exact @position_of_hop_none
      (ReplayClock.stopAtEnd { clock with time := land, holdMs := landingHoldMs }) hhop

theorem stopBetween_stopAt (playback : Playback) (hhop : clock.hop = none) (hhold : clock.holdMs ≤ 0)
    (hop : LayerHop) : stopBetween clock (stopAt playback clock hop) = some (playback.stopFor hop) := by
  unfold stopAt
  split
  · next leave land hstop => simp [stopBetween, hhop, hstop]
  · next land hstop =>
    have hholds : (0 : ℚ) < landingHoldMs := by norm_num [landingHoldMs]
    simp [stopBetween, ReplayClock.stopAtEnd, hhop, hhold, hstop, hholds]

/-- What a frame keeps, and that it goes on from what it stops for. -/
structure Forth (clock after : ReplayClock ℚ) : Prop where
  tMax : after.tMax = clock.tMax
  speed : after.speed = clock.speed
  position_le : position clock ≤ position after
  onTrack : OnTrack after
  stop : ∀ stop ∈ stopBetween clock after,
    position clock < stop.land ∧ stop.land ≤ position after

/-- Where no hop begins and no hold, nothing is stopped for. -/
theorem stopBetween_of_hop {hop : Hop ℚ} (hhop : clock.hop = some hop) :
    stopBetween clock after = none := by
  simp [stopBetween, hhop]

theorem stopBetween_of_none (hhop : clock.hop = none) (hafter : after.hop = none)
    (hhold : 0 < clock.holdMs ∨ after.holdMs ≤ 0) : stopBetween clock after = none := by
  have hnot : ¬ (clock.holdMs ≤ 0 ∧ 0 < after.holdMs) := by
    rintro ⟨hbefore, hholds⟩
    obtain hhold | hhold := hhold <;> linarith
  simp [stopBetween, hhop, hafter, hnot]

theorem stop_of_none (h : stopBetween clock after = none) : ∀ stop ∈ stopBetween clock after,
    position clock < stop.land ∧ stop.land ≤ position after := by
  intro stop hstop
  exact absurd (h.symm.trans hstop) (by simp)

theorem Ticked.forth (h : Ticked playback clock elapsedMs after) (htrack : OnTrack clock)
    (hleast : 0 < leastMs) (helapsed : leastMs ≤ elapsedMs) : Forth clock after := by
  have hspeed := htrack.speed
  cases h with
  | stands hplaying =>
    have hended := htrack.ended hplaying
    refine ⟨rfl, rfl, le_rfl, htrack, stop_of_none ?_⟩
    exact stopBetween_of_none hended.hop hended.hop (lt_or_ge 0 clock.holdMs)
  | playsOn hop hplaying hhop progress hshort =>
    have hposition := position_of_hop hhop
    refine ⟨rfl, rfl, hposition.le, ⟨hspeed, ?_, ?_⟩, stop_of_none (stopBetween_of_hop hhop)⟩
    · exact hposition.symm.trans_le htrack.position_le
    · intro hstopped
      exact absurd (hplaying.symm.trans hstopped) (by decide)
  | lands hop hplaying hhop =>
    have hposition := position_of_hop hhop
    refine ⟨rfl, rfl, hposition.le, ?_, stop_of_none (stopBetween_of_hop hhop)⟩
    exact onTrack_stopAtEnd hspeed (hposition.symm.trans_le htrack.position_le) hplaying rfl
  | holds hplaying hhop hhold =>
    refine ⟨rfl, rfl, le_rfl, ⟨hspeed, htrack.position_le, ?_⟩, ?_⟩
    · intro hstopped
      exact absurd (hplaying.symm.trans hstopped) (by decide)
    · exact stop_of_none (stopBetween_of_none hhop hhop (.inl hhold))
  | moves hplaying hhop hhold hnone =>
    have hposition := position_of_hop_none hhop
    have hle : clock.time ≤ clock.tMax := hposition.symm.trans_le htrack.position_le
    have hmoved := moved_spec playback hspeed helapsed
    refine ⟨rfl, rfl, ?_, onTrack_stopAtEnd hspeed hmoved.1 hplaying hhop, ?_⟩
    · have hforth := le_moved playback hleast hspeed helapsed hle
      exact hposition.trans_le (hforth.trans_eq (position_moveOn hhop).symm)
    · exact stop_of_none (stopBetween_of_none hhop hhop (.inr hhold))
  | stops hop hplaying hhop hhold hfound hspan =>
    have hposition := position_of_hop_none hhop
    have hland : hop.land ≤ clock.tMax := hspan.2.trans (moved_spec playback hspeed helapsed).1
    have hafter := position_stopAt playback hhop hop
    have hstops : ∀ stop ∈ stopBetween clock (stopAt playback clock hop),
        position clock < stop.land ∧ stop.land ≤ position (stopAt playback clock hop) := by
      intro stop hstop
      rw [stopBetween_stopAt playback hhop hhold hop] at hstop
      obtain rfl := Option.some.inj hstop
      rw [hposition, hafter, stopFor_land]
      exact ⟨hspan.1, le_rfl⟩
    have hforth : position clock ≤ position (stopAt playback clock hop) := by
      rw [hposition, hafter]
      exact hspan.1.le
    unfold stopAt at hstops hforth hafter ⊢
    cases hstop : playback.stopFor hop with
    | playedOut leave land =>
      simp only [hstop] at hstops hforth hafter ⊢
      refine ⟨rfl, rfl, hforth, ⟨hspeed, hafter.trans_le hland, ?_⟩, hstops⟩
      intro hstopped
      exact absurd (hplaying.symm.trans hstopped) (by decide)
    | stoodAt land =>
      simp only [hstop] at hstops hforth hafter ⊢
      have hle : land ≤ clock.tMax := by
        rw [← stopFor_land playback hop, hstop] at hland
        exact hland
      exact ⟨rfl, rfl, hforth, onTrack_stopAtEnd hspeed hle hplaying hhop, hstops⟩

/-! ## Playing ends -/

/-- The hops that are still to come. -/
def remaining (playback : Playback) (clock : ReplayClock ℚ) : List LayerHop :=
  playback.hopsIn (position clock) clock.tMax

theorem remaining_of_forth (h : Forth clock after) : remaining playback after =
    (remaining playback clock).filter (position after < ·.land) := by
  unfold remaining Playback.hopsIn
  rw [h.tMax, List.filter_filter]
  apply List.filter_congr
  intro hop _
  by_cases hlater : position after < hop.land
  · simp [hlater, h.position_le.trans_lt hlater]
  · simp [hlater]

theorem ceil_div_lt {wait frame part : ℚ} (hpart : 0 < part) (hframe : part ≤ frame)
    (hwait : 0 < wait) : ⌈(wait - frame) / part⌉₊ < ⌈wait / part⌉₊ := by
  have hpos : 0 < ⌈wait / part⌉₊ := Nat.ceil_pos.mpr (div_pos hwait hpart)
  calc ⌈(wait - frame) / part⌉₊ ≤ ⌈wait / part - 1⌉₊ := by
        apply Nat.ceil_mono
        rw [sub_div]
        exact sub_le_sub_left ((one_le_div hpart).mpr hframe) _
    _ = ⌈wait / part⌉₊ - 1 := Nat.ceil_sub_one _
    _ < ⌈wait / part⌉₊ := Nat.sub_lt hpos Nat.one_pos

/-- How many frames a stop takes at most. -/
def stopFrames (leastMs : ℚ) : ℕ :=
  ⌈landingHoldMs / min leastMs maxFrameMs⌉₊ + ⌈hopPlayMs / min leastMs maxFrameMs⌉₊ + 2

/-- How many frames the clock stands still at most before it moves on. -/
def standsFrames (leastMs : ℚ) (clock : ReplayClock ℚ) : ℕ :=
  ⌈clock.holdMs / min leastMs maxFrameMs⌉₊ +
    clock.hop.elim 0 fun _ ↦ ⌈(hopPlayMs - clock.hopMs) / min leastMs maxFrameMs⌉₊ + 1

/-- How many frames the rest of the range takes at most, without stops. -/
def strides (leastMs : ℚ) (clock : ReplayClock ℚ) : ℕ :=
  ⌈(clock.tMax - position clock) / stride leastMs clock⌉₊

/-- A bound on the frames that are still to come: no frame can make up for a stop. -/
def rank (playback : Playback) (leastMs : ℚ) (clock : ReplayClock ℚ) : ℕ :=
  (remaining playback clock).length * stopFrames leastMs + standsFrames leastMs clock +
    strides leastMs clock

theorem strides_le (h : Forth clock after) (hleast : 0 < leastMs) (hspeed : 0 < clock.speed) :
    strides leastMs after ≤ strides leastMs clock := by
  have hstride : stride leastMs after = stride leastMs clock := by rw [stride, stride, h.speed]
  have hpos := stride_pos hleast hspeed
  unfold strides
  rw [h.tMax, hstride]
  apply Nat.ceil_mono
  have hposition := h.position_le
  gcongr

theorem length_remaining_le (playback : Playback) (h : Forth clock after) :
    (remaining playback after).length ≤ (remaining playback clock).length := by
  rw [remaining_of_forth h]
  exact List.length_filter_le _ _

/-- A frame that stands still for less than before takes from the rank. -/
theorem rank_lt_of_stands (h : Forth clock after) (hleast : 0 < leastMs) (hspeed : 0 < clock.speed)
    (hstands : standsFrames leastMs after < standsFrames leastMs clock) :
    rank playback leastMs after < rank playback leastMs clock := by
  have hremaining : (remaining playback after).length * stopFrames leastMs ≤
      (remaining playback clock).length * stopFrames leastMs :=
    Nat.mul_le_mul_right _ (length_remaining_le playback h)
  have hstrides := strides_le h hleast hspeed
  unfold rank
  omega

theorem standsFrames_stopAt (playback : Playback) (hhop : clock.hop = none) (hhold : clock.holdMs ≤ 0)
    (hop : LayerHop) (leastMs : ℚ) (hleast : 0 < leastMs) :
    standsFrames leastMs (stopAt playback clock hop) < stopFrames leastMs := by
  have hframe := leastFrame_pos hleast
  have hceil : ⌈clock.holdMs / min leastMs maxFrameMs⌉₊ = 0 :=
    Nat.ceil_eq_zero.mpr (div_nonpos_of_nonpos_of_nonneg hhold hframe.le)
  unfold stopAt standsFrames stopFrames
  split
  · simp only [hceil, Option.elim_some, sub_zero]
    omega
  · simp only [ReplayClock.stopAtEnd, hhop, Option.elim_none]
    omega

variable {classify : Classify}

/-- The hop that is found is the first that lands after the time. -/
theorem found_spec (hlayer : Modelled classify playback.layer) {after upTo : ℚ} {hop : LayerHop}
    (hspan : after < hop.land ∧ hop.land ≤ upTo)
    (hfound : playback.layer.nextHop playback.watched after upTo = some hop) :
    (playback.layer.hops playback.watched).find? (after < ·.land) = some hop := by
  rw [MarkedLayer.nextHop_eq hlayer _ (hspan.1.le.trans hspan.2)] at hfound
  exact (Option.filter_eq_some_iff.mp hfound).1

/-- While playing goes on, every frame takes from the rank. -/
theorem Ticked.rank_lt (h : Ticked playback clock elapsedMs after) (htrack : OnTrack clock)
    (hlayer : Modelled classify playback.layer) (hleast : 0 < leastMs)
    (helapsed : leastMs ≤ elapsedMs) (hplays : after.playing = true) :
    clock.playing = true ∧ rank playback leastMs after < rank playback leastMs clock := by
  have hforth := h.forth htrack hleast helapsed
  have hspeed := htrack.speed
  have hframe := leastFrame_pos hleast
  have hmin : min leastMs maxFrameMs ≤ min elapsedMs (maxFrameMs : ℚ) := min_le_min_right _ helapsed
  cases h with
  | stands hplaying => exact absurd (hplaying.symm.trans hplays) (by decide)
  | playsOn hop hplaying hhop progress hshort =>
    refine ⟨hplaying, rank_lt_of_stands hforth hleast hspeed ?_⟩
    have hshorter := ceil_div_lt hframe hmin (show 0 < hopPlayMs - clock.hopMs by linarith)
    rw [sub_sub] at hshorter
    simp only [standsFrames, hhop, Option.elim_some]
    omega
  | lands hop hplaying hhop =>
    refine ⟨hplaying, rank_lt_of_stands hforth hleast hspeed ?_⟩
    simp only [standsFrames, ReplayClock.stopAtEnd, hhop, Option.elim_some, Option.elim_none]
    omega
  | holds hplaying hhop hhold =>
    refine ⟨hplaying, rank_lt_of_stands hforth hleast hspeed ?_⟩
    have hshorter := ceil_div_lt hframe hmin hhold
    simp only [standsFrames, hhop, Option.elim_none]
    omega
  | moves hplaying hhop hhold hnone =>
    refine ⟨hplaying, ?_⟩
    have hbefore := position_of_hop_none hhop
    have hmoved : playback.moved clock elapsedMs < clock.tMax :=
      @playing_stopAtEnd { clock with time := playback.moved clock elapsedMs } hhop hplays
    obtain ⟨-, hend | hstride⟩ := moved_spec playback hspeed helapsed
    · exact absurd hend hmoved.ne
    · have hshorter := ceil_div_lt (stride_pos hleast hspeed)
        (show stride leastMs clock ≤ playback.moved clock elapsedMs - clock.time by linarith)
        (show 0 < clock.tMax - clock.time by linarith [stride_pos hleast hspeed])
      rw [sub_sub_sub_cancel_right] at hshorter
      have hremaining := Nat.mul_le_mul_right (stopFrames leastMs)
        (length_remaining_le playback hforth)
      have hstrides : strides leastMs (moveOn playback clock elapsedMs) < strides leastMs clock := by
        unfold strides
        rw [hbefore, position_moveOn hhop]
        exact hshorter
      have hstands : standsFrames leastMs (moveOn playback clock elapsedMs) =
          standsFrames leastMs clock := rfl
      unfold rank
      omega
  | stops hop hplaying hhop hhold hfound hspan =>
    refine ⟨hplaying, ?_⟩
    have hbefore := position_of_hop_none hhop
    have hcomes : hop ∈ remaining playback clock := by
      have hmem := List.mem_of_find?_eq_some (found_spec hlayer hspan hfound)
      refine List.mem_filter.mpr ⟨hmem, decide_eq_true ?_⟩
      rw [hbefore]
      exact ⟨hspan.1, hspan.2.trans (moved_spec playback hspeed helapsed).1⟩
    have hfewer : (remaining playback (stopAt playback clock hop)).length <
        (remaining playback clock).length := by
      rw [remaining_of_forth hforth]
      apply List.length_filter_lt_length_iff_exists.mpr
      refine ⟨hop, hcomes, ?_⟩
      rw [position_stopAt playback hhop hop]
      simp
    have hremaining := Nat.mul_le_mul_right (stopFrames leastMs) hfewer
    rw [Nat.succ_mul] at hremaining
    have hstands := standsFrames_stopAt playback hhop hhold hop leastMs hleast
    have hstrides := strides_le hforth hleast hspeed
    unfold rank
    omega

/-! ## Every hop is stopped for -/

/-- Hops that land apart: a frame stops for the first that is still to come and leaves the rest. -/
theorem Ticked.remaining_eq (h : Ticked playback clock elapsedMs after) (htrack : OnTrack clock)
    (hlayer : Modelled classify playback.layer) (hleast : 0 < leastMs)
    (helapsed : leastMs ≤ elapsedMs)
    (hapart : ((remaining playback clock).map LayerHop.land).Nodup) :
    (stopBetween clock after).toList ++ (remaining playback after).map playback.stopFor =
      (remaining playback clock).map playback.stopFor := by
  have hforth := h.forth htrack hleast helapsed
  have hsame (hnone : stopBetween clock after = none)
      (hahead : ∀ hop ∈ remaining playback clock, position after < hop.land) :
      (stopBetween clock after).toList ++ (remaining playback after).map playback.stopFor =
        (remaining playback clock).map playback.stopFor := by
    rw [hnone, remaining_of_forth hforth, List.filter_eq_self.mpr fun hop hhop ↦
      decide_eq_true (hahead hop hhop)]
    rfl
  have hlater {hop : LayerHop} (hhop : hop ∈ remaining playback clock) :
      position clock < hop.land ∧ hop.land ≤ clock.tMax := of_decide_eq_true (List.mem_filter.mp hhop).2
  cases h with
  | stands hplaying =>
    have hended := htrack.ended hplaying
    exact hsame (stopBetween_of_none hended.hop hended.hop (lt_or_ge 0 clock.holdMs))
      fun hop hhop ↦ (hlater hhop).1
  | playsOn hop hplaying hhop progress hshort =>
    apply hsame (stopBetween_of_hop hhop)
    intro other hother
    exact (position_of_hop hhop).symm.trans_lt (hlater hother).1
  | lands hop hplaying hhop =>
    apply hsame (stopBetween_of_hop hhop)
    intro other hother
    exact (position_of_hop hhop).symm.trans_lt (hlater hother).1
  | holds hplaying hhop hhold =>
    exact hsame (stopBetween_of_none hhop hhop (.inl hhold)) fun hop hhop ↦ (hlater hhop).1
  | moves hplaying hhop hhold hnone =>
    apply hsame (stopBetween_of_none hhop hhop (.inr hhold))
    intro hop hcomes
    have hbefore := position_of_hop_none hhop
    rw [position_moveOn hhop]
    refine not_le.mp fun hpassed ↦ ?_
    have hlands : clock.time < hop.land := hbefore.symm.trans_lt (hlater hcomes).1
    obtain ⟨first, hfirst, hle⟩ := @exists_find?_of_pairwise _
      (fun hop : LayerHop ↦ decide (clock.time < hop.land)) _ _
      (MarkedLayer.hops_sorted hlayer playback.watched) (fun _ ↦ le_rfl) hop
      (List.mem_filter.mp hcomes).1 (decide_eq_true hlands)
    have hin : clock.time < first.land := by simpa using List.find?_some hfirst
    refine hnone first ?_ ⟨hin, hle.trans hpassed⟩
    rw [MarkedLayer.nextHop_eq hlayer _ (hlands.le.trans hpassed), hfirst]
    exact Option.filter_eq_some_iff.mpr ⟨rfl, decide_eq_true (hle.trans hpassed)⟩
  | stops hop hplaying hhop hhold hfound hspan =>
    have hbefore := position_of_hop_none hhop
    have hland : hop.land ≤ clock.tMax := hspan.2.trans (moved_spec playback htrack.speed helapsed).1
    -- What comes before the hop that is found is over, so that hop is the first still to come.
    obtain ⟨-, past, later, hhops, hover⟩ :=
      List.find?_eq_some_iff_append.mp (found_spec hlayer hspan hfound)
    have hcomes : remaining playback clock = hop ::
        later.filter fun hop ↦ clock.time < hop.land ∧ hop.land ≤ clock.tMax := by
      unfold remaining Playback.hopsIn
      rw [hhops, hbefore, List.filter_append, List.filter_cons_of_pos
        (by simpa using ⟨hspan.1, hland⟩), List.filter_eq_nil_iff.mpr, List.nil_append]
      intro other hother hcomes
      exact absurd (of_decide_eq_true hcomes).1 (by simpa using hover other hother)
    have hbehind : ∀ other ∈ later.filter fun hop ↦ clock.time < hop.land ∧ hop.land ≤ clock.tMax,
        hop.land < other.land := by
      intro other hother
      have hsorted := MarkedLayer.hops_sorted hlayer playback.watched
      rw [hhops] at hsorted
      have hle := (List.pairwise_cons.mp (List.pairwise_append.mp hsorted).2.1).1 other
        (List.mem_of_mem_filter hother)
      rw [hcomes, List.map_cons, List.nodup_cons] at hapart
      exact hle.lt_of_ne fun heq ↦ hapart.1 (List.mem_map.mpr ⟨other, hother, heq.symm⟩)
    rw [stopBetween_stopAt playback hhop hhold hop, remaining_of_forth hforth, hcomes,
      position_stopAt playback hhop hop, List.filter_cons_of_neg (by simp),
      List.filter_eq_self.mpr fun other hother ↦ decide_eq_true (hbehind other hother)]
    rfl

/-! ## Whole replays -/

variable {frames : List ℚ}

theorem onTrack_frame (hleast : 0 < leastMs) (htrack : OnTrack clock) (helapsed : leastMs ≤ elapsedMs) :
    OnTrack (playback.frame clock elapsedMs) :=
  ((ticked_frame playback clock elapsedMs).forth htrack hleast helapsed).onTrack

theorem onTrack_frames (hleast : 0 < leastMs) (htrack : OnTrack clock)
    (hframes : ∀ elapsedMs ∈ frames, leastMs ≤ elapsedMs) :
    Always playback.frame OnTrack clock frames :=
  always_of_along (fun _ _ htrack helapsed ↦ onTrack_frame hleast htrack helapsed) htrack
    (along_of_forall_mem hframes)

/-- Playing ends, after a number of frames that depends on how short they may be only. -/
theorem ended_of_rank (hlayer : Modelled classify playback.layer) (hleast : 0 < leastMs)
    (htrack : OnTrack clock) (hframes : ∀ elapsedMs ∈ frames, leastMs ≤ elapsedMs)
    (hlength : rank playback leastMs clock < frames.length) :
    Ended (frames.foldl playback.frame clock) := by
  have hstopped : ¬ (frames.foldl playback.frame clock).playing = true :=
    @stopped_of_rank _ _ playback.frame OnTrack (·.playing = true) (rank playback leastMs)
      (leastMs ≤ ·) (fun _ _ htrack helapsed ↦ onTrack_frame hleast htrack helapsed)
      (fun clock elapsedMs htrack helapsed hplays ↦
        (ticked_frame playback clock elapsedMs).rank_lt htrack hlayer hleast helapsed hplays)
      clock frames htrack hframes hlength
  exact (onTrack_frames hleast htrack hframes).final.ended (Bool.eq_false_iff.mpr hstopped)

/-- An idle skip ends before the next change. -/
theorem skipsQuiet (hlayer : Modelled classify playback.layer) (clock : ReplayClock ℚ)
    (elapsedMs : ℚ) : playback.SkipsQuiet clock elapsedMs := by
  intro hskips
  apply MarkedLayer.quiet_of_lt_nextChange hlayer.inOrder
  intro change hchange
  have hwait := hskips.wait change hchange
  unfold Playback.moved ReplayClock.advance
  rw [hskips.skipIdle, if_pos rfl, hchange]
  simp only [hwait, if_true]
  have hlead : (0 : ℚ) < idleLeadS := by norm_num [idleLeadS]
  exact (min_le_left _ _).trans_lt (sub_lt_self _ hlead)

theorem stops_lands (playback : Playback) (hleast : 0 < leastMs) (htrack : OnTrack clock)
    (hframes : ∀ elapsedMs ∈ frames, leastMs ≤ elapsedMs) :
    (playback.stops clock frames).Pairwise fun a b ↦ a.land < b.land := by
  refine (@pairwise_observed _ _ playback.frame OnTrack _ stopBetween (leastMs ≤ ·) _ _ position
    Stop.land (fun _ _ htrack helapsed ↦ onTrack_frame hleast htrack helapsed)
    (fun clock elapsedMs htrack helapsed ↦ ?_) clock frames htrack hframes).2
  have hforth := (ticked_frame playback clock elapsedMs).forth htrack hleast helapsed
  exact ⟨hforth.position_le, hforth.stop⟩

theorem remaining_of_starts (playback : Playback) (h : Starts clock) :
    remaining playback clock = playback.hopsIn clock.tMin clock.tMax := by
  rw [remaining, position_of_hop_none h.hop, h.time]

theorem remaining_of_ended (playback : Playback) (h : Ended clock) : remaining playback clock = [] := by
  unfold remaining Playback.hopsIn
  rw [position_of_hop_none h.hop, h.time, List.filter_eq_nil_iff]
  intro hop _
  simp

/-- Hops that land apart are all stopped for, in order. -/
theorem stops_of_landApart (hlayer : Modelled classify playback.layer) (hstart : Starts clock)
    (hleast : 0 < leastMs) (hapart : LandApart playback clock)
    (hframes : ∀ elapsedMs ∈ frames, leastMs ≤ elapsedMs)
    (hstopped : (frames.foldl playback.frame clock).playing = false) :
    playback.stops clock frames = (playback.hopsIn clock.tMin clock.tMax).map playback.stopFor := by
  have hremaining := remaining_of_starts playback hstart
  have hended : Ended (frames.foldl playback.frame clock) :=
    (onTrack_frames hleast hstart.onTrack hframes).final.ended hstopped
  have hinv (clock : ReplayClock ℚ) (elapsedMs : ℚ)
      (h : OnTrack clock ∧ ((remaining playback clock).map LayerHop.land).Nodup)
      (helapsed : leastMs ≤ elapsedMs) : OnTrack (playback.frame clock elapsedMs) ∧
        ((remaining playback (playback.frame clock elapsedMs)).map LayerHop.land).Nodup := by
    have hforth := (ticked_frame playback clock elapsedMs).forth h.1 hleast helapsed
    refine ⟨hforth.onTrack, ?_⟩
    rw [remaining_of_forth hforth]
    exact h.2.sublist (List.filter_sublist.map _)
  have hall := @observed_append_remaining _ _ playback.frame _ _ stopBetween (leastMs ≤ ·)
    (fun clock ↦ (remaining playback clock).map playback.stopFor) hinv
    (fun clock elapsedMs h helapsed ↦
      (ticked_frame playback clock elapsedMs).remaining_eq h.1 hlayer hleast helapsed h.2)
    clock frames ⟨hstart.onTrack, hremaining ▸ hapart⟩ hframes
  simp only [remaining_of_ended playback hended, hremaining, List.map_nil, List.append_nil] at hall
  exact hall

/-- A replay that stops for every hop has hops that land apart: it never stops twice at a time. -/
theorem landApart_of_replayed (hstart : Starts clock) (hleast : 0 < leastMs)
    (h : Replayed playback clock leastMs) : LandApart playback clock := by
  obtain ⟨count, hends⟩ := h.ends
  have hframes : ∀ elapsedMs ∈ List.replicate count leastMs, leastMs ≤ elapsedMs :=
    fun elapsedMs helapsed ↦ (List.eq_of_mem_replicate helapsed).ge
  have hended := hends _ hframes (List.length_replicate).ge
  have hsorted := stops_lands playback hleast hstart.onTrack hframes
  rw [h.stops _ hframes hended.playing, List.pairwise_map] at hsorted
  simp only [stopFor_land] at hsorted
  exact List.pairwise_map.mpr (hsorted.imp fun hlt ↦ hlt.ne)

/-- A replay of trails in order plays to the end, stops for every hop once and in order, and skips
nothing, exactly when no two of the hops land at the same time. -/
theorem replayed_iff_landApart (hlayer : Modelled classify playback.layer) (hstart : Starts clock)
    (hleast : 0 < leastMs) : Replayed playback clock leastMs ↔ LandApart playback clock := by
  refine ⟨landApart_of_replayed hstart hleast, fun hapart ↦ ?_⟩
  refine ⟨⟨rank playback leastMs clock + 1, fun frames hframes hcount ↦ ?_⟩,
    fun frames hframes hstopped ↦ ?_, fun frames hframes ↦ ?_⟩
  · exact ended_of_rank hlayer hleast hstart.onTrack hframes hcount
  · exact stops_of_landApart hlayer hstart hleast hapart hframes hstopped
  · exact (along_true clock frames).mono fun clock elapsedMs _ ↦ skipsQuiet hlayer clock elapsedMs

/-! ## Two replays -/

/-- `classifyStep`, of the seconds in which the points begin and end. -/
def classifyLive (a b : LivePoint) (gapS : ℤ) : Kind :=
  let onHub (point : LivePoint) : SitePoint :=
    { x := point.x, y := point.y, plane := point.plane, t0 := ⌊point.t0⌋, t1 := ⌊point.t1⌋,
      boat := point.boat, world := point.world, via := point.via }
  classifyStep (onHub a) (onHub b) gapS

/-- The trail of one player, as the hub has it until a time. -/
def history (rows : List (List ℤ)) (untilS : ℚ) : List LayerEvent :=
  [.setHistory "Lumby" (.bare rows) (some untilS) none untilS untilS]

def replayOf (rows : List (List ℤ)) (untilS : ℚ) : Playback where
  layer :=
    { toTrailLayer := (history rows untilS).foldl (TrailLayer.step classifyLive) .empty
      events := ∅
      eventFilter := none }
  watched := "Lumby"
  reducedMotion := false

/-- The clock plays a range from its start. -/
def playedFrom (tMin tMax : ℚ) : ReplayClock ℚ :=
  ((ReplayClock.new.setRange tMin tMax).seek tMin).play

/-- A teleport, a walk, and an entrance. -/
def teleportThenCave : List (List ℤ) :=
  [[3200, 3200, 0, 100], [2400, 3200, 0, 200, 0, 0, 4], [2410, 3200, 0, 260],
    [2410, 9600, 0, 400, 0, 0, 2]]

theorem replayed_teleportThenCave :
    Replayed (replayOf teleportThenCave 400) (playedFrom 100 400) 16 := by
  refine (replayed_iff_landApart (modelled_of_allowed classifyLive
    (show Along _ _ _ (history teleportThenCave 400) by decide +kernel) rfl) ?_ (by norm_num)).mpr ?_
  · constructor <;> decide +kernel
  · unfold LandApart
    decide +kernel

/-- Two teleports that land in the same second. -/
def twoTeleports : List (List ℤ) :=
  [[3200, 3200, 0, 100], [2400, 3200, 0, 200, 0, 0, 4], [1600, 3200, 0, 200, 0, 0, 4],
    [1610, 3200, 0, 260]]

/-- The second of them is never stopped for. -/
theorem not_replayed_twoTeleports :
    Modelled classifyLive (replayOf twoTeleports 260).layer ∧ Starts (playedFrom 100 260) ∧
      ¬ Replayed (replayOf twoTeleports 260) (playedFrom 100 260) 16 := by
  have hstart : Starts (playedFrom 100 260) := by
    constructor <;> decide +kernel
  refine ⟨modelled_of_allowed classifyLive
    (show Along _ _ _ (history twoTeleports 260) by decide +kernel) rfl, hstart, fun h ↦ ?_⟩
  have hapart := landApart_of_replayed hstart (by norm_num) h
  unfold LandApart at hapart
  revert hapart
  decide +kernel

end OsrsMap.Replay
