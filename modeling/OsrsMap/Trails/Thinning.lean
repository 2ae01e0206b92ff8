import OsrsMap.Library.PartitionPoint
import OsrsMap.Library.Worklist
import OsrsMap.Trails.Stays

/-!
# Thinning

How a trail with too many stays is thinned (`server/src/hub/trails.rs`): every stay is weighed by
the number of levels at which it is still needed, and a trail is cut at the first level that leaves
few enough. Distances are exact rationals in place of the source's floating point.
-/

namespace OsrsMap.Trails

/-- `THIN_LEVELS`: how far (in tiles) the line may pass from a tile that was left out, and how long
(in seconds) it may take from one point to the next. -/
def thinLevels : List (ℕ × ℤ) :=
  [(1, 60), (2, 60), (3, 60), (4, 60), (4, 120), (4, 300), (4, 600), (4, 1800), (4, 3600),
    (4, 21600)]

/-- `ALWAYS`: the weight of a point that is kept at every level. -/
def always : ℕ := thinLevels.length

/-- `MAX_WEIGHED_POINTS`: a walk of more points than this is weighed in halves. -/
def maxWeighedPoints : ℕ := 2048

/-- `TIME_SLACK_SECS`: when a player was on a tile is known to within this. -/
def timeSlackSecs : ℤ := 1

/-- `TRAIL_IDLE_SECS`: what a player standing still keeps one point per. -/
def trailIdleSecs : ℤ := 60

/-- `f64::clamp`. -/
def clamp (value low high : ℚ) : ℚ := max low (min value high)

/-- How far a trail is off for the stay `p` when it goes straight from `a` to `b`, with any
function in place of `f64::hypot`. -/
def offTheLine (hypot : ℚ → ℚ → ℚ) (a b p : TrailPoint) : ℚ :=
  let dx : ℚ := (b.x - a.x : ℤ)
  let dy : ℚ := (b.y - a.y : ℤ)
  let px : ℚ := (p.x - a.x : ℤ)
  let py : ℚ := (p.y - a.y : ℤ)
  let length := dx * dx + dy * dy
  let nearest := if 0 < length then (px * dx + py * dy) / length else 0
  let span : ℚ := (b.first - a.last : ℤ)
  let reached (time : ℤ) : ℚ := clamp ((time - a.last : ℤ) / span) 0 1
  let offAt (time : ℤ) : ℚ :=
    let along :=
      if 0 < span then clamp nearest (reached (time - timeSlackSecs)) (reached (time + timeSlackSecs))
      else clamp nearest 0 1
    hypot (px - dx * along) (py - dy * along)
  max (offAt p.first) (offAt p.last)

/-! ## Weighing -/

/-- `points[index]`. -/
def pointAt (points : List TrailPoint) (index : ℕ) : TrailPoint := points.getD index default

/-- `weights[index]`. -/
def weightAt (weights : List ℕ) (index : ℕ) : ℕ := weights.getD index 0

/-- A part of a walk that is still to be weighed. -/
structure Part where
  a : ℕ
  b : ℕ
  limit : ℕ
deriving DecidableEq, Repr

variable (off : TrailPoint → TrailPoint → TrailPoint → ℚ) (points : List TrailPoint)

/-- The point between `a` and `b` that is furthest off, and how far. -/
def furthest (a b : ℕ) : ℕ × ℚ :=
  (List.range' (a + 1) (b - (a + 1))).foldl
    (fun best index ↦
      let distance := off (pointAt points a) (pointAt points b) (pointAt points index)
      if best.2 < distance then (index, distance) else best)
    (a + 1, 0)

/-- The point between `a` and `b` halfway in time. -/
def halfway (a b : ℕ) (long : ℤ) : ℕ :=
  let halfway := (pointAt points a).last + long.tdiv 2
  min (a + 1 + partitionPoint (fun point ↦ decide (point.first < halfway))
    ((points.take b).drop (a + 1))) (b - 1)

/-- What `weigh_walk` does with the part it takes from its stack: the parts it puts there, and the
weights. -/
def weighPart (part : Part) (weights : List ℕ) : List Part × List ℕ :=
  let (a, b, limit) := (part.a, part.b, part.limit)
  if b - a < 2 then ([], weights)
  else if maxWeighedPoints < b - a then
    let middle := a + (b - a) / 2
    ([⟨middle, b, limit⟩, ⟨a, middle, limit⟩], weights.set middle limit)
  else
    let (furthest, off) := furthest off points a b
    let long := (pointAt points b).first - (pointAt points a).last
    let forTheWay := thinLevels.countP fun level ↦ (level.1 : ℚ) < off
    let forTheTime := thinLevels.countP fun level ↦ level.2 < long
    let weight := min (max forTheWay forTheTime) limit
    if weight = 0 then ([], weights)
    else
      let split := if forTheTime ≤ forTheWay then furthest else halfway points a b long
      ([⟨split, b, weight⟩, ⟨a, split, weight⟩], weights.set split weight)

theorem foldl_further_mem {K : Type} [LT K] [DecidableLT K] (distance : ℕ → K) (best : ℕ × K)
    (indices : List ℕ) :
    let found := indices.foldl
      (fun best index ↦ if best.2 < distance index then (index, distance index) else best) best
    found.1 = best.1 ∨ found.1 ∈ indices := by
  induction indices generalizing best with
  | nil => exact .inl rfl
  | cons index indices ih =>
    obtain hsame | hmem := ih (if best.2 < distance index then (index, distance index) else best)
    · simp only [List.foldl_cons, hsame]
      split
      · exact .inr List.mem_cons_self
      · exact .inl rfl
    · exact .inr (List.mem_cons_of_mem _ hmem)

theorem le_foldl_further (distance : ℕ → ℚ) (best : ℕ × ℚ) (indices : List ℕ) :
    let found := indices.foldl
      (fun best index ↦ if best.2 < distance index then (index, distance index) else best) best
    best.2 ≤ found.2 ∧ ∀ index ∈ indices, distance index ≤ found.2 := by
  induction indices generalizing best with
  | nil => simp
  | cons index indices ih =>
    obtain ⟨hle, hall⟩ := ih (if best.2 < distance index then (index, distance index) else best)
    simp only [List.foldl_cons]
    constructor
    · refine le_trans ?_ hle
      split
      · next hlt => exact hlt.le
      · exact le_rfl
    · intro other hother
      obtain rfl | hother := List.mem_cons.mp hother
      · refine le_trans ?_ hle
        split
        · exact le_rfl
        · next hlt => exact not_lt.mp hlt
      · exact hall other hother

theorem foldl_further_le (distance : ℕ → ℚ) {best : ℕ × ℚ} {indices : List ℕ} {bound : ℚ}
    (hbest : best.2 ≤ bound) (h : ∀ index ∈ indices, distance index ≤ bound) :
    (indices.foldl
      (fun best index ↦ if best.2 < distance index then (index, distance index) else best) best).2 ≤
        bound := by
  induction indices generalizing best with
  | nil => exact hbest
  | cons index indices ih =>
    obtain ⟨hindex, hrest⟩ := List.forall_mem_cons.mp h
    refine ih ?_ hrest
    dsimp only
    split
    · exact hindex
    · exact hbest

variable {points} {a b : ℕ}

theorem furthest_mem (h : 2 ≤ b - a) :
    a < (furthest off points a b).1 ∧ (furthest off points a b).1 < b := by
  have hmem := foldl_further_mem
    (fun index ↦ off (pointAt points a) (pointAt points b) (pointAt points index)) (a + 1, 0)
    (List.range' (a + 1) (b - (a + 1)))
  unfold furthest
  dsimp only at hmem ⊢
  rw [List.mem_range'_1] at hmem
  omega

theorem off_le_furthest {index : ℕ} (ha : a < index) (hb : index < b) :
    off (pointAt points a) (pointAt points b) (pointAt points index) ≤
      (furthest off points a b).2 := by
  obtain ⟨-, hall⟩ := le_foldl_further
    (fun index ↦ off (pointAt points a) (pointAt points b) (pointAt points index)) (a + 1, 0)
    (List.range' (a + 1) (b - (a + 1)))
  exact hall index (List.mem_range'_1.mpr (by omega))

theorem halfway_mem (long : ℤ) (h : 2 ≤ b - a) :
    a < halfway points a b long ∧ halfway points a b long < b := by
  unfold halfway
  dsimp only
  omega

variable (points)

/-- What a part is split into: the two sides of a place strictly inside of it, with the weight that
place gets as their limit, which is never more than the part's own. -/
theorem weighPart_cases (part : Part) (weights : List ℕ) :
    weighPart off points part weights = ([], weights) ∨
      ∃ split weight, part.a < split ∧ split < part.b ∧ weight ≤ part.limit ∧
        weighPart off points part weights =
          ([⟨split, part.b, weight⟩, ⟨part.a, split, weight⟩], weights.set split weight) := by
  unfold weighPart
  dsimp only
  split
  · exact .inl rfl
  · next hlong =>
    split
    · exact .inr ⟨_, part.limit, by omega, by omega, le_rfl, rfl⟩
    · split
      · exact .inl rfl
      · refine .inr ⟨_, _, ?_, ?_, min_le_right _ _, rfl⟩
        · split
          · exact (furthest_mem off (by omega)).1
          · exact (halfway_mem _ (by omega)).1
        · split
          · exact (furthest_mem off (by omega)).2
          · exact (halfway_mem _ (by omega)).2

/-- The loop of `weigh_walk`. A part's size is more than that of the two sides together. -/
def weighParts : Worklist Part (List ℕ) where
  expand := weighPart off points
  size part := max 1 (2 * (part.b - part.a) - 1)
  shrinks part weights := by
    obtain hnone | ⟨split, weight, ha, hb, -, hsplit⟩ := weighPart_cases off points part weights
    · simp [hnone]
    · simp only [hsplit, List.map_cons, List.map_nil, List.sum_cons, List.sum_nil]
      omega

/-- Weighs the points between `a` and `b`. -/
def weighWalk (a b : ℕ) (weights : List ℕ) : List ℕ :=
  (weighParts off points).drain [⟨a, b, always⟩] weights

/-- The loop of `weigh`: how far the walks are weighed, and the weights. -/
def weighTo (last : ℕ) (state : ℕ × List ℕ) (index : ℕ) : ℕ × List ℕ :=
  let (start, weights) := state
  if (pointAt points index).jump ∨ (pointAt points index).plane ≠ (pointAt points (index - 1)).plane then
    (index, weighWalk off points start (index - 1)
      ((weights.set (index - 1) always).set index always))
  else if index = last then (start, weighWalk off points start index weights)
  else (start, weights)

/-- `Vec::resize` with zeros. -/
def resize (weights : List ℕ) (length : ℕ) : List ℕ :=
  weights.take length ++ List.replicate (length - weights.length) 0

theorem weightAt_resize (weights : List ℕ) {length : ℕ} (h : weights.length ≤ length) (i : ℕ) :
    weightAt (resize weights length) i = weightAt weights i := by
  unfold resize weightAt
  rw [List.take_of_length_le h]
  simp only [List.getD_eq_getElem?_getD, List.getElem?_append, List.getElem?_replicate]
  split
  · rfl
  · next hi =>
    rw [List.getElem?_eq_none (Nat.not_lt.mp hi)]
    split <;> rfl

theorem length_resize (weights : List ℕ) {length : ℕ} (h : weights.length ≤ length) :
    (resize weights length).length = length := by
  unfold resize
  rw [List.take_of_length_le h, List.length_append, List.length_replicate]
  omega

/-- Weighs the points of a trail from `start` on. -/
def weigh (start : ℕ) (weights : List ℕ) : List ℕ :=
  let weights := resize weights points.length
  match points.length with
  | 0 => weights
  | last + 1 =>
    ((List.range' (start + 1) (last - start)).foldl (weighTo off points last)
      (start, (weights.set start always).set last always)).2

/-! ## Cutting -/

/-- The stays of a trail that are kept, each with its weight. -/
structure Weighed where
  points : List TrailPoint
  weights : List ℕ
  level : Option ℕ
  truncated : Bool
deriving DecidableEq, Repr

structure BuiltTrail where
  points : List TrailPoint
  step : ℤ
  truncated : Bool
deriving DecidableEq, Repr

/-- The trail as it is sent. -/
def Weighed.built (weighed : Weighed) : BuiltTrail where
  points := weighed.points
  step :=
    match weighed.level with
    | none => trailIdleSecs
    | some _ =>
      (((weighed.points.zip weighed.points.tail).filter fun pair ↦ !pair.2.jump).map
        fun pair ↦ pair.2.first - pair.1.last).foldl max trailIdleSecs
  truncated := weighed.truncated

def keptAt (weights : List ℕ) (level : ℕ) : ℕ := weights.countP fun weight ↦ level < weight

/-- The first level from `atLeast` on that leaves no more than fit, or the last one. -/
def cutLevel (weights : List ℕ) (atLeast : Option ℕ) (maxPoints : ℕ) : ℕ :=
  let last := thinLevels.length - 1
  ((List.range' (atLeast.getD 0) (last + 1 - atLeast.getD 0)).find?
    fun level ↦ keptAt weights level ≤ maxPoints).getD last

/-- Cuts a weighed trail to at most `maxPoints`. -/
def cut (points : List TrailPoint) (weights : List ℕ) (atLeast : Option ℕ) (maxPoints : ℕ) :
    Weighed :=
  if atLeast.isNone ∧ (points.length ≤ maxPoints ∨ maxPoints < 2) then
    { points, weights, level := none, truncated := false }
  else
    let level := cutLevel weights atLeast maxPoints
    let kept := keptAt weights level
    let left := ((points.zip weights).filter fun pair ↦ level < pair.2).drop (kept - maxPoints)
    { points := left.map Prod.fst
      weights := left.map Prod.snd
      level := some level
      truncated := maxPoints < kept }

end OsrsMap.Trails
