import OsrsMap.Site.TrailModel

/-!
# A trail there and back

What `decodeTrail` (`site/src/canvas-map/trail-model.js`) reads is what `trail_json`
(`server/src/hub/trails.rs`) wrote. The rows are read one by one; the worlds are listed where they
change, and the cursor of the reader takes each one up at the point that it was listed at.
-/

namespace OsrsMap.Site

open Trails

/-! ## The list of worlds -/

/-- The last world known, at the end of the points. -/
def lastWorld (points : List TrailPoint) : Option ℤ := (points.filterMap TrailPoint.world).getLast?

/-- What is listed of points that come after a known world. -/
def worldsFrom (index : ℕ) (known : Option ℤ) : List TrailPoint → List (ℕ × ℤ)
  | [] => []
  | point :: points =>
    match point.world with
    | some world =>
      if known ≠ some world then (index, world) :: worldsFrom (index + 1) (some world) points
      else worldsFrom (index + 1) known points
    | none => worldsFrom (index + 1) known points

/-- The points with the world known at each, after a known world. -/
def withWorlds (known : Option ℤ) : List TrailPoint → List SitePoint
  | [] => []
  | point :: points =>
    let known := point.world.or known
    sitePoint point known :: withWorlds known points

theorem foldl_listWorld (points : List TrailPoint) (worlds : List (ℕ × ℤ)) (index : ℕ) :
    (points.zipIdx index).foldl listWorld worlds =
      worlds ++ worldsFrom index (worlds.getLast?.map Prod.snd) points := by
  induction points generalizing worlds index with
  | nil => simp [worldsFrom]
  | cons point points ih =>
    rw [List.zipIdx_cons, List.foldl_cons, ih, worldsFrom]
    unfold listWorld
    cases point.world with
    | none => rfl
    | some world =>
      by_cases hknown : worlds.getLast?.map Prod.snd = some world
      · simp only [hknown, ne_eq, not_true_eq_false, if_false]
      · simp only [hknown, ne_eq, not_false_eq_true, if_true, List.getLast?_append, List.append_assoc]
        rfl

theorem le_of_mem_worldsFrom {points : List TrailPoint} {index : ℕ} {known : Option ℤ}
    {entry : ℕ × ℤ} (hentry : entry ∈ worldsFrom index known points) : index ≤ entry.1 := by
  induction points generalizing index known with
  | nil => exact absurd hentry List.not_mem_nil
  | cons point points ih =>
    unfold worldsFrom at hentry
    split at hentry
    · split at hentry
      · obtain rfl | hlater := List.mem_cons.mp hentry
        · exact le_rfl
        · exact Nat.le_of_succ_le (ih hlater)
      · exact Nat.le_of_succ_le (ih hentry)
    · exact Nat.le_of_succ_le (ih hentry)

/-- The reader leaves what is listed for later points. -/
theorem worldAt_of_later {index : ℕ} {worlds : List (ℕ × ℤ)} (known : Option ℤ)
    (hlater : ∀ entry ∈ worlds, index < entry.1) : worldAt index worlds known = (worlds, known) := by
  cases worlds with
  | nil => rfl
  | cons entry worlds =>
    obtain ⟨listed, world⟩ := entry
    have hlisted : index < listed := hlater _ List.mem_cons_self
    unfold worldAt
    rw [if_neg (by omega)]

/-- At its point the reader takes up what was listed there. -/
theorem worldAt_worldsFrom (index : ℕ) (known : Option ℤ) (point : TrailPoint)
    (points : List TrailPoint) : worldAt index (worldsFrom index known (point :: points)) known =
      (worldsFrom (index + 1) (point.world.or known) points, point.world.or known) := by
  have hrest (world : Option ℤ) : worldAt index (worldsFrom (index + 1) world points) world =
      (worldsFrom (index + 1) world points, world) :=
    worldAt_of_later world fun _ hentry ↦ le_of_mem_worldsFrom hentry
  rw [worldsFrom]
  cases hworld : point.world with
  | none => exact hrest known
  | some world =>
    by_cases hknown : known = some world
    · subst hknown
      simpa using hrest (some world)
    · simp only [hknown, ne_eq, not_false_eq_true, if_true, Option.some_or]
      unfold worldAt
      rw [if_pos le_rfl]
      exact hrest (some world)

/-! ## The points -/

theorem decodeRows_worldsFrom (index : ℕ) (known : Option ℤ) (points : List TrailPoint) :
    decodeRows (worldsFrom index known points) known index (points.map pointRow) =
      withWorlds known points := by
  induction points generalizing index known with
  | nil => rfl
  | cons point points ih =>
    rw [List.map_cons, decodeRows, worldAt_worldsFrom]
    simp only [decodeRow_pointRow, Option.toList_some, List.singleton_append, ih]
    rfl

theorem lastWorld_cons (point : TrailPoint) (points : List TrailPoint) (known : Option ℤ) :
    (lastWorld (point :: points)).or known = (lastWorld points).or (point.world.or known) := by
  unfold lastWorld
  cases hworld : point.world with
  | none => rw [List.filterMap_cons_none hworld, Option.none_or]
  | some world =>
    rw [List.filterMap_cons_some hworld, List.getLast?_cons]
    cases (points.filterMap TrailPoint.world).getLast? <;> rfl

theorem withWorlds_eq_mapIdx (known : Option ℤ) (points : List TrailPoint) :
    withWorlds known points = points.mapIdx fun index point ↦
      sitePoint point ((lastWorld (points.take (index + 1))).or known) := by
  induction points generalizing known with
  | nil => rfl
  | cons point points ih =>
    rw [withWorlds, List.mapIdx_cons, ih]
    congr 1
    · simp only [List.take_succ_cons, List.take_zero, lastWorld_cons]
      rfl
    · congr 1
      funext index other
      rw [List.take_succ_cons, lastWorld_cons]

theorem trailIdleSecs_le_step (weighed : Weighed) : trailIdleSecs ≤ weighed.built.step := by
  have hfold (longest : ℤ) (spans : List ℤ) : longest ≤ spans.foldl max longest := by
    induction spans generalizing longest with
    | nil => exact le_rfl
    | cons span spans ih => exact (le_max_left longest span).trans (ih _)
  unfold Weighed.built
  dsimp only
  split
  · exact le_rfl
  · exact hfold _ _

/-- What the site reads of a trail is the trail: every point with the world last known there, and
the step of every trail that the server builds. -/
theorem decodeTrail_trailJson (member : String) (asOfMs : ℤ) :
    (∀ trail : BuiltTrail, (decodeTrail (.answer (trailJson member trail asOfMs))).1 =
      trail.points.mapIdx fun index point ↦
        { x := point.x, y := point.y + 1, plane := point.plane, t0 := point.first, t1 := point.last
          boat := point.boat, world := lastWorld (trail.points.take (index + 1)), via := point.via }) ∧
    ∀ weighed : Weighed, (decodeTrail (.answer (trailJson member weighed.built asOfMs))).2 =
      weighed.built.step := by
  constructor
  · intro trail
    have hworlds : (trailJson member trail asOfMs).worlds = worldsFrom 0 none trail.points :=
      foldl_listWorld trail.points [] 0
    change decodeRows (trailJson member trail asOfMs).worlds none 0 (trail.points.map pointRow) = _
    rw [hworlds, decodeRows_worldsFrom, withWorlds_eq_mapIdx]
    simp only [Option.or_none]
    rfl
  · intro weighed
    have hpos : weighed.built.step ≠ 0 := by
      have hle := trailIdleSecs_le_step weighed
      unfold trailIdleSecs at hle
      omega
    exact if_neg hpos

end OsrsMap.Site
