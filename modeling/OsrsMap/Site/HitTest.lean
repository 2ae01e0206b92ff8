import OsrsMap.Site.Chunks

/-!
# The point under the pointer

`hitTest` (`site/src/canvas-map/trail-geometry.js`): the point of a trail nearest to a place, when its
line passes within a radius. Runs and chunks whose box is further off than the radius are skipped;
what is in them would not have counted.
-/

namespace OsrsMap.Site

variable {K : Type*} [LinearOrder K]

/-- A point of the trail and how far off it is. -/
structure Hit (K : Type*) where
  src : ℕ
  distance : K
deriving DecidableEq, Repr

/-- `consider`: of equally near points the later one wins. -/
def consider (radius : K) (best : Option (Hit K)) (hit : Hit K) : Option (Hit K) :=
  if hit.distance ≤ radius ∧ best.all (hit.distance ≤ ·.distance) then some hit else best

/-- What is further off than the radius does not count. -/
theorem foldl_consider_of_far {radius : K} {best : Option (Hit K)} {hits : List (Hit K)}
    (h : ∀ hit ∈ hits, radius < hit.distance) : hits.foldl (consider radius) best = best := by
  induction hits with
  | nil => rfl
  | cons hit hits ih =>
    have hfar : ¬ (hit.distance ≤ radius ∧ best.all (hit.distance ≤ ·.distance)) :=
      fun hnear ↦ not_le.mpr (h hit List.mem_cons_self) hnear.1
    rw [List.foldl_cons, consider, if_neg hfar]
    exact ih fun other hother ↦ h other (List.mem_cons_of_mem _ hother)

variable [Field K]

/-- `outside`. -/
def Box.outside (box : Box K) (x y radius : K) : Bool :=
  x < box.left - radius ∨ y < box.top - radius ∨ box.right + radius < x ∨ box.bottom + radius < y

/-- A box with infinite sides around nothing has every place outside. -/
def isOutside (box : Option (Box K)) (x y radius : K) : Bool := box.all (·.outside x y radius)

/-- How far along a segment the place nearest to `x`, `y` is. -/
def nearestOn (x y : K) (a b : Vertex K) : K :=
  let dx := b.x - a.x
  let dy := b.y - a.y
  let lengthSquared := dx * dx + dy * dy
  if lengthSquared ≠ 0 then min 1 (max 0 (((x - a.x) * dx + (y - a.y) * dy) / lengthSquared)) else 0

namespace Arithmetic

variable (arithmetic : Arithmetic K)

/-- How far off a vertex is. -/
def hitVertex (x y : K) (vertex : Vertex K) : Hit K where
  src := vertex.src
  distance := arithmetic.hypot (x - vertex.x) (y - vertex.y)

/-- How far off the segment between two vertices is. -/
def hitSegment (x y : K) (a b : Vertex K) : Hit K :=
  let u := nearestOn x y a b
  { src := if u < (1 / 2 : ℚ) then a.src else b.src
    distance := arithmetic.hypot (x - (a.x + (b.x - a.x) * u)) (y - (a.y + (b.y - a.y) * u)) }

/-- What the segment that begins at a vertex has. -/
def hitAt (run : DrawnRun K) (x y : K) (i : ℕ) : Option (Hit K) :=
  run.vertices[i]?.bind fun a ↦ run.vertices[i + 1]?.map fun b ↦ arithmetic.hitSegment x y a b

/-- The loop over segments. -/
def considerSegments (run : DrawnRun K) (x y radius : K) (best : Option (Hit K)) (segments : List ℕ) :
    Option (Hit K) :=
  (segments.filterMap (arithmetic.hitAt run x y)).foldl (consider radius) best

def hitChunk (run : DrawnRun K) (x y radius : K) (best : Option (Hit K)) (chunk : Chunk K) :
    Option (Hit K) :=
  if isOutside chunk.bbox x y radius then best
  else
    arithmetic.considerSegments run x y radius best (List.range' chunk.i0 (chunk.i1 - chunk.i0))

def hitRun (x y radius : K) (best : Option (Hit K)) (run : DrawnRun K) : Option (Hit K) :=
  if isOutside run.bbox x y radius then best
  else if run.count = 1 then
    (run.vertices.map (arithmetic.hitVertex x y)).foldl (consider radius) best
  else run.chunks.foldl (arithmetic.hitChunk run x y radius) best

/-- The point of a trail nearest to a place, when its line passes within the radius. -/
def hitTest (geometry : Geometry K) (x y radius : K) : Option (Hit K) :=
  geometry.runs.foldl (arithmetic.hitRun x y radius) none

/-! ## Without boxes -/

/-- Looks at every segment of a run, at its only vertex when there is one. -/
def hitWholeRun (x y radius : K) (best : Option (Hit K)) (run : DrawnRun K) : Option (Hit K) :=
  if run.count = 1 then
    (run.vertices.map (arithmetic.hitVertex x y)).foldl (consider radius) best
  else arithmetic.considerSegments run x y radius best (List.range (run.count - 1))

/-- Looks at every segment of every run. -/
def hitTestAll (geometry : Geometry K) (x y radius : K) : Option (Hit K) :=
  geometry.runs.foldl (arithmetic.hitWholeRun x y radius) none

/-- No side of a triangle with a right angle is longer than the one across. -/
def Spans : Prop := ∀ x y, |x| ≤ arithmetic.hypot x y ∧ |y| ≤ arithmetic.hypot x y

end Arithmetic

/-! ## What is skipped does not count -/

section Skipping

variable [IsStrictOrderedRing K] {arithmetic : Arithmetic K} {box : Box K} {x y radius : K}
  {a b vertex : Vertex K} {run : DrawnRun K} {best : Option (Hit K)}

/-- A place in a box that another place is outside of is further from it than the radius. -/
theorem radius_lt_of_outside (hspans : arithmetic.Spans) (hbox : box.outside x y radius) {px py : K}
    (hleft : box.left ≤ px) (hright : px ≤ box.right) (htop : box.top ≤ py)
    (hbottom : py ≤ box.bottom) : radius < arithmetic.hypot (x - px) (y - py) := by
  obtain ⟨hwide, hhigh⟩ := hspans (x - px) (y - py)
  have hapart : radius < |x - px| ∨ radius < |y - py| := by
    simp only [Box.outside, decide_eq_true_eq] at hbox
    obtain h | h | h | h := hbox
    · exact .inl (lt_abs.mpr (.inr (by linarith)))
    · exact .inr (lt_abs.mpr (.inr (by linarith)))
    · exact .inl (lt_abs.mpr (.inl (by linarith)))
    · exact .inr (lt_abs.mpr (.inl (by linarith)))
  obtain h | h := hapart
  · exact h.trans_le hwide
  · exact h.trans_le hhigh

theorem nearestOn_mem (x y : K) (a b : Vertex K) : 0 ≤ nearestOn x y a b ∧ nearestOn x y a b ≤ 1 := by
  unfold nearestOn
  dsimp only
  split
  · exact ⟨le_min zero_le_one (le_max_left _ _), min_le_left _ _⟩
  · exact ⟨le_rfl, zero_le_one⟩

/-- Between two numbers of an interval there is nothing outside it. -/
theorem between_mem {low high p q u : K} (hp : low ≤ p ∧ p ≤ high) (hq : low ≤ q ∧ q ≤ high)
    (hu : 0 ≤ u ∧ u ≤ 1) : low ≤ p + (q - p) * u ∧ p + (q - p) * u ≤ high := by
  have hmix : p + (q - p) * u = p * (1 - u) + q * u := by ring
  have hrest : 0 ≤ 1 - u := sub_nonneg.mpr hu.2
  rw [hmix]
  constructor
  · calc
      low = low * (1 - u) + low * u := by ring
      _ ≤ p * (1 - u) + q * u :=
        add_le_add (mul_le_mul_of_nonneg_right hp.1 hrest) (mul_le_mul_of_nonneg_right hq.1 hu.1)
  · calc
      p * (1 - u) + q * u ≤ high * (1 - u) + high * u :=
        add_le_add (mul_le_mul_of_nonneg_right hp.2 hrest) (mul_le_mul_of_nonneg_right hq.2 hu.1)
      _ = high := by ring

theorem hitVertex_far (hspans : arithmetic.Spans) (hbox : box.outside x y radius)
    (ha : box.Contains a) : radius < (arithmetic.hitVertex x y a).distance :=
  radius_lt_of_outside hspans hbox ha.left ha.right ha.top ha.bottom

theorem hitSegment_far (hspans : arithmetic.Spans) (hbox : box.outside x y radius)
    (ha : box.Contains a) (hb : box.Contains b) :
    radius < (arithmetic.hitSegment x y a b).distance := by
  have hu := nearestOn_mem x y a b
  obtain ⟨hleft, hright⟩ := between_mem ⟨ha.left, ha.right⟩ ⟨hb.left, hb.right⟩ hu
  obtain ⟨htop, hbottom⟩ := between_mem ⟨ha.top, ha.bottom⟩ ⟨hb.top, hb.bottom⟩ hu
  exact radius_lt_of_outside hspans hbox hleft hright htop hbottom

/-- Segments between vertices that a box was made of do not count for a place outside the box. -/
theorem considerSegments_of_outside (hspans : arithmetic.Spans) {vertices : List (Vertex K)}
    (hbox : isOutside (boundsOf vertices) x y radius) {segments : List ℕ}
    (hsegments : ∀ i ∈ segments, ∀ a ∈ run.vertices[i]?, ∀ b ∈ run.vertices[i + 1]?,
      a ∈ vertices ∧ b ∈ vertices) :
    arithmetic.considerSegments run x y radius best segments = best := by
  refine foldl_consider_of_far fun hit hhit ↦ ?_
  obtain ⟨i, hi, hsome⟩ := List.mem_filterMap.mp hhit
  obtain ⟨a, ha, hrest⟩ := Option.bind_eq_some_iff.mp hsome
  obtain ⟨b, hb, rfl⟩ := Option.map_eq_some_iff.mp hrest
  obtain ⟨hamem, hbmem⟩ := hsegments i hi a ha b hb
  cases hbounds : boundsOf vertices with
  | none => exact absurd hamem (boundsOf_eq_none.mp hbounds ▸ List.not_mem_nil)
  | some box =>
    rw [hbounds] at hbox
    exact hitSegment_far hspans hbox (contains_of_boundsOf hbounds hamem)
      (contains_of_boundsOf hbounds hbmem)

/-- A chunk that is skipped has no segment that counts. -/
theorem hitChunk_eq (hspans : arithmetic.Spans) (start : ℕ) :
    arithmetic.hitChunk run x y radius best (run.chunkAt start) =
      arithmetic.considerSegments run x y radius best
        (Pieces.numbers chunkVertices (run.count - 1) start) := by
  unfold Arithmetic.hitChunk
  split
  · next hbox =>
    refine (considerSegments_of_outside hspans hbox fun i hi a ha b hb ↦ ?_).symm
    obtain ⟨hstart, hchunk, hstop⟩ := Pieces.mem_numbers.mp hi
    obtain ⟨hiLength, rfl⟩ := List.getElem?_eq_some_iff.mp ha
    obtain ⟨hnextLength, rfl⟩ := List.getElem?_eq_some_iff.mp hb
    constructor
    · exact Log.mem_window.mpr ⟨i, hiLength, hstart, by omega, rfl⟩
    · exact Log.mem_window.mpr ⟨i + 1, hnextLength, by omega, by omega, rfl⟩
  · rw [DrawnRun.range'_chunkAt]

omit [IsStrictOrderedRing K] in
theorem considerSegments_append (first second : List ℕ) :
    arithmetic.considerSegments run x y radius best (first ++ second) =
      arithmetic.considerSegments run x y radius
        (arithmetic.considerSegments run x y radius best first) second := by
  unfold Arithmetic.considerSegments
  rw [List.filterMap_append, List.foldl_append]

/-- The chunks of a run together have its segments. -/
theorem foldl_hitChunk (hspans : arithmetic.Spans) (run : DrawnRun K) (best : Option (Hit K)) :
    run.chunks.foldl (arithmetic.hitChunk run x y radius) best =
      arithmetic.considerSegments run x y radius best (List.range (run.count - 1)) := by
  have hall : (Pieces.starts chunkVertices (run.count - 1)).flatMap
      (Pieces.numbers chunkVertices (run.count - 1)) = List.range (run.count - 1) :=
    Pieces.flatMap_numbers (by decide) (le_max_left _ _)
  rw [← hall, DrawnRun.chunks, List.foldl_map]
  induction Pieces.starts chunkVertices (run.count - 1) generalizing best with
  | nil => rfl
  | cons start starts ih =>
    rw [List.foldl_cons, List.flatMap_cons, considerSegments_append, hitChunk_eq hspans, ih]

theorem hitRun_eq (hspans : arithmetic.Spans) (best : Option (Hit K)) (run : DrawnRun K) :
    arithmetic.hitRun x y radius best run = arithmetic.hitWholeRun x y radius best run := by
  unfold Arithmetic.hitRun Arithmetic.hitWholeRun
  rw [foldl_hitChunk hspans]
  split
  · next hbox =>
    split
    · refine (foldl_consider_of_far fun hit hhit ↦ ?_).symm
      obtain ⟨vertex, hvertex, rfl⟩ := List.mem_map.mp hhit
      cases hbounds : run.bbox with
      | none => exact absurd hvertex (boundsOf_eq_none.mp hbounds ▸ List.not_mem_nil)
      | some box =>
        rw [hbounds] at hbox
        exact hitVertex_far hspans hbox (contains_of_boundsOf hbounds hvertex)
    · refine (considerSegments_of_outside hspans hbox fun i _ a ha b hb ↦ ?_).symm
      exact ⟨List.mem_of_getElem? ha, List.mem_of_getElem? hb⟩
  · rfl

theorem hitTest_eq (hspans : arithmetic.Spans) (geometry : Geometry K) (x y radius : K) :
    arithmetic.hitTest geometry x y radius = arithmetic.hitTestAll geometry x y radius := by
  unfold Arithmetic.hitTest Arithmetic.hitTestAll
  congr 1
  funext best run
  exact hitRun_eq hspans best run

end Skipping

theorem spans_real : Arithmetic.real.Spans := by
  intro x y
  constructor
  · exact Real.abs_le_sqrt (by nlinarith [mul_self_nonneg y])
  · exact Real.abs_le_sqrt (by nlinarith [mul_self_nonneg x])

/-- For every trail that is drawn, every place and every radius the boxes change nothing. -/
theorem hitTest_eq_hitTestAll (model : DrawnModel) (lod : Fin 3) (x y radius : ℝ) :
    Arithmetic.real.hitTest (Arithmetic.real.buildGeometry model lod) x y radius =
      Arithmetic.real.hitTestAll (Arithmetic.real.buildGeometry model lod) x y radius :=
  hitTest_eq spans_real _ x y radius

end OsrsMap.Site
