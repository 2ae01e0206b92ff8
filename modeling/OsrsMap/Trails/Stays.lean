import Mathlib.Data.Rat.Defs
import Mathlib.Algebra.Order.Ring.Rat

/-!
# Stays

The hub's location samples and the stays the server makes of them (`server/src/hub/trails.rs`):
consecutive samples on one tile are one stay, and a stay is a jump when something other than
walking led to it. The hub's times are milliseconds, the times of a stay unix seconds.
-/

namespace OsrsMap.Trails

/-- `HubVia`: how the hub says the player got to a point from the one before. -/
inductive HubVia where
  | move
  | entrance
  | house
  | instanced
  | teleport
  | gap
  | other
deriving DecidableEq, Repr

/-- `HubLocationPoint`. -/
structure HubLocationPoint where
  atMs : ℤ
  x : ℤ
  y : ℤ
  plane : ℤ
  isOnBoat : Option Bool
  world : Option ℤ
  via : Option HubVia
deriving DecidableEq, Repr

/-- A stay on one tile, from the hub's `first` sample there to the `last`. -/
structure TrailPoint where
  x : ℤ
  y : ℤ
  plane : ℤ
  first : ℤ
  last : ℤ
  boat : Bool
  world : Option ℤ
  via : Option HubVia
  jump : Bool
deriving DecidableEq, Repr, Inhabited

/-- The parts of the map with their own coordinate range. -/
inductive Band where
  | surface
  | underground
  | instanced
  | other
deriving DecidableEq, Repr

def band (x y : ℤ) : Band :=
  if 6400 ≤ x then .instanced
  else if y < 4224 then .surface
  else if 8448 ≤ y ∧ y < 10624 then .underground
  else .other

/-- `TRAIL_GAP_SECS`: samples further apart than this are a gap in the data. -/
def trailGapSecs : ℤ := 300

/-- `RUN_TILES_PER_SEC`: two tiles per 0.6 s game tick. -/
def runTilesPerSec : ℚ := 2 / (6 / 10)

/-- How far two points are apart, in tiles of the longer axis. -/
def tilesApart (a b : TrailPoint) : ℤ := max |a.x - b.x| |a.y - b.y|

/-- Whether something other than walking on happened between two points. -/
def isBreak (a b : TrailPoint) : Bool :=
  if a.boat ≠ b.boat ∨ (a.world.isSome ∧ b.world.isSome ∧ a.world ≠ b.world) then true
  else
    match b.via with
    | some .move => false
    | some _ => true
    | none =>
      let elapsed := max (b.first - a.last) 1
      band a.x a.y ≠ band b.x b.y ∨ trailGapSecs < elapsed ∨
        75 / 100 * runTilesPerSec * elapsed < tilesApart a b

/-- `DateTime::timestamp`: the whole seconds. -/
def timestamp (atMs : ℤ) : ℤ := atMs / 1000

/-- The stay a sample begins, after the stay `last` if there is one. -/
def HubLocationPoint.begin (point : HubLocationPoint) (last : Option TrailPoint) : TrailPoint :=
  let next : TrailPoint :=
    { x := point.x
      y := point.y
      plane := point.plane
      first := timestamp point.atMs
      last := timestamp point.atMs
      boat := point.isOnBoat.getD false
      world := point.world
      via := point.via
      jump := false }
  { next with jump := last.any fun last ↦ isBreak last next }

/-- Whether a sample goes on with the stay before it. -/
def HubLocationPoint.goesOn (point : HubLocationPoint) (stay : TrailPoint) : Bool :=
  (point.via = none ∨ point.via = some .move) ∧
    (stay.x, stay.y, stay.plane) = (point.x, point.y, point.plane) ∧
    stay.boat = point.isOnBoat.getD false ∧ stay.world = point.world ∧
    timestamp point.atMs - stay.last ≤ trailGapSecs

/-- One sample of `extend_stays`. -/
def extendStay (stays : List TrailPoint) (point : HubLocationPoint) : List TrailPoint :=
  match stays.getLast? with
  | some stay =>
    if point.goesOn stay then stays.dropLast ++ [{ stay with last := timestamp point.atMs }]
    else stays ++ [point.begin (some stay)]
  | none => [point.begin none]

def extendStays (stays : List TrailPoint) (points : List HubLocationPoint) : List TrailPoint :=
  points.foldl extendStay stays

/-! ## What more samples do to the stays -/

theorem extendStays_append (stays : List TrailPoint) (first second : List HubLocationPoint) :
    extendStays stays (first ++ second) = extendStays (extendStays stays first) second :=
  List.foldl_append

theorem extendStay_ne_nil (stays : List TrailPoint) (point : HubLocationPoint) :
    extendStay stays point ≠ [] := by
  unfold extendStay
  split
  · split <;> simp
  · simp

/-- Stays before the last one are left alone. -/
theorem extendStay_frame (front : List TrailPoint) {stays : List TrailPoint} (h : stays ≠ [])
    (point : HubLocationPoint) :
    extendStay (front ++ stays) point = front ++ extendStay stays point := by
  unfold extendStay
  rw [List.getLast?_append, List.dropLast_append_of_ne_nil h]
  cases hlast : stays.getLast? with
  | none => exact absurd (List.getLast?_eq_none_iff.mp hlast) h
  | some stay =>
    rw [Option.some_or]
    dsimp only
    split <;> simp

theorem extendStays_frame (front : List TrailPoint) {stays : List TrailPoint} (h : stays ≠ [])
    (points : List HubLocationPoint) :
    extendStays (front ++ stays) points = front ++ extendStays stays points := by
  induction points generalizing stays with
  | nil => rfl
  | cons point points ih =>
    simp only [extendStays, List.foldl_cons, extendStay_frame front h]
    exact ih (extendStay_ne_nil stays point)

/-- One sample changes when the last stay ended, or begins a new one. -/
theorem extendStay_singleton (stay : TrailPoint) (point : HubLocationPoint) :
    (∃ last, extendStay [stay] point = [{ stay with last }]) ∨
      ∃ next, extendStay [stay] point = [stay, next] := by
  unfold extendStay
  simp only [List.getLast?_singleton]
  split
  · exact .inl ⟨_, rfl⟩
  · exact .inr ⟨_, rfl⟩

/-- Of a stay that more samples follow, only its end may change. -/
theorem extendStays_singleton (stay : TrailPoint) (points : List HubLocationPoint) :
    ∃ last rest, extendStays [stay] points = { stay with last } :: rest := by
  induction points generalizing stay with
  | nil => exact ⟨stay.last, [], rfl⟩
  | cons point points ih =>
    simp only [extendStays, List.foldl_cons]
    obtain ⟨last, hsame⟩ | ⟨next, hnext⟩ := extendStay_singleton stay point
    · rw [hsame]
      exact ih { stay with last }
    · rw [hnext]
      exact ⟨stay.last, _, extendStays_frame [stay] (List.cons_ne_nil next []) points⟩

end OsrsMap.Trails
