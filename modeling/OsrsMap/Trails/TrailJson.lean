import OsrsMap.Trails.Thinning
import Mathlib.Data.List.DropRight

/-!
# A trail as it is sent

`trail_json` (`server/src/hub/trails.rs`): a point is a row of numbers, with trailing zeros left
out, and worlds are listed wherever they change.
-/

namespace OsrsMap.Trails

/-- `FLAG_BOAT`. -/
def flagBoat : ℤ := 1

/-- The label of a point as the site gets it. -/
def viaCode : Option HubVia → ℤ
  | none => 0
  | some .move => 1
  | some .entrance => 2
  | some .house => 3
  | some .teleport => 4
  | some .gap => 5
  | some .instanced => 6
  | some .other => 7

structure TrailJson where
  member : String
  shared : Bool
  step : ℤ
  truncated : Bool
  asOf : ℚ
  points : List (List ℤ)
  worlds : List (ℕ × ℤ)
deriving DecidableEq, Repr

/-- `[x, y, plane, unix seconds, dwell, flags, via]`. -/
def pointRow (point : TrailPoint) : List ℤ :=
  [point.x, point.y, point.plane, point.last] ++
    [point.last - point.first, if point.boat then flagBoat else 0, viaCode point.via].rdropWhile
      (· = 0)

/-- `[point index, world]` wherever the world changes. -/
def listWorld (worlds : List (ℕ × ℤ)) (indexed : TrailPoint × ℕ) : List (ℕ × ℤ) :=
  match indexed.1.world with
  | some world =>
    if worlds.getLast?.map Prod.snd ≠ some world then worlds ++ [(indexed.2, world)] else worlds
  | none => worlds

def trailJson (member : String) (trail : BuiltTrail) (asOfMs : ℤ) : TrailJson where
  member := member
  shared := true
  step := trail.step
  truncated := trail.truncated
  asOf := asOfMs / 1000
  points := trail.points.map pointRow
  worlds := trail.points.zipIdx.foldl listWorld []

end OsrsMap.Trails
