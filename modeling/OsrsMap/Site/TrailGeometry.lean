import OsrsMap.Site.NextChange
import Mathlib.Analysis.SpecialFunctions.Trigonometric.Basic
import Mathlib.Data.Fin.VecNotation

/-!
# What a trail is drawn with

`site/src/canvas-map/trail-geometry.js`: for a level of detail every run of a trail is a line through
some of its points, and every jump has its two ends and maybe an arc between them. The ghost of a
player is where the line of their run, or their jump, is at a time.

Numbers are exact. The lengths of lines and the sine of a wave are what `Math.hypot` and `Math.sin`
give, whatever numbers these are.
-/

namespace OsrsMap.Site

/-! ## Numbers -/

/-- What `Math.hypot` gives, and `Math.sin` of so many turns. -/
structure Arithmetic (K : Type*) [Field K] [LinearOrder K] where
  hypot : K → K → K
  sine : K → K
  hypot_nonneg : ∀ x y, 0 ≤ hypot x y
  hypot_zero : hypot 0 0 = 0

/-- The real numbers. -/
noncomputable def Arithmetic.real : Arithmetic ℝ where
  hypot x y := √(x * x + y * y)
  sine turns := Real.sin (turns * Real.pi * 2)
  hypot_nonneg _ _ := Real.sqrt_nonneg _
  hypot_zero := by simp

/-- `PIXELS_PER_GAME_TILE`. -/
def pixelsPerTile : ℚ := 4

/-- `MAP_TILE_SIZE`. -/
def mapTileSize : ℚ := 256

/-- `HANDLE_CLAMP`. -/
def handleClamp : ℚ := 4 / 10

/-- `HANDLE_MAX`. -/
def handleMax : ℚ := 15 / 10 * pixelsPerTile

/-- `LOD_TOLERANCE_TILES`. -/
def lodToleranceTiles : Fin 3 → ℚ := ![0, 15 / 10, 4]

/-- `LOD_PIXELS_PER_VERTEX`, none for infinity. -/
def lodPixelsPerVertex : Fin 3 → Option ℚ := ![some 10, some 24, none]

/-- `LOD_MAX_SUBDIVISIONS`. -/
def lodMaxSubdivisions : Fin 3 → ℕ := ![12, 6, 1]

/-- `WAVE_AMPLITUDE`. -/
def waveAmplitude : ℚ := 8 / 10 * pixelsPerTile

/-- `WAVE_LENGTH`. -/
def waveLength : ℚ := 6 * pixelsPerTile

/-- `WAVE_PIXELS_PER_VERTEX`. -/
def wavePixelsPerVertex : ℚ := 4

/-- `ARC_POINTS`. -/
def arcPoints : ℕ := 24

/-- The model of a trail that is drawn. -/
structure DrawnModel extends LayerModel where
  runs : List Run

def DrawnModel.build (classify : Classify) (points : List LivePoint) (step : ℤ) : DrawnModel :=
  let layer := LayerModel.build classify points step
  { layer with
    runs := ((List.range points.length).foldl (splitAt points.length layer.kinds) ⟨0, [], []⟩).runs }

/-! ## The points of a run that are drawn -/

/-- The loop of `controlPoints`. -/
def keepPoint (points : List LivePoint) (tolerance : ℚ) (i0 : ℕ) (kept : List ℕ) (i : ℕ) : List ℕ :=
  let last := points[kept.getLastD i0]!
  let point := points[i]!
  let apart := max |point.x - last.x| |point.y - last.y|
  if tolerance ≤ apart ∨ point.plane ≠ last.plane then kept ++ [i] else kept

/-- The indices of the points to draw at a level of detail; always both ends. -/
def controlPoints (points : List LivePoint) (i0 i1 : ℕ) (lod : Fin 3) : List ℕ :=
  let kept := (List.range' (i0 + 1) (i1 - (i0 + 1))).foldl
    (keepPoint points (lodToleranceTiles lod) i0) [i0]
  if i0 < i1 then kept ++ [i1] else kept

section Lines

variable {K : Type*} [Field K] [LinearOrder K]

/-- The middle of a game tile, in map pixels. -/
def tileCenter (x y : ℤ) : K × K :=
  let left := (x : K) * (pixelsPerTile : ℚ)
  let top := -(y : K) * (pixelsPerTile : ℚ) + (mapTileSize : ℚ)
  (left + (pixelsPerTile : ℚ) / 2, top + (pixelsPerTile : ℚ) / 2)

def centerOf (point : LivePoint) : K × K := tileCenter point.x point.y

/-- A vertex of a line: where, when, on which floor and at which point. -/
structure Vertex (K : Type*) where
  x : K
  y : K
  t : ℚ
  plane : ℤ
  src : ℕ

def Vertex.place (vertex : Vertex K) : K × K := (vertex.x, vertex.y)

namespace Arithmetic

variable (arithmetic : Arithmetic K)

def distance (a b : K × K) : K := arithmetic.hypot (b.1 - a.1) (b.2 - a.2)

/-- `handle` of `bezierHandles`. -/
def handle (limit : K) (start stop : K × K) : K × K :=
  let x := (stop.1 - start.1) / 6
  let y := (stop.2 - start.2) / 6
  let length := arithmetic.hypot x y
  if limit < length ∧ 0 < length then (x * (limit / length), y * (limit / length)) else (x, y)

/-- The two inner control points of the curve from `p1` to `p2`. -/
def bezierHandles (p0 p1 p2 p3 : K × K) : (K × K) × (K × K) :=
  let limit := min (arithmetic.distance p1 p2 * (handleClamp : ℚ)) (handleMax : ℚ)
  let a := arithmetic.handle limit p0 p2
  let b := arithmetic.handle limit p1 p3
  ((p1.1 + a.1, p1.2 + a.2), (p2.1 - b.1, p2.2 - b.2))

/-! ## The line of a run -/

/-- A point of the cubic curve with four control points. -/
def curvePoint (p1 c1 c2 p2 : K) (u : K) : K :=
  let v := 1 - u
  v * v * v * p1 + 3 * v * v * u * c1 + 3 * v * u * u * c2 + u * u * u * p2

/-- The vertices of a point: one, or two when the player stayed. -/
def stayVertices (points : List LivePoint) (index : ℕ) : List (Vertex K) :=
  let point := points[index]!
  let center : K × K := centerOf point
  let arrived : Vertex K :=
    { x := center.1, y := center.2, t := point.t0, plane := point.plane, src := index }
  if point.t0 < point.t1 then [arrived, { arrived with t := point.t1 }] else [arrived]

variable [FloorSemiring K]

/-- Into how many pieces a curve is cut, none for infinity in the bounds. -/
def piecesOf (pixelsPerVertex : Option ℚ) (maxSubdivisions : Option ℕ) (chord : K) : ℕ :=
  let pieces := pixelsPerVertex.elim 0 fun pixels ↦ ⌈chord / (pixels : K)⌉₊
  max 1 (maxSubdivisions.elim pieces fun limit ↦ min pieces limit)

/-- The vertices between a point and the next one, with the points around them. -/
def curveVertices (points : List LivePoint) (lod : Fin 3) (wavy : Bool) (before : Option ℕ)
    (index next : ℕ) (after : Option ℕ) : List (Vertex K) :=
  let point := points[index]!
  let landing := points[next]!
  let p1 : K × K := centerOf point
  let p2 : K × K := centerOf landing
  let p0 := before.elim p1 fun before ↦ centerOf points[before]!
  let p3 := after.elim p2 fun after ↦ centerOf points[after]!
  let handles := arithmetic.bezierHandles p0 p1 p2 p3
  let pieces := piecesOf (if wavy then some wavePixelsPerVertex else lodPixelsPerVertex lod)
    (if wavy then none else some (lodMaxSubdivisions lod)) (arithmetic.distance p1 p2)
  (List.range' 1 (pieces - 1)).map fun s : ℕ ↦
    let u : ℚ := s / pieces
    { x := curvePoint p1.1 handles.1.1 handles.2.1 p2.1 (u : K)
      y := curvePoint p1.2 handles.1.2 handles.2.2 p2.2 (u : K)
      t := point.t1 + (landing.t0 - point.t1) * u
      plane := point.plane
      src := if u < 1 / 2 then index else next }

/-- The vertices of a line through control points, with the control point before them. -/
def lineVertices (points : List LivePoint) (lod : Fin 3) (wavy : Bool) (before : Option ℕ) :
    List ℕ → List (Vertex K)
  | [] => []
  | [index] => stayVertices points index
  | index :: next :: rest =>
    stayVertices points index ++
      (arithmetic.curveVertices points lod wavy before index next rest.head? ++
        lineVertices points lod wavy (some index) (next :: rest))

/-- How far along a line each of its vertices is. -/
def alongLine (line : List (Vertex K)) : List K :=
  ((line.zip line.tail).map fun (a, b) ↦ arithmetic.distance a.place b.place).scanl (· + ·) 0

/-- `x || 1`. -/
def orOne (x : K) : K := if x = 0 then 1 else x

/-- What `makeWaves` makes of a vertex. -/
def wave (line : List (Vertex K)) (i : ℕ) (vertex : Vertex K) : Vertex K :=
  let along := arithmetic.alongLine line
  let total := along.getLastD 0
  let before := (line.getD (i - 1) vertex).place
  let after := (line.getD (min (i + 1) (line.length - 1)) vertex).place
  let dx := after.1 - before.1
  let dy := after.2 - before.2
  let length := orOne (arithmetic.hypot dx dy)
  let reached := along.getD i 0
  let waves : K := (waveLength : ℚ)
  let fade := min (min 1 (reached / waves)) ((total - reached) / waves)
  let offset := (waveAmplitude : ℚ) * fade * arithmetic.sine (reached / waves)
  { vertex with x := vertex.x + -dy / length * offset, y := vertex.y + dx / length * offset }

/-- Pushes the vertices sideways into waves that die out towards both ends. -/
def makeWaves (line : List (Vertex K)) : List (Vertex K) := line.mapIdx (arithmetic.wave line)

end Arithmetic

/-- The line for the points `i0..i1` of a trail. -/
structure DrawnRun (K : Type*) where
  i0 : ℕ
  i1 : ℕ
  sail : Bool
  vertices : List (Vertex K)

/-- A jump from where the player left (`a`, at time `tA`) to where they turned up (`b`, at `tB`). -/
structure DrawnJump (K : Type*) where
  kind : Kind
  fromIndex : ℕ
  a : K × K
  b : K × K
  planeA : ℤ
  planeB : ℤ
  tA : ℚ
  tB : ℚ
  crossBand : Bool
  arc : Option (List (K × K))

/-- Everything to draw a trail at one level of detail. -/
structure Geometry (K : Type*) where
  lod : Fin 3
  runs : List (DrawnRun K)
  jumps : List (DrawnJump K)

namespace Arithmetic

variable (arithmetic : Arithmetic K)

/-- Whether a run is drawn as waves. -/
def isWavy (sail : Bool) (lod : Fin 3) : Bool := sail && decide (lod < 2)

def smoothRun [FloorSemiring K] (points : List LivePoint) (i0 i1 : ℕ) (lod : Fin 3) (sail : Bool) :
    DrawnRun K :=
  let wavy := isWavy sail lod
  let line := arithmetic.lineVertices points lod wavy none (controlPoints points i0 i1 lod)
  { i0, i1, sail, vertices := if wavy then arithmetic.makeWaves line else line }

/-! ## Jumps -/

/-- The points of an arc from `a` to `b` that bulges to the left of the direction of travel. -/
def arcPath (a b : K × K) (pieces : ℕ) : List (K × K) :=
  let dx := b.1 - a.1
  let dy := b.2 - a.2
  let length := orOne (arithmetic.hypot dx dy)
  let height := min (max (length * (18 / 100 : ℚ)) (16 : ℚ)) (600 : ℚ)
  let c : K × K := ((a.1 + b.1) / 2 + dy / length * height, (a.2 + b.2) / 2 - dx / length * height)
  (List.range (pieces + 1)).map fun s : ℕ ↦
    let u : K := (s : K) / pieces
    let v := 1 - u
    (v * v * a.1 + 2 * v * u * c.1 + u * u * b.1, v * v * a.2 + 2 * v * u * c.2 + u * u * b.2)

def drawJump (points : List LivePoint) (jump : Jump) : DrawnJump K :=
  let left := points[jump.fromIndex]!
  let landed := points[jump.fromIndex + 1]!
  let a : K × K := centerOf left
  let b : K × K := centerOf landed
  let crossBand := siteBand left.x left.y ≠ siteBand landed.x landed.y
  { kind := jump.kind, fromIndex := jump.fromIndex, a, b, planeA := left.plane
    planeB := landed.plane, tA := left.t1, tB := landed.t0, crossBand
    arc := if jump.kind = .teleport ∧ ¬ crossBand then some (arithmetic.arcPath a b arcPoints) else none }

def buildGeometry [FloorSemiring K] (model : DrawnModel) (lod : Fin 3) : Geometry K where
  lod
  runs := model.runs.map fun run ↦ arithmetic.smoothRun model.points run.i0 run.i1 lod run.sail
  jumps := model.jumps.map (arithmetic.drawJump model.points)

end Arithmetic

/-! ## The ghost -/

/-- A vertex and how far on to the next. -/
structure LinePlace where
  i : ℕ
  frac : ℚ
deriving DecidableEq, Repr

/-- Where a player is drawn, in map pixels. -/
structure Ghost (K : Type*) where
  x : K
  y : K
  plane : ℤ

namespace DrawnRun

/-- The place on a run's line at a time: nowhere before the run starts, its last vertex once it is
over. -/
def vertexAtTime (run : DrawnRun K) (t : ℚ) : Option LinePlace :=
  if run.vertices.head?.all (t < ·.t) then none
  else
    let low := bisectLast (holdsAt (fun vertex : Vertex K ↦ decide (vertex.t ≤ t)) run.vertices) 0
      (run.vertices.length - 1)
    match run.vertices[low]?, run.vertices[low + 1]? with
    | some vertex, some next =>
      let span := next.t - vertex.t
      some { i := low, frac := if 0 < span then (t - vertex.t) / span else 0 }
    | _, _ => some { i := low, frac := 0 }

/-- The position of a place on a run. -/
def pointOnRun (run : DrawnRun K) (place : LinePlace) : Option (K × K) :=
  run.vertices[place.i]?.map fun vertex ↦
    match run.vertices[place.i + 1]? with
    | some next =>
      if place.frac = 0 then (vertex.x, vertex.y)
      else (vertex.x + (next.x - vertex.x) * (place.frac : K),
        vertex.y + (next.y - vertex.y) * (place.frac : K))
    | none => (vertex.x, vertex.y)

/-- Where a run has a player at a time. -/
def ghostAt (run : DrawnRun K) (t : ℚ) : Option (Ghost K) :=
  (run.vertexAtTime t).bind fun place ↦
    (run.vertices[place.i]?).bind fun vertex ↦
      (run.pointOnRun place).map fun (x, y) ↦ { x, y, plane := vertex.plane }

end DrawnRun

/-- The position on an arc a fraction of the way along. -/
def pointOnArc [FloorSemiring K] (arc : List (K × K)) (fraction : K) : K × K :=
  let pieces := arc.length - 1
  let along := min (max fraction 0) 1 * pieces
  let i := min ⌊along⌋₊ (pieces - 1)
  let frac := along - i
  let a := arc.getD i (0, 0)
  let b := arc.getD (i + 1) (0, 0)
  (a.1 + (b.1 - a.1) * frac, a.2 + (b.2 - a.2) * frac)

/-- The loop of `placeAtTime` over the jumps. -/
def DrawnJump.placeOn [FloorSemiring K] (time : ℚ) (place : Option (Ghost K)) (jump : DrawnJump K) :
    Option (Ghost K) :=
  if time < jump.tA ∨ jump.tB ≤ time then place
  else
    match jump.arc with
    | none => some { x := jump.a.1, y := jump.a.2, plane := jump.planeA }
    | some arc =>
      let (x, y) := pointOnArc arc (((time - jump.tA) / (jump.tB - jump.tA) : ℚ) : K)
      some { x, y, plane := jump.planeA }

/-- Where on the map the player is drawn at a time: on the line of a run, and during a jump on its arc
or where they left. -/
def Geometry.placeAtTime [FloorSemiring K] (geometry : Geometry K) (time : ℚ) : Option (Ghost K) :=
  let place := geometry.runs.foldl (fun place run ↦ (run.ghostAt time).or place) none
  geometry.jumps.foldl (DrawnJump.placeOn time) place

end Lines

end OsrsMap.Site
