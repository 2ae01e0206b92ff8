import OsrsMap.Trails.TrailJson

/-!
# The site's model of a trail

`site/src/canvas-map/trail-model.js`: a trail is decoded, every step of it is classified, and the
trail is split into the runs that are drawn as one line and the jumps between them. A step with a
label of the hub's is what the label says; one without is judged by distance and time.
-/

namespace OsrsMap.Site

open Trails

/-- A point of a trail, in the site's coordinates. -/
structure SitePoint where
  x : ℤ
  y : ℤ
  plane : ℤ
  t0 : ℤ
  t1 : ℤ
  boat : Bool
  world : Option ℤ
  via : Option HubVia
deriving DecidableEq, Repr, Inhabited

/-! ## Decoding -/

/-- `IDLE_S`. -/
def idleS : ℤ := 60

/-- What a trail may come as: the server's answer, or the bare list an older server sends. -/
inductive RawTrail where
  | bare (rows : List (List ℤ))
  | answer (json : TrailJson)

def RawTrail.rows : RawTrail → List (List ℤ)
  | bare rows => rows
  | answer json => json.points

def RawTrail.worlds : RawTrail → List (ℕ × ℤ)
  | bare _ => []
  | answer json => json.worlds

/-- `raw?.step || IDLE_S`. -/
def RawTrail.step : RawTrail → ℤ
  | bare _ => idleS
  | answer json => if json.step = 0 then idleS else json.step

/-- `VIA[via] ?? VIA_NOT_KNOWN`, where the code is not 0. -/
def viaOf (code : ℤ) : Option HubVia :=
  if code = 0 then none
  else if code = 1 then some .move
  else if code = 2 then some .entrance
  else if code = 3 then some .house
  else if code = 4 then some .teleport
  else if code = 5 then some .gap
  else if code = 6 then some .instanced
  else some .other

/-- The worlds still to come after the ones listed up to `index`, and the world there. -/
def worldAt (index : ℕ) : List (ℕ × ℤ) → Option ℤ → List (ℕ × ℤ) × Option ℤ
  | [], world => ([], world)
  | (listed, next) :: worlds, world =>
    if listed ≤ index then worldAt index worlds (some next) else ((listed, next) :: worlds, world)

/-- A row as a point; a row without a place and a time is skipped. -/
def decodeRow (world : Option ℤ) : List ℤ → Option SitePoint
  | x :: y :: plane :: time :: rest =>
    some
      { x, y := y + 1, plane
        t0 := time - rest.getD 0 0
        t1 := time
        boat := rest.getD 1 0 % 2 ≠ 0
        world
        via := viaOf (rest.getD 2 0) }
  | _ => none

def decodeRows (worlds : List (ℕ × ℤ)) (world : Option ℤ) (index : ℕ) :
    List (List ℤ) → List SitePoint
  | [] => []
  | row :: rows =>
    let (worlds, world) := worldAt index worlds world
    (decodeRow world row).toList ++ decodeRows worlds world (index + 1) rows

def decodeTrail (raw : RawTrail) : List SitePoint × ℤ :=
  (decodeRows raw.worlds none 0 raw.rows, raw.step)

/-! ## Classifying -/

/-- `RUN_TILES_PER_S`: two tiles a game tick. -/
def runTilesPerS : ℚ := 2 / (6 / 10)

/-- `BOAT_TILES_PER_S`. -/
def boatTilesPerS : ℚ := 2 * runTilesPerS

/-- `UNCERTAINTY_S`. -/
def uncertaintyS : ℤ := 20

/-- `SLACK_TILES`. -/
def slackTiles : ℤ := 8

/-- `SURE_FRACTION`: up to this share of the distance a run could cover, it was a run for sure. -/
def sureFraction : ℚ := 75 / 100

/-- `GAP_S`. -/
def gapSeconds : ℤ := 300

/-- `UNDERGROUND_OFFSET`. -/
def undergroundOffset : ℤ := 6400

/-- What happened between two consecutive points. -/
inductive Kind where
  | walk
  | stairs
  | sail
  | entrance
  | house
  | instanced
  | teleport
  | unknown
deriving DecidableEq, Repr

/-- `CONNECTED`. -/
def Kind.connected : Kind → Bool
  | walk | stairs | sail => true
  | _ => false

/-- The part of the map a tile is in. -/
def siteBand (x y : ℤ) : Band :=
  let storedY := y - 1
  if 6400 ≤ x then .instanced
  else if storedY < 4224 then .surface
  else if 8448 ≤ storedY ∧ storedY < 10624 then .underground
  else .other

def distance (a b : SitePoint) (shiftY : ℤ) : ℤ := max |a.x - b.x| |a.y - (b.y + shiftY)|

def moveKind (a b : SitePoint) : Kind :=
  if a.boat && b.boat then .sail else if a.plane ≠ b.plane then .stairs else .walk

/-- How fast the player may have been between two points. -/
def speedBetween (a b : SitePoint) : ℚ := if a.boat && b.boat then boatTilesPerS else runTilesPerS

def elapsedBetween (a b : SitePoint) : ℤ := max (b.t0 - a.t1) 1

/-- How far it was a run for sure. -/
def sureTiles (a b : SitePoint) : ℚ :=
  sureFraction * speedBetween a b * elapsedBetween a b + slackTiles

/-- A step without a label is judged by distance and time. -/
def guessStep (a b : SitePoint) (gapS : ℤ) : Kind :=
  let bandA := siteBand a.x a.y
  let bandB := siteBand b.x b.y
  if bandA ≠ bandB then
    if (bandA ≠ .instanced ∧ bandB ≠ .instanced ∧ (bandA = .underground ∨ bandB = .underground)) ∧
        (bandA = .surface ∨ bandB = .surface) ∧
        distance a b (if bandB = .underground then -undergroundOffset else undergroundOffset) ≤
          sureTiles a b then .entrance
    else .teleport
  else
    let far := distance a b 0
    if speedBetween a b * (elapsedBetween a b + uncertaintyS) + slackTiles < far then .teleport
    else if gapS < elapsedBetween a b ∨ sureTiles a b < far then .unknown
    else moveKind a b

def classifyStep (a b : SitePoint) (gapS : ℤ) : Kind :=
  match b.via with
  | some .move => moveKind a b
  | some .entrance => .entrance
  | some .house => .house
  | some .instanced => .instanced
  | some .teleport => .teleport
  | some .gap | some .other => .unknown
  | none => guessStep a b gapS

/-! ## Runs and jumps -/

structure Run where
  i0 : ℕ
  i1 : ℕ
  sail : Bool
deriving DecidableEq, Repr

structure Jump where
  fromIndex : ℕ
  kind : Kind
deriving DecidableEq, Repr

structure TrailModel where
  points : List SitePoint
  kinds : List Kind
  runs : List Run
  jumps : List Jump
  gapS : ℤ
  tMin : Option ℤ
  tMax : Option ℤ
deriving DecidableEq, Repr

def kindsOf (points : List SitePoint) (gapS : ℤ) : List Kind :=
  (points.zip points.tail).map fun (a, b) ↦ classifyStep a b gapS

def sails (kinds : List Kind) (index : ℕ) : Bool := kinds[index]? = some .sail

/-- Splits the chain from `start` to `stop` wherever sailing starts or stops. -/
def splitChain (kinds : List Kind) (start stop : ℕ) : List Run :=
  ((List.range' (start + 1) (stop - start)).foldl
    (fun (state : ℕ × List Run) j ↦
      if j = stop ∨ sails kinds j ≠ sails kinds state.1 then
        (j, state.2 ++ [{ i0 := state.1, i1 := j, sail := sails kinds state.1 }])
      else state)
    (start, [])).2

/-- The loop of `buildTrailModel`: where the current run starts, the runs and the jumps. -/
structure Split where
  start : ℕ
  runs : List Run
  jumps : List Jump

def splitAt (count : ℕ) (kinds : List Kind) (split : Split) (i : ℕ) : Split :=
  let kind := kinds[i]?
  if i + 1 = count ∨ !(kind.any Kind.connected) then
    { start := i + 1
      runs := split.runs ++
        (if i = split.start ∨ kinds[split.start]? = none then
          [{ i0 := split.start, i1 := i, sail := false }]
        else splitChain kinds split.start i)
      jumps := split.jumps ++
        (if i + 1 < count then (kind.map fun kind ↦ { fromIndex := i, kind }).toList else []) }
  else split

/-- Classifies every step of a trail. -/
def buildTrailModel (points : List SitePoint) (step : ℤ) : TrailModel :=
  let gapS := max gapSeconds step
  let kinds := kindsOf points gapS
  let split := (List.range points.length).foldl (splitAt points.length kinds) ⟨0, [], []⟩
  { points, kinds, runs := split.runs, jumps := split.jumps, gapS
    tMin := points.head?.map (·.t0)
    tMax := points.getLast?.map (·.t1) }

/-! ## A trail of the server's on the site -/

/-- A stay as the site shows it; the world is the last one listed up to it. -/
def sitePoint (stay : TrailPoint) (world : Option ℤ) : SitePoint where
  x := stay.x
  y := stay.y + 1
  plane := stay.plane
  t0 := stay.first
  t1 := stay.last
  boat := stay.boat
  world
  via := stay.via

/-- What a step was never depends on the worlds. -/
theorem classifyStep_world (a b : TrailPoint) (worldA worldB : Option ℤ) (gapS : ℤ) :
    classifyStep (sitePoint a worldA) (sitePoint b worldB) gapS =
      classifyStep (sitePoint a none) (sitePoint b none) gapS := rfl

/-- Zeros left out at the end of a row are read as zeros. -/
theorem getD_rdropWhile_zero (row : List ℤ) (i : ℕ) :
    (row.rdropWhile (· = 0)).getD i 0 = row.getD i 0 := by
  induction row using List.reverseRecOn with
  | nil => rfl
  | append_singleton row last ih =>
    by_cases hzero : last = 0
    · rw [List.rdropWhile_concat_pos _ _ _ (by simpa using hzero), ih, hzero]
      simp only [List.getD_eq_getElem?_getD, List.getElem?_append]
      split
      · rfl
      · next hi =>
        rw [List.getElem?_eq_none (Nat.not_lt.mp hi)]
        cases i - row.length <;> rfl
    · rw [List.rdropWhile_concat_neg _ _ _ (by simpa using hzero)]

theorem viaOf_viaCode (via : Option HubVia) : viaOf (viaCode via) = via := by
  cases via with
  | none => rfl
  | some via => cases via <;> rfl

theorem decodeRow_pointRow (stay : TrailPoint) (world : Option ℤ) :
    decodeRow world (pointRow stay) = some (sitePoint stay world) := by
  unfold pointRow
  simp only [List.cons_append, List.nil_append, decodeRow, getD_rdropWhile_zero]
  cases hboat : stay.boat <;> simp [sitePoint, hboat, viaOf_viaCode, flagBoat]

/-- The site's points are the server's, one for one. -/
theorem decodeRows_pointRow (worlds : List (ℕ × ℤ)) (world : Option ℤ) (index : ℕ)
    (stays : List TrailPoint) :
    (decodeRows worlds world index (stays.map pointRow)).Forall₂
      (fun point stay ↦ ∃ world, point = sitePoint stay world) stays := by
  induction stays generalizing worlds world index with
  | nil => exact .nil
  | cons stay stays ih =>
    simp only [List.map_cons, decodeRows, decodeRow_pointRow, Option.toList_some,
      List.singleton_append]
    exact .cons ⟨_, rfl⟩ (ih _ _ _)

/-- The kind of a step between two stays. -/
def kindBetween (gapS : ℤ) (a b : TrailPoint) : Kind :=
  classifyStep (sitePoint a none) (sitePoint b none) gapS

theorem kindsOf_decoded {points : List SitePoint} {stays : List TrailPoint} (gapS : ℤ)
    (h : points.Forall₂ (fun point stay ↦ ∃ world, point = sitePoint stay world) stays) :
    kindsOf points gapS = (stays.zip stays.tail).map fun (a, b) ↦ kindBetween gapS a b := by
  induction h with
  | nil => rfl
  | @cons point stay points stays hpoint htail ih =>
    cases htail with
    | nil => rfl
    | cons hnext htail =>
      obtain ⟨worldA, rfl⟩ := hpoint
      obtain ⟨worldB, rfl⟩ := hnext
      simp only [kindsOf, List.tail_cons, List.zip_cons_cons, List.map_cons] at ih ⊢
      rw [classifyStep_world, ih]
      rfl

/-! ## The jumps of a trail -/

/-- What the loop of `buildTrailModel` lists as a jump at an index. -/
def jumpAt (kinds : List Kind) (index : ℕ) : List Jump :=
  ((kinds[index]?).filter (!·.connected)).toList.map fun kind ↦ { fromIndex := index, kind }

theorem jumps_splitAt {count : ℕ} {kinds : List Kind} (hkinds : kinds.length + 1 = count)
    (split : Split) (index : ℕ) :
    (splitAt count kinds split index).jumps = split.jumps ++ jumpAt kinds index := by
  unfold splitAt jumpAt
  by_cases hindex : index < kinds.length
  · rw [List.getElem?_eq_getElem hindex]
    cases hkind : kinds[index].connected
    · simp [hkind, Option.filter, show index + 1 < count by omega]
    · simp [hkind, show ¬ index + 1 = count by omega]
  · rw [List.getElem?_eq_none (by omega)]
    simp [show ¬ index + 1 < count by omega]

/-- The jumps of a trail are listed by the steps that are not connected, in their order. -/
theorem jumps_foldl_splitAt {count : ℕ} {kinds : List Kind} (hkinds : kinds.length + 1 = count)
    (indices : List ℕ) (split : Split) :
    (indices.foldl (splitAt count kinds) split).jumps =
      split.jumps ++ indices.flatMap (jumpAt kinds) := by
  induction indices generalizing split with
  | nil => simp
  | cons index indices ih =>
    rw [List.foldl_cons, ih, jumps_splitAt hkinds, List.flatMap_cons, List.append_assoc]

theorem jumps_buildTrailModel (points : List SitePoint) (step : ℤ) :
    (buildTrailModel points step).jumps = (List.range points.length).flatMap
      (jumpAt (kindsOf points (max gapSeconds step))) := by
  cases hpoints : points with
  | nil => rfl
  | cons point rest =>
    have hkinds : (kindsOf points (max gapSeconds step)).length + 1 = points.length := by
      simp [kindsOf, hpoints]
    rw [← hpoints]
    exact jumps_foldl_splitAt hkinds _ _

/-- The trail as the site draws it. -/
def siteModel (member : String) (trail : BuiltTrail) (asOfMs : ℤ) : TrailModel :=
  let decoded := decodeTrail (.answer (trailJson member trail asOfMs))
  buildTrailModel decoded.1 decoded.2

/-- The jumps the site finds in a trail of the server's: the stays they lead from and to, and what
each of them was. -/
def jumpsOf (member : String) (trail : BuiltTrail) (asOfMs : ℤ) :
    List (TrailPoint × TrailPoint × Kind) :=
  (siteModel member trail asOfMs).jumps.map fun jump ↦
    (pointAt trail.points jump.fromIndex, pointAt trail.points (jump.fromIndex + 1), jump.kind)

/-- How far apart in time two stays may be on the site before it is a gap. -/
def gapSOf (trail : BuiltTrail) : ℤ :=
  max gapSeconds (if trail.step = 0 then idleS else trail.step)

theorem kinds_siteModel (member : String) (trail : BuiltTrail) (asOfMs : ℤ) :
    (siteModel member trail asOfMs).kinds = (trail.points.zip trail.points.tail).map
      fun (a, b) ↦ kindBetween (gapSOf trail) a b :=
  kindsOf_decoded _ (decodeRows_pointRow _ none 0 trail.points)

theorem jumps_siteModel (member : String) (trail : BuiltTrail) (asOfMs : ℤ) :
    (siteModel member trail asOfMs).jumps = (List.range trail.points.length).flatMap
      (jumpAt (siteModel member trail asOfMs).kinds) := by
  have hlength := (decodeRows_pointRow (trailJson member trail asOfMs).worlds none 0
    trail.points).length_eq
  rw [← hlength]
  exact jumps_buildTrailModel _ _

/-- A step as a jump, if it is one. -/
def jumpBetween (gapS : ℤ) (step : TrailPoint × TrailPoint) :
    List (TrailPoint × TrailPoint × Kind) :=
  if (kindBetween gapS step.1 step.2).connected then []
  else [(step.1, step.2, kindBetween gapS step.1 step.2)]

theorem flatMap_range_getElem? {α β : Type*} (f : ℕ → List β) (g : α → List β) {list : List α}
    {count : ℕ} (hcount : list.length ≤ count)
    (hf : ∀ index, f index = (list[index]?).elim [] g) :
    (List.range count).flatMap f = list.flatMap g := by
  induction list generalizing f count with
  | nil => simp [List.flatMap_eq_nil_iff, hf]
  | cons head tail ih =>
    obtain ⟨count, rfl⟩ : ∃ rest, count = rest + 1 := ⟨count - 1, by simp at hcount; omega⟩
    rw [List.range_succ_eq_map, List.flatMap_cons, List.flatMap_map, List.flatMap_cons, hf 0]
    exact congrArg _ (ih _ (by simpa using hcount) fun index ↦ by simp [hf])

/-- The jumps the site finds are the steps of the trail that it does not call walked. -/
theorem jumpsOf_eq (member : String) (trail : BuiltTrail) (asOfMs : ℤ) :
    jumpsOf member trail asOfMs = (trail.points.zip trail.points.tail).flatMap
      (jumpBetween (gapSOf trail)) := by
  rw [jumpsOf, jumps_siteModel, kinds_siteModel, List.map_flatMap]
  refine flatMap_range_getElem? _ _ (by simp) fun index ↦ ?_
  unfold jumpAt
  rw [List.getElem?_map]
  cases hstep : (trail.points.zip trail.points.tail)[index]? with
  | none => rfl
  | some step =>
    obtain ⟨ha, hb⟩ := List.getElem?_zip_eq_some.mp hstep
    have hpointA : pointAt trail.points index = step.1 := by
      simp [pointAt, List.getD_eq_getElem?_getD, ha]
    have hpointB : pointAt trail.points (index + 1) = step.2 := by
      rw [List.getElem?_tail] at hb
      simp [pointAt, List.getD_eq_getElem?_getD, hb]
    cases hkind : (kindBetween (gapSOf trail) step.1 step.2).connected <;>
      simp [jumpBetween, Option.filter, hkind, hpointA, hpointB]

end OsrsMap.Site
