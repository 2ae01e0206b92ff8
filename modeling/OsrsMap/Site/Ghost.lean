import OsrsMap.Site.Partition
import OsrsMap.Site.Vertices

/-!
# The ghost of a player

`placeAtTime` (`site/src/canvas-map/trail-geometry.js`) finds a player on the lines and jumps that are
drawn, `positionAt` (`trail-model.js`) on the points of the trail. They agree on where the player is
while nothing is between the points: standing on a point that is drawn, or waiting for a jump to land.
-/

namespace OsrsMap.Site

open Arithmetic

section Lines

variable {K : Type*}

/-! ## The search for a vertex -/

/-- The last vertex of a line that is not later than a time. -/
def IsLastBy (vertices : List (Vertex K)) (t : ℚ) (i : ℕ) : Prop :=
  ∃ vertex, vertices[i]? = some vertex ∧ vertex.t ≤ t ∧
    ∀ j later, i < j → vertices[j]? = some later → t < later.t

variable {run : DrawnRun K} {t : ℚ} {place : LinePlace}

/-- Whether the vertex at an index is no later than a time. -/
abbrev doneBy (vertices : List (Vertex K)) (t : ℚ) : ℕ → Bool :=
  holdsAt (fun vertex : Vertex K ↦ decide (vertex.t ≤ t)) vertices

theorem doneBy_iff {vertices : List (Vertex K)} {i : ℕ} :
    doneBy vertices t i = true ↔ ∃ vertex, vertices[i]? = some vertex ∧ vertex.t ≤ t := by
  simp [doneBy, holdsAt, Option.any_eq_true]

/-- A run that has started has a last vertex that is not later than the time, and the search finds
it. -/
theorem isLastBy_bisectLast {vertices : List (Vertex K)} {first : Vertex K}
    (hsorted : (vertices.map Vertex.t).Pairwise (· ≤ ·)) (hfirst : first ∈ vertices.head?)
    (hstarted : first.t ≤ t) :
    IsLastBy vertices t (bisectLast (doneBy vertices t) 0 (vertices.length - 1)) := by
  have hmono : ∀ i j, i ≤ j → doneBy vertices t j = true → doneBy vertices t i = true := by
    intro i j hij
    refine holdsAt_of_le ((List.pairwise_map.mp hsorted).imp fun {a b} hab hb ↦ ?_) hij
    exact decide_eq_true (hab.trans (of_decide_eq_true hb))
  have hzero : doneBy vertices t 0 = true := by
    obtain ⟨rest, rfl⟩ := List.head?_eq_some_iff.mp hfirst
    exact doneBy_iff.mpr ⟨first, rfl, hstarted⟩
  obtain ⟨hholds, -, hbehind⟩ := bisectLast_spec hmono hzero (Nat.zero_le (vertices.length - 1))
  obtain ⟨vertex, hvertex, hdone⟩ := doneBy_iff.mp hholds
  refine ⟨vertex, hvertex, hdone, fun j later hj hlater ↦ ?_⟩
  obtain ⟨hlength, -⟩ := List.getElem?_eq_some_iff.mp hlater
  have hnot := hbehind j hj (by omega)
  exact not_le.mp fun hle ↦ Bool.false_ne_true (hnot.symm.trans (doneBy_iff.mpr ⟨later, hlater, hle⟩))

/-- What the search for a vertex gives: none before the run starts, else the last vertex that is not
later than the time, with how far on to the next the player is. -/
theorem vertexAtTime_cases (hsorted : (run.vertices.map Vertex.t).Pairwise (· ≤ ·)) (t : ℚ) :
    (run.vertexAtTime t = none ∧ ∀ vertex ∈ run.vertices, t < vertex.t) ∨
      ∃ place, run.vertexAtTime t = some place ∧ IsLastBy run.vertices t place.i ∧
        ∀ vertex ∈ run.vertices[place.i]?, vertex.t = t → place.frac = 0 := by
  unfold DrawnRun.vertexAtTime
  by_cases hbefore : run.vertices.head?.all (t < ·.t) = true
  · rw [if_pos hbefore]
    refine .inl ⟨rfl, fun vertex hvertex ↦ ?_⟩
    cases hfirst : run.vertices.head? with
    | none =>
      rw [List.head?_eq_none_iff] at hfirst
      rw [hfirst] at hvertex
      exact absurd hvertex List.not_mem_nil
    | some first =>
      rw [hfirst, Option.all_some, decide_eq_true_iff] at hbefore
      exact hbefore.trans_le (head_le (List.pairwise_map.mp hsorted) hfirst hvertex)
  · rw [if_neg hbefore]
    obtain ⟨first, hfirst, hstarted⟩ : ∃ first ∈ run.vertices.head?, first.t ≤ t := by
      simpa [Option.all_eq_true] using hbefore
    have hlast := isLastBy_bisectLast hsorted hfirst hstarted
    right
    generalize bisectLast _ 0 (run.vertices.length - 1) = low at hlast
    dsimp only
    split
    · next vertex next hvertex hnext =>
      refine ⟨_, rfl, hlast, fun other hother htime ↦ ?_⟩
      obtain rfl := Option.some.inj (hvertex.symm.trans hother)
      dsimp only
      rw [htime, sub_self, zero_div, ite_self]
    · exact ⟨_, rfl, hlast, fun _ _ _ ↦ rfl⟩

theorem vertexAtTime_eq_none (hsorted : (run.vertices.map Vertex.t).Pairwise (· ≤ ·)) :
    run.vertexAtTime t = none ↔ ∀ vertex ∈ run.vertices, t < vertex.t := by
  obtain ⟨hnone, hall⟩ | ⟨place, hplace, ⟨vertex, hvertex, hdone, -⟩, -⟩ := vertexAtTime_cases hsorted t
  · exact ⟨fun _ ↦ hall, fun _ ↦ hnone⟩
  · rw [hplace]
    refine ⟨fun hnone ↦ absurd hnone (Option.some_ne_none place), fun hall ↦ ?_⟩
    exact absurd (hall vertex (List.mem_of_getElem? hvertex)) (not_lt.mpr hdone)

/-! ## The ghost on a run -/

variable [Field K]

/-- The ghost is on a run once it has started. -/
theorem ghostAt_eq_none (hsorted : (run.vertices.map Vertex.t).Pairwise (· ≤ ·)) :
    run.ghostAt t = none ↔ ∀ vertex ∈ run.vertices, t < vertex.t := by
  rw [← vertexAtTime_eq_none hsorted]
  unfold DrawnRun.ghostAt
  obtain ⟨hnone, -⟩ | ⟨place, hplace, ⟨vertex, hvertex, -, -⟩, -⟩ := vertexAtTime_cases hsorted t
  · rw [hnone, Option.bind_none]
    exact iff_of_true rfl rfl
  · unfold DrawnRun.pointOnRun
    rw [hplace, Option.bind_some, hvertex, Option.bind_some, Option.map_some, Option.map_some]
    exact ⟨fun h ↦ absurd h (Option.some_ne_none _), fun h ↦ absurd h (Option.some_ne_none _)⟩

variable {points : List LivePoint} {index : ℕ}

/-- A player who stands on a point. -/
def ghostOn (point : LivePoint) : Ghost K where
  x := (centerOf point : K × K).1
  y := (centerOf point : K × K).2
  plane := point.plane

/-- At the last point of a trail nothing is past. -/
theorem lt_length_of_past {time : ℚ} (h : Past points index time) : index + 1 < points.length := by
  by_contra hlast
  exact absurd (h time fun hlt ↦ absurd hlt hlast) (lt_irrefl time)

/-- A player who has not left a vertex, or is on the way to one at the same place, is at its place. -/
theorem pointOnRun_of_still {vertex : Vertex K} (hvertex : run.vertices[place.i]? = some vertex)
    (h : ∀ next ∈ run.vertices[place.i + 1]?, place.frac = 0 ∨ next.place = vertex.place) :
    run.pointOnRun place = some vertex.place := by
  unfold DrawnRun.pointOnRun
  rw [hvertex, Option.map_some]
  cases hnext : run.vertices[place.i + 1]? with
  | none => rfl
  | some next =>
    dsimp only
    split
    · rfl
    · next hmoving =>
      have hsame : next.place = vertex.place := (h next hnext).resolve_left hmoving
      have hx : next.x = vertex.x := congrArg Prod.fst hsame
      have hy : next.y = vertex.y := congrArg Prod.snd hsame
      rw [hx, hy, sub_self, sub_self, zero_mul, add_zero, add_zero]
      rfl

/-- What comes next after a vertex of a stay is at the same place, or the vertex is the last of the stay
and the trail goes on. -/
theorem next_of_stay {back : List (Vertex K)} {vertex next : Vertex K} {j : ℕ}
    (hstay : points[index]!.t0 ≤ points[index]!.t1)
    (hback : ∀ vertex ∈ back, Past points index vertex.t)
    (hvertex : (stayVertices points index : List (Vertex K))[j]? = some vertex)
    (hnext : (stayVertices points index ++ back)[j + 1]? = some next) :
    next.place = vertex.place ∨ vertex.t = points[index]!.t1 ∧ index + 1 < points.length := by
  obtain ⟨hcenter, -⟩ := mem_stayVertices hstay (List.mem_of_getElem? hvertex)
  obtain ⟨hlength, -⟩ := List.getElem?_eq_some_iff.mp hvertex
  by_cases hwithin : j + 1 < (stayVertices points index : List (Vertex K)).length
  · rw [List.getElem?_append_left hwithin] at hnext
    obtain ⟨hnextCenter, -⟩ := mem_stayVertices hstay (List.mem_of_getElem? hnext)
    exact .inl (hnextCenter.trans hcenter.symm)
  · rw [List.getElem?_append_right (not_lt.mp hwithin)] at hnext
    obtain ⟨-, -, -, left, hlast, hleftTime⟩ := @stayVertices_ends points index K _ hstay
    have hleft : vertex = left := by
      rw [Option.mem_def, List.getLast?_eq_getElem?] at hlast
      rw [show j = (stayVertices points index : List (Vertex K)).length - 1 by omega, hlast] at hvertex
      exact (Option.some.inj hvertex).symm
    rw [hleft]
    exact .inr ⟨hleftTime, lt_length_of_past (hback next (List.mem_of_getElem? hnext))⟩

/-- A run that goes through the stay at a point has a player who stands there on it. -/
theorem ghostAt_of_stay {front back : List (Vertex K)}
    (hsorted : (run.vertices.map Vertex.t).Pairwise (· ≤ ·))
    (hvertices : run.vertices = front ++ (stayVertices points index ++ back))
    (hback : ∀ vertex ∈ back, Past points index vertex.t)
    (hstay : points[index]!.t0 ≤ points[index]!.t1) (harrived : points[index]!.t0 ≤ t)
    (hstays : Stays points index t) : run.ghostAt t = some (ghostOn points[index]!) := by
  obtain ⟨arrived, hfirst, hfirstTime, -⟩ := @stayVertices_ends points index K _ hstay
  obtain ⟨stay, hstayVertices⟩ := List.head?_eq_some_iff.mp hfirst
  have hreached : arrived ∈ run.vertices := by
    rw [hvertices, hstayVertices]
    simp
  obtain ⟨-, hnone⟩ | ⟨place, hplace, ⟨vertex, hvertex, hdone, hbehind⟩, hfrac⟩ :=
    vertexAtTime_cases hsorted t
  · exact absurd (hnone arrived hreached) (not_lt.mpr (hfirstTime ▸ harrived))
  -- The vertex that is found is one of the stay.
  have hfront : front.length ≤ place.i := by
    by_contra hbefore
    have harrivedAt : run.vertices[front.length]? = some arrived := by
      rw [hvertices, List.getElem?_append_right le_rfl, Nat.sub_self, hstayVertices]
      rfl
    exact absurd (hbehind _ arrived (not_le.mp hbefore) harrivedAt) (not_lt.mpr (hfirstTime ▸ harrived))
  have hthere : (stayVertices points index ++ back)[place.i - front.length]? = some vertex := by
    rw [← hvertex, hvertices, List.getElem?_append_right hfront]
  have hwithin : place.i - front.length < (stayVertices points index : List (Vertex K)).length := by
    by_contra hbeyond
    rw [List.getElem?_append_right (not_lt.mp hbeyond)] at hthere
    exact absurd (hback vertex (List.mem_of_getElem? hthere) t hstays) (not_lt.mpr hdone)
  rw [List.getElem?_append_left hwithin] at hthere
  obtain ⟨hcenter, hplane, -, -⟩ := mem_stayVertices hstay (List.mem_of_getElem? hthere)
  -- And on the way to the next one the player does not move.
  have hpoint : run.pointOnRun place = some vertex.place := by
    apply pointOnRun_of_still hvertex
    intro next hnext
    have hnextThere : (stayVertices points index ++ back)[place.i - front.length + 1]? = some next := by
      rw [← Option.mem_def.mp hnext, hvertices,
        List.getElem?_append_right (Nat.le_succ_of_le hfront), Nat.succ_sub hfront]
    obtain hsame | ⟨hleft, hgoesOn⟩ := next_of_stay hstay hback hthere hnextThere
    · exact .inr hsame
    · have htime : vertex.t = t := le_antisymm hdone (hleft ▸ (hstays hgoesOn).1)
      exact .inl (hfrac vertex hvertex htime)
  unfold DrawnRun.ghostAt
  rw [hplace, Option.bind_some, hvertex, Option.bind_some, hpoint, hcenter, Option.map_some, hplane]
  rfl

end Lines

/-! ## The place on the points -/

variable {points : List LivePoint} {t : ℚ}

/-- What `positionAt` says of a time. -/
structure ReachedAt (model : LayerModel) (t : ℚ) (place : Place) : Prop where
  lt_length : place.index < model.points.length
  arrived : model.points[place.index]!.t0 ≤ t
  ahead : place.index + 1 < model.points.length → t < model.points[place.index + 1]!.t0
  leaves : place.moving = true → place.index + 1 < model.points.length ∧
    model.points[place.index]!.t1 < t ∧ place.kind = model.kinds[place.index]?
  stays : place.moving = false → Stays model.points place.index t

theorem positionAt_cases {model : LayerModel} (horder : InOrder model.points) (t : ℚ) :
    (model.positionAt t = none ∧ ∀ i < model.points.length, t < model.points[i]!.t0) ∨
      ∃ place, model.positionAt t = some place ∧ ReachedAt model t place := by
  obtain ⟨count, hindex, hreached⟩ := indexAt_spec horder t
  have hreachedAt (i : ℕ) (hi : i < model.points.length) : model.points[i]!.t0 ≤ t ↔ i < count := by
    rw [getElem!_of_lt hi, ← reached_iff hi, hreached i]
  unfold LayerModel.positionAt
  rw [hindex]
  cases count with
  | zero =>
    refine .inl ⟨rfl, fun i hi ↦ not_le.mp fun hle ↦ ?_⟩
    exact absurd ((hreachedAt i hi).mp hle) (Nat.not_lt_zero i)
  | succ index =>
    right
    have hlt : index < model.points.length := lt_length_of_reached ((hreached index).mpr (Nat.lt_succ_self _))
    have harrived := (hreachedAt index hlt).mpr (Nat.lt_succ_self _)
    have hahead (hnext : index + 1 < model.points.length) : t < model.points[index + 1]!.t0 :=
      not_le.mp fun hle ↦ absurd ((hreachedAt _ hnext).mp hle) (lt_irrefl _)
    simp only [Nat.ppred_succ, Option.bind_eq_bind, Option.bind_some, List.getElem?_eq_getElem hlt]
    by_cases hnext : index + 1 < model.points.length
    · rw [List.getElem?_eq_getElem hnext]
      dsimp only
      by_cases hstays : t ≤ model.points[index].t1
      · rw [if_pos hstays]
        refine ⟨_, rfl, hlt, harrived, hahead, fun hmoving ↦ absurd hmoving Bool.false_ne_true, fun _ _ ↦ ?_⟩
        exact ⟨(getElem!_of_lt hlt).symm ▸ hstays, hahead hnext⟩
      · rw [if_neg hstays]
        refine ⟨_, rfl, hlt, harrived, hahead, fun _ ↦ ⟨hnext, ?_, rfl⟩, fun hmoving ↦ ?_⟩
        · rw [getElem!_of_lt hlt]
          exact not_le.mp hstays
        · exact absurd hmoving.symm Bool.false_ne_true
    · rw [List.getElem?_eq_none (not_lt.mp hnext)]
      exact ⟨_, rfl, hlt, harrived, hahead, fun hmoving ↦ absurd hmoving Bool.false_ne_true,
        fun _ hlt ↦ absurd hlt hnext⟩

theorem reachedAt_of_mem {model : LayerModel} (horder : InOrder model.points) {place : Place}
    (h : place ∈ model.positionAt t) : ReachedAt model t place := by
  obtain ⟨hnone, -⟩ | ⟨found, hfound, hreached⟩ := positionAt_cases horder t
  · exact absurd (h.symm.trans hnone) (Option.some_ne_none place)
  · obtain rfl := Option.some.inj (h.symm.trans hfound)
    exact hreached

/-! ## The loops -/

section Loops

variable {K : Type*} [Field K] [LinearOrder K]

omit [LinearOrder K] in
/-- Of runs the last one that has the player wins. -/
theorem foldl_or_of_last {runs before after : List (DrawnRun K)} {run : DrawnRun K} {ghost : Ghost K}
    (hruns : runs = before ++ run :: after) (hrun : run.ghostAt t = some ghost)
    (hafter : ∀ other ∈ after, other.ghostAt t = none ∨ other.ghostAt t = some ghost)
    (place : Option (Ghost K)) :
    runs.foldl (fun place run ↦ (run.ghostAt t).or place) place = some ghost := by
  rw [hruns, List.foldl_append, List.foldl_cons, hrun, Option.some_or]
  generalize before.foldl _ place = start
  clear hruns
  induction after with
  | nil => rfl
  | cons other after ih =>
    have hrest := ih fun later hlater ↦ hafter later (List.mem_cons_of_mem _ hlater)
    rw [List.foldl_cons]
    obtain hnone | hsome := hafter other List.mem_cons_self
    · rw [hnone, Option.none_or]
      exact hrest
    · rw [hsome, Option.some_or]
      exact hrest

omit [LinearOrder K] in
theorem foldl_or_eq_none {runs : List (DrawnRun K)} {place : Option (Ghost K)} :
    runs.foldl (fun place run ↦ (run.ghostAt t).or place) place = none ↔
      place = none ∧ ∀ run ∈ runs, run.ghostAt t = none := by
  induction runs generalizing place with
  | nil => simp
  | cons run runs ih =>
    rw [List.foldl_cons, ih, Option.or_eq_none_iff, List.forall_mem_cons]
    tauto

variable [FloorSemiring K] {model : DrawnModel} {arithmetic : Arithmetic K} {place : Place} {jump : Jump}
  {ghost : Option (Ghost K)}

/-- Jumps lose no player. -/
theorem eq_none_of_foldl_placeOn {jumps : List (DrawnJump K)}
    (h : jumps.foldl (DrawnJump.placeOn t) ghost = none) : ghost = none := by
  induction jumps generalizing ghost with
  | nil => exact h
  | cons jump jumps ih =>
    have hnone : jump.placeOn t ghost = none := ih h
    unfold DrawnJump.placeOn at hnone
    split at hnone
    · exact hnone
    · split at hnone <;> exact absurd hnone (Option.some_ne_none _)

/-- The arc of a jump starts where the player left. -/
theorem pointOnArc_zero [IsStrictOrderedRing K] (a b : K × K) :
    pointOnArc (arithmetic.arcPath a b arcPoints) 0 = a := by
  have hstart : (arithmetic.arcPath a b arcPoints).getD 0 (0, 0) = a := by
    simp [arcPath, arcPoints, List.range_succ_eq_map]
  unfold pointOnArc
  dsimp only
  rw [max_self, min_eq_left zero_le_one, zero_mul, Nat.floor_zero, Nat.zero_min, hstart]
  simp

/-- A jump from another point does not have the player. -/
theorem placeOn_of_ne (horder : InOrder model.points) (hplace : ReachedAt model.toLayerModel t place)
    (hjump : jump.fromIndex + 1 < model.points.length) (hne : jump.fromIndex ≠ place.index) :
    (arithmetic.drawJump model.points jump).placeOn t ghost = ghost := by
  refine if_pos ?_
  dsimp only [drawJump]
  obtain hlt | hgt := Nat.lt_or_gt_of_ne hne
  · right
    have harrived := hplace.arrived
    rw [getElem!_of_lt hplace.lt_length] at harrived
    rw [getElem!_of_lt hjump]
    exact (horder.first_le hlt hplace.lt_length).trans harrived
  · left
    have hjump' : jump.fromIndex < model.points.length := Nat.lt_of_succ_lt hjump
    have hnext : place.index + 1 < model.points.length := Nat.lt_of_le_of_lt hgt hjump'
    have hahead := hplace.ahead hnext
    rw [getElem!_of_lt hnext] at hahead
    calc t < model.points[place.index + 1].t0 := hahead
      _ ≤ model.points[jump.fromIndex].t0 := horder.first_le hgt hjump'
      _ ≤ model.points[jump.fromIndex].t1 := horder.each _ (List.getElem_mem hjump')
      _ = model.points[jump.fromIndex]!.t1 := by rw [getElem!_of_lt hjump']

/-- A jump from the point the player is on has them where they left, as long as it has no arc or they
have not left. -/
theorem placeOn_of_eq [IsStrictOrderedRing K] (hplace : ReachedAt model.toLayerModel t place)
    (hjump : jump.fromIndex + 1 < model.points.length) (hindex : jump.fromIndex = place.index)
    (hleft : model.points[place.index]!.t1 ≤ t)
    (hthere : (arithmetic.drawJump model.points jump).arc = none ∨ t ≤ model.points[place.index]!.t1) :
    (arithmetic.drawJump model.points jump).placeOn t ghost =
      some (ghostOn model.points[place.index]!) := by
  have hahead := hplace.ahead (hindex ▸ hjump)
  rw [← hindex] at hahead hleft hthere ⊢
  have hduring : ¬ (t < (arithmetic.drawJump model.points jump).tA ∨
      (arithmetic.drawJump model.points jump).tB ≤ t) :=
    not_or.mpr ⟨not_lt.mpr hleft, not_le.mpr hahead⟩
  unfold DrawnJump.placeOn
  rw [if_neg hduring]
  cases harc : (arithmetic.drawJump model.points jump).arc with
  | none => rfl
  | some arc =>
    have harc' : arc = arithmetic.arcPath (arithmetic.drawJump model.points jump).a
        (arithmetic.drawJump model.points jump).b arcPoints := by
      simp only [drawJump, Option.ite_none_right_eq_some, Option.some.injEq] at harc
      exact harc.2.symm
    have hstart : t = (arithmetic.drawJump model.points jump).tA := by
      obtain hnone | hstays := hthere
      · exact absurd (harc.symm.trans hnone) (Option.some_ne_none arc)
      · exact le_antisymm hstays hleft
    dsimp only
    rw [harc', hstart, sub_self, zero_div, Rat.cast_zero, pointOnArc_zero]
    rfl

/-- While the player has not left a point no jump from it has them elsewhere. -/
theorem placeOn_of_stays [IsStrictOrderedRing K] (horder : InOrder model.points)
    (hplace : ReachedAt model.toLayerModel t place) (hstays : Stays model.points place.index t)
    (hjump : jump.fromIndex + 1 < model.points.length) :
    (arithmetic.drawJump model.points jump).placeOn t (some (ghostOn model.points[place.index]!)) =
      some (ghostOn model.points[place.index]!) := by
  by_cases hindex : jump.fromIndex = place.index
  · obtain ⟨hle, -⟩ := hstays (hindex ▸ hjump)
    obtain hlt | heq := hle.lt_or_eq
    · exact if_pos (.inl (by rwa [← hindex] at hlt))
    · exact placeOn_of_eq hplace hjump hindex heq.ge (.inr heq.le)
  · exact placeOn_of_ne horder hplace hjump hindex

end Loops

/-! ## The ghost and the model -/

section Agreement

variable {K : Type*} [Field K] [LinearOrder K] [FloorSemiring K]

/-- What is drawn at a time agrees with the model. -/
structure GhostAgrees (arithmetic : Arithmetic K) (model : DrawnModel) (lod : Fin 3) (t : ℚ) :
    Prop where
  times : ∀ run ∈ (arithmetic.buildGeometry model lod).runs, ∃ first last,
    model.points[run.i0]? = some first ∧ model.points[run.i1]? = some last ∧
      (run.vertices.map Vertex.t).Pairwise (· ≤ ·) ∧
      (run.vertices.map Vertex.t).head? = some first.t0 ∧
      (run.vertices.map Vertex.t).getLast? = some last.t1
  search : ∀ run ∈ (arithmetic.buildGeometry model lod).runs,
    (run.vertexAtTime t = none ↔ ∀ vertex ∈ run.vertices, t < vertex.t) ∧
      ∀ place ∈ run.vertexAtTime t, IsLastBy run.vertices t place.i
  nowhere : (arithmetic.buildGeometry model lod).placeAtTime t = none ↔ model.positionAt t = none
  onJump : ∀ place ∈ model.positionAt t, place.moving = true →
    ∀ kind ∈ place.kind, kind.connected = false →
      ∃ point, model.points[place.index]? = some point ∧
        ∃ jump ∈ (arithmetic.buildGeometry model lod).jumps, jump.fromIndex = place.index ∧
          (jump.arc = none → (arithmetic.buildGeometry model lod).placeAtTime t = some (ghostOn point))
  standing : ∀ place ∈ model.positionAt t, place.moving = false →
    ∀ run ∈ model.runs, run.sail = false →
      place.index ∈ controlPoints model.points run.i0 run.i1 lod →
        ∃ point, model.points[place.index]? = some point ∧
          (arithmetic.buildGeometry model lod).placeAtTime t = some (ghostOn point)

variable {classify : Classify} {points : List LivePoint} {step : ℤ}

theorem partitioned_build (classify : Classify) (points : List LivePoint) (step : ℤ) :
    Partitioned (DrawnModel.build classify points step).kinds points.length
      (DrawnModel.build classify points step).runs (DrawnModel.build classify points step).jumps := by
  have hkinds : (DrawnModel.build classify points step).kinds.length = points.length - 1 := by
    simp [DrawnModel.build, LayerModel.build]
  exact partitioned_foldl hkinds

section Parts

variable {arithmetic : Arithmetic K} {model : DrawnModel} {lod : Fin 3} {t : ℚ} {place : Place}
  (horder : InOrder model.points)
  (hparts : Partitioned model.kinds model.points.length model.runs model.jumps)
include horder hparts

omit hparts in
theorem times_of_run {run : Run} (hbounds : run.i0 ≤ run.i1 ∧ run.i1 < model.points.length) :
    ((arithmetic.smoothRun model.points run.i0 run.i1 lod run.sail).vertices.map Vertex.t).Pairwise
      (· ≤ ·) :=
  (smoothRun_times arithmetic horder hbounds.1 hbounds.2).1

/-- A run has the player from its start on. -/
theorem ghostAt_run_eq_none {run : Run} (hrun : run ∈ model.runs) :
    (arithmetic.smoothRun model.points run.i0 run.i1 lod run.sail).ghostAt t = none ↔
      t < model.points[run.i0]!.t0 := by
  have hbounds := hparts.bounds run hrun
  obtain ⟨hsorted, hfirst, -⟩ := @smoothRun_times model.points run.i0 run.i1 lod K _ _ _ arithmetic run.sail
    horder hbounds.1 hbounds.2
  rw [List.head?_map, Option.map_eq_some_iff] at hfirst
  obtain ⟨first, hfirst, htime⟩ := hfirst
  rw [ghostAt_eq_none hsorted]
  refine ⟨fun hall ↦ htime ▸ hall first (List.mem_of_mem_head? hfirst), fun hahead vertex hvertex ↦ ?_⟩
  exact hahead.trans_le (htime ▸ head_le (List.pairwise_map.mp hsorted) hfirst hvertex)

/-- A run that starts where the player is has them there. -/
theorem ghostAt_start [IsStrictOrderedRing K] {run : Run} (hrun : run ∈ model.runs)
    (harrived : model.points[run.i0]!.t0 ≤ t) (hstays : Stays model.points run.i0 t) :
    (arithmetic.smoothRun model.points run.i0 run.i1 lod run.sail).ghostAt t =
      some (ghostOn model.points[run.i0]!) := by
  have hbounds := hparts.bounds run hrun
  obtain ⟨back, hvertices, hback⟩ := @smoothRun_start model.points run.i0 run.i1 lod K _ _ _ arithmetic
    run.sail _ horder hbounds.1 hbounds.2
  rw [← List.nil_append (stayVertices _ _ ++ back)] at hvertices
  exact ghostAt_of_stay (times_of_run horder hbounds) hvertices hback
    (stay_le horder (hbounds.1.trans_lt hbounds.2)) harrived hstays

/-- On the runs a player who stands at a control point of a run that is not sailed is there. -/
theorem foldl_runs_of_standing [IsStrictOrderedRing K] {run : Run} (hrun : run ∈ model.runs)
    (hsail : run.sail = false) (hplace : ReachedAt model.toLayerModel t place)
    (hstays : Stays model.points place.index t)
    (hcontrol : place.index ∈ controlPoints model.points run.i0 run.i1 lod) :
    (arithmetic.buildGeometry model lod).runs.foldl (fun place run ↦ (run.ghostAt t).or place) none =
      some (ghostOn model.points[place.index]!) := by
  have hbounds := hparts.bounds run hrun
  have hwithin := (controls_controlPoints model.points lod hbounds.1).within _ hcontrol
  obtain ⟨before, after, hruns⟩ := List.append_of_mem hrun
  have hdrawn : (arithmetic.buildGeometry model lod).runs =
      before.map (fun run ↦ arithmetic.smoothRun model.points run.i0 run.i1 lod run.sail) ++
        arithmetic.smoothRun model.points run.i0 run.i1 lod run.sail ::
          after.map (fun run ↦ arithmetic.smoothRun model.points run.i0 run.i1 lod run.sail) := by
    simp [buildGeometry, hruns]
  refine foldl_or_of_last hdrawn ?_ ?_ none
  · obtain ⟨front, back, hvertices, hback⟩ := @smoothRun_through model.points run.i0 run.i1 place.index lod K
      _ _ _ arithmetic horder hbounds.1 hbounds.2 hcontrol
    rw [← hsail] at hvertices
    exact ghostAt_of_stay (times_of_run horder hbounds) hvertices hback
      (stay_le horder hplace.lt_length) hplace.arrived hstays
  · intro other hother
    obtain ⟨later, hlater, rfl⟩ := List.mem_map.mp hother
    have hlaterRun : later ∈ model.runs := by
      rw [hruns]
      exact List.mem_append_right _ (List.mem_cons_of_mem _ hlater)
    have hafter : run.i1 ≤ later.i0 := by
      have hinOrder := hparts.runsInOrder
      rw [hruns] at hinOrder
      exact (List.pairwise_cons.mp (List.pairwise_append.mp hinOrder).2.1).1 later hlater
    have hlaterBounds := hparts.bounds later hlaterRun
    -- A later run starts at the point, as sailing turns there, or has not started.
    obtain heq | hlt := (hwithin.trans hafter).eq_or_lt
    · right
      rw [heq] at hstays ⊢
      exact ghostAt_start horder hparts hlaterRun (heq ▸ hplace.arrived) hstays
    · left
      refine (ghostAt_run_eq_none horder hparts hlaterRun).mpr ?_
      have hi0 : later.i0 < model.points.length := hlaterBounds.1.trans_lt hlaterBounds.2
      have hnext : place.index + 1 < model.points.length := Nat.lt_of_le_of_lt hlt hi0
      have hahead := hplace.ahead hnext
      rw [getElem!_of_lt hnext] at hahead
      rw [getElem!_of_lt hi0]
      exact hahead.trans_le (horder.first_le hlt hi0)

omit hparts in
/-- On the jumps a player who stands stays where they are. -/
theorem foldl_jumps_of_standing [IsStrictOrderedRing K] (hplace : ReachedAt model.toLayerModel t place)
    (hstays : Stays model.points place.index t) {jumps : List Jump}
    (hjumps : ∀ jump ∈ jumps, jump.fromIndex + 1 < model.points.length) :
    (jumps.map (arithmetic.drawJump model.points)).foldl (DrawnJump.placeOn t)
      (some (ghostOn model.points[place.index]!)) = some (ghostOn model.points[place.index]!) := by
  induction jumps with
  | nil => rfl
  | cons jump jumps ih =>
    rw [List.map_cons, List.foldl_cons, placeOn_of_stays horder hplace hstays (hjumps jump List.mem_cons_self)]
    exact ih fun later hlater ↦ hjumps later (List.mem_cons_of_mem _ hlater)

omit hparts in
theorem foldl_jumps_of_ne (hplace : ReachedAt model.toLayerModel t place) {jumps : List Jump}
    (hjumps : ∀ jump ∈ jumps, jump.fromIndex + 1 < model.points.length ∧ jump.fromIndex ≠ place.index)
    (ghost : Option (Ghost K)) :
    (jumps.map (arithmetic.drawJump model.points)).foldl (DrawnJump.placeOn t) ghost = ghost := by
  induction jumps with
  | nil => rfl
  | cons jump jumps ih =>
    obtain ⟨hlength, hne⟩ := hjumps jump List.mem_cons_self
    rw [List.map_cons, List.foldl_cons, placeOn_of_ne horder hplace hlength hne]
    exact ih fun later hlater ↦ hjumps later (List.mem_cons_of_mem _ hlater)

/-- On the jumps a player who waits for one without an arc to land is where they left. -/
theorem foldl_jumps_of_leaving [IsStrictOrderedRing K] (hplace : ReachedAt model.toLayerModel t place)
    (hmoving : place.moving = true) {jump : Jump} (hjump : jump ∈ model.jumps)
    (hindex : jump.fromIndex = place.index) (harc : (arithmetic.drawJump model.points jump).arc = none)
    (ghost : Option (Ghost K)) :
    (model.jumps.map (arithmetic.drawJump model.points)).foldl (DrawnJump.placeOn t) ghost =
      some (ghostOn model.points[place.index]!) := by
  obtain ⟨before, after, hjumps⟩ := List.append_of_mem hjump
  have hinOrder := hparts.jumpsInOrder
  have hlength (other : Jump) (hother : other ∈ model.jumps) : other.fromIndex + 1 < model.points.length :=
    (hparts.jumped other hother).1
  rw [hjumps] at hinOrder hlength ⊢
  rw [List.map_append, List.foldl_append, List.map_cons, List.foldl_cons,
    placeOn_of_eq hplace (hlength jump (by simp)) hindex (hplace.leaves hmoving).2.1.le (.inl harc)]
  refine foldl_jumps_of_ne horder hplace (fun later hlater ↦ ⟨hlength later (by simp [hlater]), ?_⟩) _
  rw [← hindex]
  exact ((List.pairwise_cons.mp (List.pairwise_append.mp hinOrder).2.1).1 later hlater).ne'

/-- Nothing is drawn exactly before the trail starts. -/
theorem placeAtTime_eq_none : (arithmetic.buildGeometry model lod).placeAtTime t = none ↔
    ∀ i < model.points.length, t < model.points[i]!.t0 := by
  unfold Geometry.placeAtTime buildGeometry
  dsimp only
  constructor
  · intro hnone i hi
    have hruns := (foldl_or_eq_none.mp (eq_none_of_foldl_placeOn hnone)).2
    obtain ⟨run, hrun, hstart, -⟩ := hparts.points 0 (Nat.zero_lt_of_lt hi)
    have hahead := (ghostAt_run_eq_none horder hparts hrun).mp (hruns _ (List.mem_map_of_mem hrun))
    rw [Nat.le_zero.mp hstart, getElem!_of_lt (Nat.zero_lt_of_lt hi)] at hahead
    rw [getElem!_of_lt hi]
    exact hahead.trans_le (horder.first_le (Nat.zero_le i) hi)
  · intro hall
    have hruns : (model.runs.map fun run ↦
        arithmetic.smoothRun model.points run.i0 run.i1 lod run.sail).foldl
          (fun place run ↦ (run.ghostAt t).or place) none = none := by
      refine foldl_or_eq_none.mpr ⟨rfl, fun drawn hdrawn ↦ ?_⟩
      obtain ⟨run, hrun, rfl⟩ := List.mem_map.mp hdrawn
      have hbounds := hparts.bounds run hrun
      exact (ghostAt_run_eq_none horder hparts hrun).mpr (hall _ (hbounds.1.trans_lt hbounds.2))
    rw [hruns]
    refine List.foldlRecOn (motive := fun ghost : Option (Ghost K) ↦ ghost = none) _ _ rfl
      fun ghost hghost drawn hdrawn ↦ ?_
    obtain ⟨jump, hjump, rfl⟩ := List.mem_map.mp hdrawn
    have hlength := Nat.lt_of_succ_lt (hparts.jumped jump hjump).1
    rw [hghost]
    exact if_pos (.inl ((hall _ hlength).trans_le (stay_le horder hlength)))

omit horder in
/-- A player who is under way on no line is on a jump. -/
theorem exists_jump (hplace : ReachedAt model.toLayerModel t place) (hmoving : place.moving = true)
    {kind : Kind} (hkind : kind ∈ place.kind) (hjump : kind.connected = false) :
    ∃ jump ∈ model.jumps, jump.fromIndex = place.index := by
  obtain ⟨hnext, -, hkindAt⟩ := hplace.leaves hmoving
  have hnone : model.runs.countP (fun run ↦ run.i0 ≤ place.index ∧ place.index < run.i1) = 0 := by
    rw [List.countP_eq_zero]
    intro run hrun hwithin
    obtain ⟨hstart, hstop⟩ := of_decide_eq_true hwithin
    obtain ⟨other, hother, hconnected, -⟩ := hparts.walked run hrun _ hstart hstop
    have hsame : some kind = some other := (hkindAt ▸ hkind : model.kinds[place.index]? = _).symm.trans hother
    rw [Option.some.injEq] at hsame
    exact absurd (hjump.symm.trans (hsame ▸ hconnected)) Bool.false_ne_true
  have hsteps := hparts.steps place.index hnext
  rw [hnone, Nat.add_zero] at hsteps
  obtain ⟨jump, hjump, hindex⟩ := List.countP_pos_iff.mp (hsteps ▸ Nat.one_pos)
  exact ⟨jump, hjump, of_decide_eq_true hindex⟩

end Parts

/-- What is drawn of a trail in order agrees with its model at every time. -/
theorem ghostAgrees_build [IsStrictOrderedRing K] (arithmetic : Arithmetic K) (classify : Classify)
    {points : List LivePoint} (horder : InOrder points) (step : ℤ) (lod : Fin 3) (t : ℚ) :
    GhostAgrees arithmetic (DrawnModel.build classify points step) lod t := by
  have hparts := partitioned_build classify points step
  generalize hmodel : DrawnModel.build classify points step = model at hparts ⊢
  have hpoints : model.points = points := hmodel ▸ rfl
  rw [← hpoints] at horder hparts
  have hpoint (i : ℕ) (hi : i < model.points.length) : model.points[i]? = some model.points[i]! := by
    rw [List.getElem?_eq_getElem hi, getElem!_of_lt hi]
  refine ⟨fun drawn hdrawn ↦ ?_, fun drawn hdrawn ↦ ?_, ?_, ?_, ?_⟩
  · obtain ⟨run, hrun, rfl⟩ := List.mem_map.mp hdrawn
    have hbounds := hparts.bounds run hrun
    obtain ⟨hsorted, hfirst, hlast⟩ := @smoothRun_times model.points run.i0 run.i1 lod K _ _ _ arithmetic
      run.sail horder hbounds.1 hbounds.2
    exact ⟨_, _, hpoint _ (hbounds.1.trans_lt hbounds.2), hpoint _ hbounds.2, hsorted, hfirst, hlast⟩
  · obtain ⟨run, hrun, rfl⟩ := List.mem_map.mp hdrawn
    have hsorted := @times_of_run K _ _ _ arithmetic model lod horder run (hparts.bounds run hrun)
    refine ⟨vertexAtTime_eq_none hsorted, fun place hplace ↦ ?_⟩
    obtain ⟨hnone, -⟩ | ⟨found, hfound, hlast, -⟩ := vertexAtTime_cases hsorted t
    · exact absurd (hplace.symm.trans hnone) (Option.some_ne_none place)
    · obtain rfl := Option.some.inj (hplace.symm.trans hfound)
      exact hlast
  · rw [placeAtTime_eq_none horder hparts]
    obtain ⟨hnone, hall⟩ | ⟨place, hplace, hreached⟩ := positionAt_cases horder t
    · exact iff_of_true hall hnone
    · refine iff_of_false (fun hall ↦ ?_) (hplace ▸ Option.some_ne_none place)
      exact absurd (hall _ hreached.lt_length) (not_lt.mpr hreached.arrived)
  · intro place hplace hmoving kind hkind hjump
    have hreached := reachedAt_of_mem horder hplace
    obtain ⟨jump, hmem, hindex⟩ := exists_jump hparts hreached hmoving hkind hjump
    refine ⟨_, hpoint _ hreached.lt_length, arithmetic.drawJump model.points jump,
      List.mem_map_of_mem hmem, hindex, fun harc ↦ ?_⟩
    exact foldl_jumps_of_leaving horder hparts hreached hmoving hmem hindex harc _
  · intro place hplace hmoving run hrun hsail hcontrol
    have hreached := reachedAt_of_mem horder hplace
    have hstays := hreached.stays hmoving
    refine ⟨_, hpoint _ hreached.lt_length, ?_⟩
    unfold Geometry.placeAtTime
    dsimp only
    rw [foldl_runs_of_standing horder hparts hrun hsail hreached hstays hcontrol]
    exact foldl_jumps_of_standing horder hreached hstays fun jump hjump ↦ (hparts.jumped jump hjump).1

theorem ghostAgrees_build_real : GhostAgrees Arithmetic.real
    (DrawnModel.build (fun _ landed _ ↦ if landed.boat then .sail else .teleport)
      [⟨3200, 3200, 0, 0, 5, true, none, none, false⟩, ⟨3210, 3200, 0, 8, 9, true, none, none, false⟩,
        ⟨2500, 3400, 1, 12, 20, false, none, none, false⟩] 60) 0 10 :=
  ghostAgrees_build Arithmetic.real _ (by decide +kernel) 60 0 10

end Agreement

end OsrsMap.Site
