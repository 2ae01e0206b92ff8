import OsrsMap.Site.TrailGeometry
import Mathlib.Algebra.Order.BigOperators.Group.List

/-!
# The line of a run

The line of a run goes through its control points in order of time, and where the player stayed it
has the two vertices of the stay. Waves move no vertex of the first stay, and none in time.
-/

namespace OsrsMap.Site

variable {points : List LivePoint} {i0 i1 index next : ℕ} {lod : Fin 3} {t : ℚ}

/-! ## Control points -/

/-- Points of a run in order, with both ends. -/
structure Controls (i0 i1 : ℕ) (control : List ℕ) : Prop where
  head : control.head? = some i0
  getLast : control.getLast? = some i1
  sorted : control.Pairwise (· < ·)
  within : ∀ i ∈ control, i ≤ i1

/-- The loop of `controlPoints` keeps points in order. -/
theorem keepPoint_foldl {tolerance : ℚ} {kept : List ℕ} {count : ℕ} (hhead : kept.head? = some i0)
    (hsorted : kept.Pairwise (· < ·)) (hbefore : ∀ i ∈ kept, i < next) :
    ((List.range' next count).foldl (keepPoint points tolerance i0) kept).head? = some i0 ∧
      ((List.range' next count).foldl (keepPoint points tolerance i0) kept).Pairwise (· < ·) ∧
      ∀ i ∈ (List.range' next count).foldl (keepPoint points tolerance i0) kept, i < next + count := by
  induction count generalizing next kept with
  | zero => exact ⟨hhead, hsorted, hbefore⟩
  | succ count ih =>
    rw [List.range'_succ, List.foldl_cons, ← Nat.add_assoc, Nat.add_right_comm]
    have hmore : ∀ i ∈ kept, i < next + 1 := fun i hi ↦ Nat.lt_succ_of_lt (hbefore i hi)
    unfold keepPoint
    dsimp only
    split
    · refine ih ?_ ?_ ?_
      · rw [List.head?_append, hhead, Option.some_or]
      · refine List.pairwise_append.mpr ⟨hsorted, List.pairwise_singleton _ _, fun i hi j hj ↦ ?_⟩
        rw [List.mem_singleton.mp hj]
        exact hbefore i hi
      · intro i hi
        obtain hi | hi := List.mem_append.mp hi
        · exact hmore i hi
        · rw [List.mem_singleton.mp hi]
          exact Nat.lt_succ_self next
    · exact ih hhead hsorted hmore

theorem controls_controlPoints (points : List LivePoint) (lod : Fin 3) (h : i0 ≤ i1) :
    Controls i0 i1 (controlPoints points i0 i1 lod) := by
  unfold controlPoints
  dsimp only
  obtain ⟨hhead, hsorted, hbefore⟩ := @keepPoint_foldl points i0 (i0 + 1) (lodToleranceTiles lod) [i0]
    (i1 - (i0 + 1)) rfl (List.pairwise_singleton _ _) (by simp)
  obtain rfl | hlt := h.eq_or_lt
  · rw [if_neg (lt_irrefl _), Nat.sub_eq_zero_of_le (Nat.le_succ i0)]
    exact ⟨rfl, rfl, List.pairwise_singleton _ _, by simp⟩
  · rw [if_pos hlt]
    rw [Nat.add_sub_of_le hlt] at hbefore
    refine ⟨?_, List.getLast?_concat, ?_, fun i hi ↦ ?_⟩
    · rw [List.head?_append, hhead, Option.some_or]
    · refine List.pairwise_append.mpr ⟨hsorted, List.pairwise_singleton _ _, fun i hi j hj ↦ ?_⟩
      rw [List.mem_singleton.mp hj]
      exact hbefore i hi
    · obtain hi | hi := List.mem_append.mp hi
      · exact (hbefore i hi).le
      · exact (List.mem_singleton.mp hi).le

/-! ## Times -/

namespace Arithmetic

variable {K : Type*} [Field K] [LinearOrder K] {vertex : Vertex K}

theorem getElem!_of_lt (h : index < points.length) : points[index]! = points[index] :=
  getElem!_pos points index h

theorem stay_le (horder : InOrder points) (h : index < points.length) :
    points[index]!.t0 ≤ points[index]!.t1 := by
  rw [getElem!_of_lt h]
  exact horder.each _ (List.getElem_mem h)

theorem left_le_landed (horder : InOrder points) (hlt : index < next) (hnext : next < points.length) :
    points[index]!.t1 ≤ points[next]!.t0 := by
  rw [getElem!_of_lt hnext, getElem!_of_lt (hlt.trans hnext)]
  exact horder.le hlt hnext

omit [LinearOrder K] in
theorem mem_stayVertices (hstay : points[index]!.t0 ≤ points[index]!.t1)
    (h : vertex ∈ (stayVertices points index : List (Vertex K))) :
    vertex.place = centerOf points[index]! ∧ vertex.plane = points[index]!.plane ∧
      points[index]!.t0 ≤ vertex.t ∧ vertex.t ≤ points[index]!.t1 := by
  unfold stayVertices at h
  dsimp only at h
  split at h
  · simp only [List.mem_cons, List.not_mem_nil, or_false] at h
    obtain rfl | rfl := h
    · exact ⟨rfl, rfl, le_rfl, hstay⟩
    · exact ⟨rfl, rfl, hstay, le_rfl⟩
  · rw [List.mem_singleton] at h
    subst h
    exact ⟨rfl, rfl, le_rfl, hstay⟩

omit [LinearOrder K] in
/-- A point begins with the player's arrival and ends with their leaving. -/
theorem stayVertices_ends (hstay : points[index]!.t0 ≤ points[index]!.t1) :
    ∃ arrived ∈ (stayVertices points index : List (Vertex K)).head?, arrived.t = points[index]!.t0 ∧
      ∃ left ∈ (stayVertices points index : List (Vertex K)).getLast?, left.t = points[index]!.t1 := by
  unfold stayVertices
  dsimp only
  split
  · exact ⟨_, rfl, rfl, _, rfl, rfl⟩
  · next hnot => exact ⟨_, rfl, rfl, _, rfl, le_antisymm hstay (not_lt.mp hnot)⟩

omit [LinearOrder K] in
theorem stayVertices_sorted (points : List LivePoint) (index : ℕ) :
    (stayVertices points index : List (Vertex K)).Pairwise fun a b ↦ a.t ≤ b.t := by
  unfold stayVertices
  dsimp only
  split
  · next hlt => simpa using hlt.le
  · exact List.pairwise_singleton _ _

omit [Field K] [LinearOrder K] in
/-- A line in order of time starts at its earliest time. -/
theorem head_le {line : List (Vertex K)} (h : line.Pairwise fun a b ↦ a.t ≤ b.t) {first : Vertex K}
    (hfirst : first ∈ line.head?) (hvertex : vertex ∈ line) : first.t ≤ vertex.t := by
  obtain ⟨rest, rfl⟩ := List.head?_eq_some_iff.mp hfirst
  obtain rfl | hvertex := List.mem_cons.mp hvertex
  · exact le_rfl
  · exact (List.pairwise_cons.mp h).1 vertex hvertex

variable [FloorSemiring K] (arithmetic : Arithmetic K) {wavy : Bool} {before after : Option ℕ}

/-- The vertices of a step have times between leaving and landing, and none is at a time at which the
player has not left yet. -/
theorem mem_curveVertices (hstep : points[index]!.t1 ≤ points[next]!.t0)
    (h : vertex ∈ arithmetic.curveVertices points lod wavy before index next after) :
    points[index]!.t1 ≤ vertex.t ∧ vertex.t ≤ points[next]!.t0 ∧
      (t ≤ points[index]!.t1 → t < points[next]!.t0 → t < vertex.t) := by
  obtain ⟨s, hs, rfl⟩ := List.mem_map.mp h
  obtain ⟨hfirst, hlast⟩ := List.mem_range'_1.mp hs
  dsimp only
  generalize @piecesOf K _ _ _ _ _ _ = pieces at hlast ⊢
  have hpieces : (0 : ℚ) < pieces := by
    rw [Nat.cast_pos]
    omega
  have hpos : (0 : ℚ) < s / pieces := div_pos (Nat.cast_pos.mpr (by omega)) hpieces
  have hle : (s : ℚ) / pieces ≤ 1 := by
    rw [div_le_one hpieces, Nat.cast_le]
    omega
  have hspan : 0 ≤ points[next]!.t0 - points[index]!.t1 := sub_nonneg.mpr hstep
  refine ⟨?_, ?_, fun hleft hahead ↦ ?_⟩
  · exact le_add_of_nonneg_right (mul_nonneg hspan hpos.le)
  · calc points[index]!.t1 + (points[next]!.t0 - points[index]!.t1) * (s / pieces)
        ≤ points[index]!.t1 + (points[next]!.t0 - points[index]!.t1) * 1 := by gcongr
      _ = points[next]!.t0 := by ring
  · obtain hlt | heq := hstep.lt_or_eq
    · exact hleft.trans_lt (lt_add_of_pos_right _ (mul_pos (sub_pos.mpr hlt) hpos))
    · rw [heq, sub_self, zero_mul, add_zero]
      exact hahead

theorem curveVertices_sorted (hstep : points[index]!.t1 ≤ points[next]!.t0) :
    (arithmetic.curveVertices points lod wavy before index next after).Pairwise fun a b ↦ a.t ≤ b.t := by
  unfold curveVertices
  dsimp only
  refine List.pairwise_map.mpr ((List.pairwise_lt_range' 1).imp fun {a b} hab ↦ ?_)
  have hspan : 0 ≤ points[next]!.t0 - points[index]!.t1 := sub_nonneg.mpr hstep
  have hle : (a : ℚ) ≤ b := Nat.cast_le.mpr hab.le
  dsimp only
  gcongr

/-! ## Lines -/

variable {control rest : List ℕ}

theorem lineVertices_cons_cons :
    arithmetic.lineVertices points lod wavy before (index :: next :: rest) =
      stayVertices points index ++ (arithmetic.curveVertices points lod wavy before index next rest.head? ++
        arithmetic.lineVertices points lod wavy (some index) (next :: rest)) := rfl

/-- A line is in order of time, from the first point's arrival to the last one's leaving. -/
theorem lineVertices_times (horder : InOrder points) (hsorted : (index :: rest).Pairwise (· < ·))
    (hlength : ∀ i ∈ index :: rest, i < points.length) :
    (arithmetic.lineVertices points lod wavy before (index :: rest)).Pairwise (fun a b ↦ a.t ≤ b.t) ∧
      (∃ arrived ∈ (arithmetic.lineVertices points lod wavy before (index :: rest)).head?,
        arrived.t = points[index]!.t0) ∧
      ∃ left ∈ (arithmetic.lineVertices points lod wavy before (index :: rest)).getLast?,
        ∀ last ∈ (index :: rest).getLast?, left.t = points[last]!.t1 := by
  induction rest generalizing index before with
  | nil =>
    have hstay := stay_le horder (hlength index (List.mem_singleton_self _))
    obtain ⟨arrived, harrived, hfirst, left, hleft, hlast⟩ := @stayVertices_ends points index K _ hstay
    refine ⟨stayVertices_sorted points index, ⟨arrived, harrived, hfirst⟩, left, hleft, fun last hmem ↦ ?_⟩
    obtain rfl : index = last := by simpa using hmem
    exact hlast
  | cons next rest ih =>
    rw [lineVertices_cons_cons]
    obtain ⟨hfirst, hsorted⟩ := List.pairwise_cons.mp hsorted
    have hlt : index < next := hfirst next List.mem_cons_self
    have hnext : next < points.length := hlength next (List.mem_cons_of_mem _ List.mem_cons_self)
    obtain ⟨hline, ⟨landed, hlanded, hlandedTime⟩, left, hleft, hlast⟩ :=
      @ih next (some index) hsorted fun i hi ↦ hlength i (List.mem_cons_of_mem _ hi)
    have hstay := stay_le horder (hlt.trans hnext)
    have hstep := left_le_landed horder hlt hnext
    have hlater : ∀ vertex ∈ arithmetic.lineVertices points lod wavy (some index) (next :: rest),
        points[next]!.t0 ≤ vertex.t :=
      fun vertex hvertex ↦ hlandedTime ▸ head_le hline hlanded hvertex
    refine ⟨?_, ?_, left, ?_, ?_⟩
    · refine List.pairwise_append.mpr ⟨stayVertices_sorted points index, List.pairwise_append.mpr
        ⟨curveVertices_sorted arithmetic hstep, hline, fun a ha b hb ↦ ?_⟩, fun a ha b hb ↦ ?_⟩
      · exact (mem_curveVertices (t := 0) arithmetic hstep ha).2.1.trans (hlater b hb)
      · have hleft := (mem_stayVertices hstay ha).2.2.2
        obtain hb | hb := List.mem_append.mp hb
        · exact hleft.trans (mem_curveVertices (t := 0) arithmetic hstep hb).1
        · exact (hleft.trans hstep).trans (hlater b hb)
    · obtain ⟨arrived, harrived, htime, -⟩ := @stayVertices_ends points index K _ hstay
      refine ⟨arrived, ?_, htime⟩
      rw [Option.mem_def] at harrived ⊢
      rw [List.head?_append, harrived, Option.some_or]
    · rw [Option.mem_def] at hleft ⊢
      rw [List.getLast?_append, List.getLast?_append, hleft, Option.some_or, Option.some_or]
    · intro last hmem
      exact hlast last (by simpa [List.getLast?_cons_cons] using hmem)

/-- The player has not left a point yet at a time. -/
def Stays (points : List LivePoint) (index : ℕ) (t : ℚ) : Prop :=
  index + 1 < points.length → t ≤ points[index]!.t1 ∧ t < points[index + 1]!.t0

/-- A time that is later than all at which the player has not left a point yet. -/
def Past (points : List LivePoint) (index : ℕ) (time : ℚ) : Prop :=
  ∀ t, Stays points index t → t < time

/-- A control point has its stay in the line, and what comes behind it is past it. -/
theorem lineVertices_split (horder : InOrder points) (hsorted : control.Pairwise (· < ·))
    (hlength : ∀ i ∈ control, i < points.length) (hindex : index ∈ control) :
    ∃ front back, arithmetic.lineVertices points lod wavy before control =
      front ++ (stayVertices points index ++ back) ∧ (control.head? = some index → front = []) ∧
      ∀ vertex ∈ back, Past points index vertex.t := by
  induction control generalizing before with
  | nil => exact absurd hindex List.not_mem_nil
  | cons first rest ih =>
    obtain ⟨hfirst, hrest⟩ := List.pairwise_cons.mp hsorted
    obtain rfl | hmem := List.mem_cons.mp hindex
    · cases rest with
      | nil =>
        exact ⟨[], [], (List.append_nil _).symm, fun _ ↦ rfl, fun _ hvertex ↦ absurd hvertex List.not_mem_nil⟩
      | cons next rest =>
        refine ⟨[], _, lineVertices_cons_cons arithmetic, fun _ ↦ rfl, fun vertex hvertex t hstays ↦ ?_⟩
        have hlt : index < next := hfirst next List.mem_cons_self
        have hnext : next < points.length := hlength next (List.mem_cons_of_mem _ List.mem_cons_self)
        have hafter : index + 1 < points.length := Nat.lt_of_le_of_lt hlt hnext
        obtain ⟨hleft, hahead⟩ := hstays hafter
        have hnotThere : t < points[next]!.t0 := by
          rw [getElem!_of_lt hafter] at hahead
          rw [getElem!_of_lt hnext]
          exact hahead.trans_le (horder.first_le hlt hnext)
        obtain hvertex | hvertex := List.mem_append.mp hvertex
        · exact (mem_curveVertices arithmetic (left_le_landed horder hlt hnext) hvertex).2.2 hleft hnotThere
        · obtain ⟨hline, ⟨landed, hlanded, htime⟩, -⟩ := lineVertices_times arithmetic horder hrest
            fun i hi ↦ hlength i (List.mem_cons_of_mem _ hi)
          exact hnotThere.trans_le (htime ▸ head_le hline hlanded hvertex)
    · have hne : first < index := hfirst index hmem
      cases rest with
      | nil => exact absurd hmem List.not_mem_nil
      | cons next rest =>
        obtain ⟨front, back, hline, -, hback⟩ :=
          @ih (some first) hrest (fun i hi ↦ hlength i (List.mem_cons_of_mem _ hi)) hmem
        refine ⟨stayVertices points first ++ (arithmetic.curveVertices points lod wavy before first next
          rest.head? ++ front), back, ?_, fun hhead ↦ ?_, hback⟩
        · rw [lineVertices_cons_cons, hline, List.append_assoc, List.append_assoc]
        · rw [List.head?_cons, Option.some.injEq] at hhead
          exact absurd hhead hne.ne

/-! ## Waves -/

section Waves

variable {line : List (Vertex K)}

omit [Field K] [LinearOrder K] [FloorSemiring K] in
theorem map_t_mapIdx {moved : ℕ → Vertex K → Vertex K} (h : ∀ i vertex, (moved i vertex).t = vertex.t)
    (vertices : List (Vertex K)) : (vertices.mapIdx moved).map Vertex.t = vertices.map Vertex.t := by
  apply List.ext_getElem?
  intro i
  rw [List.getElem?_map, List.getElem?_map, List.getElem?_mapIdx, Option.map_map]
  exact congrArg (fun f ↦ Option.map f vertices[i]?) (funext (h i))

omit [FloorSemiring K] in
/-- Waves are only in space. -/
@[simp]
theorem wave_t (line : List (Vertex K)) (i : ℕ) (vertex : Vertex K) :
    (arithmetic.wave line i vertex).t = vertex.t := rfl

omit [FloorSemiring K] in
theorem times_makeWaves (line : List (Vertex K)) :
    (arithmetic.makeWaves line).map Vertex.t = line.map Vertex.t :=
  map_t_mapIdx (wave_t arithmetic line) line

variable [IsStrictOrderedRing K]

omit [FloorSemiring K] in
/-- Lines have a length. -/
theorem total_nonneg (line : List (Vertex K)) : 0 ≤ (arithmetic.alongLine line).getLastD 0 := by
  unfold alongLine
  rw [List.getLastD_eq_getLast?, List.getLast?_scanl, Option.getD_some, ← List.sum_eq_foldl]
  apply List.sum_nonneg
  intro length hlength
  obtain ⟨ends, -, rfl⟩ := List.mem_map.mp hlength
  exact arithmetic.hypot_nonneg _ _

omit [FloorSemiring K] in
/-- The waves have died out at the start of a line. -/
theorem wave_of_start {i : ℕ} (h : (arithmetic.alongLine line).getD i 0 = 0) (vertex : Vertex K) :
    arithmetic.wave line i vertex = vertex := by
  have htotal := total_nonneg arithmetic line
  have hwaves : (0 : K) < (waveLength : ℚ) := by
    rw [Rat.cast_pos]
    unfold waveLength pixelsPerTile
    norm_num
  unfold wave
  dsimp only
  rw [h, zero_div, sub_zero, min_eq_right zero_le_one, min_eq_left (div_nonneg htotal hwaves.le), mul_zero,
    zero_mul, mul_zero, mul_zero, add_zero, add_zero]

omit [FloorSemiring K] in
/-- Waves leave the stay a line starts with where it was. -/
theorem makeWaves_stay (points : List LivePoint) (index : ℕ) (back : List (Vertex K)) : ∃ moved,
    arithmetic.makeWaves (stayVertices points index ++ back) = stayVertices points index ++ moved ∧
      moved.map Vertex.t = back.map Vertex.t := by
  generalize hline : stayVertices points index ++ back = line
  refine ⟨back.mapIdx fun i ↦ arithmetic.wave line (i + (stayVertices points index : List (Vertex K)).length),
    ?_, map_t_mapIdx (fun i ↦ wave_t arithmetic line (i + _)) back⟩
  have hstay : (stayVertices points index).mapIdx (arithmetic.wave line) = stayVertices points index := by
    subst hline
    unfold stayVertices
    dsimp only
    split
    · rw [List.mapIdx_cons, List.mapIdx_cons, List.mapIdx_nil, wave_of_start, wave_of_start]
      · simp [alongLine, distance, Vertex.place, arithmetic.hypot_zero]
      · simp [alongLine]
    · rw [List.mapIdx_cons, List.mapIdx_nil, wave_of_start]
      simp [alongLine]
  calc arithmetic.makeWaves line
      = (stayVertices points index ++ back).mapIdx (arithmetic.wave line) := by rw [hline]; rfl
    _ = (stayVertices points index).mapIdx (arithmetic.wave line) ++ _ := List.mapIdx_append
    _ = stayVertices points index ++ _ := by rw [hstay]

end Waves

/-! ## Runs -/

section Runs

variable {sail : Bool}

/-- The times of a run are those of its line, waves or not. -/
theorem times_smoothRun : (arithmetic.smoothRun points i0 i1 lod sail).vertices.map Vertex.t =
    (arithmetic.lineVertices points lod (isWavy sail lod) none (controlPoints points i0 i1 lod)).map
      Vertex.t := by
  unfold smoothRun
  dsimp only
  split
  · exact times_makeWaves arithmetic _
  · rfl

/-- The times of a run are in order, from its first point's arrival to its last one's leaving. -/
theorem smoothRun_times (horder : InOrder points) (hle : i0 ≤ i1) (hlast : i1 < points.length) :
    ((arithmetic.smoothRun points i0 i1 lod sail).vertices.map Vertex.t).Pairwise (· ≤ ·) ∧
      ((arithmetic.smoothRun points i0 i1 lod sail).vertices.map Vertex.t).head? = some points[i0]!.t0 ∧
      ((arithmetic.smoothRun points i0 i1 lod sail).vertices.map Vertex.t).getLast? =
        some points[i1]!.t1 := by
  have hcontrols := controls_controlPoints points lod hle
  rw [times_smoothRun]
  obtain ⟨rest, hcontrol⟩ := List.head?_eq_some_iff.mp hcontrols.head
  rw [hcontrol] at hcontrols ⊢
  obtain ⟨hsorted, ⟨arrived, harrived, hfirst⟩, left, hleft, hlastTime⟩ :=
    @lineVertices_times points i0 lod K _ _ _ arithmetic (isWavy sail lod) none rest horder hcontrols.sorted
      fun i hi ↦ (hcontrols.within i hi).trans_lt hlast
  refine ⟨List.pairwise_map.mpr hsorted, ?_, ?_⟩
  · rw [List.head?_map, Option.mem_def.mp harrived, Option.map_some, hfirst]
  · rw [List.getLast?_map, Option.mem_def.mp hleft, Option.map_some, hlastTime i1 hcontrols.getLast]

/-- A run starts with the stay at its first point. -/
theorem smoothRun_start [IsStrictOrderedRing K] (horder : InOrder points) (hle : i0 ≤ i1)
    (hlast : i1 < points.length) : ∃ back, (arithmetic.smoothRun points i0 i1 lod sail).vertices =
      stayVertices points i0 ++ back ∧ ∀ vertex ∈ back, Past points i0 vertex.t := by
  have hcontrols := controls_controlPoints points lod hle
  obtain ⟨front, back, hline, hfront, hback⟩ := @lineVertices_split points i0 lod K _ _ _ arithmetic
    (isWavy sail lod) none _ horder hcontrols.sorted (fun i hi ↦ (hcontrols.within i hi).trans_lt hlast)
    (List.mem_of_mem_head? hcontrols.head)
  rw [hfront hcontrols.head, List.nil_append] at hline
  unfold smoothRun
  dsimp only
  rw [hline]
  split
  · obtain ⟨moved, hmoved, htimes⟩ := makeWaves_stay arithmetic points i0 back
    refine ⟨moved, hmoved, fun vertex hvertex ↦ ?_⟩
    have htime : vertex.t ∈ back.map Vertex.t := htimes ▸ List.mem_map_of_mem hvertex
    obtain ⟨before, hbefore, hsame⟩ := List.mem_map.mp htime
    exact hsame ▸ hback before hbefore
  · exact ⟨back, rfl, hback⟩

/-- The line of a run that is not sailed goes through the stay at every control point. -/
theorem smoothRun_through (horder : InOrder points) (hle : i0 ≤ i1) (hlast : i1 < points.length)
    (hindex : index ∈ controlPoints points i0 i1 lod) : ∃ front back,
      (arithmetic.smoothRun points i0 i1 lod false).vertices = front ++ (stayVertices points index ++ back) ∧
        ∀ vertex ∈ back, Past points index vertex.t := by
  have hcontrols := controls_controlPoints points lod hle
  obtain ⟨front, back, hline, -, hback⟩ := @lineVertices_split points index lod K _ _ _ arithmetic
    (isWavy false lod) none _ horder hcontrols.sorted (fun i hi ↦ (hcontrols.within i hi).trans_lt hlast)
    hindex
  exact ⟨front, back, hline, hback⟩

end Runs

end Arithmetic

end OsrsMap.Site
