import OsrsMap.Library.Strokes
import OsrsMap.Site.Chunks

/-!
# The stretches of a run

`eachStretch` (`site/src/canvas-map/trail-renderer.js`) walks the line of a run up to an end, a chunk
at a time, and hands over a path for every stretch of a chunk whose vertices share a key. A path is
kept as the places on the line that it goes through; `pointOnRun` says where they are on the map.
-/

namespace OsrsMap.Site

open Strokes (Stroke Pen)

variable {K : Type*}

/-- What `boxInView` reads of a view. -/
structure DrawView (K : Type*) where
  minX : K
  minY : K
  maxX : K
  maxY : K

/-- A box with infinite sides around nothing is never in view. -/
def boxInView [Field K] [LinearOrder K] (view : DrawView K) (box : Option (Box K)) (pad : K) : Bool :=
  box.any fun box ↦ view.minX - pad ≤ box.right ∧ box.left ≤ view.maxX + pad ∧
    view.minY - pad ≤ box.bottom ∧ box.top ≤ view.maxY + pad

/-- The place of a vertex. -/
def LinePlace.vertex (i : ℕ) : LinePlace := { i, frac := 0 }

namespace DrawnRun

/-- The vertex that the end is at or behind. -/
def lastVertex (run : DrawnRun K) (stop : Option LinePlace) : ℕ := stop.elim (run.count - 1) (·.i)

/-- The loop breaks at a chunk that begins behind the end. -/
def isBehind (run : DrawnRun K) (stop : Option LinePlace) (chunk : Chunk K) : Bool :=
  run.lastVertex stop < chunk.i0 ∨ chunk.i0 = run.lastVertex stop ∧ stop.all (·.frac = 0)

/-- Lines between the vertices of a chunk, and one to the end when it lies between two of them. -/
def drawChunk {κ : Type*} [DecidableEq κ] (run : DrawnRun K) (stop : Option LinePlace) (keyOf : ℕ → κ)
    (flushed : List (Stroke κ LinePlace)) (chunk : Chunk K) : List (Stroke κ LinePlace) :=
  let last := run.lastVertex stop
  let pen : Pen κ LinePlace := (List.range' chunk.i0 (min chunk.i1 last - chunk.i0)).foldl
    (fun pen i ↦ pen.lineTo (keyOf i) (.vertex i) (.vertex (i + 1))) { flushed, current := none }
  let pen := match stop with
    | some place =>
      if place.frac ≠ 0 ∧ chunk.i0 ≤ last ∧ last < chunk.i1 then
        pen.lineTo (keyOf last) (.vertex last) place
      else pen
    | none => pen
  pen.flush.flushed

/-- The paths that `flush` gets, with their keys. -/
def eachStretch [Field K] [LinearOrder K] {κ : Type*} [DecidableEq κ] (view : DrawView K)
    (run : DrawnRun K) (stop : Option LinePlace) (pad : K) (keyOf : ℕ → κ) :
    List (Stroke κ LinePlace) :=
  ((run.chunks.takeWhile fun chunk ↦ !run.isBehind stop chunk).filter fun chunk ↦
    boxInView view chunk.bbox pad).foldl (run.drawChunk stop keyOf) []

/-- The line of a run up to an end: the segments before a vertex, and then the part of the next one
up to the end. -/
def lineUpTo (run : DrawnRun K) (stop : Option LinePlace) : List (LinePlace × LinePlace) :=
  ((List.range (run.lastVertex stop)).map fun i ↦ (.vertex i, .vertex (i + 1))) ++
    (stop.filter fun place ↦ 0 < place.frac).toList.map fun place ↦ (.vertex place.i, place)

/-! ## Ends -/

variable {run : DrawnRun K} {place : LinePlace}

/-- A place on the line of a run: at a vertex, or behind one that is not the last. -/
structure Within (run : DrawnRun K) (place : LinePlace) : Prop where
  vertex : place.i ≤ run.count - 1
  nonneg : 0 ≤ place.frac
  between : 0 < place.frac → place.i < run.count - 1

theorem within_of_vertexAtTime {t : ℚ} (h : run.vertexAtTime t = some place) : run.Within place := by
  unfold vertexAtTime at h
  split at h
  · exact absurd h (by simp)
  · next hstarted =>
    have hfirst : holdsAt (fun vertex : Vertex K ↦ decide (vertex.t ≤ t)) run.vertices 0 = true := by
      cases hvertices : run.vertices with
      | nil => simp [hvertices] at hstarted
      | cons first rest => simpa [holdsAt, hvertices] using hstarted
    obtain ⟨hholds, hlast⟩ := bisectLast_holds hfirst (Nat.zero_le (run.vertices.length - 1))
    dsimp only at h
    split at h
    · next vertex next hvertex hnext =>
      obtain rfl := Option.some.inj h
      have hreached : vertex.t ≤ t := by simpa [holdsAt, hvertex] using hholds
      have hbehind := (List.getElem?_eq_some_iff.mp hnext).1
      refine ⟨hlast, ?_, fun _ ↦ Nat.lt_sub_of_add_lt hbehind⟩
      dsimp only
      split
      · next hspan => exact div_nonneg (sub_nonneg.mpr hreached) hspan.le
      · exact le_rfl
    · obtain rfl := Option.some.inj h
      exact ⟨hlast, le_rfl, fun hfrac ↦ absurd hfrac (lt_irrefl _)⟩

/-- The places of the line up to an end are on the map. -/
theorem pointOnRun_isSome [Field K] (hplace : run.Within place) (hcount : run.vertices ≠ []) :
    (run.pointOnRun place).isSome := by
  have hlength := List.length_pos_iff.mpr hcount
  have hvertex : place.i < run.vertices.length := by
    have := hplace.vertex
    unfold count at this
    omega
  simp [pointOnRun, hvertex]

/-! ## What is drawn -/

section Drawing

variable {κ : Type*} [DecidableEq κ] {stop : Option LinePlace} {keyOf : ℕ → κ}
  {flushed : List (Stroke κ LinePlace)}

/-- How many segments are begun up to an end. -/
def reach (run : DrawnRun K) (stop : Option LinePlace) : ℕ :=
  run.lastVertex stop + if stop.any (0 < ·.frac) then 1 else 0

/-- What is drawn of the segment that begins at a vertex. -/
def segmentAt (run : DrawnRun K) (stop : Option LinePlace) (i : ℕ) : LinePlace × LinePlace :=
  (.vertex i, if i < run.lastVertex stop then .vertex (i + 1) else stop.getD (.vertex (i + 1)))

theorem map_segmentAt_of_lt {numbers : List ℕ} (h : ∀ i ∈ numbers, i < run.lastVertex stop) :
    numbers.map (run.segmentAt stop) = numbers.map fun i ↦ (.vertex i, .vertex (i + 1)) :=
  List.map_congr_left fun i hi ↦ by rw [segmentAt, if_pos (h i hi)]

theorem segmentAt_last (place : LinePlace) :
    run.segmentAt (some place) place.i = (.vertex place.i, place) := by
  unfold segmentAt lastVertex
  rw [Option.elim_some, if_neg (lt_irrefl _), Option.getD_some]

/-- The line up to an end, segment by segment. -/
theorem map_segmentAt_range (run : DrawnRun K) (stop : Option LinePlace) :
    (List.range (run.reach stop)).map (run.segmentAt stop) = run.lineUpTo stop := by
  have hbefore : (List.range (run.lastVertex stop)).map (run.segmentAt stop) =
      (List.range (run.lastVertex stop)).map fun i ↦ (.vertex i, .vertex (i + 1)) :=
    map_segmentAt_of_lt fun i ↦ List.mem_range.mp
  unfold reach lineUpTo
  rw [← hbefore]
  cases stop with
  | none => simp
  | some place =>
    by_cases hfrac : 0 < place.frac
    · simp [hfrac, List.range_succ, lastVertex, segmentAt_last, Option.filter]
    · simp [hfrac, Option.filter]

/-- The line of a chunk is drawn up to the end. -/
theorem drawChunk_eq [LinearOrder K] (hstop : ∀ place ∈ stop, run.Within place) (start : ℕ) :
    run.drawChunk stop keyOf flushed (run.chunkAt start) =
      (Pen.draw { flushed, current := none } (fun place ↦ keyOf place.i)
        ((Pieces.numbers chunkVertices (run.reach stop) start).map (run.segmentAt stop))).strokes := by
  have hlast : run.lastVertex stop ≤ run.count - 1 := by
    cases stop with
    | none => exact le_rfl
    | some place => exact (hstop place rfl).vertex
  have hloop : (List.range' (run.chunkAt start).i0
      (min (run.chunkAt start).i1 (run.lastVertex stop) - (run.chunkAt start).i0)) =
        Pieces.numbers chunkVertices (run.lastVertex stop) start := by
    unfold chunkAt Pieces.numbers
    dsimp only
    rw [min_assoc, min_eq_right hlast]
  have hsegments : (Pieces.numbers chunkVertices (run.lastVertex stop) start).map (run.segmentAt stop) =
      (Pieces.numbers chunkVertices (run.lastVertex stop) start).map
        fun i ↦ (.vertex i, .vertex (i + 1)) :=
    map_segmentAt_of_lt fun i hi ↦ (Pieces.mem_numbers.mp hi).2.2
  have hdraw : (Pieces.numbers chunkVertices (run.lastVertex stop) start).foldl
      (fun pen i ↦ pen.lineTo (keyOf i) (.vertex i) (.vertex (i + 1)))
        ({ flushed, current := none } : Pen κ LinePlace) =
      Pen.draw { flushed, current := none } (fun place ↦ keyOf place.i)
        ((Pieces.numbers chunkVertices (run.lastVertex stop) start).map (run.segmentAt stop)) := by
    rw [hsegments, Pen.draw, List.foldl_map]
    rfl
  unfold drawChunk
  dsimp only
  rw [hloop, hdraw, Pen.flushed_flush]
  cases stop with
  | none => rfl
  | some place =>
    obtain ⟨hvertex, hnonneg, hbetween⟩ := hstop place rfl
    by_cases hfrac : 0 < place.frac
    · have hreach : run.reach (some place) = place.i + 1 := by simp [reach, lastVertex, hfrac]
      have hwithin : (place.frac ≠ 0 ∧ (run.chunkAt start).i0 ≤ run.lastVertex (some place) ∧
          run.lastVertex (some place) < (run.chunkAt start).i1) ↔
            start ≤ place.i ∧ place.i < start + chunkVertices := by
        have := hbetween hfrac
        simp only [chunkAt, lastVertex, Option.elim_some, lt_min_iff, this, and_true]
        exact and_iff_right hfrac.ne'
      dsimp only
      rw [hreach, Pieces.numbers_succ, List.map_append]
      by_cases hchunk : start ≤ place.i ∧ place.i < start + chunkVertices
      · rw [if_pos (hwithin.mpr hchunk), if_pos hchunk, List.map_singleton, segmentAt_last, Pen.draw,
          Pen.draw, List.foldl_append]
        rfl
      · rw [if_neg (mt hwithin.mp hchunk), if_neg hchunk, List.map_nil, List.append_nil]
        rfl
    · have hzero : place.frac = 0 := le_antisymm (not_lt.mp hfrac) hnonneg
      have hreach : run.reach (some place) = place.i := by simp [reach, lastVertex, hzero]
      dsimp only
      rw [if_neg fun h ↦ h.1 hzero, hreach]
      rfl

/-- What is drawn of a chunk goes on with what was drawn before it. -/
theorem drawChunk_spec [LinearOrder K] (hstop : ∀ place ∈ stop, run.Within place)
    (hflushed : ∀ stroke ∈ flushed, ∀ segment ∈ stroke.segments, keyOf segment.1.i = stroke.key)
    (start : ℕ) :
    let strokes := run.drawChunk stop keyOf flushed (run.chunkAt start)
    strokes.flatMap Stroke.segments = flushed.flatMap Stroke.segments ++
        (Pieces.numbers chunkVertices (run.reach stop) start).map (run.segmentAt stop) ∧
      ∀ stroke ∈ strokes, ∀ segment ∈ stroke.segments, keyOf segment.1.i = stroke.key := by
  have hline : ((Pieces.numbers chunkVertices (run.reach stop) start).map (run.segmentAt stop)).IsChain
      fun a b ↦ a.2 = b.1 := by
    refine List.isChain_iff_getElem.mpr fun index hindex ↦ ?_
    have hmem := List.getElem_mem (l := Pieces.numbers chunkVertices (run.reach stop) start)
      (n := index + 1) (by simpa using hindex)
    have hreach := (Pieces.mem_numbers.mp hmem).2.2
    simp only [List.getElem_map, Pieces.numbers, List.getElem_range'] at hreach ⊢
    have hbefore : start + 1 * index < run.lastVertex stop := by
      unfold reach at hreach
      split at hreach <;> omega
    rw [segmentAt, if_pos hbefore, segmentAt]
    rfl
  have hkeyed : ({ flushed, current := none } : Pen κ LinePlace).Keyed (fun place ↦ keyOf place.i) := by
    simpa [Pen.Keyed, Pen.strokes] using hflushed
  obtain ⟨hsegments, hkeys⟩ := Pen.draw_spec hline (fun _ _ _ h ↦ absurd h (by simp)) hkeyed
  rw [drawChunk_eq hstop]
  refine ⟨hsegments.trans ?_, hkeys⟩
  simp [Pen.segments, Pen.strokes]

/-- Of a chunk behind the end nothing is drawn. -/
theorem drawChunk_of_behind [LinearOrder K] (hstop : ∀ place ∈ stop, run.Within place) {start : ℕ}
    (hbehind : run.isBehind stop (run.chunkAt start) = true) :
    run.drawChunk stop keyOf flushed (run.chunkAt start) = flushed := by
  have hreach : run.reach stop ≤ start := by
    unfold isBehind at hbehind
    obtain hlt | ⟨heq, hfrac⟩ := of_decide_eq_true hbehind
    · have : run.reach stop ≤ run.lastVertex stop + 1 := by
        unfold reach
        split <;> omega
      exact this.trans hlt
    · have hnone : stop.any (0 < ·.frac) = false := by
        cases stop with
        | none => rfl
        | some place => simpa using (of_decide_eq_true hfrac).le
      rw [reach, hnone]
      exact heq.ge
  have hnumbers : Pieces.numbers chunkVertices (run.reach stop) start = [] := by
    refine List.eq_nil_iff_forall_not_mem.mpr fun i hi ↦ ?_
    obtain ⟨hstart, -, hstop⟩ := Pieces.mem_numbers.mp hi
    omega
  rw [drawChunk_eq hstop, hnumbers]
  exact List.append_nil flushed

/-- Behind a chunk that is behind the end all are. -/
theorem isBehind_of_lt [LinearOrder K] {start next : ℕ} (hlt : start < next)
    (h : run.isBehind stop (run.chunkAt start) = true) :
    run.isBehind stop (run.chunkAt next) = true := by
  refine decide_eq_true (.inl ?_)
  obtain hbehind | ⟨hat, -⟩ := of_decide_eq_true h
  · exact hbehind.trans hlt
  · exact hat.ge.trans_lt hlt

/-- With all chunks in view the loop is as good as one over all of them. -/
theorem eachStretch_eq [Field K] [LinearOrder K] {view : DrawView K} {pad : K}
    (hstop : ∀ place ∈ stop, run.Within place)
    (hview : ∀ chunk ∈ run.chunks, boxInView view chunk.bbox pad = true) :
    eachStretch view run stop pad keyOf =
      (Pieces.starts chunkVertices (run.count - 1)).foldl
        (fun flushed start ↦ run.drawChunk stop keyOf flushed (run.chunkAt start)) [] := by
  have hsorted : run.chunks.Pairwise fun a b ↦
      (!run.isBehind stop b) = true → (!run.isBehind stop a) = true := by
    refine List.pairwise_map.mpr ((Pieces.sorted_starts (by decide) _).imp fun {a b} hab ↦ ?_)
    simp only [Bool.not_eq_true', ← Bool.not_eq_true]
    exact mt (isBehind_of_lt hab)
  have hall : (run.chunks.takeWhile fun chunk ↦ !run.isBehind stop chunk).filter
      (fun chunk ↦ boxInView view chunk.bbox pad) =
        run.chunks.takeWhile fun chunk ↦ !run.isBehind stop chunk :=
    List.filter_eq_self.mpr fun chunk hchunk ↦ hview chunk ((List.takeWhile_sublist _).mem hchunk)
  unfold eachStretch
  rw [hall, takeWhile_eq_filter hsorted, List.foldl_filter, chunks, List.foldl_map]
  congr 1
  funext flushed start
  split
  · rfl
  · next hbehind => exact (drawChunk_of_behind hstop (by simpa using hbehind)).symm

/-- With all chunks in view, the paths that `flush` gets have every segment of the line up to the end
once, and in order, and every segment of a path has its key. -/
theorem eachStretch_draws [Field K] [LinearOrder K] (view : DrawView K) (run : DrawnRun K)
    (stop : Option LinePlace) (pad : K) (keyOf : ℕ → κ)
    (hview : ∀ chunk ∈ run.chunks, boxInView view chunk.bbox pad = true)
    (hstop : ∀ place ∈ stop, ∃ t, run.vertexAtTime t = some place) :
    (eachStretch view run stop pad keyOf).flatMap Stroke.segments = run.lineUpTo stop ∧
      ∀ stroke ∈ eachStretch view run stop pad keyOf, ∀ segment ∈ stroke.segments,
        keyOf segment.1.i = stroke.key := by
  have hwithin : ∀ place ∈ stop, run.Within place := by
    intro place hplace
    obtain ⟨t, ht⟩ := hstop place hplace
    exact within_of_vertexAtTime ht
  have hrun (starts : List ℕ) (flushed : List (Stroke κ LinePlace))
      (hflushed : ∀ stroke ∈ flushed, ∀ segment ∈ stroke.segments, keyOf segment.1.i = stroke.key) :
      let strokes := starts.foldl
        (fun flushed start ↦ run.drawChunk stop keyOf flushed (run.chunkAt start)) flushed
      strokes.flatMap Stroke.segments = flushed.flatMap Stroke.segments ++
          (starts.flatMap (Pieces.numbers chunkVertices (run.reach stop))).map (run.segmentAt stop) ∧
        ∀ stroke ∈ strokes, ∀ segment ∈ stroke.segments, keyOf segment.1.i = stroke.key := by
    induction starts generalizing flushed with
    | nil => exact ⟨(List.append_nil _).symm, hflushed⟩
    | cons start starts ih =>
      obtain ⟨hsegments, hkeys⟩ := drawChunk_spec hwithin hflushed start
      obtain ⟨hsegments', hkeys'⟩ := ih _ hkeys
      refine ⟨hsegments'.trans ?_, hkeys'⟩
      rw [hsegments, List.flatMap_cons, List.map_append, List.append_assoc]
  have hreach : run.reach stop ≤ max (run.count - 1) 1 := by
    unfold reach
    cases stop with
    | none => simp [lastVertex]
    | some place =>
      obtain ⟨hvertex, -, hbetween⟩ := hwithin place rfl
      simp only [lastVertex, Option.elim_some, Option.any_some, decide_eq_true_eq]
      split
      · next hfrac =>
        have := hbetween hfrac
        omega
      · omega
  rw [eachStretch_eq hwithin hview]
  obtain ⟨hsegments, hkeys⟩ := hrun (Pieces.starts chunkVertices (run.count - 1)) [] (by simp)
  refine ⟨hsegments.trans ?_, hkeys⟩
  rw [Pieces.flatMap_numbers (by decide) hreach, map_segmentAt_range]
  rfl

end Drawing

/-- A hundred segments east, a second each. -/
def east : DrawnRun ℚ where
  i0 := 0
  i1 := 100
  sail := false
  vertices := (List.range 101).map fun (i : ℕ) ↦ ⟨i, 0, i, 0, i⟩

/-- Vertex 64 is the last of a chunk and the first of the next. -/
theorem vertexAtTime_east {frac : ℚ} (hnonneg : 0 ≤ frac) (hlt : frac < 1) :
    east.vertexAtTime (64 + frac) = some ⟨64, frac⟩ := by
  have hholds : holdsAt (fun vertex : Vertex ℚ ↦ decide (vertex.t ≤ 64 + frac)) east.vertices =
      fun i ↦ decide (i ≤ 64) := by
    funext i
    by_cases hi : i < 101
    · have hreached : (i : ℚ) ≤ 64 + frac ↔ i ≤ 64 := by
        constructor
        · intro hle
          have hbefore : (i : ℚ) < 65 := by linarith
          have : i < 65 := by exact_mod_cast hbefore
          omega
        · intro hle
          have hbefore : (i : ℚ) ≤ 64 := by exact_mod_cast hle
          linarith
      simp [holdsAt, east, hi, hreached]
    · have hafter : ¬i ≤ 64 := by omega
      simp [holdsAt, east, hi, hafter]
  have hsearch : bisectLast (holdsAt (fun vertex : Vertex ℚ ↦ decide (vertex.t ≤ 64 + frac)) east.vertices)
      0 (east.vertices.length - 1) = 64 := by
    rw [hholds]
    simp [bisectLast, east]
  have hstarted : ¬east.vertices.head?.all (64 + frac < ·.t) := by
    simpa [east, List.head?_range] using hnonneg.trans (le_add_of_nonneg_left (by norm_num))
  unfold vertexAtTime
  rw [if_neg hstarted, hsearch]
  norm_num [east]

/-- An end on the border of two chunks, and one halfway up the segment behind it. -/
theorem eachStretch_draws_east :
    let strokes (frac : ℚ) := eachStretch ⟨0, -20, 100, 20⟩ east (some ⟨64, frac⟩) 0 (· / 50)
    ((strokes 0).flatMap Stroke.segments = east.lineUpTo (some ⟨64, 0⟩) ∧
        ∀ stroke ∈ strokes 0, ∀ segment ∈ stroke.segments, segment.1.i / 50 = stroke.key) ∧
      (strokes (1 / 2)).flatMap Stroke.segments = east.lineUpTo (some ⟨64, 1 / 2⟩) ∧
        ∀ stroke ∈ strokes (1 / 2), ∀ segment ∈ stroke.segments, segment.1.i / 50 = stroke.key := by
  have hview : ∀ chunk ∈ east.chunks, boxInView ⟨0, -20, 100, 20⟩ chunk.bbox 0 = true := by
    decide +kernel
  have hdraws {frac : ℚ} (hnonneg : 0 ≤ frac) (hlt : frac < 1) :=
    eachStretch_draws ⟨0, -20, 100, 20⟩ east (some ⟨64, frac⟩) 0 (· / 50) hview
      fun _ hplace ↦ ⟨64 + frac, (Option.some.inj hplace) ▸ vertexAtTime_east hnonneg hlt⟩
  exact ⟨hdraws le_rfl one_pos, hdraws one_half_pos.le one_half_lt_one⟩

end DrawnRun

end OsrsMap.Site
