import OsrsMap.Library.Pieces
import OsrsMap.Library.Log
import OsrsMap.Site.TrailGeometry

/-!
# The chunks of a run

`smoothRun` (`site/src/canvas-map/trail-geometry.js`) cuts the line of a run in chunks, stretches that
share their end vertices, with a box around each, so that what is off screen or out of reach is
skipped a chunk at a time.
-/

namespace OsrsMap.Site

variable {K : Type*} [LinearOrder K]

/-- `[left, top, right, bottom]`. -/
structure Box (K : Type*) where
  left : K
  top : K
  right : K
  bottom : K
deriving DecidableEq, Repr

namespace Box

def around (vertex : Vertex K) : Box K where
  left := vertex.x
  top := vertex.y
  right := vertex.x
  bottom := vertex.y

def extend (box : Box K) (vertex : Vertex K) : Box K where
  left := min box.left vertex.x
  top := min box.top vertex.y
  right := max box.right vertex.x
  bottom := max box.bottom vertex.y

/-- A vertex is in the box. -/
structure Contains (box : Box K) (vertex : Vertex K) : Prop where
  left : box.left ≤ vertex.x
  top : box.top ≤ vertex.y
  right : vertex.x ≤ box.right
  bottom : vertex.y ≤ box.bottom

end Box

/-- The box around vertices; around none the infinite sides stay, and nothing is in such a box. -/
def boundsOf (vertices : List (Vertex K)) : Option (Box K) :=
  vertices.foldl (fun box vertex ↦ some (box.elim (.around vertex) (·.extend vertex))) none

/-- `CHUNK_VERTICES`. -/
def chunkVertices : ℕ := 64

/-- A stretch of a line from vertex `i0` to `i1`. -/
structure Chunk (K : Type*) where
  i0 : ℕ
  i1 : ℕ
  bbox : Option (Box K)

namespace DrawnRun

variable (run : DrawnRun K)

omit [LinearOrder K] in
def count : ℕ := run.vertices.length

def chunkAt (start : ℕ) : Chunk K :=
  let stop := min (start + chunkVertices) (run.count - 1)
  { i0 := start, i1 := stop, bbox := boundsOf (Log.window start (stop + 1) run.vertices) }

def chunks : List (Chunk K) := (Pieces.starts chunkVertices (run.count - 1)).map run.chunkAt

def bbox : Option (Box K) := boundsOf run.vertices

end DrawnRun

/-! ## What the boxes hold -/

theorem boundsOf_concat (vertices : List (Vertex K)) (vertex : Vertex K) :
    boundsOf (vertices ++ [vertex]) =
      some ((boundsOf vertices).elim (.around vertex) (·.extend vertex)) := by
  unfold boundsOf
  rw [List.foldl_append, List.foldl_cons, List.foldl_nil]

theorem boundsOf_eq_none {vertices : List (Vertex K)} : boundsOf vertices = none ↔ vertices = [] := by
  induction vertices using List.reverseRecOn with
  | nil => exact iff_of_true rfl rfl
  | append_singleton vertices vertex =>
    rw [boundsOf_concat]
    simp

theorem Box.contains_around (vertex : Vertex K) : (Box.around vertex).Contains vertex :=
  ⟨le_rfl, le_rfl, le_rfl, le_rfl⟩

theorem Box.contains_extend (box : Box K) (vertex : Vertex K) : (box.extend vertex).Contains vertex :=
  ⟨min_le_right _ _, min_le_right _ _, le_max_right _ _, le_max_right _ _⟩

theorem Box.Contains.extend {box : Box K} {vertex : Vertex K} (h : box.Contains vertex)
    (other : Vertex K) : (box.extend other).Contains vertex :=
  ⟨min_le_of_left_le h.left, min_le_of_left_le h.top, le_max_of_le_left h.right,
    le_max_of_le_left h.bottom⟩

/-- A box holds every vertex it was made of. -/
theorem contains_of_boundsOf {vertices : List (Vertex K)} {box : Box K} (h : boundsOf vertices = some box)
    {vertex : Vertex K} (hvertex : vertex ∈ vertices) : box.Contains vertex := by
  induction vertices using List.reverseRecOn generalizing box with
  | nil => exact absurd hvertex List.not_mem_nil
  | append_singleton vertices last ih =>
    rw [boundsOf_concat, Option.some_inj] at h
    subst h
    cases hbefore : boundsOf vertices with
    | none =>
      rw [boundsOf_eq_none.mp hbefore, List.nil_append, List.mem_singleton] at hvertex
      rw [hvertex]
      exact Box.contains_around last
    | some before =>
      obtain hvertex | hvertex := List.mem_append.mp hvertex
      · exact (ih hbefore hvertex).extend last
      · rw [List.mem_singleton.mp hvertex]
        exact before.contains_extend last

/-! ## What the chunks cover -/

/-- A chunk of a line of two vertices or more has the segments that its piece of the count has. -/
theorem DrawnRun.range'_chunkAt (run : DrawnRun K) (start : ℕ) :
    List.range' (run.chunkAt start).i0 ((run.chunkAt start).i1 - (run.chunkAt start).i0) =
      Pieces.numbers chunkVertices (run.count - 1) start := rfl

end OsrsMap.Site
