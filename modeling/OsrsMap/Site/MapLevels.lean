import Mathlib
import OsrsMap.Site.TrailGeometry

/-!
# The terrain in zoom levels

`site/src/canvas-map/map-levels.js`: a tile of a level is two by two tiles of the level below, shrunk
beforehand. The map lists the level tiles in view, draws each on its square, and fills the square of
one that is not loaded from a coarser tile. x goes with the pixels, y against them.
-/

namespace OsrsMap.Site

/-- `MAX_LEVEL`. -/
def maxLevel : ℕ := 3

/-- The level whose tiles are between a half and their full size on screen at a zoom. -/
def levelForZoom (zoom : ℚ) : ℕ :=
  ((List.range maxLevel).takeWhile fun level ↦ zoom * 2 ^ (level + 1) < 1).length

/-- `x >> n`: of the low 32 bits of `x`, by the low 5 bits of `n`. -/
def shiftRight (x : ℤ) (n : ℕ) : ℤ := Int.bmod x (2 ^ 32) / 2 ^ (n % 32)

/-- A square on the map, in map pixels: its top left corner and its size. -/
structure TileRect where
  x : ℚ
  y : ℚ
  size : ℚ
deriving DecidableEq, Repr

/-- Where a tile of a level is drawn. The top is that of the highest map tile in it. -/
def levelTileRect (level : ℕ) (x y : ℤ) : TileRect :=
  let span : ℤ := 2 ^ level
  { x := x * span * mapTileSize
    y := -(y * span + span - 1) * mapTileSize
    size := span * mapTileSize }

/-- What is in view, in map tiles. -/
structure MapView where
  left : ℤ
  right : ℤ
  top : ℤ
  bottom : ℤ
deriving DecidableEq, Repr

/-- The numbers of a loop that counts up to a last one. -/
def countUp (first last : ℤ) : List ℤ := (List.range (last + 1 - first).toNat).map fun i : ℕ ↦ first + i

/-- The numbers of a loop that counts down to a last one. -/
def countDown (first last : ℤ) : List ℤ :=
  (List.range (first + 1 - last).toNat).map fun i : ℕ ↦ first - i

/-- The tiles of a level that are in view. -/
def levelTilesInView (level : ℕ) (view : MapView) : List (ℤ × ℤ) :=
  (countUp (shiftRight view.left level) (shiftRight (view.right - 1) level)).flatMap fun x ↦
    (countDown (shiftRight view.top level) (shiftRight (view.bottom + 1) level)).map fun y ↦ (x, y)

/-- A tile and the square of its image that shows the ground of a finer one. -/
structure AncestorSource where
  x : ℤ
  y : ℤ
  sx : ℚ
  sy : ℚ
  size : ℚ
deriving DecidableEq, Repr

/-- The part of the tile some levels up that shows the same ground. -/
def ancestorSource (steps : ℕ) (x y : ℤ) : AncestorSource :=
  let span : ℤ := 2 ^ steps
  let size := mapTileSize / span
  { x := shiftRight x steps
    y := shiftRight y steps
    sx := (x.tmod span) * size
    sy := (span - 1 - y.tmod span) * size
    size }

/-! ## Integers of 32 bits -/

/-- A number that `>>` does not cut. -/
def IsInt32 (x : ℤ) : Prop := -2 ^ 31 ≤ x ∧ x < 2 ^ 31

theorem shiftRight_eq {x : ℤ} {n : ℕ} (hx : IsInt32 x) (hn : n < 32) : shiftRight x n = x / 2 ^ n := by
  unfold shiftRight
  obtain ⟨hlow, hhigh⟩ := hx
  rw [Int.bmod_eq_of_le (by omega) (by omega), Nat.mod_eq_of_lt hn]

/-- The levels the map asks for are far below 32. -/
theorem levelForZoom_le (zoom : ℚ) : levelForZoom zoom ≤ maxLevel :=
  (List.takeWhile_sublist _).length_le.trans_eq List.length_range

theorem mem_countUp {first last x : ℤ} : x ∈ countUp first last ↔ first ≤ x ∧ x ≤ last := by
  unfold countUp
  rw [List.mem_map]
  constructor
  · rintro ⟨i, hi, rfl⟩
    have := List.mem_range.mp hi
    omega
  · rintro ⟨hfirst, hlast⟩
    exact ⟨(x - first).toNat, List.mem_range.mpr (by omega), by omega⟩

theorem mem_countDown {first last y : ℤ} : y ∈ countDown first last ↔ last ≤ y ∧ y ≤ first := by
  unfold countDown
  rw [List.mem_map]
  constructor
  · rintro ⟨i, hi, rfl⟩
    have := List.mem_range.mp hi
    omega
  · rintro ⟨hlast, hfirst⟩
    exact ⟨(first - y).toNat, List.mem_range.mpr (by omega), by omega⟩

theorem nodup_countUp (first last : ℤ) : (countUp first last).Nodup :=
  List.nodup_range.map fun i j hij ↦ by omega

theorem nodup_countDown (first last : ℤ) : (countDown first last).Nodup :=
  List.nodup_range.map fun i j hij ↦ by omega

/-! ## The tiles in view -/

namespace MapView

/-- A map tile is in view. -/
def Has (view : MapView) (x y : ℤ) : Prop :=
  view.left ≤ x ∧ x < view.right ∧ view.bottom < y ∧ y ≤ view.top

/-- There is a map tile in view. -/
def Nonempty (view : MapView) : Prop := view.left < view.right ∧ view.bottom < view.top

/-- The numbers that the loops shift. -/
def IsInt32 (view : MapView) : Prop :=
  Site.IsInt32 view.left ∧ Site.IsInt32 (view.right - 1) ∧ Site.IsInt32 view.top ∧
    Site.IsInt32 (view.bottom + 1)

end MapView

/-- The tiles listed are those with a map tile in view, each once. -/
def ListsTilesInView (level : ℕ) (view : MapView) : Prop :=
  (levelTilesInView level view).Nodup ∧
    ∀ x y, (x, y) ∈ levelTilesInView level view ↔
      ∃ mapX mapY, view.Has mapX mapY ∧ mapX / 2 ^ level = x ∧ mapY / 2 ^ level = y

theorem nodup_levelTilesInView (level : ℕ) (view : MapView) : (levelTilesInView level view).Nodup := by
  refine List.nodup_flatMap.mpr ⟨fun x _ ↦ ?_, ?_⟩
  · exact (nodup_countDown _ _).map fun y y' hy ↦ (Prod.mk.inj hy).2
  · refine (nodup_countUp _ _).imp fun {x x'} hne ↦ ?_
    rw [Function.onFun, List.disjoint_left]
    intro tile hx hx'
    obtain ⟨y, -, rfl⟩ := List.mem_map.mp hx
    obtain ⟨y', -, heq⟩ := List.mem_map.mp hx'
    exact hne (Prod.mk.inj heq).1.symm

theorem mem_levelTilesInView {level : ℕ} {view : MapView} {x y : ℤ} :
    (x, y) ∈ levelTilesInView level view ↔
      (shiftRight view.left level ≤ x ∧ x ≤ shiftRight (view.right - 1) level) ∧
        shiftRight (view.bottom + 1) level ≤ y ∧ y ≤ shiftRight view.top level := by
  unfold levelTilesInView
  simp only [List.mem_flatMap, List.mem_map, Prod.mk.injEq, mem_countUp, mem_countDown]
  constructor
  · rintro ⟨x, hx, y, hy, rfl, rfl⟩
    exact ⟨hx, hy⟩
  · rintro ⟨hx, hy⟩
    exact ⟨x, hx, y, hy, rfl, rfl⟩

/-- Between two numbers there is one that is divided to a quotient just when the quotient is between
theirs. -/
theorem exists_ediv_eq_iff {span first last quotient : ℤ} (hspan : 0 < span) (h : first ≤ last) :
    (∃ x, first ≤ x ∧ x ≤ last ∧ x / span = quotient) ↔
      first / span ≤ quotient ∧ quotient ≤ last / span := by
  constructor
  · rintro ⟨x, hfirst, hlast, rfl⟩
    exact ⟨Int.ediv_le_ediv hspan hfirst, Int.ediv_le_ediv hspan hlast⟩
  · rintro ⟨hfirst, hlast⟩
    have hend : first < (quotient + 1) * span := (Int.ediv_lt_iff_lt_mul hspan).mp (by omega)
    have hstart : quotient * span ≤ last := (Int.le_ediv_iff_mul_le hspan).mp hlast
    have hbefore : quotient * span ≤ max first (quotient * span) := le_max_right _ _
    have hafter : max first (quotient * span) < (quotient + 1) * span := by
      refine max_lt hend ?_
      rw [add_mul, one_mul]
      omega
    refine ⟨max first (quotient * span), le_max_left _ _, max_le h hstart, ?_⟩
    apply le_antisymm
    · exact Int.lt_add_one_iff.mp ((Int.ediv_lt_iff_lt_mul hspan).mpr hafter)
    · exact (Int.le_ediv_iff_mul_le hspan).mpr hbefore

theorem listsTilesInView {level : ℕ} {view : MapView} (hlevel : level < 32) (hview : view.IsInt32)
    (hnonempty : view.Nonempty ∨ level = 0) : ListsTilesInView level view := by
  refine ⟨nodup_levelTilesInView level view, fun x y ↦ ?_⟩
  obtain ⟨hleft, hright, htop, hbottom⟩ := hview
  rw [mem_levelTilesInView, shiftRight_eq hleft hlevel, shiftRight_eq hright hlevel,
    shiftRight_eq htop hlevel, shiftRight_eq hbottom hlevel]
  obtain ⟨hwide, hhigh⟩ | rfl := hnonempty
  · have hspan : (0 : ℤ) < 2 ^ level := by positivity
    rw [← exists_ediv_eq_iff hspan (by omega), ← exists_ediv_eq_iff hspan (by omega)]
    unfold MapView.Has
    constructor
    · rintro ⟨⟨mapX, hfirst, hlast, hx⟩, mapY, hlow, hhigh, hy⟩
      exact ⟨mapX, mapY, ⟨hfirst, by omega, by omega, hhigh⟩, hx, hy⟩
    · rintro ⟨mapX, mapY, ⟨hfirst, hlast, hlow, hhigh⟩, hx, hy⟩
      exact ⟨⟨mapX, hfirst, by omega, hx⟩, mapY, by omega, hhigh, hy⟩
  · unfold MapView.Has
    simp only [pow_zero, Int.ediv_one]
    constructor
    · rintro ⟨hx, hy⟩
      exact ⟨x, y, ⟨hx.1, by omega, by omega, hy.2⟩, rfl, rfl⟩
    · rintro ⟨mapX, mapY, ⟨hfirst, hlast, hlow, hhigh⟩, rfl, rfl⟩
      omega

/-! ## The squares of tiles -/

section Squares

variable {K : Type*} [Field K] [LinearOrder K] [IsStrictOrderedRing K]

/-- The places in a square. -/
def TileRect.region (rect : TileRect) : Set (K × K) :=
  Set.Ico (rect.x : K) (rect.x + rect.size : ℚ) ×ˢ Set.Ico (rect.y : K) (rect.y + rect.size : ℚ)

/-- The pixels of a column of tiles of a size, or of a row, counted along the pixels. -/
def strip (offset size : ℚ) (index : ℤ) : Set K :=
  Set.Ico ((offset + index * size : ℚ) : K) ((offset + (index + 1) * size : ℚ) : K)

omit [IsStrictOrderedRing K] in
/-- A tile is in its column and, against the pixels, in its row. -/
theorem region_levelTileRect (level : ℕ) (x y : ℤ) :
    ((levelTileRect level x y).region : Set (K × K)) =
      strip 0 (2 ^ level * mapTileSize) x ×ˢ strip mapTileSize (2 ^ level * mapTileSize) (-(y + 1)) := by
  unfold TileRect.region strip levelTileRect
  congr 3 <;> push_cast <;> ring

/-- Two strips do not overlap. -/
theorem disjoint_strip {offset size : ℚ} (hsize : 0 < size) {index index' : ℤ} (hne : index ≠ index') :
    Disjoint (strip offset size index : Set K) (strip offset size index') := by
  have hbehind {i j : ℤ} (hij : i < j) :
      Disjoint (strip offset size i : Set K) (strip offset size j) := by
    refine Set.disjoint_left.mpr fun place hi hj ↦ ?_
    have hends : offset + (i + 1) * size ≤ offset + j * size := by
      have hnext : ((i + 1 : ℤ) : ℚ) ≤ j := by exact_mod_cast hij
      push_cast at hnext
      gcongr
    have hplace := hi.2.trans_le ((Rat.cast_le (K := K)).mpr hends)
    exact absurd hj.1 (not_le.mpr hplace)
  obtain hlt | hgt := hne.lt_or_gt
  · exact hbehind hlt
  · exact (hbehind hgt).symm

/-- A strip of twice the size is two strips. -/
theorem strip_double {offset size : ℚ} (hsize : 0 < size) (index : ℤ) :
    (strip offset (2 * size) index : Set K) =
      strip offset size (2 * index) ∪ strip offset size (2 * index + 1) := by
  have hfirst : ((offset + (2 * index : ℤ) * size : ℚ) : K) ≤
      ((offset + ((2 * index : ℤ) + 1) * size : ℚ) : K) := by
    rw [Rat.cast_le]
    gcongr
    exact le_add_of_nonneg_right zero_le_one
  have hsecond : ((offset + (2 * index + 1 : ℤ) * size : ℚ) : K) ≤
      ((offset + ((2 * index + 1 : ℤ) + 1) * size : ℚ) : K) := by
    rw [Rat.cast_le]
    gcongr
    exact le_add_of_nonneg_right zero_le_one
  have hmiddle : offset + ((2 * index : ℤ) + 1) * size = offset + (2 * index + 1 : ℤ) * size := by
    push_cast
    rfl
  unfold strip
  rw [hmiddle] at hfirst ⊢
  rw [Set.Ico_union_Ico_eq_Ico hfirst hsecond]
  congr 2 <;> push_cast <;> ring

theorem tileSize_pos (level : ℕ) : 0 < 2 ^ level * mapTileSize := by
  unfold mapTileSize
  positivity

theorem disjoint_region {level : ℕ} {x y x' y' : ℤ} (hne : (x, y) ≠ (x', y')) :
    Disjoint ((levelTileRect level x y).region : Set (K × K)) (levelTileRect level x' y').region := by
  rw [region_levelTileRect, region_levelTileRect, Set.disjoint_prod]
  by_cases hx : x = x'
  · have hy : -(y + 1) ≠ -(y' + 1) := fun h ↦ hne (by rw [hx]; congr 1; omega)
    exact .inr (disjoint_strip (tileSize_pos level) hy)
  · exact .inl (disjoint_strip (tileSize_pos level) hx)

/-- A tile is its four children. -/
theorem region_eq_children (level : ℕ) (x y : ℤ) :
    ((levelTileRect (level + 1) x y).region : Set (K × K)) =
      ((levelTileRect level (2 * x) (2 * y)).region ∪
        (levelTileRect level (2 * x + 1) (2 * y)).region) ∪
      ((levelTileRect level (2 * x) (2 * y + 1)).region ∪
        (levelTileRect level (2 * x + 1) (2 * y + 1)).region) := by
  have hsize : 2 ^ (level + 1) * mapTileSize = 2 * (2 ^ level * mapTileSize) := by ring
  have hupper : -(2 * y + 1 + 1) = 2 * -(y + 1) := by ring
  have hlower : -(2 * y + 1) = 2 * -(y + 1) + 1 := by ring
  simp only [region_levelTileRect, hsize, strip_double (tileSize_pos level), hupper, hlower]
  rw [← Set.union_prod, ← Set.union_prod, ← Set.prod_union, Set.union_comm (strip _ _ (2 * -(y + 1)))]

end Squares

/-- A square of a tile's image, as it is drawn with the tile. -/
def TileRect.part (rect : TileRect) (sx sy size : ℚ) : TileRect where
  x := rect.x + sx * (rect.size / mapTileSize)
  y := rect.y + sy * (rect.size / mapTileSize)
  size := size * (rect.size / mapTileSize)

/-- What a coarser tile shows of a tile is where the tile is. -/
theorem part_ancestorSource (level : ℕ) {steps : ℕ} {x y : ℤ} (hsteps : steps < 32) (hx : 0 ≤ x)
    (hx' : x < 2 ^ 31) (hy : 0 ≤ y) (hy' : y < 2 ^ 31) :
    let source := ancestorSource steps x y
    (levelTileRect (level + steps) source.x source.y).part source.sx source.sy source.size =
      levelTileRect level x y := by
  have hxSplit : ((x / 2 ^ steps : ℤ) : ℚ) * 2 ^ steps + (x % 2 ^ steps : ℤ) = x := by
    exact_mod_cast Int.ediv_mul_add_emod x (2 ^ steps)
  have hySplit : ((y / 2 ^ steps : ℤ) : ℚ) * 2 ^ steps + (y % 2 ^ steps : ℤ) = y := by
    exact_mod_cast Int.ediv_mul_add_emod y (2 ^ steps)
  have hscale : (2 ^ steps : ℚ) ≠ 0 := by positivity
  have htile : mapTileSize ≠ 0 := by decide
  unfold ancestorSource TileRect.part levelTileRect
  simp only [shiftRight_eq ⟨by omega, hx'⟩ hsteps, shiftRight_eq ⟨by omega, hy'⟩ hsteps,
    Int.tmod_eq_emod_of_nonneg hx, Int.tmod_eq_emod_of_nonneg hy]
  push_cast
  rw [← hxSplit, ← hySplit]
  congr 1
  · field_simp
    ring
  · field_simp
    ring
  · field_simp
    ring

/-! ## The levels together -/

/-- For every level and every view with a map tile in it (at the finest level for every view) the
tiles with a map tile in view are listed once each; the squares of a level's tiles do not overlap and
a tile's square is that of its four children; what a coarser tile shows of a tile is on its square. -/
theorem levels_show_same_ground :
    (∀ level < 32, ∀ view : MapView, view.IsInt32 → view.Nonempty ∨ level = 0 →
      ListsTilesInView level view) ∧
    (∀ (level : ℕ) (x y x' y' : ℤ), (x, y) ≠ (x', y') →
      Disjoint ((levelTileRect level x y).region : Set (ℝ × ℝ)) (levelTileRect level x' y').region) ∧
    (∀ (level : ℕ) (x y : ℤ), ((levelTileRect (level + 1) x y).region : Set (ℝ × ℝ)) =
      ((levelTileRect level (2 * x) (2 * y)).region ∪
        (levelTileRect level (2 * x + 1) (2 * y)).region) ∪
      ((levelTileRect level (2 * x) (2 * y + 1)).region ∪
        (levelTileRect level (2 * x + 1) (2 * y + 1)).region)) ∧
    ∀ (level steps : ℕ) (x y : ℤ), steps < 32 → 0 ≤ x ∧ x < 2 ^ 31 → 0 ≤ y ∧ y < 2 ^ 31 →
      let source := ancestorSource steps x y
      (levelTileRect (level + steps) source.x source.y).part source.sx source.sy source.size =
        levelTileRect level x y := by
  refine ⟨fun level hlevel view hview ↦ listsTilesInView hlevel hview, ?_, ?_, ?_⟩
  · intro level x y x' y' hne
    exact disjoint_region hne
  · intro level x y
    exact region_eq_children level x y
  · intro level steps x y hsteps hx hy
    exact part_ancestorSource level hsteps hx.1 hx.2 hy.1 hy.2

/-- A view of no width has no map tile in it, yet a tile is listed for it; and the count of `>>` is
cut to five bits. -/
theorem not_listsTilesInView :
    ¬ ListsTilesInView 1 ⟨5, 5, 5, 4⟩ ∧ ¬ ListsTilesInView 32 ⟨5, 6, 5, 4⟩ := by
  constructor
  · rintro ⟨-, hmem⟩
    obtain ⟨mapX, mapY, ⟨hleft, hright, -⟩, -⟩ := (hmem 2 2).mp (by decide)
    dsimp only at hleft hright
    omega
  · rintro ⟨-, hmem⟩
    obtain ⟨mapX, mapY, ⟨hleft, hright, -⟩, hx, -⟩ := (hmem 5 5).mp (by decide)
    dsimp only at hleft hright
    omega

end OsrsMap.Site
