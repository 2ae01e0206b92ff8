import OsrsMap.Library.Keyed
import OsrsMap.Library.Leaders
import Mathlib.Algebra.Order.Floor.Ring
import Mathlib.Data.List.Induction
import Mathlib.Tactic.Linarith
import Mathlib.Data.Rat.Floor

/-!
# Stacks of markers

`stackPoints` (`site/src/canvas-map/event-markers.js`): points on screen that are within reach of the
first point of a stack are put on it. Only the stacks of nine cells of a grid are looked at; those are
all that a point can be within reach of. Numbers are exact.
-/

namespace OsrsMap.Site

variable {K α : Type*} [Field K] [LinearOrder K] [FloorRing K]

/-- A place on screen, and its floor. -/
structure Spot (K : Type*) where
  x : K
  y : K
  plane : ℤ
deriving DecidableEq, Repr

/-- `{x, y, plane, ...}`. -/
structure ScreenPoint (K α : Type*) extends Spot K where
  rest : α
deriving DecidableEq, Repr

/-- `{x, y, plane, members}`. -/
abbrev Stack (K α : Type*) := Leaders.Group (Spot K) (ScreenPoint K α)

/-- The key of a cell: its floor, column and row. -/
structure Cell where
  plane : ℤ
  x : ℤ
  y : ℤ
deriving DecidableEq, Repr

/-- The stacks in the order they were begun, and the stacks of every cell, by their place in it. -/
structure Stacking (K α : Type*) where
  cells : Keyed.Map Cell (List ℕ)
  stackList : List (Stack K α)

def cellOf (px : K) (spot : Spot K) : Cell where
  plane := spot.plane
  x := ⌊spot.x / px⌋
  y := ⌊spot.y / px⌋

omit [FloorRing K] in
def inReach (px : K) (anchor point : Spot K) : Bool :=
  |anchor.x - point.x| < px ∧ |anchor.y - point.y| < px

/-- A cell and the eight around it, in the order of the loops. -/
def Cell.around (cell : Cell) : List Cell :=
  [-1, 0, 1].flatMap fun dx ↦ [-1, 0, 1].map fun dy ↦ { cell with x := cell.x + dx, y := cell.y + dy }

namespace Stacking

def empty : Stacking K α where
  cells := ∅
  stackList := []

/-- The first stack of a cell that has the point within reach. -/
def findIn (px : K) (stacking : Stacking K α) (point : ScreenPoint K α) (cell : Cell) : Option ℕ :=
  ((stacking.cells.lookup cell).getD []).find? fun i ↦
    stacking.stackList[i]?.any fun other ↦ inReach px other.anchor point.toSpot

/-- The first stack found in the cells around the point. -/
def nearStack (px : K) (stacking : Stacking K α) (point : ScreenPoint K α) : Option ℕ :=
  (cellOf px point.toSpot).around.findSome? (stacking.findIn px point)

def add (px : K) (stacking : Stacking K α) (point : ScreenPoint K α) : Stacking K α :=
  match stacking.nearStack px point with
  | some i => { stacking with stackList := stacking.stackList.modify i fun stack ↦ stack.join point }
  | none =>
    { cells := Keyed.alter stacking.cells (cellOf px point.toSpot) fun near ↦
        some (near.getD [] ++ [stacking.stackList.length])
      stackList := stacking.stackList ++ [{ anchor := point.toSpot, members := [point] }] }

end Stacking

/-- Stacks screen points that are within `px` of each other. -/
def stackPoints (points : List (ScreenPoint K α)) (px : K) : List (Stack K α) :=
  (points.foldl (Stacking.add px) .empty).stackList

/-! ## Reach -/

omit [FloorRing K] in
/-- A point goes on a stack of its own floor that has it within reach. -/
def Stackable (px : K) (anchor point : Spot K) : Prop :=
  anchor.plane = point.plane ∧ inReach px anchor point = true

omit [FloorRing K] in
instance (px : K) : DecidableRel (Stackable px) := fun _ _ ↦ inferInstanceAs (Decidable (_ ∧ _))

/-- The anchors of the pass that compares each point with every earlier stack of its floor. -/
def plainAnchors (px : K) (points : List (ScreenPoint K α)) : List (Spot K) :=
  Leaders.leaders ScreenPoint.toSpot (Stackable px) points

variable [IsStrictOrderedRing K] {px : K} {anchor point : Spot K}

omit [FloorRing K] [IsStrictOrderedRing K] in
theorem inReach_iff : inReach px anchor point = true ↔
    |anchor.x - point.x| < px ∧ |anchor.y - point.y| < px := decide_eq_true_iff

omit [FloorRing K] in
theorem stackable_refl (hpx : 0 < px) (spot : Spot K) : Stackable px spot spot :=
  ⟨rfl, inReach_iff.mpr ⟨by simpa using hpx, by simpa using hpx⟩⟩

/-- Numbers that are less than a step apart are in the same step or in two next to each other. -/
theorem floor_div_near {a b : K} (hpx : 0 < px) (h : |a - b| < px) :
    ⌊b / px⌋ - 1 ≤ ⌊a / px⌋ ∧ ⌊a / px⌋ ≤ ⌊b / px⌋ + 1 := by
  obtain ⟨hbelow, habove⟩ := abs_lt.mp h
  have hlow : b / px - 1 < a / px := by
    rw [div_sub_one hpx.ne', div_lt_div_iff_of_pos_right hpx]
    linarith
  have hhigh : a / px < b / px + 1 := by
    rw [div_add_one hpx.ne', div_lt_div_iff_of_pos_right hpx]
    linarith
  constructor
  · rw [← Int.floor_sub_one]
    exact Int.floor_le_floor hlow.le
  · rw [← Int.floor_add_one]
    exact Int.floor_le_floor hhigh.le

/-- What can take a point is in one of the cells around it. -/
theorem cellOf_mem_around (hpx : 0 < px) (h : Stackable px anchor point) :
    cellOf px anchor ∈ (cellOf px point).around := by
  obtain ⟨hplane, hreach⟩ := h
  obtain ⟨hx, hy⟩ := inReach_iff.mp hreach
  have hcolumn := floor_div_near hpx hx
  have hrow := floor_div_near hpx hy
  have hstep {a b : ℤ} (hab : b - 1 ≤ a ∧ a ≤ b + 1) : ∃ d ∈ ([-1, 0, 1] : List ℤ), a = b + d := by
    refine ⟨a - b, ?_, by omega⟩
    simp only [List.mem_cons, List.not_mem_nil, or_false]
    omega
  obtain ⟨dx, hdx, hx⟩ := hstep hcolumn
  obtain ⟨dy, hdy, hy⟩ := hstep hrow
  refine List.mem_flatMap.mpr ⟨dx, hdx, List.mem_map.mpr ⟨dy, hdy, ?_⟩⟩
  unfold cellOf
  rw [hplane, hx, hy]

omit [IsStrictOrderedRing K] in
/-- The cells around a cell are on its floor. -/
theorem plane_of_mem_around {cell other : Cell} (h : other ∈ cell.around) : other.plane = cell.plane := by
  obtain ⟨dx, -, hrow⟩ := List.mem_flatMap.mp h
  obtain ⟨dy, -, rfl⟩ := List.mem_map.mp hrow
  rfl

/-! ## The pass -/

namespace Stacking

omit [IsStrictOrderedRing K] in
/-- Every stack is filed in the cell of its anchor, and in no other. -/
def Filed (px : K) (stacking : Stacking K α) : Prop :=
  ∀ cell i, i ∈ (stacking.cells.lookup cell).getD [] ↔
    ∃ stack, stacking.stackList[i]? = some stack ∧ cellOf px stack.anchor = cell

variable {stacking : Stacking K α} {point : ScreenPoint K α}

omit [IsStrictOrderedRing K] in
theorem filed_empty : (empty : Stacking K α).Filed px := by
  intro cell i
  simp [empty]

/-- The nine cells are enough. -/
theorem Filed.picks (h : stacking.Filed px) (hpx : 0 < px) (point : ScreenPoint K α) :
    Leaders.Picks ScreenPoint.toSpot (Stackable px) stacking.stackList point
      (stacking.nearStack px point) := by
  cases hfound : stacking.nearStack px point with
  | some i =>
    obtain ⟨cell, hcell, hi⟩ := List.exists_of_findSome?_eq_some hfound
    obtain ⟨stack, hstack, hat⟩ := (h cell i).mp (List.mem_of_find?_eq_some hi)
    have hreach := List.find?_some hi
    rw [hstack, Option.any_some] at hreach
    refine ⟨stack, hstack, ?_, hreach⟩
    exact (congrArg Cell.plane hat).trans (plane_of_mem_around hcell)
  | none =>
    intro stack hstack hstackable
    obtain ⟨i, hi⟩ := List.mem_iff_getElem?.mp hstack
    have hfiled := (h _ i).mpr ⟨stack, hi, rfl⟩
    have hnone := List.findSome?_eq_none_iff.mp hfound _ (cellOf_mem_around hpx hstackable)
    have hfar := List.find?_eq_none.mp hnone i hfiled
    rw [hi, Option.any_some] at hfar
    exact hfar hstackable.2

omit [IsStrictOrderedRing K] in
/-- The stacks after a point are those before it with the point added. -/
theorem stackList_add : (stacking.add px point).stackList =
    Leaders.add ScreenPoint.toSpot (stacking.nearStack px point) stacking.stackList point := by
  unfold add
  cases stacking.nearStack px point with
  | some i => rfl
  | none => rfl

omit [IsStrictOrderedRing K] in
theorem Filed.add (h : stacking.Filed px) (point : ScreenPoint K α) :
    (stacking.add px point).Filed px := by
  intro cell i
  unfold Stacking.add
  split
  · next joined _ =>
    rw [h cell i]
    dsimp only
    rw [List.getElem?_modify]
    constructor
    · rintro ⟨stack, hstack, hcell⟩
      split
      · exact ⟨stack.join point, by rw [hstack]; rfl, hcell⟩
      · exact ⟨stack, by rw [hstack]; rfl, hcell⟩
    · rintro ⟨stack, hstack, hcell⟩
      obtain ⟨before, hbefore, rfl⟩ := Option.map_eq_some_iff.mp hstack
      refine ⟨before, hbefore, ?_⟩
      rw [← hcell]
      split <;> rfl
  · dsimp only
    rw [Keyed.lookup_alter, List.getElem?_append]
    have hold := h cell i
    by_cases hcell : cell = cellOf px point.toSpot
    · subst hcell
      rw [if_pos rfl, Option.getD_some, List.mem_append, List.mem_singleton, hold]
      constructor
      · rintro (⟨stack, hstack, hat⟩ | rfl)
        · rw [if_pos (List.getElem?_eq_some_iff.mp hstack).1]
          exact ⟨stack, hstack, hat⟩
        · rw [if_neg (lt_irrefl _), Nat.sub_self]
          exact ⟨_, rfl, rfl⟩
      · rintro ⟨stack, hstack, hat⟩
        split at hstack
        · exact .inl ⟨stack, hstack, hat⟩
        · next hbehind =>
          have hlast := (List.getElem?_eq_some_iff.mp hstack).1
          simp only [List.length_singleton] at hlast
          exact .inr (by omega)
    · rw [if_neg hcell, hold]
      constructor
      · rintro ⟨stack, hstack, hat⟩
        rw [if_pos (List.getElem?_eq_some_iff.mp hstack).1]
        exact ⟨stack, hstack, hat⟩
      · rintro ⟨stack, hstack, hat⟩
        split at hstack
        · exact ⟨stack, hstack, hat⟩
        · obtain rfl := List.mem_singleton.mp (List.mem_of_getElem? hstack)
          exact absurd hat.symm hcell

end Stacking

/-- The stacks are those of the pass that looks at every stack. -/
theorem grouped_stackPoints (hpx : 0 < px) (points : List (ScreenPoint K α)) :
    Leaders.Grouped ScreenPoint.toSpot (Stackable px) points (stackPoints points px) := by
  have hrun : (points.foldl (Stacking.add px) .empty).Filed px ∧
      Leaders.Grouped ScreenPoint.toSpot (Stackable px) points
        (points.foldl (Stacking.add px) .empty).stackList := by
    induction points using List.reverseRecOn with
    | nil => exact ⟨Stacking.filed_empty, Leaders.grouped_nil⟩
    | append_singleton points point ih =>
      obtain ⟨hfiled, hgrouped⟩ := ih
      rw [List.foldl_append, List.foldl_cons, List.foldl_nil, Stacking.stackList_add]
      exact ⟨hfiled.add point, hgrouped.add (stackable_refl hpx) (hfiled.picks hpx point)⟩
  exact hrun.2

/-- For every list of points and every positive distance, the stacks have the anchors of the plain
pass; every point is a member of one stack, of its floor, whose anchor is less than the distance away
on both axes; a stack's first member is its anchor; and two anchors of one floor are at least the
distance apart on some axis. -/
theorem stackPoints_eq_plain (points : List (ScreenPoint K α)) (px : K) (hpx : 0 < px) :
    (stackPoints points px).map (·.anchor) = plainAnchors px points ∧
    ((stackPoints points px).flatMap (·.members)).Perm points ∧
    (∀ stack ∈ stackPoints points px, stack.members.head?.map (·.toSpot) = some stack.anchor ∧
      ∀ member ∈ stack.members, member.plane = stack.anchor.plane ∧
        |stack.anchor.x - member.x| < px ∧ |stack.anchor.y - member.y| < px) ∧
    ((stackPoints points px).map (·.anchor)).Pairwise fun a b ↦
      a.plane = b.plane → px ≤ |a.x - b.x| ∨ px ≤ |a.y - b.y| := by
  have h := grouped_stackPoints hpx points
  refine ⟨h.anchors, h.members, fun stack hstack ↦ ⟨h.first stack hstack, ?_⟩, ?_⟩
  · intro member hmember
    obtain ⟨hplane, hreach⟩ := h.around stack hstack member hmember
    exact ⟨hplane.symm, inReach_iff.mp hreach⟩
  · refine h.apart.imp fun {a b} hapart hplane ↦ ?_
    by_contra hclose
    rw [not_or, not_le, not_le] at hclose
    exact hapart ⟨hplane, inReach_iff.mpr hclose⟩

/-- Two points on either side of a cell's border and one on another floor. -/
theorem stackPoints_eq_plain_border :
    let points : List (ScreenPoint ℚ Unit) :=
      [⟨⟨-1, 10, 0⟩, ()⟩, ⟨⟨1, 10, 0⟩, ()⟩, ⟨⟨1, 10, 1⟩, ()⟩]
    (stackPoints points 24).map (·.anchor) = plainAnchors 24 points ∧
    ((stackPoints points 24).flatMap (·.members)).Perm points ∧
    (∀ stack ∈ stackPoints points 24, stack.members.head?.map (·.toSpot) = some stack.anchor ∧
      ∀ member ∈ stack.members, member.plane = stack.anchor.plane ∧
        |stack.anchor.x - member.x| < 24 ∧ |stack.anchor.y - member.y| < 24) ∧
    ((stackPoints points 24).map (·.anchor)).Pairwise fun a b ↦
      a.plane = b.plane → 24 ≤ |a.x - b.x| ∨ 24 ≤ |a.y - b.y| :=
  stackPoints_eq_plain _ 24 (by norm_num)

end OsrsMap.Site
