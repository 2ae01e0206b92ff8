import OsrsMap.Library.Settling
import OsrsMap.Site.Stacks

/-!
# Clusters of players

`clusterPoints` (`site/src/canvas-map/event-markers.js`): the points of each cell of a grid are a group,
and the first two groups of one floor whose centres are near are merged until there are none. Numbers
are exact.
-/

namespace OsrsMap.Site

variable {K α : Type*} [Field K] [LinearOrder K]

/-- `{members}`: there is always a first member. -/
structure PointGroup (K α : Type*) where
  first : ScreenPoint K α
  others : List (ScreenPoint K α)

/-- `{x, y, plane, members}`. -/
structure Cluster (K α : Type*) extends Spot K where
  members : List (ScreenPoint K α)
deriving DecidableEq, Repr

namespace PointGroup

def members (group : PointGroup K α) : List (ScreenPoint K α) := group.first :: group.others

/-- `members.push(...)`. -/
def push (group : PointGroup K α) (more : List (ScreenPoint K α)) : PointGroup K α :=
  { group with others := group.others ++ more }

/-- `center(members)`. -/
def center (group : PointGroup K α) : K × K :=
  ((group.members.map (·.x)).sum / group.members.length,
    (group.members.map (·.y)).sum / group.members.length)

def closeBy (cellPx : K) (group other : PointGroup K α) : Bool :=
  group.first.plane = other.first.plane ∧ |group.center.1 - other.center.1| < cellPx ∧
    |group.center.2 - other.center.2| < cellPx

def toCluster (group : PointGroup K α) : Cluster K α where
  x := group.center.1
  y := group.center.2
  plane := group.first.plane
  members := group.members

end PointGroup

/-- `cells.get(key).push(point)`: a cell is put behind the others with its first point. -/
def addToCell (key : Cell) (point : ScreenPoint K α) :
    List (Cell × PointGroup K α) → List (Cell × PointGroup K α)
  | [] => [(key, { first := point, others := [] })]
  | (cell, group) :: cells =>
    if cell = key then (cell, group.push [point]) :: cells
    else (cell, group) :: addToCell key point cells

/-- The groups of the cells, in the order of their first points. -/
def cellGroups [FloorRing K] (points : List (ScreenPoint K α)) (cellPx : K) : List (PointGroup K α) :=
  (points.foldl (fun cells point ↦ addToCell (cellOf cellPx point.toSpot) point cells) []).map (·.2)

/-- One round of `while (merged)`: the first two groups that are close are merged. -/
def mergeOnce (cellPx : K) : List (PointGroup K α) → Option (List (PointGroup K α))
  | [] => none
  | group :: later =>
    match later.findIdx? (group.closeBy cellPx) with
    | some j => some (group.push ((later[j]?.map (·.members)).getD []) :: later.eraseIdx j)
    | none => (mergeOnce cellPx later).map (group :: ·)

/-- The groups when no two are close any more. -/
def mergedGroups (cellPx : K) (groups : List (PointGroup K α)) : List (PointGroup K α) :=
  Settling.rounds (mergeOnce cellPx) groups.length groups

/-- Groups screen points that are close together. -/
def clusterPoints [FloorRing K] (points : List (ScreenPoint K α)) (cellPx : K) : List (Cluster K α) :=
  (mergedGroups cellPx (cellGroups points cellPx)).map (·.toCluster)

variable {cellPx : K} {points : List (ScreenPoint K α)} {point : ScreenPoint K α}
  {group other : PointGroup K α} {groups after : List (PointGroup K α)}

namespace PointGroup

omit [Field K] [LinearOrder K] in
@[simp]
theorem members_push (group : PointGroup K α) (more : List (ScreenPoint K α)) :
    (group.push more).members = group.members ++ more := rfl

theorem closeBy_iff : group.closeBy cellPx other = true ↔ group.first.plane = other.first.plane ∧
    |group.center.1 - other.center.1| < cellPx ∧ |group.center.2 - other.center.2| < cellPx :=
  decide_eq_true_iff

/-- All members are on the floor of the first. -/
def OnePlane (group : PointGroup K α) : Prop :=
  ∀ member ∈ group.members, member.plane = group.first.plane

omit [Field K] [LinearOrder K] in
theorem OnePlane.push {more : List (ScreenPoint K α)} (h : group.OnePlane)
    (hmore : ∀ member ∈ more, member.plane = group.first.plane) : (group.push more).OnePlane := by
  intro member hmember
  rw [members_push] at hmember
  obtain hmember | hmember := List.mem_append.mp hmember
  · exact h member hmember
  · exact hmore member hmember

theorem length_mul_sum_div (group : PointGroup K α) [IsStrictOrderedRing K] (sum : K) :
    (group.members.length : K) * (sum / group.members.length) = sum := by
  apply mul_div_cancel₀
  exact Nat.cast_ne_zero.mpr (Nat.succ_ne_zero _)

end PointGroup

/-! ## The cells -/

/-- The groups have all points between them, and each is of one floor. -/
structure Covers (points : List (ScreenPoint K α)) (groups : List (PointGroup K α)) : Prop where
  members : (groups.flatMap (·.members)).Perm points
  onePlane : ∀ group ∈ groups, group.OnePlane

/-- The groups of cells have the points between them, each on the floor of its cell. -/
structure CellsCover (points : List (ScreenPoint K α)) (cells : List (Cell × PointGroup K α)) : Prop where
  members : (cells.flatMap (·.2.members)).Perm points
  planes : ∀ entry ∈ cells, ∀ member ∈ entry.2.members, member.plane = entry.1.plane

omit [Field K] [LinearOrder K] in
theorem flatMap_addToCell (key : Cell) (point : ScreenPoint K α) (cells : List (Cell × PointGroup K α)) :
    ((addToCell key point cells).flatMap (·.2.members)).Perm (cells.flatMap (·.2.members) ++ [point]) := by
  induction cells with
  | nil => exact List.Perm.refl _
  | cons entry cells ih =>
    obtain ⟨cell, group⟩ := entry
    rw [addToCell]
    split
    · calc ((cell, group.push [point]) :: cells).flatMap (·.2.members)
        _ = group.members ++ ([point] ++ cells.flatMap (·.2.members)) := by
          rw [List.flatMap_cons, PointGroup.members_push, List.append_assoc]
        List.Perm _ (group.members ++ (cells.flatMap (·.2.members) ++ [point])) :=
          List.perm_append_comm.append_left _
        _ = ((cell, group) :: cells).flatMap (·.2.members) ++ [point] := by
          rw [List.flatMap_cons, List.append_assoc]
    · rw [List.flatMap_cons, List.flatMap_cons, List.append_assoc]
      exact ih.append_left _

omit [Field K] [LinearOrder K] in
theorem CellsCover.addToCell {cells : List (Cell × PointGroup K α)} {key : Cell}
    (h : CellsCover points cells) (hkey : point.plane = key.plane) :
    CellsCover (points ++ [point]) (addToCell key point cells) where
  members := (flatMap_addToCell key point cells).trans (h.members.append_right _)
  planes := by
    have hplanes := h.planes
    clear h
    induction cells with
    | nil =>
      intro entry hentry member hmember
      obtain rfl := List.mem_singleton.mp hentry
      obtain rfl := List.mem_singleton.mp hmember
      exact hkey
    | cons first cells ih =>
      obtain ⟨cell, group⟩ := first
      obtain ⟨hfirst, hrest⟩ := List.forall_mem_cons.mp hplanes
      rw [Site.addToCell]
      split
      · next hcell =>
        refine List.forall_mem_cons.mpr ⟨fun member hmember ↦ ?_, hrest⟩
        have hpushed : member ∈ group.members ++ [point] := hmember
        obtain hold | hnew := List.mem_append.mp hpushed
        · exact hfirst member hold
        · rw [List.mem_singleton.mp hnew, hkey, ← hcell]
      · exact List.forall_mem_cons.mpr ⟨hfirst, ih hrest⟩

theorem covers_cellGroups [FloorRing K] (points : List (ScreenPoint K α)) (cellPx : K) :
    Covers points (cellGroups points cellPx) := by
  have hcells : CellsCover points (points.foldl
      (fun cells point ↦ addToCell (cellOf cellPx point.toSpot) point cells) []) := by
    induction points using List.reverseRecOn with
    | nil => exact ⟨.nil, fun _ hentry ↦ absurd hentry List.not_mem_nil⟩
    | append_singleton points point ih =>
      rw [List.foldl_append, List.foldl_cons, List.foldl_nil]
      exact ih.addToCell rfl
  constructor
  · rw [cellGroups, List.flatMap_map]
    exact hcells.members
  · intro group hgroup member hmember
    obtain ⟨entry, hentry, rfl⟩ := List.mem_map.mp hgroup
    have hfirst := hcells.planes entry hentry entry.2.first List.mem_cons_self
    exact (hcells.planes entry hentry member hmember).trans hfirst.symm

/-! ## The merging -/

/-- A round puts the members of a group behind those of an earlier one that is close. -/
theorem mergeOnce_eq_some (h : mergeOnce cellPx groups = some after) :
    ∃ before group between other behind, groups = before ++ group :: (between ++ other :: behind) ∧
      after = before ++ group.push other.members :: (between ++ behind) ∧
      group.closeBy cellPx other = true := by
  induction groups generalizing after with
  | nil => cases h
  | cons group later ih =>
    rw [mergeOnce] at h
    split at h
    · next j hj =>
      obtain ⟨hlt, hclose, -⟩ := List.findIdx?_eq_some_iff_getElem.mp hj
      refine ⟨[], group, later.take j, later[j], later.drop (j + 1), ?_, ?_, hclose⟩
      · rw [List.nil_append, ← List.drop_eq_getElem_cons hlt, List.take_append_drop]
      · rw [← Option.some.inj h, List.getElem?_eq_getElem hlt, List.eraseIdx_eq_take_drop_succ]
        rfl
    · obtain ⟨rest, hrest, rfl⟩ := Option.map_eq_some_iff.mp h
      obtain ⟨before, merged, between, other, behind, rfl, rfl, hclose⟩ := ih hrest
      exact ⟨group :: before, merged, between, other, behind, rfl, rfl, hclose⟩

/-- Where a round finds nothing to merge, no two groups are close. -/
theorem apart_of_mergeOnce_eq_none (h : mergeOnce cellPx groups = none) :
    groups.Pairwise fun group other ↦ ¬ group.closeBy cellPx other = true := by
  induction groups with
  | nil => exact .nil
  | cons group later ih =>
    rw [mergeOnce] at h
    split at h
    · cases h
    · next hnone =>
      refine List.pairwise_cons.mpr ⟨fun other hother ↦ ?_, ih (Option.map_eq_none_iff.mp h)⟩
      exact Bool.not_eq_true _ ▸ List.findIdx?_eq_none_iff.mp hnone other hother

theorem length_of_mergeOnce (h : mergeOnce cellPx groups = some after) : after.length < groups.length := by
  obtain ⟨before, group, between, other, behind, rfl, rfl, -⟩ := mergeOnce_eq_some h
  simp

theorem Covers.mergeOnce (h : mergeOnce cellPx groups = some after) (hcovers : Covers points groups) :
    Covers points after := by
  obtain ⟨before, group, between, other, behind, rfl, rfl, hclose⟩ := mergeOnce_eq_some h
  have hplane := (PointGroup.closeBy_iff.mp hclose).1
  obtain ⟨hmembers, hplanes⟩ := hcovers
  rw [List.forall_mem_append, List.forall_mem_cons, List.forall_mem_append, List.forall_mem_cons] at hplanes
  obtain ⟨hbefore, hgroup, hbetween, hother, hbehind⟩ := hplanes
  constructor
  · refine List.Perm.trans ?_ hmembers
    simp only [List.flatMap_append, List.flatMap_cons, PointGroup.members_push, List.append_assoc]
    apply List.Perm.append_left
    apply List.Perm.append_left
    rw [← List.append_assoc, ← List.append_assoc]
    exact List.perm_append_comm.append_right _
  · rw [List.forall_mem_append, List.forall_mem_cons, List.forall_mem_append]
    refine ⟨hbefore, hgroup.push fun member hmember ↦ ?_, hbetween, hbehind⟩
    exact (hother member hmember).trans hplane.symm

theorem ends_mergedGroups (cellPx : K) (groups : List (PointGroup K α)) :
    Settling.Ends (mergeOnce cellPx) groups (mergedGroups cellPx groups) :=
  Settling.ends_rounds (fun _ _ ↦ length_of_mergeOnce) le_rfl

/-- For every list of points and every cell size, the merging ends; the clusters have all points between
them and none twice; the members of each are on its floor, and its place is their mean; and no two of
one floor have their places less than the cell size apart on both axes. -/
theorem clusterPoints_apart [FloorRing K] [IsStrictOrderedRing K] (points : List (ScreenPoint K α))
    (cellPx : K) :
    Settling.Ends (mergeOnce cellPx) (cellGroups points cellPx)
      (mergedGroups cellPx (cellGroups points cellPx)) ∧
    ((clusterPoints points cellPx).flatMap (·.members)).Perm points ∧
    (∀ cluster ∈ clusterPoints points cellPx, cluster.members ≠ [] ∧
      (∀ member ∈ cluster.members, member.plane = cluster.plane) ∧
      cluster.members.length * cluster.x = (cluster.members.map (·.x)).sum ∧
      cluster.members.length * cluster.y = (cluster.members.map (·.y)).sum) ∧
    (clusterPoints points cellPx).Pairwise fun a b ↦
      a.plane = b.plane → cellPx ≤ |a.x - b.x| ∨ cellPx ≤ |a.y - b.y| := by
  have hends := ends_mergedGroups cellPx (cellGroups points cellPx)
  have hcovers : Covers points (mergedGroups cellPx (cellGroups points cellPx)) :=
    hends.keeps (fun _ _ ↦ Covers.mergeOnce) (covers_cellGroups points cellPx)
  refine ⟨hends, ?_, fun cluster hcluster ↦ ?_, ?_⟩
  · rw [clusterPoints, List.flatMap_map]
    exact hcovers.members
  · obtain ⟨group, hgroup, rfl⟩ := List.mem_map.mp hcluster
    refine ⟨List.cons_ne_nil _ _, hcovers.onePlane group hgroup, ?_, ?_⟩
    · apply group.length_mul_sum_div
    · apply group.length_mul_sum_div
  · apply List.pairwise_map.mpr
    apply (apart_of_mergeOnce_eq_none hends.settled).imp
    intro group other hapart hplane
    by_contra hclose
    rw [not_or, not_le, not_le] at hclose
    exact hapart (PointGroup.closeBy_iff.mpr ⟨hplane, hclose⟩)

/-- The third point is near neither of the first two, but near where they are merged. -/
theorem clusterPoints_apart_three :
    let points : List (ScreenPoint ℚ Unit) :=
      [⟨⟨1, 10, 0⟩, ()⟩, ⟨⟨19, 28, 0⟩, ()⟩, ⟨⟨26, 3, 0⟩, ()⟩, ⟨⟨26, 3, 1⟩, ()⟩]
    Settling.Ends (mergeOnce 20) (cellGroups points 20) (mergedGroups 20 (cellGroups points 20)) ∧
    ((clusterPoints points 20).flatMap (·.members)).Perm points ∧
    (∀ cluster ∈ clusterPoints points 20, cluster.members ≠ [] ∧
      (∀ member ∈ cluster.members, member.plane = cluster.plane) ∧
      cluster.members.length * cluster.x = (cluster.members.map (·.x)).sum ∧
      cluster.members.length * cluster.y = (cluster.members.map (·.y)).sum) ∧
    (clusterPoints points 20).Pairwise fun a b ↦
      a.plane = b.plane → 20 ≤ |a.x - b.x| ∨ 20 ≤ |a.y - b.y| :=
  clusterPoints_apart _ 20

end OsrsMap.Site
