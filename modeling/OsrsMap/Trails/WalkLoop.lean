import OsrsMap.Library.Settling
import OsrsMap.Trails.ErrorBound

/-!
# The loop of `weigh_walk`

The loop of `weigh_walk` (`server/src/hub/trails.rs`) as the source has it: a stack of parts, and the indices
and differences at which it would panic. It never does, it ends, and it weighs every point of the walk once at
most. None of that rests on what the points are. Their times need not be in order, so that the search for the
point halfway in time may answer anything, and the distances are any that can be compared: where one is NaN, no
comparison holds.
-/

namespace OsrsMap.Trails

/-- A weight that was set: in which part, where and to what. -/
structure WeightSet where
  part : Part
  index : ℕ
  weight : ℕ
deriving DecidableEq, Repr

/-- The stack of the loop, the part on top first, and the weights. Of the loop so far: the parts that were put
on the stack, and the weights that were set. -/
structure Walking where
  parts : List Part
  weights : List ℕ
  pushed : List Part
  sets : List WeightSet
deriving DecidableEq, Repr

/-- The loop before its first turn. -/
def Walking.start (first last : ℕ) (weights : List ℕ) : Walking where
  parts := [⟨first, last, always⟩]
  weights
  pushed := [⟨first, last, always⟩]
  sets := []

/-- `b - a`. -/
def checkedSub (b a : ℕ) : Option ℕ := if a ≤ b then some (b - a) else none

/-- `points[first..stop]`. -/
def slice (points : List TrailPoint) (first stop : ℕ) : Option (List TrailPoint) :=
  if first ≤ stop ∧ stop ≤ points.length then some ((points.take stop).drop first) else none

/-- `weights[index] = weight`. -/
def store (weights : List ℕ) (index weight : ℕ) : Option (List ℕ) :=
  if index < weights.length then some (weights.set index weight) else none

section Loop

variable {K : Type} [Zero K] [NatCast K] [LT K] [DecidableLT K]
  (off : TrailPoint → TrailPoint → TrailPoint → K) (search : (TrailPoint → Bool) → List TrailPoint → ℕ)
  (points : List TrailPoint)

/-- The point of a part that is furthest off, and how far. -/
def furthestOf (part : Part) : Option (ℕ × K) := do
  let a ← points[part.a]?
  let b ← points[part.b]?
  (List.range' (part.a + 1) (part.b - (part.a + 1))).foldlM (fun best index ↦ do
      let point ← points[index]?
      let distance := off a b point
      return if best.2 < distance then (index, distance) else best)
    (part.a + 1, 0)

/-- The point of a part halfway in time. -/
def halfwayOf (part : Part) (long : ℤ) : Option ℕ := do
  let a ← points[part.a]?
  let halfway := a.last + long.tdiv 2
  let between ← slice points (part.a + 1) part.b
  let last ← checkedSub part.b 1
  return min (part.a + 1 + search (fun point ↦ point.first < halfway) between) last

/-- Where a part is split, and what that point weighs. -/
def splitOf (part : Part) : Option (Option (ℕ × ℕ)) := do
  let size ← checkedSub part.b part.a
  if size < 2 then return none
  else if maxWeighedPoints < size then return some (part.a + size / 2, part.limit)
  else
    let (furthest, off) ← furthestOf off points part
    let long := (← points[part.b]?).first - (← points[part.a]?).last
    let forTheWay := thinLevels.countP fun level ↦ (level.1 : K) < off
    let forTheTime := thinLevels.countP fun level ↦ level.2 < long
    let weight := min (max forTheWay forTheTime) part.limit
    if weight = 0 then return none
    else if forTheTime ≤ forTheWay then return some (furthest, weight)
    else return some (← halfwayOf search points part long, weight)

/-- What the loop does with the part from the top of its stack. -/
def Walking.turn (walking : Walking) (part : Part) (parts : List Part) : Option Walking := do
  match ← splitOf off search points part with
  | none => return { walking with parts }
  | some (split, weight) =>
    let weights ← store walking.weights split weight
    return {
      parts := ⟨split, part.b, weight⟩ :: ⟨part.a, split, weight⟩ :: parts
      weights
      pushed := walking.pushed ++ [⟨part.a, split, weight⟩, ⟨split, part.b, weight⟩]
      sets := walking.sets ++ [⟨part, split, weight⟩] }

/-- A turn of the loop, if it goes on: it is over when the stack is empty, or after a panic. -/
def walkStep : Option Walking → Option (Option Walking)
  | none => none
  | some walking =>
    match walking.parts with
    | [] => none
    | part :: parts => some (walking.turn off search points part parts)

variable {off search points} {part : Part}

/-! ## One part -/

theorem getElem?_of_lt {index : ℕ} (h : index < points.length) : points[index]? = some (pointAt points index) := by
  rw [pointAt, List.getD_eq_getElem?_getD, List.getElem?_eq_getElem h, Option.getD_some]

theorem foldlM_of_some {α β : Type} {f : β → α → Option β} {g : β → α → β} {items : List α} (state : β)
    (h : ∀ item ∈ items, ∀ state, f state item = some (g state item)) :
    items.foldlM f state = some (items.foldl g state) := by
  induction items generalizing state with
  | nil => rfl
  | cons item items ih =>
    rw [List.foldlM_cons, h item List.mem_cons_self state, List.foldl_cons]
    exact ih _ fun item hitem ↦ h item (List.mem_cons_of_mem _ hitem)

omit [NatCast K] in
/-- Within the points no look at them fails. -/
theorem furthestOf_eq (hab : part.a < part.b) (hb : part.b < points.length) : furthestOf off points part =
    some ((List.range' (part.a + 1) (part.b - (part.a + 1))).foldl (fun best index ↦
      let distance := off (pointAt points part.a) (pointAt points part.b) (pointAt points index)
      if best.2 < distance then (index, distance) else best) (part.a + 1, 0)) := by
  unfold furthestOf
  rw [getElem?_of_lt (hab.trans hb), getElem?_of_lt hb]
  apply foldlM_of_some
  intro index hindex best
  have hin : index < points.length := by
    have := List.mem_range'_1.mp hindex
    omega
  rw [getElem?_of_lt hin]
  rfl

variable (off) in
omit [NatCast K] in
/-- The furthest point lies inside the part, whatever the distances are. -/
theorem furthestOf_spec (hab : part.a + 2 ≤ part.b) (hb : part.b < points.length) :
    ∃ split distance, furthestOf off points part = some (split, distance) ∧ part.a < split ∧ split < part.b := by
  have hmem := foldl_further_mem (fun index ↦ off (pointAt points part.a) (pointAt points part.b)
    (pointAt points index)) (part.a + 1, 0) (List.range' (part.a + 1) (part.b - (part.a + 1)))
  refine ⟨_, _, furthestOf_eq (by omega) hb, ?_⟩
  dsimp only at hmem ⊢
  rw [List.mem_range'_1] at hmem
  omega

variable (search) in
theorem halfwayOf_eq (hab : part.a + 2 ≤ part.b) (hb : part.b < points.length) (long : ℤ) :
    halfwayOf search points part long =
      some (min (part.a + 1 + search (fun point ↦ point.first < (pointAt points part.a).last + long.tdiv 2)
        ((points.take part.b).drop (part.a + 1))) (part.b - 1)) := by
  have hslice : slice points (part.a + 1) part.b = some ((points.take part.b).drop (part.a + 1)) :=
    if_pos ⟨by omega, hb.le⟩
  have hlast : checkedSub part.b 1 = some (part.b - 1) := if_pos (by omega)
  unfold halfwayOf
  rw [getElem?_of_lt (show part.a < points.length by omega), hslice, hlast]
  rfl

variable (search) in
/-- The point halfway in time lies inside the part, whatever the search answers. -/
theorem halfwayOf_spec (hab : part.a + 2 ≤ part.b) (hb : part.b < points.length) (long : ℤ) :
    ∃ split, halfwayOf search points part long = some split ∧ part.a < split ∧ split < part.b := by
  refine ⟨_, halfwayOf_eq search hab hb long, ?_⟩
  omega

variable (off search) in
/-- A part within the points is left as it is, or split at a point inside of it, which never weighs more than
the part may. -/
theorem splitOf_spec (hab : part.a ≤ part.b) (hb : part.b < points.length) :
    splitOf off search points part = some none ∨
      ∃ split weight, splitOf off search points part = some (some (split, weight)) ∧
        part.a < split ∧ split < part.b ∧ weight ≤ part.limit := by
  have hsize : checkedSub part.b part.a = some (part.b - part.a) := if_pos hab
  unfold splitOf
  rw [hsize]
  dsimp only [Option.bind_eq_bind, Option.bind_some]
  by_cases hshort : part.b - part.a < 2
  · rw [if_pos hshort]
    exact .inl rfl
  rw [if_neg hshort]
  by_cases hlong : maxWeighedPoints < part.b - part.a
  · rw [if_pos hlong]
    exact .inr ⟨_, part.limit, rfl, by omega, by omega, le_rfl⟩
  rw [if_neg hlong]
  obtain ⟨furthest, distance, hfurthest, hfurthestA, hfurthestB⟩ :=
    furthestOf_spec off (show part.a + 2 ≤ part.b by omega) hb
  rw [hfurthest, getElem?_of_lt hb, getElem?_of_lt (show part.a < points.length by omega)]
  dsimp only [Option.bind_some]
  split
  · exact .inl rfl
  · split
    · exact .inr ⟨furthest, _, rfl, hfurthestA, hfurthestB, min_le_right _ _⟩
    · obtain ⟨halfway, hhalfway, hhalfwayA, hhalfwayB⟩ :=
        halfwayOf_spec search (show part.a + 2 ≤ part.b by omega) hb _
      rw [hhalfway]
      exact .inr ⟨halfway, _, rfl, hhalfwayA, hhalfwayB, min_le_right _ _⟩

/-! ## The whole walk -/

/-- Strictly between the ends of a part. -/
def Part.Inside (part : Part) (index : ℕ) : Prop := part.a < index ∧ index < part.b

/-- A part of another one, of which it may not weigh more, or one beside it. -/
def Part.Fits (part outer : Part) : Prop :=
  (outer.a ≤ part.a ∧ part.b ≤ outer.b ∧ part.limit ≤ outer.limit) ∨ part.b ≤ outer.a ∨ outer.b ≤ part.a

/-- What the loop does to the weights of a walk. -/
structure Walking.Within (first last : ℕ) (before : List ℕ) (walking : Walking) : Prop where
  /-- The parts are parts of the walk. -/
  bounds : ∀ part ∈ walking.pushed, first ≤ part.a ∧ part.a ≤ part.b ∧ part.b ≤ last
  /-- Every weight is set inside of a part. -/
  splits : ∀ set ∈ walking.sets, set.part ∈ walking.pushed ∧ set.part.Inside set.index
  /-- No weight is set twice. -/
  once : (walking.sets.map (·.index)).Nodup
  /-- No weight inside a part is more than the part may weigh. -/
  limits : ∀ part ∈ walking.pushed, ∀ set ∈ walking.sets, part.Inside set.index → set.weight ≤ part.limit
  /-- The weights are those that were set, and else what they were before. -/
  written : ∀ set ∈ walking.sets, weightAt walking.weights set.index = set.weight
  untouched : ∀ i, (∀ set ∈ walking.sets, set.index ≠ i) → weightAt walking.weights i = weightAt before i

/-- What every turn of the loop keeps. The parts on the stack lie one beside the other, each is new, and it lies
in the parts it was split off from or beside them. -/
structure Walking.Sound (first last : ℕ) (before : List ℕ) (walking : Walking) : Prop
    extends walking.Within first last before where
  length : walking.weights.length = before.length
  onStack : ∀ part ∈ walking.parts, part ∈ walking.pushed
  apart : walking.parts.Pairwise fun top below ↦ below.b ≤ top.a
  fits : ∀ part ∈ walking.parts, ∀ outer ∈ walking.pushed, part.Fits outer
  blank : ∀ part ∈ walking.parts, ∀ set ∈ walking.sets, ¬ part.Inside set.index

variable {first last : ℕ} {before : List ℕ} {walking : Walking} {parts : List Part} {split weight : ℕ}

theorem Walking.start_sound (h : first ≤ last) (weights : List ℕ) :
    (Walking.start first last weights).Sound first last weights := by
  refine ⟨⟨?_, ?_, ?_, ?_, ?_, ?_⟩, rfl, ?_, ?_, ?_, ?_⟩ <;>
    simp [Walking.start, h, Part.Fits]

/-- A part is left as it is. -/
theorem Walking.Sound.leave (h : walking.Sound first last before) (hparts : walking.parts = part :: parts) :
    ({ walking with parts } : Walking).Sound first last before where
  toWithin := ⟨h.bounds, h.splits, h.once, h.limits, h.written, h.untouched⟩
  length := h.length
  onStack other hother := h.onStack other (hparts ▸ List.mem_cons_of_mem _ hother)
  apart := (List.pairwise_cons.mp (hparts ▸ h.apart)).2
  fits other hother := h.fits other (hparts ▸ List.mem_cons_of_mem _ hother)
  blank other hother := h.blank other (hparts ▸ List.mem_cons_of_mem _ hother)

/-- A part is split. -/
def Walking.splitAt (walking : Walking) (part : Part) (parts : List Part) (split weight : ℕ) : Walking where
  parts := ⟨split, part.b, weight⟩ :: ⟨part.a, split, weight⟩ :: parts
  weights := walking.weights.set split weight
  pushed := walking.pushed ++ [⟨part.a, split, weight⟩, ⟨split, part.b, weight⟩]
  sets := walking.sets ++ [⟨part, split, weight⟩]

theorem Part.Fits.limit_le {outer : Part} {index : ℕ} (h : part.Fits outer) (hpart : part.Inside index)
    (houter : outer.Inside index) : part.limit ≤ outer.limit := by
  unfold Part.Fits Part.Inside at *
  omega

/-- The sides of a split lie in the part that was split. -/
structure Part.Side (part : Part) (split weight : ℕ) (side : Part) : Prop where
  ends : side.a = part.a ∧ side.b = split ∨ side.a = split ∧ side.b = part.b
  limit : side.limit = weight

theorem Part.Side.fits {side outer : Part} (h : part.Side split weight side) (hinside : part.Inside split)
    (hweight : weight ≤ part.limit) (hpart : part.Fits outer) : side.Fits outer := by
  obtain ⟨hends, hlimit⟩ := h
  unfold Part.Fits Part.Inside at *
  omega

theorem Part.Side.inside {side : Part} {index : ℕ} (h : part.Side split weight side) (hinside : part.Inside split)
    (hindex : side.Inside index) : part.Inside index ∧ index ≠ split := by
  obtain ⟨hends, -⟩ := h
  unfold Part.Inside at *
  omega

theorem Part.side_of_mem {side : Part} (h : side ∈ [⟨part.a, split, weight⟩, ⟨split, part.b, weight⟩]) :
    part.Side split weight side := by
  obtain rfl | hright := List.mem_cons.mp h
  · exact ⟨.inl ⟨rfl, rfl⟩, rfl⟩
  · obtain rfl := List.mem_singleton.mp hright
    exact ⟨.inr ⟨rfl, rfl⟩, rfl⟩

theorem Walking.Sound.lt_length (h : walking.Sound first last before) (hpart : part ∈ walking.parts)
    (hinside : part.Inside split) (hlast : last ≤ before.length) : split < walking.weights.length := by
  obtain ⟨-, -, hstop⟩ := h.bounds part (h.onStack part hpart)
  rw [h.length]
  exact hinside.2.trans_le (hstop.trans hlast)

/-- A split sets a weight that was not set before, and no more than every part it lies in may weigh. -/
theorem Walking.Sound.splitAt_within (h : walking.Sound first last before) (hparts : walking.parts = part :: parts)
    (hinside : part.Inside split) (hweight : weight ≤ part.limit) (hlast : last ≤ before.length) :
    (walking.splitAt part parts split weight).Within first last before := by
  have htop : part ∈ walking.parts := hparts ▸ List.mem_cons_self
  have hpushed : part ∈ walking.pushed := h.onStack part htop
  obtain ⟨hfirst, -, hstop⟩ := h.bounds part hpushed
  have hlength : split < walking.weights.length := h.lt_length htop hinside hlast
  have hnew : ∀ set ∈ walking.sets, set.index ≠ split :=
    fun set hset hsame ↦ h.blank part htop set hset (hsame ▸ hinside)
  refine ⟨?_, ?_, ?_, ?_, ?_, ?_⟩
  · intro other hother
    obtain hother | hside := List.mem_append.mp hother
    · exact h.bounds other hother
    · obtain ⟨hends, -⟩ := Part.side_of_mem hside
      unfold Part.Inside at hinside
      omega
  · intro set hset
    obtain hset | hset := List.mem_append.mp hset
    · exact ⟨List.mem_append_left _ (h.splits set hset).1, (h.splits set hset).2⟩
    · obtain rfl := List.mem_singleton.mp hset
      exact ⟨List.mem_append_left _ hpushed, hinside⟩
  · rw [Walking.splitAt, List.map_append, List.nodup_append]
    refine ⟨h.once, List.pairwise_singleton _ _, fun index hindex other hother ↦ ?_⟩
    obtain ⟨set, hset, rfl⟩ := List.mem_map.mp hindex
    obtain rfl := List.mem_singleton.mp hother
    exact hnew set hset
  · intro other hother set hset hin
    obtain hset | hset := List.mem_append.mp hset <;> obtain hother | hside := List.mem_append.mp hother
    · exact h.limits other hother set hset hin
    · exact absurd ((Part.side_of_mem hside).inside hinside hin).1 (h.blank part htop set hset)
    · obtain rfl := List.mem_singleton.mp hset
      exact hweight.trans ((h.fits part htop other hother).limit_le hinside hin)
    · obtain rfl := List.mem_singleton.mp hset
      exact absurd rfl ((Part.side_of_mem hside).inside hinside hin).2
  · intro set hset
    change weightAt (walking.weights.set split weight) set.index = set.weight
    rw [weightAt_set hlength]
    obtain hset | hset := List.mem_append.mp hset
    · rw [if_neg (hnew set hset)]
      exact h.written set hset
    · obtain rfl := List.mem_singleton.mp hset
      exact if_pos rfl
  · intro i hi
    obtain ⟨hold, hsplit⟩ := List.forall_mem_append.mp hi
    change weightAt (walking.weights.set split weight) i = weightAt before i
    rw [weightAt_set hlength, if_neg (hsplit _ (List.mem_singleton_self _)).symm]
    exact h.untouched i hold

/-- The two sides of a split lie one beside the other, and nothing in them was weighed before. -/
theorem Walking.Sound.splitAt (h : walking.Sound first last before) (hparts : walking.parts = part :: parts)
    (hinside : part.Inside split) (hweight : weight ≤ part.limit) (hlast : last ≤ before.length) :
    (walking.splitAt part parts split weight).Sound first last before := by
  have hstack : part ∈ walking.parts ∧ ∀ other ∈ parts, other ∈ walking.parts := by
    rw [hparts]
    exact ⟨List.mem_cons_self, fun other ↦ List.mem_cons_of_mem _⟩
  obtain ⟨hbelow, hapart⟩ := List.pairwise_cons.mp (hparts ▸ h.apart)
  have hside : ∀ other ∈ (walking.splitAt part parts split weight).parts,
      part.Side split weight other ∨ other ∈ parts := by
    intro other hother
    obtain rfl | hother := List.mem_cons.mp hother
    · exact .inl ⟨.inr ⟨rfl, rfl⟩, rfl⟩
    · obtain rfl | hother := List.mem_cons.mp hother
      · exact .inl ⟨.inl ⟨rfl, rfl⟩, rfl⟩
      · exact .inr hother
  refine ⟨h.splitAt_within hparts hinside hweight hlast, ?_, ?_, ?_, ?_, ?_⟩
  · rw [← h.length]
    exact List.length_set
  · intro other hother
    obtain rfl | hother := List.mem_cons.mp hother
    · simp [Walking.splitAt]
    · obtain rfl | hother := List.mem_cons.mp hother
      · simp [Walking.splitAt]
      · exact List.mem_append_left _ (h.onStack other (hstack.2 other hother))
  · refine List.pairwise_cons.mpr ⟨fun other hother ↦ ?_, List.pairwise_cons.mpr ⟨hbelow, hapart⟩⟩
    obtain rfl | hother := List.mem_cons.mp hother
    · exact le_rfl
    · exact (hbelow other hother).trans hinside.1.le
  · intro other hother outer houter
    obtain houter | houter := List.mem_append.mp houter
    · obtain hother | hother := hside other hother
      · exact hother.fits hinside hweight (h.fits part hstack.1 outer houter)
      · exact h.fits other (hstack.2 other hother) outer houter
    · obtain ⟨houterEnds, houterLimit⟩ := Part.side_of_mem houter
      unfold Part.Fits
      obtain ⟨hends, hlimit⟩ | hother := hside other hother
      · unfold Part.Inside at hinside
        omega
      · have := hbelow other hother
        unfold Part.Inside at hinside
        omega
  · intro other hother set hset hin
    obtain hset | hset := List.mem_append.mp hset <;> obtain hother | hother := hside other hother
    · exact h.blank part hstack.1 set hset (hother.inside hinside hin).1
    · exact h.blank other (hstack.2 other hother) set hset hin
    · obtain rfl := List.mem_singleton.mp hset
      exact (hother.inside hinside hin).2 rfl
    · obtain rfl := List.mem_singleton.mp hset
      exact absurd (hin.2.trans_le (hbelow other hother)) (not_lt.mpr hinside.1.le)

/-- How much there is to do: a part counts for more than the two sides of any split of it together. -/
def Walking.size (walking : Walking) : ℕ := (walking.parts.map fun part ↦ max 1 (2 * (part.b - part.a) - 1)).sum

variable (off search) in
/-- A turn does not panic: it leaves a part as it is, or splits it. -/
theorem Walking.Sound.turn_eq (h : walking.Sound first last before) (hparts : walking.parts = part :: parts)
    (hlast : last < points.length) (hbefore : last ≤ before.length) :
    ∃ found, splitOf off search points part = some found ∧
      (∀ split weight, found = some (split, weight) → part.Inside split ∧ weight ≤ part.limit) ∧
      walking.turn off search points part parts =
        some (found.elim { walking with parts } fun (split, weight) ↦ walking.splitAt part parts split weight) := by
  have htop : part ∈ walking.parts := hparts ▸ List.mem_cons_self
  obtain ⟨-, hab, hstop⟩ := h.bounds part (h.onStack part htop)
  unfold Walking.turn
  obtain hnone | ⟨split, weight, hsplit, ha, hb, hweight⟩ :=
    splitOf_spec off search hab (hstop.trans_lt hlast)
  · refine ⟨none, hnone, by simp, ?_⟩
    rw [hnone]
    rfl
  · have hstore : store walking.weights split weight = some (walking.weights.set split weight) :=
      if_pos (h.lt_length htop ⟨ha, hb⟩ hbefore)
    refine ⟨some (split, weight), hsplit, ?_, ?_⟩
    · rintro _ _ ⟨⟩
      exact ⟨⟨ha, hb⟩, hweight⟩
    · rw [hsplit]
      dsimp only [Option.bind_eq_bind, Option.bind_some]
      rw [hstore]
      rfl

variable (off search) in
/-- Every turn keeps what holds, and leaves less to do. -/
theorem Walking.Sound.turn (h : walking.Sound first last before) (hparts : walking.parts = part :: parts)
    (hlast : last < points.length) (hbefore : last ≤ before.length) :
    ∃ after : Walking, walking.turn off search points part parts = some after ∧
      after.Sound first last before ∧ after.size < walking.size := by
  have hsize : walking.size = max 1 (2 * (part.b - part.a) - 1) + ({ walking with parts } : Walking).size := by
    rw [size, hparts, List.map_cons, List.sum_cons]
    rfl
  obtain ⟨found, -, hfound, hturn⟩ := h.turn_eq off search hparts hlast hbefore
  cases found with
  | none =>
    refine ⟨_, hturn, h.leave hparts, ?_⟩
    dsimp only [Option.elim_none]
    omega
  | some found =>
    obtain ⟨split, weight⟩ := found
    obtain ⟨hinside, hweight⟩ := hfound split weight rfl
    refine ⟨_, hturn, h.splitAt hparts hinside hweight hbefore, ?_⟩
    have hsides : (walking.splitAt part parts split weight).size = max 1 (2 * (part.b - split) - 1) +
        (max 1 (2 * (split - part.a) - 1) + ({ walking with parts } : Walking).size) := rfl
    dsimp only [Option.elim_some]
    unfold Part.Inside at hinside
    omega

/-- The loop before a turn, which did not panic so far. -/
def Going (first last : ℕ) (before : List ℕ) (state : Option Walking) : Prop :=
  ∃ walking : Walking, state = some walking ∧ walking.Sound first last before

variable (off search) in
theorem Going.step {state after : Option Walking} (h : Going first last before state)
    (hstep : walkStep off search points state = some after) (hlast : last < points.length)
    (hbefore : last ≤ before.length) :
    Going first last before after ∧ (after.map Walking.size).getD 0 < (state.map Walking.size).getD 0 := by
  obtain ⟨walking, rfl, hsound⟩ := h
  unfold walkStep at hstep
  dsimp only at hstep
  split at hstep
  · cases hstep
  · next part parts hparts =>
    obtain ⟨next, hturn, hnext, hsmaller⟩ := hsound.turn off search hparts hlast hbefore
    obtain rfl := Option.some.inj hstep
    rw [hturn]
    exact ⟨⟨next, rfl, hnext⟩, hsmaller⟩

theorem parts_eq_nil (h : walkStep off search points (some walking) = none) : walking.parts = [] := by
  unfold walkStep at h
  dsimp only at h
  split at h
  · assumption
  · cases h

/-- `weigh_walk` never panics and ends, with every point of the walk weighed once at most, no more than the parts
it lies in may weigh, and no other point. -/
theorem weighWalk_ends (off : TrailPoint → TrailPoint → TrailPoint → K)
    (search : (TrailPoint → Bool) → List TrailPoint → ℕ) {points : List TrailPoint} {first last : ℕ}
    {weights : List ℕ} (hfirst : first ≤ last) (hlast : last < points.length)
    (hweights : points.length ≤ weights.length) :
    ∃ walking : Walking,
      Settling.Ends (walkStep off search points) (some (.start first last weights)) (some walking) ∧
      walking.parts = [] ∧ walking.Within first last weights ∧
      (∀ set ∈ walking.sets, first < set.index ∧ set.index < last) ∧
      ∀ i, ¬ (first < i ∧ i < last) → weightAt walking.weights i = weightAt weights i := by
  have hbefore : last ≤ weights.length := (hlast.trans_le hweights).le
  have hstart : Going first last weights (some (.start first last weights)) :=
    ⟨_, rfl, Walking.start_sound hfirst weights⟩
  obtain ⟨_, hends, ⟨walking, rfl, hsound⟩, hover⟩ :=
    Settling.exists_ends (walkStep off search points) (Going first last weights)
      (fun state ↦ (state.map Walking.size).getD 0)
      (fun _ _ hgoing hstep ↦ hgoing.step off search hstep hlast hbefore) hstart
  have hinside : ∀ set ∈ walking.sets, first < set.index ∧ set.index < last := by
    intro set hset
    obtain ⟨hpushed, hfrom, hto⟩ := hsound.splits set hset
    have := hsound.bounds set.part hpushed
    omega
  refine ⟨walking, hends, parts_eq_nil hover, hsound.toWithin, hinside, fun i hi ↦ ?_⟩
  exact hsound.untouched i fun set hset hsame ↦ hi (hsame ▸ hinside set hset)

/-- Four stays along a line whose times are out of order. -/
def outOfOrder : List TrailPoint :=
  [(3200, 0), (3210, 900), (3205, 60), (3220, 1200)].map fun (x, first) ↦
    { x, y := 3200, plane := 0, first, last := first, boat := false, world := none, via := none, jump := false }

/-- The point halfway in time is searched for among times that are not sorted. -/
theorem weighWalk_ends_outOfOrder :
    ∃ walking : Walking,
      Settling.Ends (walkStep (offTheLine max) partitionPoint outOfOrder) (some (.start 0 3 [always, 0, 0, always]))
        (some walking) ∧
      walking.parts = [] ∧ walking.Within 0 3 [always, 0, 0, always] ∧
      (∀ set ∈ walking.sets, 0 < set.index ∧ set.index < 3) ∧
      ∀ i, ¬ (0 < i ∧ i < 3) → weightAt walking.weights i = weightAt [always, 0, 0, always] i :=
  weighWalk_ends (offTheLine max) partitionPoint (by decide) (by decide) (by decide)

end Loop

/-! ## The loop as it is modelled for thinning -/

section Thinned

variable {off : TrailPoint → TrailPoint → TrailPoint → ℚ} {points : List TrailPoint} {part : Part}

variable (off) in
/-- Where nothing panics, a part is split as `weighPart` has it. -/
theorem weighPart_of_splitOf (hab : part.a ≤ part.b) (hb : part.b < points.length) (weights : List ℕ)
    {found : Option (ℕ × ℕ)} (hfound : splitOf off partitionPoint points part = some found) :
    weighPart off points part weights = found.elim ([], weights) fun (split, weight) ↦
      ([⟨split, part.b, weight⟩, ⟨part.a, split, weight⟩], weights.set split weight) := by
  have hsize : checkedSub part.b part.a = some (part.b - part.a) := if_pos hab
  unfold splitOf at hfound
  unfold weighPart
  rw [hsize] at hfound
  dsimp only [Option.bind_eq_bind, Option.bind_some] at hfound ⊢
  by_cases hshort : part.b - part.a < 2
  · rw [if_pos hshort] at hfound ⊢
    obtain rfl := Option.some.inj hfound
    rfl
  rw [if_neg hshort] at hfound ⊢
  by_cases hlong : maxWeighedPoints < part.b - part.a
  · rw [if_pos hlong] at hfound ⊢
    obtain rfl := Option.some.inj hfound
    rfl
  rw [if_neg hlong] at hfound ⊢
  have hfurthest : furthestOf off points part = some (furthest off points part.a part.b) :=
    furthestOf_eq (by omega) hb
  rw [hfurthest, getElem?_of_lt hb, getElem?_of_lt (show part.a < points.length by omega)] at hfound
  dsimp only [Option.bind_some] at hfound
  split at hfound
  · next hnone =>
    obtain rfl := Option.some.inj hfound
    rw [if_pos hnone]
    rfl
  · next hsome =>
    rw [if_neg hsome]
    split at hfound
    · next hway =>
      obtain rfl := Option.some.inj hfound
      rw [if_pos hway]
      rfl
    · next htime =>
      rw [halfwayOf_eq partitionPoint (by omega) hb] at hfound
      obtain rfl := Option.some.inj hfound
      rw [if_neg htime]
      rfl

variable {first last : ℕ} {before : List ℕ} {walking after : Walking} {parts : List Part}

/-- A turn leaves the rest of the loop with what it would have come to. -/
theorem Walking.Sound.turn_drain (h : walking.Sound first last before) (hparts : walking.parts = part :: parts)
    (hlast : last < points.length) (hbefore : last ≤ before.length)
    (hturn : walking.turn off partitionPoint points part parts = some after) :
    (weighParts off points).drain after.parts after.weights =
      (weighParts off points).drain walking.parts walking.weights := by
  obtain ⟨-, hab, hstop⟩ := h.bounds part (h.onStack part (hparts ▸ List.mem_cons_self))
  obtain ⟨found, hsplit, -, hafter⟩ := h.turn_eq off partitionPoint hparts hlast hbefore
  obtain rfl := Option.some.inj (hafter.symm.trans hturn)
  rw [hparts, Worklist.drain_cons]
  change _ = (weighParts off points).drain ((weighPart off points part walking.weights).1 ++ parts)
    (weighPart off points part walking.weights).2
  rw [weighPart_of_splitOf off hab (hstop.trans_lt hlast) _ hsplit]
  cases found with
  | none => rfl
  | some found => rfl

variable (off points) in
/-- The loop before a turn, which still comes to the weights of `weighWalk`. -/
def ComesTo (first last : ℕ) (before : List ℕ) (state : Option Walking) : Prop :=
  ∃ walking : Walking, state = some walking ∧ walking.Sound first last before ∧
    (weighParts off points).drain walking.parts walking.weights = weighWalk off points first last before

/-- What the loop leaves is what `weighWalk` answers. -/
theorem weighWalk_of_ends {weights : List ℕ} (hfirst : first ≤ last) (hlast : last < points.length)
    (hweights : points.length ≤ weights.length)
    (h : Settling.Ends (walkStep off partitionPoint points) (some (.start first last weights)) (some walking)) :
    walking.weights = weighWalk off points first last weights := by
  have hbefore : last ≤ weights.length := (hlast.trans_le hweights).le
  have hkept : ComesTo off points first last weights (some walking) := by
    refine h.keeps ?_ ⟨_, rfl, Walking.start_sound hfirst weights, rfl⟩
    rintro _ after hstep ⟨walking, rfl, hsound, hdrain⟩
    unfold walkStep at hstep
    dsimp only at hstep
    split at hstep
    · cases hstep
    · next part parts hparts =>
      obtain ⟨next, hturn, hnext, -⟩ := hsound.turn off partitionPoint hparts hlast hbefore
      obtain rfl := Option.some.inj hstep
      exact ⟨next, hturn, hnext, (hsound.turn_drain hparts hlast hbefore hturn).trans hdrain⟩
  obtain ⟨done, hdone, -, hdrain⟩ := hkept
  obtain rfl := Option.some.inj hdone
  rwa [parts_eq_nil h.settled, Worklist.drain_nil] at hdrain

end Thinned

end OsrsMap.Trails
