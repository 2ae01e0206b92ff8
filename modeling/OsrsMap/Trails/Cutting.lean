import OsrsMap.Trails.ErrorBound
import Mathlib.Data.Nat.Find

/-!
# What a cut keeps

A cut keeps the newest of the stays whose weight is above a level, and weighing puts both sides of
every jump and of every change of floor above every level.
-/

namespace OsrsMap.Trails

/-- Where the stays are whose weight is above a level, all of them when nothing is left out. -/
def above (weights : List ℕ) (level : Option ℕ) : List ℕ :=
  (List.range weights.length).filter fun i ↦ level.all (· < weightAt weights i)

/-- The level a trail is cut at: none when none was asked for and everything fits, otherwise the
first one from the asked level on that leaves no more than fit, or the last one. -/
def CutAt (weights : List ℕ) (atLeast : Option ℕ) (maxPoints : ℕ) : Option ℕ → Prop
  | none => atLeast = none ∧ weights.length ≤ maxPoints
  | some level => (atLeast = none → maxPoints < weights.length) ∧
    (∀ finer, atLeast.getD 0 ≤ finer → finer < level →
      maxPoints < (above weights (some finer)).length) ∧
    (atLeast.getD 0 ≤ level ∧ level < always ∧ (above weights (some level)).length ≤ maxPoints ∨
      level + 1 = always ∧
        (always ≤ atLeast.getD 0 ∨ maxPoints < (above weights (some level)).length))

/-- A trail cut to the stays at the places `kept`: the newest ones above the level, as many as fit,
each with its own weight. -/
structure CutTo (points : List TrailPoint) (weights : List ℕ) (atLeast : Option ℕ) (maxPoints : ℕ)
    (kept : List ℕ) (result : Weighed) : Prop where
  newest : kept <:+ above weights result.level
  count : kept.length = min maxPoints (above weights result.level).length
  level : CutAt weights atLeast maxPoints result.level
  truncated : result.truncated = true ↔ kept ≠ above weights result.level
  points : result.points = kept.map (pointAt points)
  weights : result.weights = kept.map (weightAt weights)

/-- A jump led to a stay, or a change of floor. -/
def BreakAt (points : List TrailPoint) (index : ℕ) : Prop :=
  (pointAt points index).jump = true ∨
    (pointAt points index).plane ≠ (pointAt points (index - 1)).plane

/-- Both sides of every break up to an index have the weight that keeps them at every level. -/
def Marked (points : List TrailPoint) (weights : List ℕ) (upTo : ℕ) : Prop :=
  ∀ index, 0 < index → index ≤ upTo → BreakAt points index →
    always ≤ weightAt weights (index - 1) ∧ always ≤ weightAt weights index

/-! ## Cutting -/

variable {points : List TrailPoint} {weights : List ℕ} {atLeast : Option ℕ} {maxPoints : ℕ}

theorem map_getD_range {α : Type*} (list : List α) (default : α) :
    (List.range list.length).map (fun i ↦ list.getD i default) = list := by
  apply List.ext_getElem
  · simp
  · intro i _ hi
    simp [hi]

theorem zip_eq_map_range (h : points.length = weights.length) : points.zip weights =
    (List.range weights.length).map fun i ↦ (pointAt points i, weightAt weights i) := by
  apply List.ext_getElem
  · rw [List.length_zip, List.length_map, List.length_range, h, min_self]
  · intro i hzip hrange
    have hi : i < weights.length := by simpa using hrange
    have hi' : i < points.length := h ▸ hi
    simp [pointAt, weightAt, hi, hi']

theorem filter_zip_eq_map_above (h : points.length = weights.length) (level : ℕ) :
    ((points.zip weights).filter fun pair ↦ decide (level < pair.2)) =
      (above weights (some level)).map fun i ↦ (pointAt points i, weightAt weights i) := by
  rw [zip_eq_map_range h, List.filter_map]
  rfl

theorem length_above (weights : List ℕ) (level : ℕ) : (above weights (some level)).length = keptAt weights level := by
  have hweights : (List.range weights.length).map (weightAt weights) = weights :=
    map_getD_range weights 0
  unfold keptAt
  conv_rhs => rw [← hweights, List.countP_map, List.countP_eq_length_filter]
  rfl

theorem above_none : above weights none = List.range weights.length :=
  List.filter_eq_self.mpr fun _ _ ↦ rfl

theorem cutAt_cutLevel (h : atLeast = none → maxPoints < weights.length) :
    CutAt weights atLeast maxPoints (some (cutLevel weights atLeast maxPoints)) := by
  have halways : thinLevels.length - 1 + 1 = always := by decide
  refine ⟨h, ?_⟩
  unfold cutLevel
  dsimp only
  cases hfind : (List.range' (atLeast.getD 0) (thinLevels.length - 1 + 1 - atLeast.getD 0)).find?
      fun level ↦ decide (keptAt weights level ≤ maxPoints) with
  | none =>
    rw [List.find?_eq_none] at hfind
    have hfits (level : ℕ) (hlow : atLeast.getD 0 ≤ level) (hlevel : level < always) :
        maxPoints < (above weights (some level)).length := by
      have hnot := hfind level (List.mem_range'_1.mpr (by omega))
      rw [length_above]
      simpa using hnot
    rw [Option.getD_none]
    refine ⟨fun finer hlow hfiner ↦ hfits finer hlow (by omega), .inr ⟨halways, ?_⟩⟩
    by_cases hasked : always ≤ atLeast.getD 0
    · exact .inl hasked
    · exact .inr (hfits _ (by omega) (by omega))
  | some level =>
    obtain ⟨hfits, hmem, hfirst⟩ := List.find?_range'_eq_some.mp hfind
    have hmem := List.mem_range'_1.mp hmem
    rw [Option.getD_some]
    refine ⟨fun finer hlow hfiner ↦ ?_, .inl ⟨hmem.1, by omega, ?_⟩⟩
    · rw [length_above]
      simpa using hfirst finer hlow hfiner
    · rw [length_above]
      simpa using hfits

/-- A cut keeps what it says. -/
theorem exists_cutTo (atLeast : Option ℕ) (hlength : points.length = weights.length)
    (hmax : 2 ≤ maxPoints) :
    ∃ kept, CutTo points weights atLeast maxPoints kept (cut points weights atLeast maxPoints) := by
  unfold cut
  split_ifs with hfits
  · obtain ⟨hnone, hfits⟩ := hfits
    have hcount : weights.length ≤ maxPoints := by omega
    refine ⟨above weights none, List.suffix_rfl, ?_, ⟨Option.isNone_iff_eq_none.mp hnone, hcount⟩,
      ?_, ?_, ?_⟩
    · rw [above_none, List.length_range, min_eq_right hcount]
    · simp
    · rw [above_none, ← hlength]
      exact (map_getD_range points default).symm
    · rw [above_none]
      exact (map_getD_range weights 0).symm
  · have hlevel : CutAt weights atLeast maxPoints (some (cutLevel weights atLeast maxPoints)) := by
      apply cutAt_cutLevel
      rintro rfl
      rw [← hlength]
      simpa using fun hle ↦ hfits ⟨rfl, .inl hle⟩
    dsimp only
    generalize cutLevel weights atLeast maxPoints = level at hlevel ⊢
    have hkept := length_above weights level
    refine ⟨(above weights (some level)).drop (keptAt weights level - maxPoints),
      List.drop_suffix _ _, ?_, hlevel, ?_, ?_, ?_⟩
    · dsimp only
      rw [List.length_drop]
      omega
    · dsimp only
      rw [decide_eq_true_iff, ← hkept]
      constructor
      · intro hlt hsame
        have hshort := congrArg List.length hsame
        rw [List.length_drop] at hshort
        omega
      · intro hne
        by_contra hle
        rw [Nat.sub_eq_zero_of_le (not_lt.mp hle), List.drop_zero] at hne
        exact hne rfl
    · dsimp only
      rw [filter_zip_eq_map_above hlength, ← List.map_drop, List.map_map]
      rfl
    · dsimp only
      rw [filter_zip_eq_map_above hlength, ← List.map_drop, List.map_map]
      rfl

theorem CutAt.lt_always {level : ℕ} (h : CutAt weights atLeast maxPoints (some level)) :
    level < always := by
  obtain ⟨-, -, hfits | hlast⟩ := h
  · exact hfits.2.1
  · exact hlast.1 ▸ Nat.lt_succ_self level

theorem CutAt.mem_above {level : Option ℕ} (h : CutAt weights atLeast maxPoints level) {i : ℕ}
    (hi : i < weights.length) (hweight : always ≤ weightAt weights i) : i ∈ above weights level := by
  apply List.mem_filter.mpr
  refine ⟨List.mem_range.mpr hi, ?_⟩
  cases level with
  | none => rfl
  | some level => simpa using h.lt_always.trans_le hweight

/-! ## Breaks -/

/-- The nearest places that hold before and after one that does not. -/
theorem exists_gap {p : ℕ → Prop} [DecidablePred p] {a i b : ℕ} (hai : a < i) (hib : i < b)
    (ha : p a) (hb : p b) :
    ∃ before after, a ≤ before ∧ before < i ∧ i < after ∧ after ≤ b ∧ p before ∧ p after ∧
      ∀ k, before < k → k < after → k ≠ i → ¬ p k := by
  have hafter : ∃ j, i < j ∧ p j := ⟨b, hib, hb⟩
  refine ⟨Nat.findGreatest p (i - 1), Nat.find hafter, ?_, ?_, ?_, ?_, ?_, ?_, ?_⟩
  · exact Nat.le_findGreatest (by omega) ha
  · have := Nat.findGreatest_le (P := p) (i - 1)
    omega
  · exact (Nat.find_spec hafter).1
  · exact Nat.find_min' hafter ⟨hib, hb⟩
  · exact Nat.findGreatest_spec (m := a) (by omega) ha
  · exact (Nat.find_spec hafter).2
  · intro k hbefore hk hne hp
    obtain hlt | hlt := lt_or_gt_of_ne hne
    · exact Nat.findGreatest_is_greatest hbefore (by omega) hp
    · exact Nat.find_min hafter hk ⟨hlt, hp⟩

variable {off : TrailPoint → TrailPoint → TrailPoint → ℚ}

/-- Both sides of a break are kept at every level: a level that leaves one of them out has a gap with
the break in it. -/
theorem WeighedFrom.marked {start last index side : ℕ} {before : List ℕ}
    (h : WeighedFrom off points start last before weights) (hstart : start < index)
    (hlast : index ≤ last) (hbreak : BreakAt points index) (hside : side = index ∨ side + 1 = index) :
    always ≤ weightAt weights side := by
  by_contra hlow
  have hlevel : weightAt weights side < always := not_le.mp hlow
  have hnotStart : side ≠ start := fun hsame ↦ hlow (hsame ▸ h.fromKept.ge)
  have hnotLast : side ≠ last := fun hsame ↦ hlow (hsame ▸ h.lastKept.ge)
  obtain ⟨i, j, hi, his, hsj, hj, hiKept, hjKept, hbetween⟩ := exists_gap
    (p := fun k ↦ weightAt weights side < weightAt weights k) (i := side) (a := start) (b := last)
    (by omega) (by omega) (by rwa [h.fromKept]) (by rwa [h.lastKept])
  have hcovered := h.gaps _ hlevel i j hi (his.trans hsj) hj hiKept hjKept fun k hik hkj ↦ by
    by_cases hk : k = side
    · rw [hk]
    · exact not_lt.mp (hbetween k hik hkj hk)
  obtain ⟨hjump, hplane⟩ := (hcovered (by omega)).2 index (by omega) (by omega)
  exact hbreak.elim (fun hbreak ↦ Bool.false_ne_true (hjump.symm.trans hbreak))
    fun hbreak ↦ hbreak hplane

variable (off) in
/-- Weighing goes on marking the breaks. -/
theorem marked_weigh {start : ℕ} {older : List ℕ} (hstart : start < points.length)
    (holder : older.length ≤ start + 1) (hmarked : Marked points older start) :
    Marked points (weigh off points start older) (points.length - 1) := by
  obtain ⟨last, hlast⟩ : ∃ last, points.length = last + 1 := ⟨points.length - 1, by omega⟩
  have hweighed : WeighedFrom off points start last (resize older points.length)
      (weigh off points start older) :=
    weighedFrom_weigh hlast (by omega) holder
  have hold (i : ℕ) (hi : i < start) :
      weightAt (weigh off points start older) i = weightAt older i := by
    rw [hweighed.older i hi, weightAt_resize older (by omega)]
  intro index hpos hindex hbreak
  by_cases hnew : start < index
  · exact ⟨hweighed.marked hnew (by omega) hbreak (.inr (by omega)),
      hweighed.marked hnew (by omega) hbreak (.inl rfl)⟩
  · obtain ⟨hleft, hright⟩ := hmarked index hpos (not_lt.mp hnew) hbreak
    refine ⟨(hold (index - 1) (by omega)).symm ▸ hleft, ?_⟩
    obtain rfl | hlt := (not_lt.mp hnew).eq_or_lt
    · exact hweighed.fromKept.ge
    · exact (hold index hlt).symm ▸ hright

/-- The newest stay is above every level. -/
theorem CutTo.getLast?_kept {kept : List ℕ} {result : Weighed} {last : ℕ}
    (h : CutTo points weights atLeast maxPoints kept result) (hmax : 2 ≤ maxPoints)
    (hlength : weights.length = last + 1) (hlast : always ≤ weightAt weights last) :
    kept.getLast? = some last := by
  have hmem := h.level.mem_above (show last < weights.length by omega) hlast
  obtain ⟨front, habove⟩ : ∃ front, above weights result.level = front ++ [last] := by
    have hlevel := (List.mem_filter.mp hmem).2
    refine ⟨(List.range last).filter fun i ↦ result.level.all (· < weightAt weights i), ?_⟩
    unfold above
    rw [hlength, List.range_succ, List.filter_append]
    congr 1
    exact List.filter_cons_of_pos hlevel
  have hcount := h.count
  obtain ⟨dropped, hsplit⟩ := h.newest
  rw [habove] at hsplit hcount
  obtain rfl | ⟨rest, newest, rfl⟩ := List.eq_nil_or_concat kept
  · simp at hcount
    omega
  · rw [List.concat_eq_append] at hsplit ⊢
    rw [← List.append_assoc] at hsplit
    obtain ⟨-, hsame⟩ := List.append_inj' hsplit rfl
    rw [hsame, List.getLast?_concat]

/-- What a cut keeps is what it says. After weighing, the newest stay is kept, and both sides of every
jump and of every change of floor unless they are among the oldest that were dropped. -/
theorem cut_keeps (off : TrailPoint → TrailPoint → TrailPoint → ℚ) {points : List TrailPoint}
    {weights : List ℕ} (atLeast : Option ℕ) {maxPoints : ℕ}
    (hlength : points.length = weights.length) (hmax : 2 ≤ maxPoints) :
    ∃ kept, CutTo points weights atLeast maxPoints kept (cut points weights atLeast maxPoints) ∧
      ∀ start older, weights = weigh off points start older → start < points.length →
        older.length ≤ start + 1 → Marked points older start →
        kept.getLast? = some (points.length - 1) ∧
          ∀ index side, 0 < index → index < points.length → BreakAt points index →
            (side = index ∨ side + 1 = index) → side ∈ kept ∨ ∀ i ∈ kept, side < i := by
  obtain ⟨kept, hcut⟩ := exists_cutTo atLeast hlength hmax
  refine ⟨kept, hcut, fun start older hweights hstart holder hmarked ↦ ?_⟩
  obtain ⟨dropped, hsplit⟩ := hcut.newest
  have hsorted : (above weights (cut points weights atLeast maxPoints).level).Pairwise (· < ·) :=
    List.pairwise_lt_range.filter _
  constructor
  · obtain ⟨last, hlast⟩ : ∃ last, points.length = last + 1 := ⟨points.length - 1, by omega⟩
    have hweighed : WeighedFrom off points start last (resize older points.length)
        (weigh off points start older) :=
      weighedFrom_weigh hlast (by omega) holder
    rw [← hweights] at hweighed
    rw [hlast, Nat.add_sub_cancel]
    exact hcut.getLast?_kept hmax (by omega) hweighed.lastKept.ge
  · intro index side hpos hindex hbreak hside
    have hmarks := marked_weigh off hstart holder hmarked index hpos (by omega) hbreak
    rw [← hweights] at hmarks
    have hkept : always ≤ weightAt weights side := by
      obtain rfl | hside := hside
      · exact hmarks.2
      · rw [show side = index - 1 by omega]
        exact hmarks.1
    have hmem := hcut.level.mem_above (i := side) (by omega) hkept
    rw [← hsplit] at hmem hsorted
    obtain hdropped | hkept := List.mem_append.mp hmem
    · exact .inr fun i hi ↦ (List.pairwise_append.mp hsorted).2.2 side hdropped i hi
    · exact .inl hkept

/-- A walk of two stays, and one after a teleport. -/
def bankTrip : List TrailPoint :=
  [{ (default : TrailPoint) with x := 0, first := 0, last := 10 },
    { (default : TrailPoint) with x := 1, first := 20, last := 30 },
    { (default : TrailPoint) with x := 90, first := 40, last := 50, jump := true },
    { (default : TrailPoint) with x := 91, first := 60, last := 70 }]

theorem cut_keeps_bankTrip :
    ∃ kept, CutTo bankTrip [10, 10, 10, 10] none 2 kept (cut bankTrip [10, 10, 10, 10] none 2) ∧
      kept.getLast? = some 3 := by
  obtain ⟨kept, hcut, hweighed⟩ := cut_keeps (fun _ _ _ ↦ 0) none
    (show bankTrip.length = [10, 10, 10, 10].length from rfl) (show 2 ≤ 2 from le_rfl)
  have hmarked : Marked bankTrip [] 0 := fun index hpos hle ↦ absurd hpos (by omega)
  have hnewest := hweighed 0 [] (by decide +kernel) (by decide) (by decide) hmarked
  exact ⟨kept, hcut, hnewest.1⟩

end OsrsMap.Trails
