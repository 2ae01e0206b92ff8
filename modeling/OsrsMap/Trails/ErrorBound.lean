import OsrsMap.Library.Thinned
import OsrsMap.Trails.Paging
import Mathlib.Data.List.Chain

/-!
# The error bound of thinning

Whatever level a trail is thinned at, the line of what is left passes within that level's tiles of
every stay that was left out, takes no longer than the level's seconds from one point to the next,
and never leads over a jump or a change of floor. Weighing splits a walk at the stay that is
furthest off, or halves it; a part's weights never exceed the limit it got from where it was split
off, so what is left out at a level was left out of one unsplit part.
-/

namespace OsrsMap.Trails

/-- How far the line may pass from a stay left out at the level. -/
def tilesAt (level : ℕ) : ℚ := (thinLevels.getD level (0, 0)).1

/-- How long it may take from one point to the next where something was left out. -/
def secondsAt (level : ℕ) : ℤ := (thinLevels.getD level (0, 0)).2

theorem lt_countP_of_holds {α : Type*} {p : α → Bool} {list : List α} {index : ℕ} {x : α}
    (hmono : list.Pairwise fun x y ↦ p y = true → p x = true) (hx : list[index]? = some x)
    (hp : p x = true) : index < list.countP p := by
  induction list generalizing index with
  | nil => simp at hx
  | cons head tail ih =>
    obtain ⟨hhead, htail⟩ := List.pairwise_cons.mp hmono
    cases index with
    | zero =>
      obtain rfl : head = x := by simpa using hx
      rw [List.countP_cons_of_pos hp]
      exact Nat.succ_pos _
    | succ index =>
      have hx' : tail[index]? = some x := by simpa using hx
      rw [List.countP_cons_of_pos (hhead x (List.mem_of_getElem? hx') hp)]
      exact Nat.succ_lt_succ (ih htail hx')

theorem thinLevels_sorted : thinLevels.Pairwise fun x y ↦ x.1 ≤ y.1 ∧ x.2 ≤ y.2 := by decide

/-- A level that the count of exceeded levels does not reach is not exceeded. -/
theorem le_tilesAt {off : ℚ} {level : ℕ} (hlevel : level < always)
    (hcount : (thinLevels.countP fun level ↦ (level.1 : ℚ) < off) ≤ level) :
    off ≤ tilesAt level := by
  by_contra hoff
  refine absurd hcount (not_le.mpr (lt_countP_of_holds ?_ (List.getElem?_eq_getElem hlevel) ?_))
  · refine thinLevels_sorted.imp fun {x y} hxy hy ↦ ?_
    have hle : (x.1 : ℚ) ≤ y.1 := by exact_mod_cast hxy.1
    simpa using hle.trans_lt (of_decide_eq_true hy)
  · simpa [tilesAt, List.getD_eq_getElem?_getD, List.getElem?_eq_getElem hlevel] using hoff

theorem le_secondsAt {long : ℤ} {level : ℕ} (hlevel : level < always)
    (hcount : (thinLevels.countP fun level ↦ level.2 < long) ≤ level) :
    long ≤ secondsAt level := by
  by_contra hlong
  refine absurd hcount (not_le.mpr (lt_countP_of_holds ?_ (List.getElem?_eq_getElem hlevel) ?_))
  · refine thinLevels_sorted.imp fun {x y} hxy hy ↦ ?_
    simpa using hxy.2.trans_lt (of_decide_eq_true hy)
  · simpa [secondsAt, List.getD_eq_getElem?_getD, List.getElem?_eq_getElem hlevel] using hlong

/-! ## Gaps between weighed points -/

/-- What a level's gaps, between two indices that are kept and with none kept in between, meet. -/
def GapsBetween (P : ℕ → ℕ → Prop) (level : ℕ) (weights : List ℕ) (a b : ℕ) : Prop :=
  ∀ i j, a ≤ i → i < j → j ≤ b → level < weightAt weights i → level < weightAt weights j →
    (∀ k, i < k → k < j → weightAt weights k ≤ level) → P i j

theorem GapsBetween.join {P : ℕ → ℕ → Prop} {level split a b : ℕ} {weights : List ℕ}
    (hleft : GapsBetween P level weights a split) (hright : GapsBetween P level weights split b)
    (hsplit : level < weightAt weights split) : GapsBetween P level weights a b := by
  intro i j hi hij hj hiKept hjKept hbetween
  by_cases hjs : j ≤ split
  · exact hleft i j hi hij hjs hiKept hjKept hbetween
  · by_cases his : split ≤ i
    · exact hright i j his hij hj hiKept hjKept hbetween
    · exact absurd (hbetween split (by omega) (by omega)) (not_le.mpr hsplit)

theorem GapsBetween.congr {P : ℕ → ℕ → Prop} {level a b : ℕ} {weights weights' : List ℕ}
    (h : GapsBetween P level weights a b)
    (hsame : ∀ i, a ≤ i → i ≤ b → weightAt weights' i = weightAt weights i) :
    GapsBetween P level weights' a b := by
  intro i j hi hij hj hiKept hjKept hbetween
  rw [hsame i hi (by omega)] at hiKept
  rw [hsame j (by omega) hj] at hjKept
  refine h i j hi hij hj hiKept hjKept fun k hik hkj ↦ ?_
  rw [← hsame k (by omega) (by omega)]
  exact hbetween k hik hkj

theorem weightAt_set {weights : List ℕ} {index : ℕ} (h : index < weights.length)
    (weight other : ℕ) :
    weightAt (weights.set index weight) other =
      if other = index then weight else weightAt weights other := by
  unfold weightAt
  simp only [List.getD_eq_getElem?_getD, List.getElem?_set]
  by_cases hsame : other = index
  · simp [hsame, h]
  · simp [hsame, Ne.symm hsame]

/-! ## Weighing a walk -/

/-- What weighing a part does: no weight outside of it changes, those inside stay within its limit,
and at every level finer than that its gaps meet `P`. -/
structure Walked (P : ℕ → ℕ → ℕ → Prop) (part : Part) (before after : List ℕ) : Prop where
  length : after.length = before.length
  outside : ∀ i, ¬ (part.a < i ∧ i < part.b) → weightAt after i = weightAt before i
  inside : ∀ i, part.a < i → i < part.b → weightAt after i ≤ part.limit
  gaps : ∀ level < part.limit, GapsBetween (P level) level after part.a part.b

/-- A part that is ready to be weighed: its ends are kept and nothing in it was weighed. -/
structure Ready (part : Part) (weights : List ℕ) : Prop where
  bounds : part.a ≤ part.b ∧ part.b < weights.length
  start : part.limit ≤ weightAt weights part.a
  stop : part.limit ≤ weightAt weights part.b
  blank : ∀ i, part.a < i → i < part.b → weightAt weights i = 0

variable {P : ℕ → ℕ → ℕ → Prop} {part : Part} {before mid after : List ℕ} {split weight : ℕ}

/-- Nothing is split off: the part is one gap, at every level that keeps its ends. -/
theorem Ready.unsplit (hready : Ready part before)
    (hP : part.a < part.b → ∀ level < part.limit, P level part.a part.b) :
    Walked P part before before where
  length := rfl
  outside _ _ := rfl
  inside i ha hb := by simp [hready.blank i ha hb]
  gaps level hlevel i j hi hij hj hiKept hjKept _ := by
    have hends : ∀ k, part.a ≤ k → k ≤ part.b → level < weightAt before k →
        k = part.a ∨ k = part.b := by
      intro k hka hkb hkept
      by_contra hinside
      have := hready.blank k (by omega) (by omega)
      omega
    have hia := hends i hi (by omega) hiKept
    have hjb := hends j (by omega) hj hjKept
    obtain rfl : i = part.a := by omega
    obtain rfl : j = part.b := by omega
    exact hP hij level hlevel

theorem Ready.right (hready : Ready part before) (ha : part.a < split) (hb : split < part.b)
    (hweight : weight ≤ part.limit) :
    Ready ⟨split, part.b, weight⟩ (before.set split weight) where
  bounds := ⟨hb.le, by simpa using hready.bounds.2⟩
  start := by
    rw [weightAt_set (by have := hready.bounds; omega), if_pos rfl]
  stop := by
    dsimp only
    rw [weightAt_set (by have := hready.bounds; omega), if_neg (by omega)]
    exact hweight.trans hready.stop
  blank i hi hib := by
    dsimp only at hi hib
    rw [weightAt_set (by have := hready.bounds; omega), if_neg (by omega)]
    exact hready.blank i (by omega) hib

theorem Ready.left (hready : Ready part before) (ha : part.a < split) (hb : split < part.b)
    (hweight : weight ≤ part.limit)
    (hright : Walked P ⟨split, part.b, weight⟩ (before.set split weight) mid) :
    Ready ⟨part.a, split, weight⟩ mid := by
  have hlength : split < before.length := by have := hready.bounds; omega
  have hsame (i : ℕ) (hi : i ≤ split) : weightAt mid i = weightAt (before.set split weight) i :=
    hright.outside i (by dsimp only; omega)
  refine ⟨⟨ha.le, ?_⟩, ?_, ?_, fun i hi his ↦ ?_⟩
  · simpa [hright.length] using hlength
  · dsimp only
    rw [hsame _ ha.le, weightAt_set hlength, if_neg (by omega)]
    exact hweight.trans hready.start
  · dsimp only
    rw [hsame _ le_rfl, weightAt_set hlength, if_pos rfl]
  · dsimp only at hi his
    rw [hsame i his.le, weightAt_set hlength, if_neg (by omega)]
    exact hready.blank i hi (by omega)

/-- The two sides of a split. A level that keeps the split keeps the gaps of both; one that does
not, but keeps the ends, has the whole part as one gap. -/
theorem Ready.join (hready : Ready part before) (ha : part.a < split) (hb : split < part.b)
    (hweight : weight ≤ part.limit)
    (hright : Walked P ⟨split, part.b, weight⟩ (before.set split weight) mid)
    (hleft : Walked P ⟨part.a, split, weight⟩ mid after)
    (hP : ∀ level, weight ≤ level → level < part.limit → P level part.a part.b) :
    Walked P part before after := by
  have hlength : split < before.length := by have := hready.bounds; omega
  have hatSplit : weightAt after split = weight := by
    rw [hleft.outside split (by dsimp only; omega), hright.outside split (by dsimp only; omega),
      weightAt_set hlength, if_pos rfl]
  have hinside : ∀ i, part.a < i → i < part.b → weightAt after i ≤ weight := by
    intro i hia hib
    obtain hlt | rfl | hgt := lt_trichotomy i split
    · exact hleft.inside i hia hlt
    · exact hatSplit.le
    · rw [hleft.outside i (by dsimp only; omega)]
      exact hright.inside i hgt hib
  refine ⟨?_, fun i hi ↦ ?_, fun i hia hib ↦ (hinside i hia hib).trans hweight, ?_⟩
  · rw [hleft.length, hright.length, List.length_set]
  · rw [hleft.outside i (by dsimp only; omega), hright.outside i (by dsimp only; omega),
      weightAt_set hlength, if_neg (by omega)]
  · intro level hlevel
    by_cases hkept : level < weight
    · refine (hleft.gaps level hkept).join ?_ (hatSplit.symm ▸ hkept)
      exact (hright.gaps level hkept).congr fun i hi _ ↦ hleft.outside i (by dsimp only at hi ⊢; omega)
    · intro i j hi hij hj hiKept hjKept _
      have hends : ∀ k, part.a ≤ k → k ≤ part.b → level < weightAt after k →
          k = part.a ∨ k = part.b := by
        intro k hka hkb hkept'
        by_contra hk
        have := hinside k (by omega) (by omega)
        omega
      have hia := hends i hi (by omega) hiKept
      have hjb := hends j (by omega) hj hjKept
      obtain rfl : i = part.a := by omega
      obtain rfl : j = part.b := by omega
      exact hP level (not_lt.mp hkept) hlevel

variable {off : TrailPoint → TrailPoint → TrailPoint → ℚ} {points : List TrailPoint}

/-- Every stay between two is within the level's tiles of their line, and it takes no longer from
one to the other than its seconds. -/
def WithinLevel (off : TrailPoint → TrailPoint → TrailPoint → ℚ) (points : List TrailPoint)
    (level i j : ℕ) : Prop :=
  (∀ k, i < k → k < j → off (pointAt points i) (pointAt points j) (pointAt points k) ≤ tilesAt level) ∧
    (pointAt points j).first - (pointAt points i).last ≤ secondsAt level

/-- The weight a part's split gets says at which levels the part is near enough without it. -/
theorem withinLevel_of_counts {a b level : ℕ} (hlevel : level < always)
    (hway : (thinLevels.countP fun level ↦ (level.1 : ℚ) < (furthest off points a b).2) ≤ level)
    (htime : (thinLevels.countP fun level ↦
      level.2 < (pointAt points b).first - (pointAt points a).last) ≤ level) :
    WithinLevel off points level a b :=
  ⟨fun _ hak hkb ↦ (off_le_furthest off hak hkb).trans (le_tilesAt hlevel hway),
    le_secondsAt hlevel htime⟩

variable (off points) in
/-- What a part is split into, and at which levels it needed no split. -/
theorem weighPart_covered (part : Part) (weights : List ℕ) (hlimit : part.limit ≤ always) :
    (weighPart off points part weights = ([], weights) ∧
      (part.a + 1 < part.b → ∀ level < part.limit, WithinLevel off points level part.a part.b)) ∨
    ∃ split weight, part.a < split ∧ split < part.b ∧ weight ≤ part.limit ∧
      weighPart off points part weights =
        ([⟨split, part.b, weight⟩, ⟨part.a, split, weight⟩], weights.set split weight) ∧
      ∀ level, weight ≤ level → level < part.limit →
        WithinLevel off points level part.a part.b := by
  -- A level finer than the limit that the weight does not reach is reached by neither count.
  have hcounts : ∀ {way time level : ℕ}, min (max way time) part.limit ≤ level →
      level < part.limit → way ≤ level ∧ time ≤ level := by
    intro way time level hweight hlevel
    omega
  unfold weighPart
  dsimp only
  split
  · exact .inl ⟨rfl, fun hlong ↦ absurd hlong (by omega)⟩
  · split
    · refine .inr ⟨_, part.limit, by omega, by omega, le_rfl, rfl, fun level hlow hhigh ↦ ?_⟩
      exact absurd hhigh (not_lt.mpr hlow)
    · split
      · next hnone =>
        refine .inl ⟨rfl, fun _ level hlevel ↦ ?_⟩
        obtain ⟨hway, htime⟩ := hcounts (hnone.le.trans (Nat.zero_le level)) hlevel
        exact withinLevel_of_counts (hlevel.trans_le hlimit) hway htime
      · refine .inr ⟨_, _, ?_, ?_, min_le_right _ _, rfl, fun level hweight hlevel ↦ ?_⟩
        · split
          · exact (furthest_mem off (by omega)).1
          · exact (halfway_mem _ (by omega)).1
        · split
          · exact (furthest_mem off (by omega)).2
          · exact (halfway_mem _ (by omega)).2
        · obtain ⟨hway, htime⟩ := hcounts hweight hlevel
          exact withinLevel_of_counts (hlevel.trans_le hlimit) hway htime

/-- What weighing a part and everything split off it comes to. -/
theorem walked_drain {start stop : ℕ}
    (hP : ∀ level i j, start ≤ i → i < j → j ≤ stop →
      (i + 1 < j → WithinLevel off points level i j) → P level i j)
    (part : Part) (weights : List ℕ) (hstart : start ≤ part.a) (hstop : part.b ≤ stop)
    (hlimit : part.limit ≤ always) (hready : Ready part weights) :
    Walked P part weights ((weighParts off points).drain [part] weights) := by
  induction part using (weighParts off points).induct generalizing weights with
  | h part ih =>
    have hsmaller : ∀ side ∈ (weighPart off points part weights).1,
        (weighParts off points).size side < (weighParts off points).size part :=
      fun side hside ↦ (weighParts off points).size_lt_of_mem hside
    rw [Worklist.drain_singleton]
    change Walked P part weights ((weighParts off points).drain
      (weighPart off points part weights).1 (weighPart off points part weights).2)
    obtain ⟨hnone, hcover⟩ | ⟨split, weight, ha, hb, hweight, hsplit, hcover⟩ :=
      weighPart_covered off points part weights hlimit
    · rw [hnone, Worklist.drain_nil]
      exact hready.unsplit fun hab level hlevel ↦
        hP level _ _ hstart hab hstop fun hlong ↦ hcover hlong level hlevel
    · rw [hsplit] at hsmaller ⊢
      have hright := ih ⟨split, part.b, weight⟩ (hsmaller _ (by simp)) (weights.set split weight)
        (by dsimp only; omega) hstop (hweight.trans hlimit) (hready.right ha hb hweight)
      have hleft := ih ⟨part.a, split, weight⟩ (hsmaller _ (by simp)) _
        hstart (by dsimp only; omega) (hweight.trans hlimit) (hready.left ha hb hweight hright)
      rw [← List.singleton_append, Worklist.drain_append]
      exact hready.join ha hb hweight hright hleft fun level hlow hhigh ↦
        hP level _ _ hstart (by omega) hstop fun _ ↦ hcover level hlow hhigh

/-! ## Weighing a trail -/

/-- Nothing but walking on one floor led to a point. -/
def WalkedTo (points : List TrailPoint) (index : ℕ) : Prop :=
  (pointAt points index).jump = false ∧
    (pointAt points index).plane = (pointAt points (index - 1)).plane

/-- What a level's gaps in a trail meet: where something was left out, it was near enough, and all
of it was walked. -/
def Covered (off : TrailPoint → TrailPoint → TrailPoint → ℚ) (points : List TrailPoint)
    (level i j : ℕ) : Prop :=
  i + 1 < j → WithinLevel off points level i j ∧ ∀ k, i < k → k ≤ j → WalkedTo points k

theorem covered_of_walked {start stop : ℕ}
    (hwalked : ∀ k, start < k → k ≤ stop → WalkedTo points k) (level i j : ℕ) (hi : start ≤ i)
    (_ : i < j) (hj : j ≤ stop) (h : i + 1 < j → WithinLevel off points level i j) :
    Covered off points level i j :=
  fun hlong ↦ ⟨h hlong, fun k hik hkj ↦ hwalked k (by omega) (by omega)⟩

/-- Weighing a walk between two points that are kept. -/
theorem walked_weighWalk {start stop : ℕ} {weights : List ℕ}
    (hready : Ready ⟨start, stop, always⟩ weights)
    (hwalked : ∀ k, start < k → k ≤ stop → WalkedTo points k) :
    Walked (Covered off points) ⟨start, stop, always⟩ weights
      (weighWalk off points start stop weights) :=
  walked_drain (covered_of_walked hwalked) _ weights le_rfl le_rfl le_rfl hready

/-- How far `weigh` has come: everything up to `start` is weighed, from there on nothing is. -/
structure WeighedTo (off : TrailPoint → TrailPoint → TrailPoint → ℚ) (points : List TrailPoint)
    (fromIndex last : ℕ) (before : List ℕ) (index start : ℕ) (weights : List ℕ) : Prop where
  bounds : fromIndex ≤ start ∧ start ≤ index ∧ index ≤ last ∧ last < weights.length
  length : weights.length = before.length
  older : ∀ i < fromIndex, weightAt weights i = weightAt before i
  fromKept : weightAt weights fromIndex = always
  startKept : weightAt weights start = always
  lastKept : weightAt weights last = always
  blank : ∀ i, start < i → i < last → weightAt weights i = 0
  walked : ∀ k, start < k → k ≤ index → WalkedTo points k
  gaps : ∀ level < always, GapsBetween (Covered off points level) level weights fromIndex start

/-- `weigh` is through: the ends are kept and every gap in between is covered. -/
structure WeighedFrom (off : TrailPoint → TrailPoint → TrailPoint → ℚ) (points : List TrailPoint)
    (fromIndex last : ℕ) (before weights : List ℕ) : Prop where
  length : weights.length = before.length
  older : ∀ i < fromIndex, weightAt weights i = weightAt before i
  fromKept : weightAt weights fromIndex = always
  lastKept : weightAt weights last = always
  gaps : ∀ level < always, GapsBetween (Covered off points level) level weights fromIndex last

variable {fromIndex last index start : ℕ} {weights : List ℕ}

/-- A jump or a change of floor: the walk up to it is weighed, and both its sides are kept. -/
theorem WeighedTo.break_ (h : WeighedTo off points fromIndex last before index start weights)
    (hindex : index < last) :
    WeighedTo off points fromIndex last before (index + 1) (index + 1)
      (weighWalk off points start index ((weights.set index always).set (index + 1) always)) := by
  obtain ⟨hfrom, hstart, -, hlast⟩ := h.bounds
  have hset (i : ℕ) : weightAt ((weights.set index always).set (index + 1) always) i =
      if i = index + 1 then always else if i = index then always else weightAt weights i := by
    rw [weightAt_set (by rw [List.length_set]; omega), weightAt_set (by omega)]
  have hready : Ready ⟨start, index, always⟩ ((weights.set index always).set (index + 1) always) := by
    refine ⟨⟨hstart, by simp only [List.length_set]; omega⟩, ?_, ?_, fun i hi his ↦ ?_⟩
    · dsimp only
      rw [hset, h.startKept]
      split_ifs <;> rfl
    · dsimp only
      rw [hset]
      split_ifs <;> first | rfl | omega
    · dsimp only at hi his
      rw [hset, if_neg (by omega), if_neg (by omega)]
      exact h.blank i hi (by omega)
  have hwalk : Walked (Covered off points) _ _ _ := walked_weighWalk hready h.walked
  have hout (i : ℕ) (hi : i ≤ start ∨ index ≤ i) :
      weightAt (weighWalk off points start index
        ((weights.set index always).set (index + 1) always)) i =
      if i = index + 1 then always else if i = index then always else weightAt weights i := by
    rw [hwalk.outside i (by dsimp only; omega), hset]
  have hkept : weightAt (weighWalk off points start index
      ((weights.set index always).set (index + 1) always)) index = always := by
    rw [hout index (.inr le_rfl), if_neg (by omega), if_pos rfl]
  refine ⟨⟨by omega, le_rfl, hindex, ?_⟩, ?_, fun i hi ↦ ?_, ?_, ?_, ?_, fun i hi hil ↦ ?_,
    fun k hk hki ↦ ?_, fun level hlevel ↦ ?_⟩
  · simp only [hwalk.length, List.length_set]
    exact hlast
  · simp only [hwalk.length, List.length_set, h.length]
  · rw [hout i (by omega), if_neg (by omega), if_neg (by omega)]
    exact h.older i hi
  · rw [hout fromIndex (.inl hfrom), h.fromKept]
    split_ifs <;> rfl
  · rw [hout _ (.inr (by omega)), if_pos rfl]
  · rw [hout last (.inr (by omega)), h.lastKept]
    split_ifs <;> rfl
  · rw [hout i (.inr (by omega)), if_neg (by omega), if_neg (by omega)]
    exact h.blank i (by omega) hil
  · omega
  · have hold : GapsBetween (Covered off points level) level (weighWalk off points start index
        ((weights.set index always).set (index + 1) always)) fromIndex start := by
      refine (h.gaps level hlevel).congr fun i _ hi ↦ ?_
      rw [hout i (.inl hi), if_neg (by omega)]
      split_ifs with hi'
      · rw [← h.startKept, show i = start by omega]
      · rfl
    have hnew := hwalk.gaps level hlevel
    have hbreak : GapsBetween (Covered off points level) level (weighWalk off points start index
        ((weights.set index always).set (index + 1) always)) index (index + 1) :=
      fun i j hi hij hj _ _ _ hlong ↦ absurd hlong (by omega)
    refine (hold.join hnew ?_).join hbreak (hkept.symm ▸ hlevel)
    rw [hout start (.inl le_rfl), h.startKept]
    split_ifs <;> exact hlevel

/-- The last walk is weighed up to the newest point. -/
theorem WeighedTo.finish (h : WeighedTo off points fromIndex last before index start weights)
    (hindex : index + 1 = last) (hwalked : WalkedTo points last) :
    WeighedFrom off points fromIndex last before (weighWalk off points start last weights) := by
  obtain ⟨hfrom, hstart, -, hlast⟩ := h.bounds
  have hready : Ready ⟨start, last, always⟩ weights :=
    ⟨⟨by dsimp only; omega, hlast⟩, h.startKept.ge, h.lastKept.ge, h.blank⟩
  have hwalkedAll : ∀ k, start < k → k ≤ last → WalkedTo points k := by
    intro k hk hkl
    obtain rfl | hlt := eq_or_lt_of_le hkl
    · exact hwalked
    · exact h.walked k hk (by omega)
  have hwalk : Walked (Covered off points) _ _ _ := walked_weighWalk hready hwalkedAll
  have hout (i : ℕ) (hi : i ≤ start ∨ last ≤ i) :
      weightAt (weighWalk off points start last weights) i = weightAt weights i :=
    hwalk.outside i (by dsimp only; omega)
  refine ⟨hwalk.length.trans h.length, fun i hi ↦ ?_, ?_, ?_, fun level hlevel ↦ ?_⟩
  · rw [hout i (by omega), h.older i hi]
  · rw [hout fromIndex (.inl hfrom), h.fromKept]
  · rw [hout last (.inr le_rfl), h.lastKept]
  · have hold := (h.gaps level hlevel).congr fun i _ hi ↦ hout i (.inl hi)
    refine hold.join (hwalk.gaps level hlevel) ?_
    rw [hout start (.inl le_rfl), h.startKept]
    exact hlevel

theorem WeighedTo.through (h : WeighedTo off points fromIndex last before last last weights) :
    WeighedFrom off points fromIndex last before weights :=
  ⟨h.length, h.older, h.fromKept, h.lastKept, h.gaps⟩

/-- The loop of `weigh`, from any point it has come to. -/
theorem weighedFrom_foldl {count : ℕ} (hcount : index + count = last)
    (h : WeighedTo off points fromIndex last before index start weights)
    (hstart : count = 0 → start = last) :
    WeighedFrom off points fromIndex last before
      ((List.range' (index + 1) count).foldl (weighTo off points last) (start, weights)).2 := by
  induction count generalizing index start weights with
  | zero =>
    obtain rfl : start = last := hstart rfl
    obtain rfl : index = start := by omega
    exact h.through
  | succ count ih =>
    rw [List.range'_succ, List.foldl_cons]
    by_cases hbreak : (pointAt points (index + 1)).jump = true ∨
        (pointAt points (index + 1)).plane ≠ (pointAt points (index + 1 - 1)).plane
    · simp only [weighTo, if_pos hbreak]
      exact ih (by omega) (h.break_ (by omega)) (by omega)
    · have hwalked : WalkedTo points (index + 1) := by
        simpa [WalkedTo, not_or] using hbreak
      simp only [weighTo, if_neg hbreak]
      by_cases hlast : index + 1 = last
      · obtain rfl : count = 0 := by omega
        simp only [hlast, if_true, List.range'_zero, List.foldl_nil]
        exact h.finish hlast (hlast ▸ hwalked)
      · simp only [if_neg hlast]
        refine ih (by omega) ⟨?_, h.length, h.older, h.fromKept, h.startKept, h.lastKept, h.blank,
          ?_, h.gaps⟩ (by omega)
        · have := h.bounds
          omega
        · intro k hk hki
          obtain rfl | hlt := eq_or_lt_of_le hki
          · exact hwalked
          · exact h.walked k hk (by omega)

/-- What `weigh` comes to when nothing after `start` was weighed before. -/
theorem weighedFrom_weigh {start last : ℕ} {weights : List ℕ} (hlast : points.length = last + 1)
    (hstart : start ≤ last) (hweights : weights.length ≤ start + 1) :
    WeighedFrom off points start last (resize weights points.length)
      (weigh off points start weights) := by
  have hlength := length_resize weights (show weights.length ≤ points.length by omega)
  have hresized := weightAt_resize weights (show weights.length ≤ points.length by omega)
  have hset (i : ℕ) : weightAt (((resize weights points.length).set start always).set last always) i =
      if i = last then always else if i = start then always else weightAt weights i := by
    rw [weightAt_set (by rw [List.length_set]; omega), weightAt_set (by omega), hresized]
  unfold weigh
  simp only [hlast]
  rw [← hlast]
  refine weighedFrom_foldl (by omega) ⟨⟨le_rfl, le_rfl, hstart, ?_⟩, ?_, fun i hi ↦ ?_, ?_, ?_, ?_,
    fun i hi hil ↦ ?_, ?_, ?_⟩ (by omega)
  · simp only [List.length_set]
    omega
  · simp only [List.length_set]
  · rw [hset, if_neg (by omega), if_neg (by omega), hresized]
  · simp [hset]
  · simp [hset]
  · simp [hset]
  · rw [hset, if_neg (by omega), if_neg (by omega), weightAt, List.getD_eq_getElem?_getD,
      List.getElem?_eq_none (by omega), Option.getD_none]
  · omega
  · intro level _ i j hi hij hj
    omega

/-! ## The gaps of a weighed list -/

/-- Of two stays that were left one after the other at a level: what was between them. -/
def LeftOut (off : TrailPoint → TrailPoint → TrailPoint → ℚ) (level : ℕ) (a : TrailPoint)
    (between : List TrailPoint) (b : TrailPoint) : Prop :=
  between = [] ∨
    (∀ p ∈ between, off a b p ≤ tilesAt level) ∧ b.first - a.last ≤ secondsAt level ∧
      (a :: between ++ [b]).IsChain fun before stay ↦ stay.jump = false ∧ stay.plane = before.plane

/-- Where a segment of the weighed points is among them. -/
theorem at_segment {weights : List ℕ} {front segment back : List (TrailPoint × ℕ)}
    (h : points.zip weights = front ++ segment ++ back) {k : ℕ} {pair : TrailPoint × ℕ}
    (hk : segment[k]? = some pair) :
    pointAt points (front.length + k) = pair.1 ∧ weightAt weights (front.length + k) = pair.2 := by
  have hpair : (points.zip weights)[front.length + k]? = some pair := by
    have hlt : k < segment.length := (List.getElem?_eq_some_iff.mp hk).1
    rw [h, List.append_assoc, List.getElem?_append_right (by omega), Nat.add_sub_cancel_left,
      List.getElem?_append_left hlt, hk]
  obtain ⟨hpoint, hweight⟩ := List.getElem?_zip_eq_some.mp hpair
  simp [pointAt, weightAt, List.getD_eq_getElem?_getD, hpoint, hweight]

/-- The gaps of a weighed trail, in terms of the lists of points and weights. -/
theorem gapsCovered_of_weighed {level start last : ℕ} {weights : List ℕ}
    (hpoints : points.length = last + 1) (hweights : weights.length = last + 1)
    (h : GapsBetween (Covered off points level) level weights start last) :
    ThinnedTo.GapsCovered (LeftOut off level) Prod.fst (fun pair ↦ decide (level < pair.2))
      ((points.zip weights).drop start) := by
  intro before x between y after hsplit hx hy hbetween
  by_cases hnone : between = []
  · exact .inl (by simp [hnone])
  have hzip : points.zip weights =
      ((points.zip weights).take start ++ before) ++ (x :: between ++ [y]) ++ after := by
    conv_lhs => rw [← List.take_append_drop start (points.zip weights), hsplit]
    simp
  have hstart : start ≤ last := by
    by_contra hlt
    rw [List.drop_eq_nil_of_le (by simp; omega)] at hsplit
    simp at hsplit
  generalize hfront : (points.zip weights).take start ++ before = front at hzip
  have hfrontLength : start + before.length = front.length := by
    rw [← hfront]
    simp
    omega
  have hlength : front.length + (between.length + 2) ≤ last + 1 := by
    have := congrArg List.length hzip
    simp at this
    omega
  have hpair (k : ℕ) (pair : TrailPoint × ℕ) (hk : (x :: between ++ [y])[k]? = some pair) :=
    at_segment hzip hk
  have hatX := hpair 0 x (by simp)
  have hatY := hpair (between.length + 1) y (by simp)
  have hatZ {m : ℕ} (hm : m < between.length) := hpair (m + 1) between[m]
    (by simp [List.getElem?_append_left, hm])
  rw [Nat.add_zero] at hatX
  obtain ⟨⟨htiles, hseconds⟩, hwalked⟩ := h front.length (front.length + (between.length + 1))
    (by omega) (by omega) (by omega) (by simpa [hatX] using hx) (by simpa [hatY] using hy)
    (fun k hk hkb ↦ by
      obtain ⟨m, rfl⟩ : ∃ m, k = front.length + (m + 1) := ⟨k - front.length - 1, by omega⟩
      have hm : m < between.length := by omega
      rw [(hatZ hm).2]
      simpa using hbetween _ (List.getElem_mem hm))
    (by have := List.length_pos_iff.mpr hnone; omega)
  rw [hatX.1, hatY.1] at hseconds
  refine .inr ⟨fun p hp ↦ ?_, hseconds, ?_⟩
  · obtain ⟨z, hz, rfl⟩ := List.mem_map.mp hp
    obtain ⟨m, hm, rfl⟩ := List.mem_iff_getElem.mp hz
    have hnear := htiles (front.length + (m + 1)) (by omega) (by omega)
    rwa [hatX.1, hatY.1, (hatZ hm).1] at hnear
  · have hmap : x.1 :: between.map Prod.fst ++ [y.1] = (x :: between ++ [y]).map Prod.fst := by simp
    rw [hmap, List.isChain_iff_getElem]
    intro n hn
    rw [List.length_map] at hn
    obtain ⟨hjump, hplane⟩ := hwalked (front.length + (n + 1)) (by omega)
      (by simp at hn; omega)
    rw [(hpair _ _ (List.getElem?_eq_getElem hn)).1] at hjump hplane
    rw [Nat.add_sub_assoc (by omega), Nat.add_sub_cancel,
      (hpair _ _ (List.getElem?_eq_getElem (Nat.lt_of_succ_lt hn))).1] at hplane
    simpa only [List.getElem_map] using ⟨hjump, hplane⟩

/-! ## Trails that were cut -/

/-- A weighed list of what is left of some stays: at every level from `low` on, cutting it there
leaves a thinned list of them. -/
structure Keeps (off : TrailPoint → TrailPoint → TrailPoint → ℚ) (low : ℕ)
    (stays : List TrailPoint) (pairs : List (TrailPoint × ℕ)) : Prop where
  thinned : ∀ level, low ≤ level → level < always →
    Thinned (LeftOut off level) ((pairs.filter fun pair ↦ decide (level < pair.2)).map Prod.fst) stays
  newest : ∃ front stay, pairs = front ++ [(stay, always)]

theorem newest_of_weighedFrom {start last : ℕ} {before weights : List ℕ}
    (hpoints : points.length = last + 1) (hweights : weights.length = last + 1)
    (h : WeighedFrom off points start last before weights) :
    (points.zip weights).getLast? = some (pointAt points last, always) := by
  rw [List.getLast?_eq_getElem?, List.length_zip, hpoints, hweights, min_self, Nat.add_sub_cancel,
    List.getElem?_zip_eq_some, ← h.lastKept]
  constructor
  · simp [pointAt, List.getD_eq_getElem?_getD, hpoints]
  · simp [weightAt, List.getD_eq_getElem?_getD, hweights]

/-- What is weighed after a part that was thinned goes on from its newest stay. -/
theorem thinned_of_weighedFrom {level start last : ℕ} {kept all : List TrailPoint} {x : TrailPoint}
    {before weights : List ℕ} (hlevel : level < always) (hpoints : points.length = last + 1)
    (hweights : weights.length = last + 1) (hstart : start ≤ last)
    (h : WeighedFrom off points start last before weights)
    (hthinned : ThinnedTo (LeftOut off level) kept all x) (hx : points[start]? = some x) :
    Thinned (LeftOut off level)
      (kept ++ ((((points.zip weights).drop start).filter fun pair ↦ decide (level < pair.2)).map
        Prod.fst)) (all ++ points.drop start) := by
  have hhead : ((points.zip weights).drop start).head? = some (x, always) := by
    rw [List.head?_drop, List.getElem?_zip_eq_some, ← h.fromKept]
    refine ⟨hx, ?_⟩
    simp [weightAt, List.getD_eq_getElem?_getD, show start < weights.length by omega]
  have hlast : ((points.zip weights).drop start).getLast? = some (pointAt points last, always) := by
    rw [List.getLast?_drop, if_neg (by simp; omega), newest_of_weighedFrom hpoints hweights h]
  obtain ⟨front, hfront⟩ := List.getLast?_eq_some_iff.mp hlast
  have hresult := Thinned.of_gapsCovered hthinned hhead hfront (decide_eq_true hlevel)
    (decide_eq_true hlevel) (gapsCovered_of_weighed hpoints hweights (h.gaps level hlevel))
  rwa [List.map_drop, List.map_fst_zip (by omega)] at hresult

/-- The stays of an older part, weighed. -/
theorem keeps_weigh {stays : List TrailPoint} (h : stays ≠ []) :
    Keeps off 0 stays (stays.zip (weigh off stays 0 [])) := by
  obtain ⟨last, hlast⟩ := Nat.exists_eq_succ_of_ne_zero (mt List.length_eq_zero_iff.mp h)
  have hweighed : WeighedFrom off stays 0 last (resize [] stays.length) (weigh off stays 0 []) :=
    weighedFrom_weigh hlast (Nat.zero_le last) (Nat.zero_le 1)
  have hlength : (weigh off stays 0 []).length = last + 1 := by
    rw [hweighed.length, length_resize [] (Nat.zero_le _), hlast]
  constructor
  · intro level _ hlevel
    obtain ⟨first, rest, rfl⟩ := List.exists_cons_of_ne_nil h
    simpa using thinned_of_weighedFrom hlevel hlast hlength (Nat.zero_le last) hweighed
      (.first [] first) rfl
  · obtain ⟨front, hfront⟩ := List.getLast?_eq_some_iff.mp (newest_of_weighedFrom hlast hlength hweighed)
    exact ⟨front, _, hfront⟩

theorem take_eq_of_weightAt {weights weights' : List ℕ} {count : ℕ} (hcount : count ≤ weights.length)
    (hcount' : count ≤ weights'.length)
    (h : ∀ i < count, weightAt weights' i = weightAt weights i) :
    weights'.take count = weights.take count := by
  refine List.ext_getElem (by simp; omega) fun i hi _ ↦ ?_
  have hi' : i < count := by simp at hi; omega
  have hsame := h i hi'
  simpa [weightAt, List.getD_eq_getElem?_getD, show i < weights.length by omega,
    show i < weights'.length by omega] using hsame

/-- What is left of an older part, followed by what is new and weighed from its newest stay on,
whose end may have moved. -/
theorem keeps_join {low : ℕ} {stays kept rest : List TrailPoint} {weights : List ℕ}
    {stay stay' : TrailPoint} (hlength : kept.length + 1 = weights.length)
    (hsame : ∀ a level between, LeftOut off level a between stay →
      LeftOut off level a between stay')
    (h : Keeps off low (stays ++ [stay]) ((kept ++ [stay]).zip weights)) :
    Keeps off low (stays ++ stay' :: rest)
      ((kept ++ stay' :: rest).zip (weigh off (kept ++ stay' :: rest) kept.length weights)) := by
  have hpoints : (kept ++ stay' :: rest).length = kept.length + rest.length + 1 := by simp; omega
  have hweighed : WeighedFrom off (kept ++ stay' :: rest) kept.length _ _ _ :=
    weighedFrom_weigh hpoints (Nat.le_add_right _ _) hlength.ge
  have hresized := weightAt_resize weights
    (show weights.length ≤ (kept ++ stay' :: rest).length by omega)
  have hlength' : (weigh off (kept ++ stay' :: rest) kept.length weights).length =
      kept.length + rest.length + 1 := by
    rw [hweighed.length, length_resize _ (by omega), hpoints]
  constructor
  · intro level hlevel hlevelAlways
    obtain ⟨front, last, hnewest⟩ := h.newest
    obtain ⟨kept', all, newest, hkept, hall, hthinned⟩ := h.thinned level hlevel hlevelAlways
    rw [hnewest, List.filter_append, List.map_append,
      List.filter_cons_of_pos (by simpa using hlevelAlways)] at hkept
    obtain ⟨hfront, -⟩ := List.append_inj' hkept rfl
    obtain ⟨rfl, hstay⟩ := List.append_inj' hall rfl
    obtain rfl : stay = newest := by simpa using hstay
    rw [← hfront] at hthinned
    have hresult := thinned_of_weighedFrom hlevelAlways hpoints hlength' (Nat.le_add_right _ _)
      hweighed (hthinned.replace_last fun a between ↦ hsame a level between) (by simp)
    have hold : ((kept ++ stay' :: rest).zip
        (weigh off (kept ++ stay' :: rest) kept.length weights)).take kept.length = front := by
      have hfront' : ((kept ++ [stay]).zip weights).take kept.length = front := by
        have hcount : kept.length = front.length := by
          have := congrArg List.length hnewest
          simp at this
          omega
        rw [hnewest, hcount, List.take_left]
      simp only [← hfront', List.zip_eq_zipWith, List.take_zipWith, List.take_left]
      rw [take_eq_of_weightAt (by omega) (by omega) fun i hi ↦ (hweighed.older i hi).trans (hresized i)]
    rw [List.drop_left, ← hold, ← List.map_append, ← List.filter_append,
      List.take_append_drop] at hresult
    exact hresult
  · obtain ⟨front, hfront⟩ :=
      List.getLast?_eq_some_iff.mp (newest_of_weighedFrom hpoints hlength' hweighed)
    exact ⟨front, _, hfront⟩

theorem length_filter_zip (level : ℕ) {weights : List ℕ} (h : points.length = weights.length) :
    ((points.zip weights).filter fun pair ↦ decide (level < pair.2)).length = keptAt weights level := by
  rw [← List.countP_eq_length_filter, keptAt]
  conv_rhs => rw [← List.map_snd_zip h.ge, List.countP_map]
  rfl

/-- The level a trail is cut at is one of the levels, and never finer than the one asked for. -/
theorem cutLevel_mem (weights : List ℕ) {atLeast : Option ℕ} (hatLeast : atLeast.getD 0 < always)
    (maxPoints : ℕ) :
    atLeast.getD 0 ≤ cutLevel weights atLeast maxPoints ∧
      cutLevel weights atLeast maxPoints < always := by
  have hlast : thinLevels.length - 1 + 1 = always := by decide
  unfold cutLevel
  dsimp only
  cases hfind : List.find? (fun level ↦ decide (keptAt weights level ≤ maxPoints))
      (List.range' (atLeast.getD 0) (thinLevels.length - 1 + 1 - atLeast.getD 0)) with
  | none =>
    simp only [Option.getD_none]
    omega
  | some found =>
    have := List.mem_range'_1.mp (List.mem_of_find?_eq_some hfind)
    simp only [Option.getD_some]
    omega

/-- A cut leaves everything, or what is above a level, without the oldest of it that does not
fit. -/
theorem cut_cases (points : List TrailPoint) (weights : List ℕ) {atLeast : Option ℕ}
    (hatLeast : atLeast.getD 0 < always) (maxPoints : ℕ) :
    (atLeast = none ∧ (points.length ≤ maxPoints ∨ maxPoints < 2) ∧
        cut points weights atLeast maxPoints =
          { points, weights, level := none, truncated := false }) ∨
      ∃ level left, atLeast.getD 0 ≤ level ∧ level < always ∧
        left = ((points.zip weights).filter fun pair ↦ decide (level < pair.2)).drop
          (keptAt weights level - maxPoints) ∧
        cut points weights atLeast maxPoints =
          { points := left.map Prod.fst, weights := left.map Prod.snd, level := some level,
            truncated := maxPoints < keptAt weights level } := by
  by_cases hfits : atLeast.isNone ∧ (points.length ≤ maxPoints ∨ maxPoints < 2)
  · exact .inl ⟨Option.isNone_iff_eq_none.mp hfits.1, hfits.2, if_pos hfits⟩
  · obtain ⟨hlow, hlevel⟩ := cutLevel_mem weights hatLeast maxPoints
    exact .inr ⟨_, _, hlow, hlevel, rfl, if_neg hfits⟩

theorem map_snd_zip_sublist (points : List TrailPoint) (weights : List ℕ) :
    ((points.zip weights).map Prod.snd).Sublist weights := by
  induction points generalizing weights with
  | nil => exact List.nil_sublist _
  | cons point points ih =>
    cases weights with
    | nil => exact List.nil_sublist _
    | cons weight weights => exact (ih weights).cons_cons weight

/-- No more is left than may be. -/
theorem length_cut_le (points : List TrailPoint) (weights : List ℕ) {atLeast : Option ℕ}
    (hatLeast : atLeast.getD 0 < always) {maxPoints : ℕ} (hmax : 2 ≤ maxPoints) :
    (cut points weights atLeast maxPoints).points.length ≤ maxPoints := by
  obtain ⟨-, hfits, hcut⟩ | ⟨level, left, -, -, hleft, hcut⟩ := cut_cases points weights hatLeast maxPoints
  · rw [hcut]
    exact hfits.resolve_right (not_lt.mpr hmax)
  · have hkept : ((points.zip weights).filter fun pair ↦ decide (level < pair.2)).length ≤ keptAt weights level := by
      rw [← List.countP_eq_length_filter]
      have hcount := List.Sublist.countP_le (p := fun weight ↦ decide (level < weight))
        (map_snd_zip_sublist points weights)
      rwa [List.countP_map] at hcount
    rw [hcut, hleft]
    dsimp only
    rw [List.length_map, List.length_drop]
    omega

/-- What is above a level, without the oldest of it, is still weighed from that level on. -/
theorem Keeps.left {low level count : ℕ} {stays : List TrailPoint} {pairs : List (TrailPoint × ℕ)}
    (h : Keeps off low stays pairs) (hlow : low ≤ level) (hlevel : level < always)
    (hcount : count < (pairs.filter fun pair ↦ decide (level < pair.2)).length) :
    Keeps off level stays ((pairs.filter fun pair ↦ decide (level < pair.2)).drop count) := by
  obtain ⟨front, newest, hnewest⟩ := h.newest
  have hleft : (pairs.filter fun pair ↦ decide (level < pair.2)).drop count =
      (front.filter fun pair ↦ decide (level < pair.2)).drop count ++ [(newest, always)] := by
    rw [hnewest, List.filter_append, List.filter_cons_of_pos (by simpa using hlevel),
      List.filter_nil] at hcount ⊢
    rw [List.drop_append_of_le_length (by simp at hcount; omega)]
  refine ⟨fun coarser hcoarser hcoarserLevel ↦ ?_, _, newest, hleft⟩
  refine (h.thinned coarser (hlow.trans hcoarser) hcoarserLevel).of_suffix ?_ ?_
  · have hsame : (pairs.filter fun pair ↦ decide (level < pair.2)).filter
        (fun pair ↦ decide (coarser < pair.2)) = pairs.filter fun pair ↦ decide (coarser < pair.2) := by
      rw [List.filter_filter]
      refine List.filter_congr fun pair _ ↦ ?_
      rw [Bool.and_eq_left_iff_imp]
      simpa using fun hkept ↦ hcoarser.trans_lt hkept
    rw [← hsame]
    exact ((List.drop_suffix count _).filter _).map _
  · rw [hleft, List.filter_append, List.filter_cons_of_pos (by simpa using hcoarserLevel)]
    simp

theorem Keeps.count_lt {low level maxPoints : ℕ} {stays : List TrailPoint} {weights : List ℕ}
    (h : Keeps off low stays (points.zip weights)) (hlength : points.length = weights.length)
    (hlevel : level < always) (hmax : 0 < maxPoints) :
    keptAt weights level - maxPoints <
      ((points.zip weights).filter fun pair ↦ decide (level < pair.2)).length := by
  obtain ⟨front, newest, hnewest⟩ := h.newest
  have hkept : 0 < ((points.zip weights).filter fun pair ↦ decide (level < pair.2)).length := by
    rw [hnewest]
    simp [hlevel]
  rw [length_filter_zip level hlength] at hkept ⊢
  omega

/-- Cutting a weighed list keeps what is left weighed, from the level it was cut at on. -/
theorem keeps_cut {maxPoints : ℕ} {stays : List TrailPoint} {weights : List ℕ}
    {atLeast : Option ℕ} (hatLeast : atLeast.getD 0 < always) (hmax : 0 < maxPoints)
    (hlength : points.length = weights.length)
    (h : Keeps off (atLeast.getD 0) stays (points.zip weights)) :
    (cut points weights atLeast maxPoints).points.length =
        (cut points weights atLeast maxPoints).weights.length ∧
      (cut points weights atLeast maxPoints).level.getD 0 < always ∧
      Keeps off ((cut points weights atLeast maxPoints).level.getD 0) stays
        ((cut points weights atLeast maxPoints).points.zip
          (cut points weights atLeast maxPoints).weights) := by
  obtain ⟨rfl, -, hcut⟩ | ⟨level, left, hlow, hlevel, hleft, hcut⟩ :=
    cut_cases points weights hatLeast maxPoints
  · rw [hcut]
    exact ⟨hlength, hatLeast, h⟩
  · rw [hcut]
    refine ⟨by simp, hlevel, ?_⟩
    simp only [← List.unzip_fst, ← List.unzip_snd, List.zip_unzip, hleft, Option.getD_some]
    exact h.left hlow hlevel (h.count_lt hlength hlevel hmax)

/-! ## The two parts of a trail -/

/-- What is left of a trail is all of its stays, when those are no more than may be sent, or some of
them, thinned at the trail's level. -/
def ThinnedWithin (off : TrailPoint → TrailPoint → TrailPoint → ℚ) (stays : List TrailPoint)
    (weighed : Weighed) : Prop :=
  match weighed.level with
  | none => weighed.points = stays ∧ stays.length ≤ maxTrailPoints
  | some level =>
    level < always ∧ weighed.points.Sublist stays ∧ Thinned (LeftOut off level) weighed.points stays

/-- `off_the_line` never reads when the stay it leads to ended. -/
theorem leftOut_last (hypot : ℚ → ℚ → ℚ) {level : ℕ} {a b : TrailPoint} {between : List TrailPoint}
    (last : ℤ) (h : LeftOut (offTheLine hypot) level a between b) :
    LeftOut (offTheLine hypot) level a between { b with last } := by
  obtain hnone | ⟨htiles, hseconds, hwalked⟩ := h
  · exact .inl hnone
  · refine .inr ⟨htiles, hseconds, ?_⟩
    rw [List.isChain_append] at hwalked ⊢
    simpa using hwalked

/-- A trail that was cut is thinned within the level it was cut at. -/
theorem thinnedWithin_cut {stays : List TrailPoint} {weights : List ℕ} {atLeast : Option ℕ}
    (hatLeast : atLeast.getD 0 < always) (hlength : points.length = weights.length) (hall : atLeast = none → points = stays)
    (h : Keeps off (atLeast.getD 0) stays (points.zip weights)) :
    ThinnedWithin off stays (cut points weights atLeast maxTrailPoints) := by
  have hmax : 2 ≤ maxTrailPoints := by decide
  obtain ⟨hnone, hfits, hcut⟩ | ⟨level, left, hlow, hlevel, hleft, hcut⟩ :=
    cut_cases points weights hatLeast maxTrailPoints
  · rw [hcut]
    exact ⟨hall hnone, hall hnone ▸ hfits.resolve_right (not_lt.mpr hmax)⟩
  · rw [hcut]
    have hthinned : Thinned (LeftOut off level) (left.map Prod.fst) stays := by
      refine (h.thinned level hlow hlevel).of_suffix ?_ ?_
      · rw [hleft]
        exact (List.drop_suffix _ _).map _
      · have := h.count_lt hlength hlevel (show 0 < maxTrailPoints by decide)
        simp [hleft]
        omega
    exact ⟨hlevel, hthinned.sublist, hthinned⟩

theorem level_cut_lt (points : List TrailPoint) (weights : List ℕ) {atLeast : Option ℕ}
    (hatLeast : atLeast.getD 0 < always) (maxPoints : ℕ) :
    (cut points weights atLeast maxPoints).level.getD 0 < always := by
  obtain ⟨-, -, hcut⟩ | ⟨level, left, -, hlevel, -, hcut⟩ := cut_cases points weights hatLeast maxPoints
  · rw [hcut]
    exact Nat.pos_of_ne_zero (by decide)
  · rw [hcut]
    exact hlevel

/-- A trail has no more points than can be sent, however the parts come. -/
theorem length_joinRecent_le (off : TrailPoint → TrailPoint → TrailPoint → ℚ) (pages : List (List HubLocationPoint))
    (untilMs : ℤ) (cutShort : Bool) (recent : List HubLocationPoint) :
    (joinRecent off (olderPart off pages untilMs cutShort) recent).points.length ≤ maxTrailPoints :=
  length_cut_le _ _ (level_cut_lt _ _ (by decide) _) (by decide)

theorem sorted_split {points : List HubLocationPoint} (h : Sorted points) (time : ℤ) :
    points = (points.filter fun point ↦ point.atMs ≤ time) ++
      points.filter fun point ↦ time < point.atMs := by
  induction points with
  | nil => rfl
  | cons point points ih =>
    obtain ⟨hhead, htail⟩ := List.pairwise_cons.mp h
    by_cases hpoint : point.atMs ≤ time
    · rw [List.filter_cons_of_pos (by simpa using hpoint),
        List.filter_cons_of_neg (by simpa using hpoint), List.cons_append, ← ih htail]
    · have hlater : ∀ other ∈ point :: points, time < other.atMs := by
        intro other hother
        obtain rfl | hother := List.mem_cons.mp hother
        · exact not_le.mp hpoint
        · exact (not_le.mp hpoint).trans (hhead other hother)
      rw [List.filter_eq_nil_iff.mpr fun other hother ↦ by simpa using hlater other hother,
        List.filter_eq_self.mpr fun other hother ↦ by simpa using hlater other hother,
        List.nil_append]

theorem le_getLast {points : List HubLocationPoint} (h : Sorted points) {last : HubLocationPoint}
    (hlast : points.getLast? = some last) {point : HubLocationPoint} (hpoint : point ∈ points) :
    point.atMs ≤ last.atMs := by
  obtain ⟨front, rfl⟩ := List.getLast?_eq_some_iff.mp hlast
  obtain hfront | hlast := List.mem_append.mp hpoint
  · exact ((List.pairwise_append.mp h).2.2 point hfront last (List.mem_singleton_self last)).le
  · rw [List.mem_singleton.mp hlast]

/-- What the recent part has after the older part's last point is what comes after its end. -/
theorem later_than_older {points : List HubLocationPoint} (h : Sorted points) (untilMs : ℤ) :
    (points.filter fun point ↦
      ((points.filter fun point ↦ point.atMs ≤ untilMs).getLast?.map (·.atMs)).getD untilMs <
        point.atMs) = points.filter fun point ↦ untilMs < point.atMs := by
  cases hlast : (points.filter fun point ↦ point.atMs ≤ untilMs).getLast? with
  | none => rfl
  | some last =>
    have hlastUntil : last.atMs ≤ untilMs := by
      simpa using List.of_mem_filter (List.mem_of_getLast? hlast)
    refine List.filter_congr fun point hpoint ↦ decide_eq_decide.mpr ?_
    simp only [Option.map_some, Option.getD_some]
    constructor
    · intro hlater
      by_contra hearly
      have hmem : point ∈ points.filter fun point ↦ point.atMs ≤ untilMs :=
        List.mem_filter.mpr ⟨hpoint, by simpa using hearly⟩
      exact absurd (le_getLast (h.filter _) hlast hmem) (not_le.mpr hlater)
    · exact hlastUntil.trans_lt

theorem newSince_filter {points : List HubLocationPoint} (h : Sorted points) (time : ℤ) :
    newSince time (points.filter fun point ↦ time ≤ point.atMs) =
      points.filter fun point ↦ time < point.atMs := by
  rw [newSince_eq (h.filter _), List.filter_filter]
  refine List.filter_congr fun point _ ↦ ?_
  rw [Bool.and_eq_left_iff_imp]
  simpa using le_of_lt

/-- Of an older part that is not empty, the newest stay is always left. -/
theorem keeps_concat {low : ℕ} {stays kept : List TrailPoint} {weights : List ℕ} (hlow : low < always)
    (hlength : kept.length = weights.length) (h : Keeps off low stays (kept.zip weights)) :
    ∃ front older newest, kept = front ++ [newest] ∧ stays = older ++ [newest] := by
  obtain ⟨front, last, hnewest⟩ := h.newest
  obtain ⟨kept', older, newest, hkept, hstays, -⟩ := h.thinned low le_rfl hlow
  rw [hnewest, List.filter_append, List.map_append,
    List.filter_cons_of_pos (by simpa using hlow)] at hkept
  obtain ⟨-, hlast⟩ := List.append_inj' hkept rfl
  refine ⟨front.map Prod.fst, older, newest, ?_, hstays⟩
  rw [← List.map_fst_zip hlength.le, hnewest, List.map_append]
  simpa using hlast

variable (off points) in
theorem length_weigh (start : ℕ) (weights : List ℕ) (hstart : start ≤ points.length - 1)
    (hweights : weights.length ≤ start + 1) :
    (weigh off points start weights).length = points.length := by
  cases hlength : points.length with
  | zero => simp [weigh, hlength, resize]
  | succ last =>
    have hweighed : WeighedFrom off points start last _ _ :=
      weighedFrom_weigh hlength (by omega) hweights
    rw [hweighed.length, length_resize _ (by omega), hlength]

/-- Stays that are cut on their own, then followed by more samples and cut again. -/
theorem thinnedWithin_extend (hypot : ℚ → ℚ → ℚ) (stays : List TrailPoint)
    (recent : List HubLocationPoint) {trail : Weighed} {truncated : Bool}
    (htrail : trail = { cut stays (weigh (offTheLine hypot) stays 0 []) none olderMaxPoints with
      truncated }) :
    ThinnedWithin (offTheLine hypot) (extendStays stays recent)
      (cut (extendStays trail.points recent)
        (weigh (offTheLine hypot) (extendStays trail.points recent) (trail.points.length - 1)
          trail.weights) trail.level maxTrailPoints) := by
  have holder : 0 < olderMaxPoints := by decide
  have halways : (none : Option ℕ).getD 0 < always := by decide
  by_cases hstays : stays = []
  · subst hstays
    obtain rfl : trail = { points := [], weights := [], level := none, truncated } := htrail
    by_cases hnew : extendStays [] recent = []
    · simp only [hnew]
      exact ⟨rfl, Nat.zero_le _⟩
    · have hlength := length_weigh (offTheLine hypot) (extendStays [] recent) 0 [] (Nat.zero_le _)
        (Nat.zero_le _)
      exact thinnedWithin_cut halways hlength.symm (fun _ ↦ rfl) (keeps_weigh hnew)
  · have hlength := length_weigh (offTheLine hypot) stays 0 [] (Nat.zero_le _) (Nat.zero_le _)
    obtain ⟨hkeptLength, hlow, hkeeps⟩ := keeps_cut halways holder hlength.symm (keeps_weigh hstays)
    have hall : trail.level = none → trail.points = stays := by
      intro hnone
      subst htrail
      obtain ⟨-, -, hcut⟩ | ⟨level, left, -, -, -, hcut⟩ :=
        cut_cases stays (weigh (offTheLine hypot) stays 0 []) halways olderMaxPoints
      · simp only [hcut]
      · simp [hcut] at hnone
    replace hkeptLength : trail.points.length = trail.weights.length := htrail ▸ hkeptLength
    replace hlow : trail.level.getD 0 < always := htrail ▸ hlow
    replace hkeeps : Keeps (offTheLine hypot) (trail.level.getD 0) stays
        (trail.points.zip trail.weights) := htrail ▸ hkeeps
    obtain ⟨front, older, newest, hfront, rfl⟩ := keeps_concat hlow hkeptLength hkeeps
    obtain ⟨last, rest, hrest⟩ := extendStays_singleton newest recent
    rw [hfront] at hkeptLength hkeeps
    simp only [hfront, extendStays_frame _ (List.cons_ne_nil newest []), hrest]
    have hlength' : front.length + 1 = trail.weights.length := by simpa using hkeptLength
    have hstart : (front ++ [newest]).length - 1 = front.length := by simp
    rw [hstart]
    refine thinnedWithin_cut hlow (length_weigh _ _ _ _ (by simp) hlength'.ge).symm (fun hnone ↦ ?_)
      (keeps_join hlength' (fun a level between h ↦ leftOut_last hypot last h) hkeeps)
    obtain rfl : front = older := by simpa [hfront] using hall hnone
    rfl

/-- However the parts come, they are thinned as one: against the stays of both unthinned. -/
theorem thinnedWithin_joined (hypot : ℚ → ℚ → ℚ) (pages : List (List HubLocationPoint))
    (untilMs : ℤ) (cutShort : Bool) (recent : List HubLocationPoint) :
    let older := olderPart (offTheLine hypot) pages untilMs cutShort
    ThinnedWithin (offTheLine hypot) (extendStays (joinPages pages) (newSince older.takesOver recent))
      (joinRecent (offTheLine hypot) older recent) :=
  thinnedWithin_extend hypot (joinPages pages) _ rfl

variable (off) in
/-- The stays of the two parts of a list of points are the stays of the whole list. -/
theorem joined_eq {points : List HubLocationPoint} (hsorted : Sorted points) (untilMs : ℤ)
    {pages : List (List HubLocationPoint)}
    (hpages : Paging pages (points.filter fun point ↦ point.atMs ≤ untilMs)) (cutShort : Bool) :
    let older := olderPart off pages untilMs cutShort
    extendStays (joinPages pages)
        (newSince older.takesOver (points.filter fun point ↦ older.takesOver ≤ point.atMs)) =
      extendStays [] points := by
  intro older
  have htakesOver : older.takesOver = ((points.filter fun point ↦
      point.atMs ≤ untilMs).getLast?.map (·.atMs)).getD untilMs :=
    congrArg (Option.getD · untilMs) (lastAt_paging hpages)
  rw [newSince_filter hsorted, htakesOver, later_than_older hsorted,
    joinPages_eq hpages (hsorted.filter _), ← extendStays_append, ← sorted_split hsorted untilMs]

/-- Whatever the older part was thinned to, and however the recent part goes on from it, what is
left of the two is thinned within the level the whole trail is cut at. -/
theorem thinnedWithin_joinRecent (hypot : ℚ → ℚ → ℚ) {points : List HubLocationPoint}
    (hsorted : Sorted points) (untilMs : ℤ) {pages : List (List HubLocationPoint)}
    (hpages : Paging pages (points.filter fun point ↦ point.atMs ≤ untilMs)) (cutShort : Bool) :
    let older := olderPart (offTheLine hypot) pages untilMs cutShort
    ThinnedWithin (offTheLine hypot) (extendStays [] points)
      (joinRecent (offTheLine hypot) older
        (points.filter fun point ↦ older.takesOver ≤ point.atMs)) := by
  intro older
  rw [← joined_eq (offTheLine hypot) hsorted untilMs hpages cutShort]
  exact thinnedWithin_joined hypot pages untilMs cutShort _

/-- A walk along the x axis with a corner every ten tiles, a point a second. -/
def cornered (count : ℕ) : List HubLocationPoint :=
  (List.range count).map fun (i : ℕ) ↦
    { atMs := 1000 * i, x := 3200 + i, y := if i % 10 = 3 then 3201 else 3200, plane := 0,
      isOnBoat := none, world := none, via := some .move }

theorem sorted_cornered (count : ℕ) : Sorted (cornered count) := by
  refine List.pairwise_map.mpr (List.pairwise_lt_range.imp fun hlt ↦ ?_)
  dsimp only
  omega

/-- Every sample of the walk is a stay of its own. -/
theorem exists_extendStays_cornered (count : ℕ) : ∃ front last,
    extendStays [] (cornered (count + 1)) = front ++ [last] ∧ front.length = count ∧
      last.x = 3200 + (count : ℤ) := by
  induction count with
  | zero => exact ⟨[], _, rfl, rfl, rfl⟩
  | succ count ih =>
    obtain ⟨front, last, hstays, hlength, hlast⟩ := ih
    rw [cornered, List.range_succ, List.map_append, extendStays_append, ← cornered, hstays, List.map_singleton,
      extendStays, List.foldl_cons, List.foldl_nil, extendStay, List.getLast?_concat]
    dsimp only
    rw [if_neg]
    · exact ⟨front ++ [last], _, rfl, by simp [hlength], by simp [HubLocationPoint.begin]⟩
    · simp [HubLocationPoint.goesOn, hlast]

theorem length_extendStays_cornered (count : ℕ) : (extendStays [] (cornered (count + 1))).length = count + 1 := by
  obtain ⟨front, last, hstays, hlength, -⟩ := exists_extendStays_cornered count
  rw [hstays, List.length_append, hlength, List.length_singleton]

/-- The walk read in the older part up to 3500 s, and on from where that ends. -/
def corneredTrail (count : ℕ) : Weighed :=
  let older := olderPart (offTheLine max) [(cornered count).filter fun point ↦ point.atMs ≤ 3500000] 3500000 false
  joinRecent (offTheLine max) older ((cornered count).filter fun point ↦ older.takesOver ≤ point.atMs)

/-- After more than an hour of the walk the trail is thinned. -/
theorem thinnedWithin_cornered :
    ThinnedWithin (offTheLine max) (extendStays [] (cornered 4000)) (corneredTrail 4000) ∧
      (corneredTrail 4000).points.length < (extendStays [] (cornered 4000)).length := by
  obtain ⟨count, hcount⟩ : ∃ count, count = 4000 := ⟨_, rfl⟩
  rw [← hcount]
  have hthinned : ThinnedWithin (offTheLine max) (extendStays [] (cornered count)) (corneredTrail count) :=
    thinnedWithin_joinRecent max (sorted_cornered count) 3500000 (.oldest _) false
  have hshort : (corneredTrail count).points.length ≤ maxTrailPoints := length_joinRecent_le _ _ _ _ _
  have hstays : (extendStays [] (cornered count)).length = count := by
    obtain ⟨less, rfl⟩ : ∃ less, count = less + 1 := ⟨3999, hcount⟩
    exact length_extendStays_cornered less
  have hcap : maxTrailPoints < count := by
    rw [hcount]
    decide
  exact ⟨hthinned, by omega⟩

end OsrsMap.Trails
