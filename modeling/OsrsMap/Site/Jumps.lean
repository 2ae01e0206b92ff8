import OsrsMap.Site.TrailModel
import OsrsMap.Trails.ErrorBound
import Mathlib.Tactic.GCongr
import Mathlib.Tactic.Linarith
import Mathlib.Tactic.NormNum
import Mathlib.Tactic.Ring

/-!
# Jumps of a thinned trail

The server leaves out stays that were walked, as far as its own guess (`is_break`) tells, and the
site classifies the longer steps that are left with a guess of its own (`classifyStep`). A step the
hub labelled is what the label says on both sides. Of one it did not label the site asks that it
stays in one part of the map and within the distance of a sure run; the server asked that of each
of the small steps, which it takes to last a second at least.
-/

namespace OsrsMap.Site

open Trails

variable {gapS : ℤ} {a b : TrailPoint}

/-! ## One step -/

theorem connected_moveKind (a b : SitePoint) : (moveKind a b).connected = true := by
  unfold moveKind
  split_ifs <;> rfl

/-- How fast a player may have been from one stay to the next, on foot or on a boat. -/
def speed (a b : TrailPoint) : ℚ := if a.boat && b.boat then boatTilesPerS else runTilesPerS

theorem run_le_speed (a b : TrailPoint) : runTilesPerSec ≤ speed a b := by
  unfold speed boatTilesPerS runTilesPerS runTilesPerSec
  split_ifs <;> norm_num

/-- A step that stays in one part of the map, no further than a player would surely have run. -/
def SureStep (a b : TrailPoint) : Prop :=
  band a.x a.y = band b.x b.y ∧
    (tilesApart a b : ℚ) ≤ sureFraction * speed a b * (max (b.first - a.last) 1 : ℤ) + slackTiles

instance (a b : TrailPoint) : Decidable (SureStep a b) := inferInstanceAs (Decidable (_ ∧ _))

theorem siteBand_sitePoint (stay : TrailPoint) :
    siteBand (sitePoint stay none).x (sitePoint stay none).y = band stay.x stay.y := by
  simp [siteBand, band, sitePoint]

theorem distance_sitePoint (a b : TrailPoint) :
    distance (sitePoint a none) (sitePoint b none) 0 = tilesApart a b := by
  simp [distance, tilesApart, sitePoint]

/-- A run that is surely one is never too far for anyone to have run. -/
theorem sure_le_reach (a b : TrailPoint) :
    sureFraction * speed a b * (max (b.first - a.last) 1 : ℤ) + slackTiles ≤
      speed a b * ((max (b.first - a.last) 1 : ℤ) + uncertaintyS) + slackTiles := by
  have hspeed : 0 ≤ speed a b := by
    unfold speed boatTilesPerS runTilesPerS
    split_ifs <;> norm_num
  have helapsed : (1 : ℚ) ≤ (max (b.first - a.last) 1 : ℤ) := by exact_mod_cast le_max_right _ _
  have hslower : sureFraction * speed a b ≤ speed a b := by
    unfold sureFraction
    linarith
  have huncertain : (0 : ℚ) ≤ uncertaintyS := by norm_num [uncertaintyS]
  calc sureFraction * speed a b * (max (b.first - a.last) 1 : ℤ) + slackTiles
      ≤ speed a b * (max (b.first - a.last) 1 : ℤ) + slackTiles := by gcongr
    _ ≤ speed a b * ((max (b.first - a.last) 1 : ℤ) + uncertaintyS) + slackTiles := by
        gcongr
        linarith

/-- A step without a label that is no gap in the data is walked exactly when it is a sure one. -/
theorem connected_unlabelled (hgap : gapSeconds ≤ gapS) (hvia : b.via = none)
    (helapsed : b.first - a.last ≤ gapS) :
    (kindBetween gapS a b).connected = true ↔ SureStep a b := by
  have hkind : kindBetween gapS a b = guessStep (sitePoint a none) (sitePoint b none) gapS := by
    simp [kindBetween, classifyStep, sitePoint, hvia]
  have hspeed : speedBetween (sitePoint a none) (sitePoint b none) = speed a b := rfl
  have helapsed' : elapsedBetween (sitePoint a none) (sitePoint b none) =
    max (b.first - a.last) 1 := rfl
  have hlong : ¬ gapS < max (b.first - a.last) 1 := by
    have : gapSeconds = 300 := rfl
    omega
  rw [hkind, guessStep]
  simp only [siteBand_sitePoint, distance_sitePoint, sureTiles, hspeed, helapsed']
  by_cases hband : band a.x a.y = band b.x b.y
  · rw [if_neg (not_not.mpr hband)]
    by_cases hfar : speed a b * ((max (b.first - a.last) 1 : ℤ) + uncertaintyS) + slackTiles <
        tilesApart a b
    · have hunsure : ¬ SureStep a b :=
        fun hsure ↦ absurd (hsure.2.trans (sure_le_reach a b)) (not_le.mpr hfar)
      rw [if_pos hfar]
      exact iff_of_false (by simp [Kind.connected]) hunsure
    · rw [if_neg hfar]
      by_cases hsure : (tilesApart a b : ℚ) ≤
          sureFraction * speed a b * (max (b.first - a.last) 1 : ℤ) + slackTiles
      · rw [if_neg (by simpa [hlong] using hsure)]
        exact iff_of_true (connected_moveKind _ _) ⟨hband, hsure⟩
      · rw [if_pos (.inr (not_le.mp hsure))]
        exact iff_of_false (by simp [Kind.connected]) fun h ↦ hsure h.2
  · rw [if_pos hband]
    refine iff_of_false ?_ fun h ↦ hband h.1
    split_ifs <;> simp [Kind.connected]

/-- What the server's guess says of a step that it does not take for a break. -/
theorem not_break (h : isBreak a b = false) :
    a.boat = b.boat ∧ (b.via = some .move ∨ b.via = none ∧ band a.x a.y = band b.x b.y ∧
      b.first - a.last ≤ trailGapSecs ∧
      (tilesApart a b : ℚ) ≤ 75 / 100 * runTilesPerSec * (max (b.first - a.last) 1 : ℤ)) := by
  unfold isBreak at h
  split at h
  · exact absurd h (by simp)
  · next hsame =>
    rw [not_or, not_not] at hsame
    refine ⟨hsame.1, ?_⟩
    split at h
    · next hvia => exact .inl hvia
    · exact absurd h (by simp)
    · next hvia =>
      simp only [decide_eq_false_iff_not, not_or, not_not, not_lt] at h
      exact .inr ⟨hvia, h.1, (le_max_left _ _).trans h.2.1, h.2.2⟩

theorem connected_move (gapS : ℤ) (hvia : b.via = some .move) :
    (kindBetween gapS a b).connected = true := by
  have hkind : kindBetween gapS a b = moveKind (sitePoint a none) (sitePoint b none) := by
    simp [kindBetween, classifyStep, sitePoint, hvia]
  rw [hkind]
  exact connected_moveKind _ _

/-- The server's guess is the more eager one for a step of the unthinned stays. -/
theorem connected_of_not_break (hgap : gapSeconds ≤ gapS) (h : isBreak a b = false) :
    (kindBetween gapS a b).connected = true := by
  obtain ⟨-, hvia | ⟨hvia, hband, helapsed, htiles⟩⟩ := not_break h
  · exact connected_move gapS hvia
  · refine (connected_unlabelled hgap hvia (helapsed.trans hgap)).mpr ⟨hband, htiles.trans ?_⟩
    have hspeed := run_le_speed a b
    have helapsed : (0 : ℚ) ≤ (max (b.first - a.last) 1 : ℤ) := by
      exact_mod_cast le_trans zero_le_one (le_max_right _ _)
    have hslack : (0 : ℚ) ≤ slackTiles := by norm_num [slackTiles]
    calc 75 / 100 * runTilesPerSec * (max (b.first - a.last) 1 : ℤ)
        ≤ sureFraction * speed a b * (max (b.first - a.last) 1 : ℤ) := by
          unfold sureFraction
          gcongr
      _ ≤ sureFraction * speed a b * (max (b.first - a.last) 1 : ℤ) + slackTiles := by linarith

/-! ## The steps of a thinned trail -/

/-- Only walking on one floor led over what was left out. -/
def WalkedOver (a : TrailPoint) (between : List TrailPoint) (b : TrailPoint) : Prop :=
  between = [] ∨
    (a :: between ++ [b]).IsChain fun before stay ↦ stay.jump = false ∧ stay.plane = before.plane

/-- The jumps the site finds going through some stays. -/
def jumpsAlong (gapS : ℤ) (stays : List TrailPoint) : List (TrailPoint × TrailPoint × Kind) :=
  (stays.zip stays.tail).flatMap (jumpBetween gapS)

@[simp]
theorem jumpsAlong_cons_cons (a b : TrailPoint) (stays : List TrailPoint) :
    jumpsAlong gapS (a :: b :: stays) = jumpBetween gapS (a, b) ++ jumpsAlong gapS (b :: stays) :=
  rfl

/-- The site finds no jump where the server saw no break. -/
theorem jumpsAlong_walk (hgap : gapSeconds ≤ gapS) {a b : TrailPoint} {between : List TrailPoint}
    (h : (a :: between ++ [b]).IsChain fun before stay ↦ isBreak before stay = false)
    (stays : List TrailPoint) :
    jumpsAlong gapS (a :: between ++ b :: stays) = jumpsAlong gapS (b :: stays) := by
  induction between generalizing a with
  | nil =>
    have hab : isBreak a b = false := by simpa using h
    simp [jumpBetween, connected_of_not_break hgap hab]
  | cons next between ih =>
    obtain ⟨hnext, hrest⟩ := List.isChain_cons_cons.mp h
    have hstep := ih hrest
    simp only [List.cons_append, jumpsAlong_cons_cons] at hstep ⊢
    rw [hstep, jumpBetween, if_pos (connected_of_not_break hgap hnext), List.nil_append]

/-- When the site takes every step over what was left out for walked, it finds the jumps of the
stays that were not left out. -/
theorem jumpsAlong_segments (hgap : gapSeconds ≤ gapS)
    {segments : List (TrailPoint × List TrailPoint)}
    (hwalked : segments.IsChain fun segment next ↦ segment.2 ≠ [] →
      (segment.1 :: segment.2 ++ [next.1]).IsChain fun before stay ↦ isBreak before stay = false)
    (hconnected : segments.IsChain fun segment next ↦ segment.2 ≠ [] →
      (kindBetween gapS segment.1 next.1).connected = true)
    (hnewest : ∀ segment ∈ segments.getLast?, segment.2 = []) :
    jumpsAlong gapS (segments.map Prod.fst) =
      jumpsAlong gapS (segments.flatMap fun segment ↦ segment.1 :: segment.2) := by
  induction segments with
  | nil => rfl
  | cons segment segments ih =>
    cases segments with
    | nil => simp [hnewest segment rfl]
    | cons next segments =>
      obtain ⟨hwalk, hwalked⟩ := List.isChain_cons_cons.mp hwalked
      obtain ⟨hstep, hconnected⟩ := List.isChain_cons_cons.mp hconnected
      have hrest := ih hwalked hconnected (by simpa using hnewest)
      simp only [List.map_cons, List.flatMap_cons, jumpsAlong_cons_cons, List.cons_append] at hrest ⊢
      rw [hrest]
      by_cases hnone : segment.2 = []
      · simp [hnone]
      · have hskip := jumpsAlong_walk hgap (hwalk hnone)
          (next.2 ++ segments.flatMap fun segment ↦ segment.1 :: segment.2)
        rw [List.cons_append] at hskip
        rw [hskip, jumpBetween, if_pos (hstep hnone), List.nil_append]

/-! ## Stays and their breaks -/

/-- A stay is a jump exactly when the server saw a break before it. -/
def Marked (stays : List TrailPoint) : Prop :=
  stays.IsChain fun before stay ↦ stay.jump = isBreak before stay

theorem marked_extendStay {stays : List TrailPoint} (h : Marked stays)
    (point : HubLocationPoint) : Marked (extendStay stays point) := by
  unfold extendStay
  cases hlast : stays.getLast? with
  | none => exact List.isChain_singleton _
  | some stay =>
    dsimp only
    split
    · obtain ⟨front, rfl⟩ := List.getLast?_eq_some_iff.mp hlast
      unfold Marked at h ⊢
      rw [List.isChain_append] at h
      rw [List.dropLast_concat, List.isChain_append]
      refine ⟨h.1, List.isChain_singleton _, fun before hbefore after hafter ↦ ?_⟩
      -- A break does not depend on when the later stay ended.
      obtain rfl : { stay with last := timestamp point.atMs } = after := by simpa using hafter
      exact h.2.2 before hbefore stay rfl
    · refine List.isChain_append.mpr ⟨h, List.isChain_singleton _, fun before hbefore after hafter ↦ ?_⟩
      obtain rfl : stay = before := by simpa [hlast] using hbefore
      obtain rfl : point.begin (some stay) = after := by simpa using hafter
      rfl

theorem marked_extendStays {stays : List TrailPoint} (h : Marked stays)
    (points : List HubLocationPoint) : Marked (extendStays stays points) := by
  induction points generalizing stays with
  | nil => exact h
  | cons point points ih => exact ih (marked_extendStay h point)

theorem marked_joinPages (pages : List (List HubLocationPoint)) : Marked (joinPages pages) := by
  have hfold (rest : List (List HubLocationPoint)) (state : List TrailPoint × Option ℤ)
      (h : Marked state.1) : Marked (rest.foldl joinPage state).1 := by
    induction rest generalizing state with
    | nil => exact h
    | cons page rest ih => exact ih _ (marked_extendStays h _)
  exact hfold _ _ List.isChain_nil

/-! ## The step the server sends -/

theorem le_foldl_max (list : List ℤ) (start : ℤ) :
    start ≤ list.foldl max start ∧ ∀ x ∈ list, x ≤ list.foldl max start := by
  induction list generalizing start with
  | nil => simp
  | cons head tail ih =>
    obtain ⟨hstart, htail⟩ := ih (max start head)
    refine ⟨(le_max_left _ _).trans hstart, fun x hx ↦ ?_⟩
    obtain rfl | hx := List.mem_cons.mp hx
    · exact (le_max_right _ _).trans hstart
    · exact htail x hx

/-- The step is at least as long as every step of a thinned trail that is no break. -/
theorem le_step_built {weighed : Weighed} {level : ℕ} (hlevel : weighed.level = some level)
    {step : TrailPoint × TrailPoint} (hstep : step ∈ weighed.points.zip weighed.points.tail)
    (hjump : step.2.jump = false) : step.2.first - step.1.last ≤ weighed.built.step := by
  unfold Weighed.built
  simp only [hlevel]
  refine (le_foldl_max _ _).2 _ (List.mem_map.mpr ⟨step, ?_, rfl⟩)
  exact List.mem_filter.mpr ⟨hstep, by simpa using hjump⟩

theorem step_built_pos (weighed : Weighed) : trailIdleSecs ≤ weighed.built.step := by
  unfold Weighed.built
  dsimp only
  split
  · exact le_rfl
  · exact (le_foldl_max _ _).1

theorem gapSOf_built (weighed : Weighed) :
    gapSOf weighed.built = max gapSeconds weighed.built.step := by
  have hstep := step_built_pos weighed
  have hpos : weighed.built.step ≠ 0 := by
    have : trailIdleSecs = 60 := rfl
    omega
  rw [gapSOf, if_neg hpos]

/-! ## The jumps of the two trails -/

variable {member : String} {asOfMs : ℤ} {stays : List TrailPoint}

/-- The site finds the jumps of the stays that were not cut off in the thinned trail, and takes
every step over what was left out for walked. -/
structure JumpsKept (member : String) (trail : BuiltTrail) (asOfMs : ℤ)
    (alignment : Alignment WalkedOver trail.points stays) : Prop where
  jumps : jumpsOf member trail asOfMs =
    jumpsOf member { trail with points := alignment.visible } asOfMs
  connected : ∀ (i : ℕ) (segment : TrailPoint × List TrailPoint) (kind : Kind),
    alignment.segments[i]? = some segment → segment.2 ≠ [] →
      (siteModel member trail asOfMs).kinds[i]? = some kind → kind.connected = true

/-- Every step over what was left out that the hub did not label is a sure one. -/
def SurelyWalked {trail : List TrailPoint} (alignment : Alignment WalkedOver trail stays) : Prop :=
  alignment.segments.IsChain fun segment next ↦
    segment.2 ≠ [] → next.1.via = none → SureStep segment.1 next.1

/-- The kinds of a trail's steps, one after the other. -/
theorem connected_iff (trail : BuiltTrail) (alignment : Alignment WalkedOver trail.points stays) :
    (∀ (i : ℕ) (segment : TrailPoint × List TrailPoint) (kind : Kind),
      alignment.segments[i]? = some segment → segment.2 ≠ [] →
        (siteModel member trail asOfMs).kinds[i]? = some kind → kind.connected = true) ↔
    alignment.segments.IsChain fun segment next ↦ segment.2 ≠ [] →
      (kindBetween (gapSOf trail) segment.1 next.1).connected = true := by
  have hkinds (i : ℕ) (h : i + 1 < alignment.segments.length) :
      (siteModel member trail asOfMs).kinds[i]? = some (kindBetween (gapSOf trail)
        alignment.segments[i].1 alignment.segments[i + 1].1) := by
    rw [kinds_siteModel, List.getElem?_map, alignment.step h]
    rfl
  rw [List.isChain_iff_getElem]
  constructor
  · intro h i hi hleft
    exact h i _ _ (List.getElem?_eq_getElem (by omega)) hleft (hkinds i hi)
  · intro h i segment kind hsegment hleft hkind
    obtain ⟨hi, rfl⟩ := List.getElem?_eq_some_iff.mp hsegment
    -- Nothing was left out after the newest stay.
    have hnext : i + 1 < alignment.segments.length := by
      by_contra hlast
      refine hleft (alignment.newest _ ?_)
      rw [List.getLast?_eq_getElem?, show alignment.segments.length - 1 = i by omega]
      exact List.getElem?_eq_getElem hi
    rw [hkinds i hnext, Option.some.injEq] at hkind
    rw [← hkind]
    exact h i hnext hleft

theorem forall_of_isChain {α : Type*} {P : α → Prop} {a : α} {list : List α}
    (h : (a :: list).IsChain fun _ b ↦ P b) : ∀ b ∈ list, P b := by
  induction list generalizing a with
  | nil => simp
  | cons b list ih =>
    obtain ⟨hb, hrest⟩ := List.isChain_cons_cons.mp h
    exact List.forall_mem_cons.mpr ⟨hb, ih hrest⟩

/-- What the server says of the steps over what was left out. -/
theorem notBreak_of_walkedOver {trail : List TrailPoint} (hmarked : Marked stays)
    (alignment : Alignment WalkedOver trail stays) :
    alignment.segments.IsChain fun segment next ↦ segment.2 ≠ [] →
      (segment.1 :: segment.2 ++ [next.1]).IsChain fun before stay ↦
        stay.jump = false ∧ isBreak before stay = false := by
  refine (isChain_and (alignment.isChain_steps hmarked) alignment.covered).imp
    fun segment next h hleft ↦ (isChain_and h.1 (h.2.resolve_left hleft)).imp fun before stay h ↦ ?_
  exact ⟨h.2.1, h.1 ▸ h.2.1⟩

/-- The two classifiers agree on a thinned trail exactly when the steps that got longer by thinning
and have no label are sure ones. -/
theorem jumpsKept_iff_surelyWalked {weighed : Weighed} (hmarked : Marked stays)
    (hall : weighed.level = none → weighed.points = stays)
    (alignment : Alignment WalkedOver weighed.built.points stays) :
    JumpsKept member weighed.built asOfMs alignment ↔ SurelyWalked alignment := by
  have hgap : gapSeconds ≤ gapSOf weighed.built := by
    rw [gapSOf_built]
    exact le_max_left _ _
  have hover := notBreak_of_walkedOver hmarked alignment
  have hwalked := hover.imp fun segment next h hleft ↦ (h hleft).imp fun before stay h ↦ h.2
  have hstep : (alignment.segments.IsChain fun segment next ↦ segment.2 ≠ [] →
      (kindBetween (gapSOf weighed.built) segment.1 next.1).connected = true) ↔
      SurelyWalked alignment := by
    unfold SurelyWalked
    rw [List.isChain_iff_getElem, List.isChain_iff_getElem]
    refine forall₂_congr fun i hi ↦ forall_congr' fun hleft ↦ ?_
    obtain ⟨hjump, hbreak⟩ := forall_of_isChain
      ((hover.getElem i hi hleft).imp fun _ stay h ↦ (⟨h.1, _, h.2⟩ :
        stay.jump = false ∧ ∃ before, isBreak before stay = false)) alignment.segments[i + 1].1
      (by simp)
    have hlong : alignment.segments[i + 1].1.first - alignment.segments[i].1.last ≤
        gapSOf weighed.built := by
      rw [gapSOf_built]
      cases hlevel : weighed.level with
      | none =>
        have hlength : weighed.built.points.length = stays.length :=
          congrArg List.length (hall hlevel)
        exact absurd (alignment.eq_nil_of_length hlength (List.getElem_mem _)) hleft
      | some level =>
        exact (le_step_built hlevel (List.mem_of_getElem? (alignment.step hi)) hjump).trans
          (le_max_right _ _)
    obtain ⟨before, hbefore⟩ := hbreak
    obtain ⟨-, hvia | ⟨hvia, -⟩⟩ := not_break hbefore
    · exact iff_of_true (connected_move _ hvia) fun hnone ↦ absurd (hvia.symm.trans hnone) (by simp)
    · rw [connected_unlabelled hgap hvia hlong]
      exact ⟨fun hsure _ ↦ hsure, fun hsure ↦ hsure hvia⟩
  constructor
  · intro hkept
    exact hstep.mp ((connected_iff weighed.built alignment).mp hkept.connected)
  · intro hsure
    refine ⟨?_, (connected_iff weighed.built alignment).mpr (hstep.mpr hsure)⟩
    have hjumps := jumpsAlong_segments hgap hwalked (hstep.mpr hsure) alignment.newest
    rw [alignment.kept_eq] at hjumps
    rw [jumpsOf_eq, jumpsOf_eq]
    exact hjumps

/-! ## Both parts of a trail -/

theorem alignment_of_thinnedWithin {off : TrailPoint → TrailPoint → TrailPoint → ℚ}
    {weighed : Weighed} (h : ThinnedWithin off stays weighed) :
    Nonempty (Alignment WalkedOver weighed.points stays) := by
  unfold ThinnedWithin at h
  split at h
  · rw [h.1]
    exact ⟨.refl stays fun _ _ ↦ .inl rfl⟩
  · exact (h.2.2.mono fun a between b hleft ↦ hleft.imp_right fun hleft ↦ hleft.2.2).alignment

/-- However the parts of a trail come: the site finds the jumps of the unthinned stays in the
thinned trail, and takes every step over left-out stays for walked, exactly when every one of these
steps that has no label is a sure one. -/
theorem jumpsKept_joinRecent (hypot : ℚ → ℚ → ℚ) (pages : List (List HubLocationPoint))
    (untilMs : ℤ) (cutShort : Bool) (recent : List HubLocationPoint) (member : String)
    (asOfMs : ℤ) :
    let older := olderPart (offTheLine hypot) pages untilMs cutShort
    let stays := extendStays (joinPages pages) (newSince older.takesOver recent)
    let trail := (joinRecent (offTheLine hypot) older recent).built
    Nonempty (Alignment WalkedOver trail.points stays) ∧
      ∀ alignment : Alignment WalkedOver trail.points stays,
        JumpsKept member trail asOfMs alignment ↔ SurelyWalked alignment := by
  intro older stays trail
  have hwithin : ThinnedWithin (offTheLine hypot) stays (joinRecent (offTheLine hypot) older recent) :=
    thinnedWithin_joined hypot pages untilMs cutShort recent
  refine ⟨alignment_of_thinnedWithin hwithin, fun alignment ↦ ?_⟩
  refine jumpsKept_iff_surelyWalked ?_ (fun hlevel ↦ ?_) alignment
  · exact marked_extendStays (marked_joinPages pages) _
  · unfold ThinnedWithin at hwithin
    rw [hlevel] at hwithin
    exact hwithin.1

/-! ## Where the steps are sure -/

/-- Where the hub labelled every stay but the first, the site guesses nothing. -/
theorem surelyWalked_of_labelled (h : ∀ stay ∈ stays.tail, stay.via ≠ none)
    {trail : List TrailPoint} (alignment : Alignment WalkedOver trail stays) :
    SurelyWalked alignment :=
  List.isChain_iff_getElem.mpr fun _ hi _ hnone ↦ absurd hnone (h _ (alignment.mem_tail hi))

/-- Nothing but unlabelled steps that the server saw no break in, each to a later second: what is
between the two ends was a run. -/
theorem sureStep_of_run {between : List TrailPoint}
    (h : (a :: between ++ [b]).IsChain fun before stay ↦
      isBreak before stay = false ∧ stay.via = none ∧ before.first ≤ before.last ∧
        before.last < stay.first) :
    band a.x a.y = band b.x b.y ∧ a.last < b.first ∧
      (tilesApart a b : ℚ) ≤ 75 / 100 * runTilesPerSec * (b.first - a.last : ℤ) := by
  have hstep {p q : TrailPoint} (hbreak : isBreak p q = false) (hvia : q.via = none)
      (hlater : p.last < q.first) : band p.x p.y = band q.x q.y ∧
        (tilesApart p q : ℚ) ≤ 75 / 100 * runTilesPerSec * (q.first - p.last : ℤ) := by
    obtain ⟨-, hmove | ⟨-, hband, -, htiles⟩⟩ := not_break hbreak
    · exact absurd (hmove.symm.trans hvia) (by simp)
    · rw [max_eq_left (by omega)] at htiles
      exact ⟨hband, htiles⟩
  induction between generalizing a with
  | nil =>
    obtain ⟨⟨hbreak, hvia, -, hlater⟩, -⟩ := List.isChain_cons_cons.mp h
    obtain ⟨hband, htiles⟩ := hstep hbreak hvia hlater
    exact ⟨hband, hlater, htiles⟩
  | cons next between ih =>
    obtain ⟨⟨hbreak, hvia, -, hlater⟩, hrest⟩ := List.isChain_cons_cons.mp h
    obtain ⟨hband, htiles⟩ := hstep hbreak hvia hlater
    obtain ⟨hbandRest, hlaterRest, htilesRest⟩ := ih hrest
    have hstay : next.first ≤ next.last := by
      cases between with
      | nil => exact (List.isChain_cons_cons.mp hrest).1.2.2.1
      | cons => exact (List.isChain_cons_cons.mp hrest).1.2.2.1
    have htriangle : tilesApart a b ≤ tilesApart a next + tilesApart next b := by
      unfold tilesApart
      refine max_le ?_ ?_
      · exact (abs_sub_le a.x next.x b.x).trans (add_le_add (le_max_left _ _) (le_max_left _ _))
      · exact (abs_sub_le a.y next.y b.y).trans (add_le_add (le_max_right _ _) (le_max_right _ _))
    have htime : (next.first - a.last) + (b.first - next.last) ≤ b.first - a.last := by omega
    refine ⟨hband.trans hbandRest, by omega, ?_⟩
    calc (tilesApart a b : ℚ)
        ≤ tilesApart a next + tilesApart next b := by exact_mod_cast htriangle
      _ ≤ 75 / 100 * runTilesPerSec * (next.first - a.last : ℤ) +
            75 / 100 * runTilesPerSec * (b.first - next.last : ℤ) := add_le_add htiles htilesRest
      _ = 75 / 100 * runTilesPerSec * ((next.first - a.last) + (b.first - next.last) : ℤ) := by
          push_cast
          ring
      _ ≤ 75 / 100 * runTilesPerSec * (b.first - a.last : ℤ) := by
          have : (0 : ℚ) ≤ 75 / 100 * runTilesPerSec := by norm_num [runTilesPerSec]
          gcongr

/-- Where the hub labelled nothing and no two stays share a second, the server's guess is the more
eager one for the steps of the thinned trail, too. -/
theorem surelyWalked_of_unlabelled (hmarked : Marked stays)
    (h : stays.IsChain fun before stay ↦
      stay.via = none ∧ before.first ≤ before.last ∧ before.last < stay.first)
    {trail : List TrailPoint} (alignment : Alignment WalkedOver trail stays) :
    SurelyWalked alignment := by
  refine (isChain_and (notBreak_of_walkedOver hmarked alignment) (alignment.isChain_steps h)).imp
    fun segment next hstep hleft _ ↦ ?_
  obtain ⟨hband, hlater, htiles⟩ := sureStep_of_run
    ((isChain_and (hstep.1 hleft) hstep.2).imp fun _ _ h ↦ ⟨h.1.2, h.2⟩)
  refine ⟨hband, htiles.trans ?_⟩
  rw [max_eq_left (by omega)]
  have hspeed := run_le_speed segment.1 next.1
  have helapsed : (0 : ℚ) ≤ (next.1.first - segment.1.last : ℤ) := by
    exact_mod_cast (sub_pos.mpr hlater).le
  have hslack : (0 : ℚ) ≤ slackTiles := by norm_num [slackTiles]
  calc 75 / 100 * runTilesPerSec * (next.1.first - segment.1.last : ℤ)
      ≤ sureFraction * speed segment.1 next.1 * (next.1.first - segment.1.last : ℤ) := by
        unfold sureFraction
        gcongr
    _ ≤ sureFraction * speed segment.1 next.1 * (next.1.first - segment.1.last : ℤ) + slackTiles := by
        linarith

/-! ## A walk that is thinned to its ends -/

section NearWalk

variable {off : TrailPoint → TrailPoint → TrailPoint → ℚ} {points : List TrailPoint} {n last : ℕ}

theorem furthest_le {a b : ℕ} {bound : ℚ} (hbound : 0 ≤ bound)
    (h : ∀ k, a < k → k < b → off (pointAt points a) (pointAt points b) (pointAt points k) ≤ bound) :
    (furthest off points a b).2 ≤ bound := by
  apply foldl_further_le (fun index ↦ off (pointAt points a) (pointAt points b) (pointAt points index)) hbound
  intro k hk
  obtain ⟨ha, hb⟩ := List.mem_range'_1.mp hk
  exact h k ha (by omega)

theorem weighWalk_of_unsplit {a b : ℕ} {weights : List ℕ}
    (h : weighPart off points ⟨a, b, always⟩ weights = ([], weights)) :
    weighWalk off points a b weights = weights := by
  unfold weighWalk
  rw [Worklist.drain_singleton]
  change (weighParts off points).drain (weighPart off points _ weights).1
    (weighPart off points _ weights).2 = weights
  rw [h, Worklist.drain_nil]

/-- A walk that the finest level does without is left as it is. -/
theorem weighWalk_near {a b : ℕ} (weights : List ℕ) (hshort : b - a ≤ maxWeighedPoints)
    (hway : ∀ k, a < k → k < b → off (pointAt points a) (pointAt points b) (pointAt points k) ≤ 1)
    (htime : (pointAt points b).first - (pointAt points a).last ≤ 60) :
    weighWalk off points a b weights = weights := by
  apply weighWalk_of_unsplit
  have hwayNone : (thinLevels.countP fun level ↦
      (level.1 : ℚ) < (furthest off points a b).2) = 0 := by
    refine List.countP_eq_zero.mpr fun level hlevel ↦ ?_
    have hone : ∀ level ∈ thinLevels, 1 ≤ level.1 := by decide
    have hle : (1 : ℚ) ≤ level.1 := by exact_mod_cast hone level hlevel
    simpa using (furthest_le zero_le_one hway).trans hle
  have htimeNone : (thinLevels.countP fun level ↦
      level.2 < (pointAt points b).first - (pointAt points a).last) = 0 := by
    refine List.countP_eq_zero.mpr fun level hlevel ↦ ?_
    have hminute : ∀ level ∈ thinLevels, 60 ≤ level.2 := by decide
    simpa using htime.trans (hminute level hlevel)
  unfold weighPart
  dsimp only
  rw [hwayNone, htimeNone, if_neg (not_lt.mpr hshort)]
  simp

theorem weighWalk_self (a : ℕ) (weights : List ℕ) : weighWalk off points a a weights = weights := by
  apply weighWalk_of_unsplit
  simp [weighPart]

/-- Stays that were all jumped to are all kept. -/
theorem foldl_weighTo_jumps (off : TrailPoint → TrailPoint → TrailPoint → ℚ) (hn : n ≤ last)
    (hjump : ∀ i, 0 < i → i ≤ n → (pointAt points i).jump = true) {weights : List ℕ}
    (hweights : last < weights.length) (hstart : weightAt weights 0 = always) :
    let state := (List.range' 1 n).foldl (weighTo off points last) (0, weights)
    state.1 = n ∧ state.2.length = weights.length ∧
      ∀ i, weightAt state.2 i = if i ≤ n then always else weightAt weights i := by
  induction n with
  | zero =>
    refine ⟨rfl, rfl, fun i ↦ ?_⟩
    split
    · next hi =>
      rw [Nat.le_zero.mp hi]
      exact hstart
    · rfl
  | succ n ih =>
    obtain ⟨hindex, hlength, hat⟩ := ih (by omega) fun i hi hin ↦ hjump i hi (by omega)
    rw [List.range'_1_concat, List.foldl_append]
    generalize (List.range' 1 n).foldl (weighTo off points last) (0, weights) = state at *
    obtain ⟨index, mid⟩ := state
    dsimp only at hindex hlength hat
    subst hindex
    simp only [List.foldl_cons, List.foldl_nil, weighTo, Nat.add_comm 1 index,
      hjump (index + 1) (by omega) le_rfl, true_or, if_true, Nat.add_sub_cancel, weighWalk_self,
      List.length_set, true_and]
    refine ⟨hlength, fun i ↦ ?_⟩
    rw [weightAt_set (by rw [List.length_set]; omega), weightAt_set (by omega), hat]
    split_ifs <;> first | rfl | omega

/-- Nothing is weighed in the middle of a walk. -/
theorem foldl_weighTo_walked (off : TrailPoint → TrailPoint → TrailPoint → ℚ)
    (hwalked : ∀ i, n < i → i ≤ last → WalkedTo points i) (weights : List ℕ) {count : ℕ}
    (hcount : n + count < last) :
    (List.range' (n + 1) count).foldl (weighTo off points last) (n, weights) = (n, weights) := by
  induction count with
  | zero => rfl
  | succ count ih =>
    have hstep := hwalked (n + 1 + count) (by omega) (by omega)
    rw [List.range'_1_concat, List.foldl_append, ih (by omega), List.foldl_cons, List.foldl_nil]
    simp only [weighTo]
    rw [if_neg (by simp [hstep.1, hstep.2]), if_neg (by omega)]

/-- The weights before anything is weighed: those of the two ends. -/
theorem weightAt_ends (last i : ℕ) :
    weightAt (((resize [] (last + 1)).set 0 always).set last always) i =
      if i = last ∨ i = 0 then always else 0 := by
  have hresize : (resize [] (last + 1)).length = last + 1 := length_resize [] (Nat.zero_le _)
  rw [weightAt_set (by rw [List.length_set]; omega), weightAt_set (by omega),
    weightAt_resize [] (Nat.zero_le _)]
  have hzero : weightAt [] i = 0 := rfl
  rw [hzero]
  split_ifs <;> first | rfl | omega

/-- A trail of jumps with a walk at its end that the finest level does without. -/
theorem weightAt_weigh_nearWalk (off : TrailPoint → TrailPoint → TrailPoint → ℚ)
    (hlength : points.length = last + 1) (hn : n < last)
    (hjump : ∀ i, 0 < i → i ≤ n → (pointAt points i).jump = true)
    (hwalked : ∀ i, n < i → i ≤ last → WalkedTo points i) (hshort : last - n ≤ maxWeighedPoints)
    (hway : ∀ k, n < k → k < last →
      off (pointAt points n) (pointAt points last) (pointAt points k) ≤ 1)
    (htime : (pointAt points last).first - (pointAt points n).last ≤ 60) (i : ℕ) :
    weightAt (weigh off points 0 []) i = if i ≤ n ∨ i = last then always else 0 := by
  have hset : last < ((resize [] (last + 1)).set 0 always |>.set last always).length := by
    rw [List.length_set, List.length_set, length_resize [] (Nat.zero_le _)]
    omega
  obtain ⟨hindex, -, hat⟩ := foldl_weighTo_jumps off hn.le hjump hset
    (by rw [weightAt_ends]; simp)
  have hrange : List.range' 1 last =
      List.range' 1 n ++ (List.range' (n + 1) (last - n - 1) ++ [last]) := by
    have h1 : last = n + ((last - n - 1) + 1) := by omega
    conv_lhs => rw [h1]
    rw [← List.range'_append_1, List.range'_1_concat, Nat.add_comm 1 n]
    congr 3
    omega
  have hend := hwalked last hn le_rfl
  unfold weigh
  simp only [hlength, Nat.zero_add, Nat.sub_zero]
  rw [hrange, List.foldl_append, List.foldl_append]
  generalize (List.range' 1 n).foldl (weighTo off points last) _ = state at *
  obtain ⟨index, weights⟩ := state
  dsimp only at hindex hat
  subst hindex
  rw [foldl_weighTo_walked off hwalked _ (by omega), List.foldl_cons, List.foldl_nil]
  simp only [weighTo]
  rw [if_neg (by simp [hend.1, hend.2]), if_pos trivial]
  dsimp only
  rw [weighWalk_near weights hshort hway htime, hat, weightAt_ends]
  split_ifs <;> first | rfl | omega

/-- A cut at the finest level, of a trail with the inside of its last walk weighed as nothing. -/
theorem cut_nearWalk (front walk : List TrailPoint) (newest : TrailPoint) {maxPoints : ℕ}
    (hmax : 2 ≤ maxPoints) (hfits : front.length + 1 ≤ maxPoints)
    (hlong : maxPoints < front.length + walk.length + 1) :
    cut (front ++ walk ++ [newest])
        (List.replicate front.length always ++ List.replicate walk.length 0 ++ [always]) none
        maxPoints =
      { points := front ++ [newest], weights := List.replicate front.length always ++ [always],
        level := some 0, truncated := false } := by
  have hkept : keptAt (List.replicate front.length always ++ List.replicate walk.length 0 ++
      [always]) 0 = front.length + 1 := by
    simp [keptAt, List.countP_replicate, show 0 < always by decide]
  have hlevel : cutLevel (List.replicate front.length always ++ List.replicate walk.length 0 ++
      [always]) none maxPoints = 0 := by
    unfold cutLevel
    dsimp only
    rw [show thinLevels.length - 1 + 1 - (none : Option ℕ).getD 0 = 9 + 1 from rfl,
      List.range'_succ, List.find?_cons_of_pos (by
        rw [show (none : Option ℕ).getD 0 = 0 from rfl, hkept]
        simpa using hfits)]
    rfl
  have hzip (list : List TrailPoint) (weight : ℕ) :
      list.zip (List.replicate list.length weight) = list.map (·, weight) := by
    induction list with
    | nil => rfl
    | cons head tail ih => simp [List.replicate_succ, ih]
  have hleft : ((front ++ walk ++ [newest]).zip (List.replicate front.length always ++
      List.replicate walk.length 0 ++ [always])).filter (fun pair ↦ decide (0 < pair.2)) =
      (front ++ [newest]).map (·, always) := by
    rw [List.zip_append (by simp), List.zip_append (by simp), hzip, hzip]
    have halways : 0 < always := by decide
    simp [List.filter_map, Function.comp_def, halways]
  unfold cut
  rw [if_neg (by simp; omega), hlevel]
  dsimp only
  rw [hkept, hleft, Nat.sub_eq_zero_of_le hfits, List.drop_zero]
  simp [Function.comp_def, not_lt.mpr hfits]

/-- The weights of jumps and of a walk after them: those of the inside of the walk are nothing. -/
theorem weigh_nearWalk (off : TrailPoint → TrailPoint → TrailPoint → ℚ)
    {front walk : List TrailPoint} {a newest : TrailPoint}
    (hjump : ∀ stay ∈ (front ++ [a]).tail, stay.jump = true)
    (hwalked : (a :: walk ++ [newest]).IsChain fun before stay ↦
      stay.jump = false ∧ stay.plane = before.plane)
    (hshort : walk.length < maxWeighedPoints) (hway : ∀ p ∈ walk, off a newest p ≤ 1)
    (htime : newest.first - a.last ≤ 60) :
    weigh off (front ++ [a] ++ walk ++ [newest]) 0 [] =
      List.replicate (front ++ [a]).length always ++ List.replicate walk.length 0 ++ [always] := by
  have hlength : (front ++ [a] ++ walk ++ [newest]).length = front.length + walk.length + 1 + 1 := by
    simp
    omega
  have hat (i : ℕ) : pointAt (front ++ [a] ++ walk ++ [newest]) (front.length + i) =
      pointAt (a :: walk ++ [newest]) i := by
    simp [pointAt, List.getD_eq_getElem?_getD, List.getElem?_append_right]
  have hatA : pointAt (front ++ [a] ++ walk ++ [newest]) front.length = a := hat 0
  have hatNewest : pointAt (front ++ [a] ++ walk ++ [newest]) (front.length + walk.length + 1) =
      newest := by
    rw [Nat.add_assoc, hat]
    simp [pointAt, List.getD_eq_getElem?_getD]
  have hatFront : ∀ i, 0 < i → i ≤ front.length →
      (pointAt (front ++ [a] ++ walk ++ [newest]) i).jump = true := by
    intro i hi hin
    have hi' : i < (front ++ [a]).length := by simp; omega
    refine hjump _ (List.mem_of_getElem? (i := i - 1) ?_)
    rw [List.getElem?_tail, Nat.sub_add_cancel hi, pointAt, List.getD_eq_getElem?_getD,
      List.append_assoc, List.getElem?_append_left hi', List.getElem?_eq_getElem hi',
      Option.getD_some]
  have hatWalk : ∀ i, front.length < i → i ≤ front.length + walk.length + 1 →
      WalkedTo (front ++ [a] ++ walk ++ [newest]) i := by
    intro i hi hil
    obtain ⟨j, rfl⟩ : ∃ j, i = front.length + (j + 1) := ⟨i - front.length - 1, by omega⟩
    have hj : j + 1 < (a :: walk ++ [newest]).length := by simp; omega
    have hstep := hwalked.getElem j hj
    unfold WalkedTo
    rw [hat, show front.length + (j + 1) - 1 = front.length + j by omega, hat]
    simp only [pointAt, List.getD_eq_getElem?_getD, List.getElem?_eq_getElem hj,
      List.getElem?_eq_getElem (show j < (a :: walk ++ [newest]).length by omega), Option.getD_some]
    exact hstep
  have hatWay : ∀ k, front.length < k → k < front.length + walk.length + 1 →
      off a newest (pointAt (front ++ [a] ++ walk ++ [newest]) k) ≤ 1 := by
    intro k hk hkl
    obtain ⟨j, rfl⟩ : ∃ j, k = front.length + (j + 1) := ⟨k - front.length - 1, by omega⟩
    refine hway _ (List.mem_of_getElem? (i := j) ?_)
    have hj : j < walk.length := by omega
    rw [hat]
    simp [pointAt, List.getD_eq_getElem?_getD, List.getElem?_append_left hj, hj]
  refine List.ext_getElem ?_ fun i hi _ ↦ ?_
  · rw [length_weigh off _ 0 [] (Nat.zero_le _) (Nat.zero_le _), hlength]
    simp
    omega
  · have hinside : front.length < front.length + walk.length + 1 := by omega
    have hweight := weightAt_weigh_nearWalk off hlength hinside
      hatFront hatWalk (by omega) (by rwa [hatA, hatNewest]) (by rwa [hatA, hatNewest]) i
    rw [weightAt, List.getD_eq_getElem?_getD, List.getElem?_eq_getElem hi,
      Option.getD_some] at hweight
    rw [length_weigh off _ 0 [] (Nat.zero_le _) (Nat.zero_le _), hlength] at hi
    rw [hweight]
    simp only [List.getElem_append, List.getElem_replicate, List.length_append,
      List.length_replicate, List.length_singleton, List.getElem_singleton]
    split_ifs <;> first | rfl | omega

/-- Of jumps and a walk after them that the finest level does without, only the inside of the walk
is left out. -/
theorem joinRecent_nearWalk (off : TrailPoint → TrailPoint → TrailPoint → ℚ)
    {recent : List HubLocationPoint} {untilMs : ℤ}
    {front walk : List TrailPoint} {a newest : TrailPoint}
    (hlate : ∀ point ∈ recent, untilMs < point.atMs)
    (hstays : extendStays [] recent = front ++ [a] ++ walk ++ [newest])
    (hjump : ∀ stay ∈ (front ++ [a]).tail, stay.jump = true)
    (hwalked : (a :: walk ++ [newest]).IsChain fun before stay ↦
      stay.jump = false ∧ stay.plane = before.plane)
    (hshort : walk.length < maxWeighedPoints) (hway : ∀ p ∈ walk, off a newest p ≤ 1)
    (htime : newest.first - a.last ≤ 60) (hfits : front.length + 2 ≤ maxTrailPoints)
    (hlong : maxTrailPoints < front.length + walk.length + 2) :
    let older := olderPart off [] untilMs false
    newSince older.takesOver recent = recent ∧
      (joinRecent off older recent).built.points = front ++ [a] ++ [newest] := by
  intro older
  have hnew : newSince older.takesOver recent = recent := by
    change recent.drop (partitionPoint (fun point ↦ decide (point.atMs ≤ untilMs)) recent) = recent
    rw [drop_partitionPoint (List.pairwise_of_forall_mem_list fun p _ q hq hle ↦
      absurd (of_decide_eq_true hle) (not_le.mpr (hlate q hq)))]
    exact List.filter_eq_self.mpr fun point hpoint ↦ by simpa using hlate point hpoint
  refine ⟨hnew, ?_⟩
  change (cut (extendStays (joinPages []) (newSince older.takesOver recent))
    (weigh off (extendStays (joinPages []) (newSince older.takesOver recent)) 0 []) none
      maxTrailPoints).points = _
  rw [hnew, show joinPages [] = [] from rfl, hstays, weigh_nearWalk off hjump hwalked hshort hway htime,
    cut_nearWalk (front ++ [a]) walk newest (by decide) (by rw [List.length_append]; exact hfits) (by simp; omega)]

/-- How jumps and the two ends of a walk lie in the stays they were left of. -/
def nearWalkAlignment {stays kept : List TrailPoint} {front walk : List TrailPoint}
    {a newest : TrailPoint} (hstays : stays = front ++ [a] ++ walk ++ [newest])
    (hkept : kept = front ++ [a] ++ [newest])
    (hwalked : (a :: walk ++ [newest]).IsChain fun before stay ↦
      stay.jump = false ∧ stay.plane = before.plane) : Alignment WalkedOver kept stays where
  dropped := []
  segments := front.map (·, []) ++ [(a, walk), (newest, [])]
  kept_eq := by simp [hkept, Function.comp_def]
  all_eq := by simp [hstays, List.flatMap_map]
  covered := by
    refine List.isChain_append.mpr ⟨?_, ?_, fun segment hsegment _ _ ↦ ?_⟩
    · rw [List.isChain_map]
      exact List.isChain_iff_getElem.mpr fun _ _ ↦ .inl rfl
    · exact List.isChain_cons_cons.mpr ⟨.inr hwalked, List.isChain_singleton _⟩
    · obtain ⟨stay, -, rfl⟩ := List.mem_map.mp (List.mem_of_getLast? hsegment)
      exact .inl rfl
  newest := by simp

/-- When the walk is not a sure one and has no label where it ends, the site takes it for a jump. -/
theorem not_jumpsKept_nearWalk {hypot : ℚ → ℚ → ℚ} {recent : List HubLocationPoint} {untilMs : ℤ}
    {front walk : List TrailPoint} {a newest : TrailPoint}
    (hlate : ∀ point ∈ recent, untilMs < point.atMs)
    (hstays : extendStays [] recent = front ++ [a] ++ walk ++ [newest])
    (hjump : ∀ stay ∈ (front ++ [a]).tail, stay.jump = true)
    (hwalked : (a :: walk ++ [newest]).IsChain fun before stay ↦
      stay.jump = false ∧ stay.plane = before.plane)
    (hshort : walk.length < maxWeighedPoints)
    (hway : ∀ p ∈ walk, offTheLine hypot a newest p ≤ 1)
    (htime : newest.first - a.last ≤ 60) (hfits : front.length + 2 ≤ maxTrailPoints)
    (hlong : maxTrailPoints < front.length + walk.length + 2) (hwalk : walk ≠ [])
    (hvia : newest.via = none) (hunsure : ¬ SureStep a newest) (member : String) (asOfMs : ℤ) :
    let trail := (joinRecent (offTheLine hypot) (olderPart (offTheLine hypot) [] untilMs false)
      recent).built
    ∃ alignment : Alignment WalkedOver trail.points (extendStays [] recent),
      alignment.dropped = [] ∧ ¬ JumpsKept member trail asOfMs alignment := by
  intro trail
  obtain ⟨hnew, htrail⟩ := joinRecent_nearWalk (offTheLine hypot) hlate hstays hjump
    hwalked hshort hway htime hfits hlong
  have hwithin := thinnedWithin_joined hypot [] untilMs false recent
  dsimp only at hwithin
  rw [hnew] at hwithin
  refine ⟨nearWalkAlignment hstays htrail hwalked, rfl, fun hkept ↦ ?_⟩
  rw [jumpsKept_iff_surelyWalked (marked_extendStays List.isChain_nil recent) (fun hlevel ↦ by
    unfold ThinnedWithin at hwithin
    rw [hlevel] at hwithin
    exact hwithin.1)] at hkept
  exact hunsure ((List.isChain_cons_cons.mp hkept.right_of_append).1 hwalk hvia)

end NearWalk

/-! ## A sprint without labels -/

/-- Samples a second apart that all say they were teleported to. -/
def teleports (count : ℕ) : List HubLocationPoint :=
  (List.range count).map fun (i : ℕ) ↦
    { atMs := 1000 * i, x := 3200, y := 3200, plane := 0, isOnBoat := none, world := none,
      via := some .teleport }

/-- Two tiles a game tick for twenty ticks. -/
def sprint : List HubLocationPoint :=
  (List.range 20).map fun (i : ℕ) ↦
    { atMs := 2984000 + 600 * (i + 1), x := 3202 + 2 * i, y := 3200, plane := 0, isOnBoat := none,
      world := none, via := none }

def teleportStay (i : ℕ) : TrailPoint :=
  { x := 3200, y := 3200, plane := 0, first := i, last := i, boat := false, world := none,
    via := some .teleport, jump := decide (0 < i) }

def sprintStays : List TrailPoint :=
  (List.range 20).map fun (i : ℕ) ↦
    { x := 3202 + 2 * i, y := 3200, plane := 0, first := 2984 + 600 * (i + 1) / 1000,
      last := 2984 + 600 * (i + 1) / 1000, boat := false, world := none, via := none, jump := false }

theorem extendStays_teleports (count : ℕ) :
    extendStays [] (teleports count) = (List.range count).map teleportStay := by
  have htime (time : ℤ) : timestamp (1000 * time) = time := by simp [timestamp]
  induction count with
  | zero => rfl
  | succ count ih =>
    unfold teleports at ih ⊢
    rw [List.range_succ, List.map_append, extendStays_append, ih, List.map_append]
    simp only [List.map_cons, List.map_nil, extendStays, List.foldl_cons, List.foldl_nil]
    unfold extendStay
    cases count with
    | zero => rfl
    | succ count =>
      rw [List.range_succ, List.map_append, List.map_cons, List.map_nil, List.getLast?_concat]
      simp [HubLocationPoint.goesOn, HubLocationPoint.begin, isBreak, teleportStay, htime]

theorem extendStays_sprint :
    extendStays [] (teleports 2985 ++ sprint) =
      (List.range 2985).map teleportStay ++ sprintStays := by
  have hlast : extendStays [teleportStay 2984] sprint = teleportStay 2984 :: sprintStays := by
    decide +kernel
  rw [extendStays_append, extendStays_teleports, List.range_succ, List.map_append, List.map_cons,
    List.map_nil, extendStays_frame _ (List.cons_ne_nil _ _), hlast]
  simp

/-- The longer axis, in place of `f64::hypot`. -/
def longerAxis (x y : ℚ) : ℚ := max |x| |y|

theorem teleportStay_jump {stay : TrailPoint}
    (h : stay ∈ ((List.range 2984).map teleportStay ++ [teleportStay 2984]).tail) :
    stay.jump = true := by
  rw [← List.map_singleton, ← List.map_append, ← List.range_succ, ← List.map_tail,
    List.tail_range] at h
  obtain ⟨i, hi, rfl⟩ := List.mem_map.mp h
  simpa [teleportStay, Nat.one_le_iff_ne_zero, Nat.pos_iff_ne_zero] using
    (List.mem_range'_1.mp hi).1

theorem sprintStays_eq : sprintStays = sprintStays.take 19 ++ [sprintStays[19]] := by
  decide +kernel

theorem extendStays_day : extendStays [] (teleports 2985 ++ sprint) =
    (List.range 2984).map teleportStay ++ [teleportStay 2984] ++ sprintStays.take 19 ++
      [sprintStays[19]] := by
  rw [extendStays_sprint, List.range_succ, List.map_append, List.map_singleton]
  conv_lhs => rw [sprintStays_eq]
  simp only [List.append_assoc]

/-- After 2985 teleports, a sprint of 40 tiles in 12 seconds that the hub did not label: every one
of its steps is a run for the server, which leaves them out, and the site takes the one step that is
left for a jump. -/
theorem jumpsKept_fails_after_sprint :
    let recent := teleports 2985 ++ sprint
    let older := olderPart (offTheLine longerAxis) [] (-1) false
    let trail := (joinRecent (offTheLine longerAxis) older recent).built
    ∃ alignment : Alignment WalkedOver trail.points (extendStays [] recent),
      alignment.dropped = [] ∧ ¬ JumpsKept "Alpha" trail 0 alignment := by
  intro recent older trail
  have hlate : ∀ point ∈ recent, -1 < point.atMs := by
    intro point hpoint
    obtain hpoint | hpoint := List.mem_append.mp hpoint <;>
    · obtain ⟨i, -, rfl⟩ := List.mem_map.mp hpoint
      dsimp only
      omega
  have hwalked : (teleportStay 2984 :: sprintStays.take 19 ++ [sprintStays[19]]).IsChain
      fun before stay ↦ stay.jump = false ∧ stay.plane = before.plane := by
    decide +kernel
  exact not_jumpsKept_nearWalk hlate extendStays_day (fun _ h ↦ teleportStay_jump h) hwalked
    (by decide +kernel) (by decide +kernel) (by decide +kernel) (by simp [maxTrailPoints])
    (by
      simp only [List.length_map, List.length_range]
      decide +kernel)
    (by decide +kernel) (by decide +kernel) (by decide +kernel) "Alpha" 0

end OsrsMap.Site
