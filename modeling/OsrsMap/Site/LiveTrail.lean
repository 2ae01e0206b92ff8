import OsrsMap.Library.Timeline
import OsrsMap.Site.TrailModel

/-!
# Where a player was seen live

`observeLive` and `mergeTrail` (`site/src/canvas-map/trail-model.js`): the buffer of where a player
was seen, and the history of the hub continued with it and with where the marker is. Times are
rational seconds in place of the site's floating point.
-/

namespace OsrsMap.Site

open Timeline Trails

/-- A point of a trail that may have been seen live. -/
structure LivePoint where
  x : ℤ
  y : ℤ
  plane : ℤ
  t0 : ℚ
  t1 : ℚ
  boat : Bool
  world : Option ℤ
  via : Option HubVia
  live : Bool
deriving DecidableEq, Repr, Inhabited

/-- Where a player is, in the site's coordinates. -/
structure Position where
  x : ℤ
  y : ℤ
  plane : ℤ
  boat : Bool
  world : Option ℤ
deriving DecidableEq, Repr

/-- `LIVE_MAX_POINTS`. -/
def liveMaxPoints : ℕ := 240

/-- `LIVE_MAX_AGE_S`. -/
def liveMaxAgeS : ℚ := 3600

/-- `MARKER_LAG_S`: how far a marker is behind the hub at most. -/
def markerLagS : ℚ := 15

/-- A point of the hub's. -/
def SitePoint.fromHub (point : SitePoint) : LivePoint where
  x := point.x
  y := point.y
  plane := point.plane
  t0 := point.t0
  t1 := point.t1
  boat := point.boat
  world := point.world
  via := point.via
  live := false

/-- A sighting at a place, from a moment on. -/
def Position.seenAt (position : Position) (time : ℚ) : LivePoint where
  x := position.x
  y := position.y
  plane := position.plane
  t0 := time
  t1 := time
  boat := position.boat
  world := position.world
  via := none
  live := true

def sameTile (a b : LivePoint) : Bool := a.x == b.x && a.y == b.y && a.plane == b.plane

def samePlace (a b : LivePoint) : Bool := sameTile a b && a.boat == b.boat

/-! ## The buffer -/

/-- Drops what is over for too long from the front, but never the last point. -/
def dropOld (before : ℚ) : List LivePoint → List LivePoint
  | first :: second :: rest =>
    if first.t1 < before then dropOld before (second :: rest) else first :: second :: rest
  | buffer => buffer

/-- What `observeLive` keeps: not too many points, and none that are over for too long. -/
@[irreducible]
def trimLive (nowS : ℚ) (buffer : List LivePoint) : List LivePoint :=
  dropOld (nowS - liveMaxAgeS) (buffer.drop (buffer.length - liveMaxPoints))

/-- What `observeLive` notes before it trims the buffer, and whether that added a point. -/
def noteLive (buffer : List LivePoint) (position : Position) (nowS : ℚ) (fresh : Bool) :
    List LivePoint × Bool :=
  match buffer.getLast? with
  | some last =>
    if !fresh && samePlace last (position.seenAt nowS) then
      (buffer.dropLast ++ [{ last with t1 := max last.t1 nowS }], false)
    else (buffer ++ [position.seenAt (max nowS last.t1)], true)
  | none => (buffer ++ [position.seenAt nowS], true)

/-- Notes where a player is now in their buffer; whether that added a point. -/
def observeLive (buffer : List LivePoint) (position : Position) (nowS : ℚ) (fresh : Bool) :
    List LivePoint × Bool :=
  let noted := noteLive buffer position nowS fresh
  (trimLive nowS noted.1, noted.2)

/-! ## The trail -/

/-- The `append` of `mergeTrail`; `continues` is of the last point and the new one. -/
def appendPoint (continues : LivePoint → LivePoint → Bool) (merged : List LivePoint)
    (point : LivePoint) : List LivePoint :=
  match merged.getLast? with
  | some last =>
    if continues last point && samePlace last point then
      merged.dropLast ++ [{ last with t1 := max last.t1 point.t1 }]
    else
      let t0 := max point.t0 last.t1
      merged ++ [{ point with t0, t1 := max point.t1 t0 }]
  | none => merged ++ [{ point with t1 := max point.t1 point.t0 }]

/-- The stay continues when the point comes without an absence in between. -/
def comesSoon (last point : LivePoint) : Bool := decide (point.t0 - last.t1 ≤ gapSeconds)

/-- A live point is added when the history cannot have it. -/
def isNews (history : List LivePoint) (asOf : ℚ) (point : LivePoint) : Bool :=
  history.isEmpty || decide (asOf ≤ point.t0)

/-- A sighting as far as it is in the span, if it is. -/
def clip (start : Option ℚ) (seen : LivePoint) : Option LivePoint :=
  match start with
  | none => some seen
  | some start =>
    if seen.t1 < start then none else some (if seen.t0 < start then { seen with t0 := start } else seen)

/-- What the loop of `mergeTrail` does with a live point. -/
def mergeSeen (history : List LivePoint) (asOf : ℚ) (start : Option ℚ) (merged : List LivePoint)
    (seen : LivePoint) : List LivePoint :=
  match clip start seen with
  | none => merged
  | some point => if isNews history asOf point then appendPoint comesSoon merged point else merged

/-- The marker is itself behind the history. -/
def behind (history live : List LivePoint) (asOf : ℚ) (marker : LivePoint) : Bool :=
  match live.getLast?, history.getLast? with
  | some arrived, some newest =>
    samePlace arrived marker && !isNews history asOf arrived && !samePlace newest marker &&
      decide (arrived.t0 - markerLagS ≤ newest.t1)
  | _, _ => false

/-- The hub's history followed by what was seen live since, and by the marker. -/
def mergeTrail (history live : List LivePoint) (head : Option LivePoint) (asOf : ℚ)
    (start : Option ℚ) : List LivePoint :=
  let merged := live.foldl (mergeSeen history asOf start) history
  match head with
  | some marker =>
    if behind history live asOf marker then merged else appendPoint (fun _ _ ↦ true) merged marker
  | none => merged

/-! ## Places -/

/-- The points are in order. -/
abbrev InOrder (points : List LivePoint) : Prop := Ordered LivePoint.t0 LivePoint.t1 points

variable {a b c : LivePoint}

theorem sameTile_iff : sameTile a b = true ↔ a.x = b.x ∧ a.y = b.y ∧ a.plane = b.plane := by
  simp [sameTile, and_assoc]

theorem samePlace_iff : samePlace a b = true ↔ sameTile a b = true ∧ a.boat = b.boat := by
  simp [samePlace]

/-! ## What becomes of a list of points -/

/-- A point prolongs the last stay, or comes after it. -/
inductive Appended (points : List LivePoint) (point : LivePoint) : List LivePoint → Prop
  | stays (before : List LivePoint) (last : LivePoint) (later : ℚ) (split : points = before ++ [last])
    (same : samePlace last point = true) (le : last.t1 ≤ later) :
    Appended points point (before ++ [{ last with t1 := later }])
  | comes (t0 t1 : ℚ) (le : point.t0 ≤ t0) (order : t0 ≤ t1)
    (after : ∀ last ∈ points.getLast?, last.t1 ≤ t0) :
    Appended points point (points ++ [{ point with t0, t1 }])

theorem appended_appendPoint (continues : LivePoint → LivePoint → Bool) (merged : List LivePoint)
    (point : LivePoint) : Appended merged point (appendPoint continues merged point) := by
  unfold appendPoint
  cases hlast : merged.getLast? with
  | none =>
    refine .comes point.t0 (max point.t1 point.t0) le_rfl (le_max_right _ _) ?_
    simp [hlast]
  | some last =>
    dsimp only
    split
    · next hsame =>
      simp only [Bool.and_eq_true] at hsame
      refine .stays merged.dropLast last _ ?_ hsame.2 (le_max_left _ _)
      exact (List.dropLast_append_getLast? last hlast).symm
    · refine .comes _ _ (le_max_left _ _) (le_max_right _ _) ?_
      simp [hlast]

theorem Appended.inOrder {points after : List LivePoint} {point : LivePoint}
    (h : Appended points point after) (horder : InOrder points) : InOrder after := by
  cases h with
  | stays before last later split same hlater =>
    subst split
    exact horder.prolong rfl hlater
  | comes t0 t1 le order after => exact horder.concat order after

theorem Appended.getLast? {points after : List LivePoint} {point : LivePoint}
    (h : Appended points point after) : ∃ last, after.getLast? = some last ∧ samePlace last point = true := by
  cases h with
  | stays before last later split same hlater => exact ⟨_, List.getLast?_concat, same⟩
  | comes t0 t1 le order after => exact ⟨_, List.getLast?_concat, by simp [samePlace, sameTile]⟩

/-- The points with their last stay ending later, if there is one. -/
def stretch (later : ℚ) (points : List LivePoint) : List LivePoint :=
  points.dropLast ++ points.getLast?.toList.map fun last ↦ { last with t1 := max last.t1 later }

/-- The points begin with the history, of which the last stay may end later, and no other of them
begins before `start`. -/
def Continues (history : List LivePoint) (start : Option ℚ) (points : List LivePoint) : Prop :=
  ∃ later added, points = stretch later history ++ added ∧
    ∀ point ∈ added, ∀ first ∈ start, first ≤ point.t0

variable {history points after : List LivePoint} {point : LivePoint} {start : Option ℚ} {asOf : ℚ}

theorem stretch_concat (later : ℚ) (before : List LivePoint) (last : LivePoint) :
    stretch later (before ++ [last]) = before ++ [{ last with t1 := max last.t1 later }] := by
  simp [stretch]

theorem continues_self (history : List LivePoint) (start : Option ℚ) :
    Continues history start history := by
  obtain rfl | ⟨before, last, rfl⟩ := List.eq_nil_or_concat history
  · exact ⟨0, [], rfl, by simp⟩
  · refine ⟨last.t1, [], ?_, by simp⟩
    rw [List.append_nil, List.concat_eq_append, stretch_concat, max_self]

theorem Continues.append (h : Continues history start points)
    (hstart : ∀ first ∈ start, first ≤ point.t0) (happended : Appended points point after) :
    Continues history start after := by
  obtain ⟨later, added, rfl, hadded⟩ := h
  cases happended with
  | comes t0 t1 le order after =>
    refine ⟨later, added ++ [{ point with t0, t1 }], List.append_assoc _ _ _, fun other hother first hfirst ↦ ?_⟩
    obtain hbefore | hnew := List.mem_append.mp hother
    · exact hadded other hbefore first hfirst
    · rw [List.mem_singleton.mp hnew]
      exact (hstart first hfirst).trans le
  | stays before last longer split same le =>
    obtain rfl | ⟨others, newest, rfl⟩ := List.eq_nil_or_concat added
    · -- The last stay of the history is the one that is prolonged.
      obtain rfl | ⟨older, stay, rfl⟩ := List.eq_nil_or_concat history
      · simp [stretch] at split
      · rw [List.concat_eq_append, List.append_nil, stretch_concat] at split
        obtain ⟨rfl, hlast⟩ := List.append_inj' split rfl
        obtain rfl := List.singleton_injective hlast
        refine ⟨longer, [], ?_, by simp⟩
        have hlonger : max stay.t1 longer = longer := max_eq_right ((le_max_left _ _).trans le)
        rw [List.append_nil, List.concat_eq_append, stretch_concat, hlonger]
    · rw [List.concat_eq_append, ← List.append_assoc] at split
      obtain ⟨rfl, hlast⟩ := List.append_inj' split rfl
      obtain rfl := List.singleton_injective hlast
      refine ⟨later, others ++ [{ newest with t1 := longer }], List.append_assoc _ _ _,
        fun other hother first hfirst ↦ ?_⟩
      obtain hbefore | hnew := List.mem_append.mp hother
      · exact hadded other (by simp [hbefore]) first hfirst
      · rw [List.mem_singleton.mp hnew]
        exact hadded newest (by simp) first hfirst

theorem le_of_clip {seen : LivePoint} (h : clip start seen = some point) :
    ∀ first ∈ start, first ≤ point.t0 := by
  rintro first rfl
  unfold clip at h
  dsimp only at h
  split at h
  · exact absurd h (by simp)
  · obtain rfl := Option.some.inj h
    split
    · exact le_rfl
    · next hlate => exact not_lt.mp hlate

theorem mergeSeen_cases (history : List LivePoint) (asOf : ℚ) (start : Option ℚ)
    (merged : List LivePoint) (seen : LivePoint) :
    mergeSeen history asOf start merged seen = merged ∨
      ∃ point, (∀ first ∈ start, first ≤ point.t0) ∧
        Appended merged point (mergeSeen history asOf start merged seen) := by
  unfold mergeSeen
  cases hclip : clip start seen with
  | none => exact .inl rfl
  | some point =>
    dsimp only
    split
    · exact .inr ⟨point, le_of_clip hclip, appended_appendPoint _ _ _⟩
    · exact .inl rfl

/-- What was seen live comes after the history. -/
theorem foldl_mergeSeen (live : List LivePoint) (horder : InOrder points)
    (hcontinues : Continues history start points) :
    InOrder (live.foldl (mergeSeen history asOf start) points) ∧
      Continues history start (live.foldl (mergeSeen history asOf start) points) := by
  induction live generalizing points with
  | nil => exact ⟨horder, hcontinues⟩
  | cons seen live ih =>
    rw [List.foldl_cons]
    obtain hsame | ⟨point, hstart, happended⟩ := mergeSeen_cases history asOf start points seen
    · rw [hsame]
      exact ih horder hcontinues
    · exact ih (happended.inOrder horder) (hcontinues.append hstart happended)

/-- The trail is in order, begins with the history and stays in its span. -/
theorem inOrder_mergeTrail {live : List LivePoint} {head : Option LivePoint} (horder : InOrder history)
    (hhead : ∀ marker ∈ head, ∀ first ∈ start, first ≤ marker.t0) :
    InOrder (mergeTrail history live head asOf start) ∧
      Continues history start (mergeTrail history live head asOf start) := by
  obtain ⟨hmerged, hcontinues⟩ := @foldl_mergeSeen history history start asOf live horder
    (continues_self history start)
  unfold mergeTrail
  cases head with
  | none => exact ⟨hmerged, hcontinues⟩
  | some marker =>
    dsimp only
    split
    · exact ⟨hmerged, hcontinues⟩
    · have happended := appended_appendPoint (fun _ _ ↦ true)
        (live.foldl (mergeSeen history asOf start) history) marker
      exact ⟨happended.inOrder hmerged, hcontinues.append (hhead marker rfl) happended⟩

/-- The trail ends on the marker, when that is not behind. -/
theorem getLast?_mergeTrail {live : List LivePoint} {marker : LivePoint}
    (hahead : behind history live asOf marker = false) :
    ∃ last, (mergeTrail history live (some marker) asOf start).getLast? = some last ∧
      samePlace last marker = true := by
  unfold mergeTrail
  simp only [hahead, Bool.false_eq_true, if_false]
  exact (appended_appendPoint _ _ _).getLast?

/-! ## What becomes of the buffer -/

theorem dropOld_suffix (before : ℚ) (buffer : List LivePoint) : dropOld before buffer <:+ buffer := by
  fun_induction dropOld before buffer with
  | case1 first second rest hold ih => exact ih.trans (List.suffix_cons _ _)
  | case2 first second rest hkept => exact List.suffix_rfl
  | case3 buffer hshort => exact List.suffix_rfl

theorem getLast?_dropOld (before : ℚ) (buffer : List LivePoint) :
    (dropOld before buffer).getLast? = buffer.getLast? := by
  fun_induction dropOld before buffer with
  | case1 first second rest hold ih => rw [ih, List.getLast?_cons_cons]
  | case2 first second rest hkept => rfl
  | case3 buffer hshort => rfl

theorem trimLive_spec (nowS : ℚ) {noted : List LivePoint} (hnoted : noted ≠ []) :
    trimLive nowS noted <:+ noted ∧ (trimLive nowS noted).length ≤ liveMaxPoints ∧
      (trimLive nowS noted).getLast? = noted.getLast? := by
  unfold trimLive
  refine ⟨(dropOld_suffix _ _).trans (List.drop_suffix _ _), ?_, ?_⟩
  · refine (dropOld_suffix _ _).length_le.trans ?_
    rw [List.length_drop]
    omega
  · have hlength := List.length_pos_of_ne_nil hnoted
    have hmost : 0 < liveMaxPoints := by decide
    rw [getLast?_dropOld, List.getLast?_drop, if_neg (by omega)]

theorem appended_noteLive (buffer : List LivePoint) (position : Position) (nowS : ℚ) (fresh : Bool) :
    Appended buffer (position.seenAt nowS) (noteLive buffer position nowS fresh).1 := by
  unfold noteLive
  cases hlast : buffer.getLast? with
  | none => exact .comes nowS nowS le_rfl le_rfl (by simp [hlast])
  | some last =>
    dsimp only
    split
    · next hsame =>
      simp only [Bool.and_eq_true] at hsame
      exact .stays buffer.dropLast last _ (List.dropLast_append_getLast? last hlast).symm hsame.2
        (le_max_left _ _)
    · exact .comes (max nowS last.t1) (max nowS last.t1) (le_max_left _ _) le_rfl (by simp [hlast])

theorem Appended.ne_nil (h : Appended points point after) : after ≠ [] := by
  obtain ⟨last, hlast, -⟩ := h.getLast?
  rintro rfl
  exact absurd hlast (by simp)

/-- The buffer stays in order, has not too many points and is not emptied. -/
theorem observeLive_spec {buffer : List LivePoint} (h : InOrder buffer) (position : Position)
    (nowS : ℚ) (fresh : Bool) : InOrder (observeLive buffer position nowS fresh).1 ∧
      (observeLive buffer position nowS fresh).1.length ≤ liveMaxPoints ∧
      (observeLive buffer position nowS fresh).1 ≠ [] := by
  have happended := appended_noteLive buffer position nowS fresh
  obtain ⟨hsuffix, hlength, hlast⟩ := trimLive_spec nowS happended.ne_nil
  simp only [observeLive]
  refine ⟨(happended.inOrder h).suffix hsuffix, hlength, fun hnil ↦ ?_⟩
  have hempty : (trimLive nowS (noteLive buffer position nowS fresh).1).getLast? = none :=
    List.getLast?_eq_none_iff.mpr hnil
  exact happended.ne_nil (List.getLast?_eq_none_iff.mp (hlast.symm.trans hempty))

/-- A player who did not move is where they were last seen, since when they got there. -/
theorem observeLive_still {buffer : List LivePoint} {position : Position} {nowS : ℚ} {fresh : Bool}
    (hstill : (observeLive buffer position nowS fresh).2 = false) :
    ∃ last, buffer.getLast? = some last ∧ samePlace last (position.seenAt nowS) = true ∧
      (observeLive buffer position nowS fresh).1.getLast? =
        some { last with t1 := max last.t1 nowS } := by
  obtain ⟨-, -, hkept⟩ := trimLive_spec nowS (appended_noteLive buffer position nowS fresh).ne_nil
  unfold observeLive at hstill ⊢
  rw [hkept]
  unfold noteLive at hstill ⊢
  cases hlast : buffer.getLast? with
  | none => simp [hlast] at hstill
  | some last =>
    simp only [hlast] at hstill ⊢
    split at hstill
    · next hsame =>
      simp only [Bool.and_eq_true] at hsame
      refine ⟨last, rfl, hsame.2, ?_⟩
      rw [if_pos (by simpa using hsame)]
      exact List.getLast?_concat
    · exact absurd hstill (by simp)

end OsrsMap.Site
