import OsrsMap.Library.Keyed
import OsrsMap.Library.Run
import OsrsMap.Site.LiveTrail

/-!
# The trails on the map

`TrailLayer` (`site/src/canvas-map/trail-layer.js`): for each player shown the history of the hub,
joined with where they were seen since. Every call reads the clock anew, and the clock may go back.

Every trail stays in order, begins with its history and stays in its span. It also ends on the
marker of a player who is online, except that a player who turns up where they were last seen
online does not count as having moved, although the page may have noted them elsewhere meanwhile.
-/

namespace OsrsMap.Site

/-- `classifyStep`, whatever it says of two points. -/
abbrev Classify := LivePoint → LivePoint → ℤ → Kind

/-- What `buildTrailModel` makes of the points of a layer. -/
structure LayerModel where
  points : List LivePoint
  kinds : List Kind
  jumps : List Jump
  gapS : ℤ

def LayerModel.build (classify : Classify) (points : List LivePoint) (step : ℤ) : LayerModel :=
  let gapS := max gapSeconds step
  let kinds := (points.zip points.tail).map fun (a, b) ↦ classify a b gapS
  let split := (List.range points.length).foldl (splitAt points.length kinds) ⟨0, [], []⟩
  { points, kinds, jumps := split.jumps, gapS }

/-- Where a player was seen. -/
structure Seen where
  buffer : List LivePoint
  position : Option Position
  online : Bool

def Seen.unknown : Seen where
  buffer := []
  position := none
  online := false

/-- A trail that is shown. `untilS` is when its time ended, if it did not run until now, and `fromS`
when it began. -/
structure Trail where
  history : List LivePoint
  step : ℤ
  asOf : ℚ
  untilS : Option ℚ
  fromS : Option ℚ
  model : LayerModel

structure TrailLayer where
  trails : Keyed.Map String Trail
  seen : Keyed.Map String Seen

/-- `raw?.as_of`. -/
def RawTrail.asOf : RawTrail → Option ℚ
  | bare _ => none
  | answer json => some json.asOf

/-- Where the marker of a player is while they are online. -/
def Seen.head (seen : Seen) (nowS : ℚ) : Option LivePoint :=
  if seen.online then seen.position.map (·.seenAt nowS) else none

variable (classify : Classify)

/-- What `rebuild` sets as the model. -/
def Trail.rebuilt (trail : Trail) (seen : Option Seen) (nowS : ℚ) : Trail :=
  let seen := if trail.untilS.isNone then seen else none
  let live := seen.elim [] Seen.buffer
  let head := seen.bind (·.head nowS)
  let points := mergeTrail trail.history live head trail.asOf trail.fromS
  { trail with model := .build classify points trail.step }

namespace TrailLayer

def empty : TrailLayer where
  trails := ∅
  seen := ∅

def rebuild (layer : TrailLayer) (name : String) (nowS : ℚ) : TrailLayer :=
  match layer.trails.lookup name with
  | some trail =>
    { layer with
      trails := layer.trails.insert name (trail.rebuilt classify (layer.seen.lookup name) nowS) }
  | none => layer

/-- Shows (or refreshes) a player's trail; `now` and `later` are what the clock says when the age of
the answer is asked for and when the trail is built. -/
def setHistory (layer : TrailLayer) (name : String) (raw : RawTrail) (untilS fromS : Option ℚ)
    (now later : ℚ) : TrailLayer :=
  let (points, step) := decodeTrail raw
  let trail : Trail :=
    { history := points.map SitePoint.fromHub
      step
      asOf := raw.asOf.getD now
      untilS
      fromS
      model := .build classify [] step }
  ({ layer with trails := layer.trails.insert name trail }).rebuild classify name later

/-- Whether a player's trail is shown and runs until now. -/
def endsNow (layer : TrailLayer) (name : String) : Bool :=
  (layer.trails.lookup name).any (·.untilS.isNone)

/-- What `observe` notes about a player, and whether they moved. -/
def noteSeen (seen : Seen) (position : Option Position) (online : Bool) (now : ℚ) : Seen × Bool :=
  match position with
  | none => ({ seen with online }, false)
  | some position =>
    if online then
      let noted := observeLive seen.buffer position now (!seen.online)
      ({ buffer := noted.1, position := some position, online }, noted.2)
    else ({ seen with position := some position, online }, false)

/-- Notes where a player is and whether they are online. -/
def observe (layer : TrailLayer) (name : String) (position : Option Position) (online : Bool)
    (now later : ℚ) : TrailLayer :=
  let before := (layer.seen.lookup name).getD .unknown
  let (seen, moved) := noteSeen before position online now
  let layer := { layer with seen := layer.seen.insert name seen }
  if layer.endsNow name && (moved || before.online != online) then layer.rebuild classify name later
  else layer

def remove (layer : TrailLayer) (name : String) : TrailLayer :=
  { layer with trails := layer.trails.erase name }

def clear (layer : TrailLayer) : TrailLayer := { layer with trails := ∅ }

end TrailLayer

inductive LayerEvent where
  | setHistory (name : String) (raw : RawTrail) (untilS fromS : Option ℚ) (now later : ℚ)
  | observe (name : String) (position : Option Position) (online : Bool) (now later : ℚ)
  | remove (name : String)
  | clear

namespace TrailLayer

def step (layer : TrailLayer) : LayerEvent → TrailLayer
  | .setHistory name raw untilS fromS now later =>
    layer.setHistory classify name raw untilS fromS now later
  | .observe name position online now later => layer.observe classify name position online now later
  | .remove name => layer.remove name
  | .clear => layer.clear

def bufferOf (layer : TrailLayer) (name : String) : List LivePoint :=
  (layer.seen.lookup name).elim [] Seen.buffer

/-- Histories are in order, and the clock is not before the span of a trail when it is built. -/
def Allowed (layer : TrailLayer) : LayerEvent → Prop
  | .setHistory _ raw _ fromS _ later =>
    InOrder ((decodeTrail raw).1.map SitePoint.fromHub) ∧ ∀ first ∈ fromS, first ≤ later
  | .observe name _ _ _ later =>
    ∀ trail ∈ layer.trails.lookup name, ∀ first ∈ trail.fromS, first ≤ later
  | _ => True

/-- The trail is in order, begins with its history and stays in its span. -/
structure TrailKept (trail : Trail) : Prop where
  history : InOrder trail.history
  inOrder : InOrder trail.model.points
  continues : Continues trail.history trail.fromS trail.model.points

/-- The buffer has not too many points and is in order. -/
structure BufferKept (buffer : List LivePoint) : Prop where
  length : buffer.length ≤ liveMaxPoints
  inOrder : InOrder buffer

/-- The trail ends where the marker of an online player is, unless that is behind the history. -/
def EndsOnMarker (trail : Trail) (seen : Seen) : Prop :=
  trail.untilS = none → seen.online = true → ∀ position ∈ seen.position, ∀ now,
    behind trail.history seen.buffer trail.asOf (position.seenAt now) = false →
    ∃ last, trail.model.points.getLast? = some last ∧ sameTile last (position.seenAt now) = true

structure Kept (layer : TrailLayer) : Prop where
  trails : ∀ name, ∀ trail ∈ layer.trails.lookup name, TrailKept trail
  buffers : ∀ name, ∀ seen ∈ layer.seen.lookup name, BufferKept seen.buffer
  marker : ∀ name, ∀ trail ∈ layer.trails.lookup name, ∀ seen ∈ layer.seen.lookup name,
    EndsOnMarker trail seen

/-- A player who is online and turns up where they were last seen online was noted on the same tile,
or their marker is behind the history of the trail. -/
def NotesMoves (layer : TrailLayer) : LayerEvent → Prop
  | .observe name (some position) true now _ =>
    ∀ trail ∈ layer.trails.lookup name, trail.untilS = none →
      ∀ seen ∈ layer.seen.lookup name, seen.online = true →
        ∀ last ∈ seen.buffer.getLast?, samePlace last (position.seenAt now) = true →
          ∀ noted ∈ seen.position, sameTile (noted.seenAt now) (position.seenAt now) = true ∨
            behind trail.history seen.buffer trail.asOf (position.seenAt now) = true
  | _ => True

variable {classify} {trail : Trail} {seen : Seen} {nowS : ℚ}

/-! ## A trail that is built -/

theorem trailKept_rebuilt (h : InOrder trail.history) (hnow : ∀ first ∈ trail.fromS, first ≤ nowS)
    (seen : Option Seen) : TrailKept (trail.rebuilt classify seen nowS) := by
  have hhead (seen : Option Seen) : ∀ marker ∈ seen.bind (·.head nowS),
      ∀ first ∈ trail.fromS, first ≤ marker.t0 := by
    intro marker hmarker first hfirst
    obtain ⟨seen, -, hseen⟩ := Option.bind_eq_some_iff.mp hmarker
    unfold Seen.head at hseen
    split at hseen
    · obtain ⟨position, -, rfl⟩ := Option.map_eq_some_iff.mp hseen
      exact hnow first hfirst
    · exact absurd hseen (by simp)
  obtain ⟨horder, hcontinues⟩ := @inOrder_mergeTrail trail.history trail.fromS trail.asOf
    ((if trail.untilS.isNone then seen else none).elim [] Seen.buffer)
    ((if trail.untilS.isNone then seen else none).bind (·.head nowS)) h (hhead _)
  exact ⟨h, horder, hcontinues⟩

/-- Where a marker is decides whether it is behind, not when. -/
theorem behind_seenAt (history live : List LivePoint) (asOf : ℚ) (position : Position) (now later : ℚ) :
    behind history live asOf (position.seenAt now) = behind history live asOf (position.seenAt later) :=
  rfl

theorem endsOnMarker_rebuilt (trail : Trail) (seen : Seen) (nowS : ℚ) :
    EndsOnMarker (trail.rebuilt classify (some seen) nowS) seen := by
  intro huntil honline position hposition now hahead
  change trail.untilS = none at huntil
  change behind trail.history seen.buffer trail.asOf (position.seenAt now) = false at hahead
  obtain ⟨last, hlast, hsame⟩ := @getLast?_mergeTrail trail.history trail.fromS trail.asOf seen.buffer
    (position.seenAt nowS) hahead
  have hposition : seen.position = some position := hposition
  refine ⟨last, ?_, (samePlace_iff.mp hsame).1⟩
  simp only [Trail.rebuilt, LayerModel.build, huntil, Option.isNone_none, if_true, Option.elim_some,
    Option.bind_some, Seen.head, honline, hposition, Option.map_some]
  exact hlast

/-! ## What is noted of a player -/

/-- A player with a buffer has a position; the buffer has not too many points and is in order. -/
structure SeenKept (seen : Seen) : Prop where
  buffer : BufferKept seen.buffer
  positioned : seen.buffer ≠ [] → seen.position ≠ none

theorem seenKept_unknown : SeenKept .unknown where
  buffer := ⟨Nat.zero_le _, Timeline.ordered_nil⟩
  positioned h := absurd rfl h

variable {position : Option Position} {online : Bool} {now later : ℚ}

theorem seenKept_noteSeen (h : SeenKept seen) (position : Option Position) (online : Bool) (now : ℚ) :
    SeenKept (noteSeen seen position online now).1 := by
  unfold noteSeen
  cases position with
  | none => exact ⟨h.buffer, h.positioned⟩
  | some position =>
    cases online with
    | false => exact ⟨h.buffer, fun _ ↦ Option.some_ne_none _⟩
    | true =>
      have hspec := observeLive_spec h.buffer.inOrder position now (!seen.online)
      simp only [if_true]
      exact ⟨⟨hspec.2.1, hspec.1⟩, fun _ ↦ Option.some_ne_none _⟩

theorem buffer_noteSeen_ne_nil (h : SeenKept seen) (hbuffer : seen.buffer ≠ [])
    (position : Option Position) (online : Bool) (now : ℚ) :
    (noteSeen seen position online now).1.buffer ≠ [] := by
  unfold noteSeen
  cases position with
  | none => exact hbuffer
  | some position =>
    cases online with
    | false => exact hbuffer
    | true =>
      simp only [if_true]
      exact (observeLive_spec h.buffer.inOrder position now (!seen.online)).2.2

theorem online_noteSeen (seen : Seen) (position : Option Position) (online : Bool) (now : ℚ) :
    (noteSeen seen position online now).1.online = online := by
  unfold noteSeen
  cases position with
  | none => rfl
  | some position => cases online <;> rfl

/-- Whoever was online and is where they were last seen did not move. -/
theorem not_moved_iff {position : Position} (honline : seen.online = true) :
    (noteSeen seen (some position) true now).2 = false ↔
      ∃ last, seen.buffer.getLast? = some last ∧ samePlace last (position.seenAt now) = true := by
  simp only [noteSeen, honline, Bool.not_true, if_true]
  constructor
  · intro hstill
    obtain ⟨last, hlast, hsame, -⟩ := observeLive_still hstill
    exact ⟨last, hlast, hsame⟩
  · rintro ⟨last, hlast, hsame⟩
    simp [observeLive, noteLive, hlast, hsame]

/-- Being behind is about when the player got where they are, not how long they have been there. -/
theorem behind_prolong {history live live' : List LivePoint} {asOf until' : ℚ} {marker last : LivePoint}
    (hlive : live.getLast? = some last) (hlive' : live'.getLast? = some { last with t1 := until' }) :
    behind history live' asOf marker = behind history live asOf marker := by
  unfold behind
  rw [hlive, hlive']
  cases history.getLast? <;> rfl

theorem sameTile_trans {a b c : LivePoint} (h : sameTile a b = true) (h' : sameTile b c = true) :
    sameTile a c = true := by
  rw [sameTile_iff] at *
  exact ⟨h.1.trans h'.1, h.2.1.trans h'.2.1, h.2.2.trans h'.2.2⟩

theorem sameTile_symm {a b : LivePoint} (h : sameTile a b = true) : sameTile b a = true := by
  rw [sameTile_iff] at *
  exact ⟨h.1.symm, h.2.1.symm, h.2.2.symm⟩

/-- Two markers in the same place are both behind or neither. -/
theorem behind_congr {history live : List LivePoint} {asOf : ℚ} {a b : LivePoint}
    (h : samePlace a b = true) : behind history live asOf a = behind history live asOf b := by
  have hplace (c : LivePoint) : samePlace c a = samePlace c b := by
    rw [samePlace_iff, sameTile_iff] at h
    obtain ⟨⟨hx, hy, hplane⟩, hboat⟩ := h
    simp [samePlace, sameTile, hx, hy, hplane, hboat]
  unfold behind
  simp only [hplace]

theorem samePlace_of_behind {history live : List LivePoint} {asOf : ℚ} {marker last : LivePoint}
    (hlast : live.getLast? = some last) (h : behind history live asOf marker = true) :
    samePlace last marker = true := by
  unfold behind at h
  rw [hlast] at h
  cases hnewest : history.getLast? with
  | none => simp [hnewest] at h
  | some newest =>
    simp only [hnewest, Bool.and_eq_true] at h
    exact h.1.1.1

/-- A player who stays put, as the buffer has it: the trail still ends on the marker exactly when
they were noted on the same tile before, or the marker is behind. -/
theorem endsOnMarker_still_iff {position : Position} (h : EndsOnMarker trail seen)
    (hkept : SeenKept seen) (huntil : trail.untilS = none) (honline : seen.online = true)
    {last : LivePoint} (hlast : seen.buffer.getLast? = some last)
    (hsame : samePlace last (position.seenAt now) = true)
    (hstill : (noteSeen seen (some position) true now).2 = false) :
    EndsOnMarker trail (noteSeen seen (some position) true now).1 ↔
      ∀ noted ∈ seen.position, sameTile (noted.seenAt now) (position.seenAt now) = true ∨
        behind trail.history seen.buffer trail.asOf (position.seenAt now) = true := by
  have hstill' : (observeLive seen.buffer position now (!seen.online)).2 = false := by
    simpa only [noteSeen, if_true] using hstill
  obtain ⟨last', hlast', -, hprolonged⟩ := observeLive_still hstill'
  have hbehind (marker : LivePoint) :
      behind trail.history (noteSeen seen (some position) true now).1.buffer trail.asOf marker =
        behind trail.history seen.buffer trail.asOf marker := by
    simp only [noteSeen, if_true]
    exact behind_prolong hlast' hprolonged
  have hposition : (noteSeen seen (some position) true now).1.position = some position := rfl
  constructor
  · intro hends noted hnoted
    by_cases hlate : behind trail.history seen.buffer trail.asOf (position.seenAt now) = true
    · exact .inr hlate
    · left
      obtain ⟨stop, hstop, htile⟩ := hends huntil rfl position hposition now (by simpa [hbehind] using hlate)
      by_cases hlate' : behind trail.history seen.buffer trail.asOf (noted.seenAt now) = true
      · have hnoted' := samePlace_of_behind hlast hlate'
        exact sameTile_trans (sameTile_symm (samePlace_iff.mp hnoted').1) (samePlace_iff.mp hsame).1
      · obtain ⟨stop', hstop', htile'⟩ := h huntil honline noted hnoted now (by simpa using hlate')
        obtain rfl := Option.some.inj (hstop.symm.trans hstop')
        exact sameTile_trans (sameTile_symm htile') htile
  · intro hnoted _ _ other hother later hahead
    obtain rfl := Option.some.inj (hposition.symm.trans hother)
    rw [hbehind, behind_seenAt _ _ _ _ later now] at hahead
    have hbuffer : seen.buffer ≠ [] := by
      intro hnil
      simp [hnil] at hlast
    obtain ⟨noted, hmem⟩ := Option.ne_none_iff_exists'.mp (hkept.positioned hbuffer)
    have htile := (hnoted noted hmem).resolve_right (by simp [hahead])
    -- A marker that was behind on this tile would be behind now.
    have hahead' : behind trail.history seen.buffer trail.asOf (noted.seenAt now) = false := by
      by_contra hlate
      have hlate := Bool.not_eq_false _ ▸ hlate
      have hnoted' := samePlace_of_behind hlast hlate
      have hboth : samePlace (noted.seenAt now) (position.seenAt now) = true := by
        refine samePlace_iff.mpr ⟨htile, ?_⟩
        exact (samePlace_iff.mp hnoted').2.symm.trans (samePlace_iff.mp hsame).2
      rw [behind_congr hboth, hahead] at hlate
      exact absurd hlate (by simp)
    obtain ⟨stop, hstop, hon⟩ := h huntil honline noted hmem now hahead'
    exact ⟨stop, hstop, sameTile_trans hon htile⟩

/-! ## What a step does -/

variable {layer : TrailLayer} {name : String}

/-- What every step keeps of the players that were seen. -/
def SeenSound (layer : TrailLayer) : Prop := ∀ name, ∀ seen ∈ layer.seen.lookup name, SeenKept seen

theorem SeenSound.getD (h : SeenSound layer) (name : String) :
    SeenKept ((layer.seen.lookup name).getD .unknown) := by
  cases hseen : layer.seen.lookup name with
  | none => exact seenKept_unknown
  | some seen => exact h name seen hseen

@[simp]
theorem seen_rebuild (layer : TrailLayer) (name : String) (nowS : ℚ) :
    (layer.rebuild classify name nowS).seen = layer.seen := by
  unfold rebuild
  split <;> rfl

/-- What `observe` notes. -/
def noted (layer : TrailLayer) (name : String) (position : Option Position) (online : Bool) (now : ℚ) :
    Seen × Bool :=
  noteSeen ((layer.seen.lookup name).getD .unknown) position online now

theorem seen_observe (layer : TrailLayer) (name : String) (position : Option Position) (online : Bool)
    (now later : ℚ) : (layer.observe classify name position online now later).seen =
      layer.seen.insert name (layer.noted name position online now).1 := by
  unfold observe
  dsimp only
  split
  · exact seen_rebuild _ _ _
  · rfl

theorem seen_setHistory (layer : TrailLayer) (name : String) (raw : RawTrail)
    (untilS fromS : Option ℚ) (now later : ℚ) :
    (layer.setHistory classify name raw untilS fromS now later).seen = layer.seen := seen_rebuild _ _ _

theorem seenSound_step (h : SeenSound layer) (event : LayerEvent) :
    SeenSound (layer.step classify event) := by
  cases event with
  | setHistory name raw untilS fromS now later =>
    intro other seen hseen
    change seen ∈ (layer.setHistory classify name raw untilS fromS now later).seen.lookup other at hseen
    rw [seen_setHistory] at hseen
    exact h other seen hseen
  | observe name position online now later =>
    intro other seen hseen
    change seen ∈ (layer.observe classify name position online now later).seen.lookup other at hseen
    rw [seen_observe] at hseen
    by_cases hname : other = name
    · subst hname
      rw [AList.lookup_insert] at hseen
      obtain rfl := Option.some.inj hseen
      exact seenKept_noteSeen (h.getD other) position online now
    · rw [AList.lookup_insert_ne hname] at hseen
      exact h other seen hseen
  | remove name => exact h
  | clear => exact h

/-- A trail that `observe` builds anew is of the player, and runs until now; any other stays. -/
theorem lookup_observe (layer : TrailLayer) (name : String) (position : Option Position)
    (online : Bool) (now later : ℚ) (other : String) :
    (layer.observe classify name position online now later).trails.lookup other =
      if other = name ∧ ((layer.noted name position online now).2 = true ∨
          ((layer.seen.lookup name).getD .unknown).online ≠ online) then
        (layer.trails.lookup other).map fun trail ↦
          if trail.untilS = none then
            trail.rebuilt classify (some (layer.noted name position online now).1) later
          else trail
      else layer.trails.lookup other := by
  have hmoved : ((layer.noted name position online now).2 ||
      ((layer.seen.lookup name).getD .unknown).online != online) = true ↔
      (layer.noted name position online now).2 = true ∨
        ((layer.seen.lookup name).getD .unknown).online ≠ online := by
    simp
  unfold noted at hmoved ⊢
  unfold observe endsNow
  dsimp only
  by_cases hother : other = name
  · subst hother
    simp only [true_and]
    cases htrail : layer.trails.lookup other with
    | none => simp [htrail]
    | some trail =>
      cases huntil : trail.untilS with
      | some late => simp [htrail, huntil]
      | none =>
        simp only [Option.any_some, huntil, Option.isNone_none, Bool.true_and, if_true, Option.map_some]
        simp only [hmoved]
        split
        · unfold rebuild
          simp only [htrail, AList.lookup_insert]
        · exact htrail
  · simp only [hother, false_and, if_false]
    split
    · unfold rebuild
      dsimp only
      split
      · exact AList.lookup_insert_ne hother
      · rfl
    · rfl

/-- The trail of `setHistory` is built from where the player was seen. -/
theorem lookup_setHistory (layer : TrailLayer) (name : String) (raw : RawTrail)
    (untilS fromS : Option ℚ) (now later : ℚ) (other : String) :
    (layer.setHistory classify name raw untilS fromS now later).trails.lookup other =
      if other = name then
        some (Trail.rebuilt classify
          { history := (decodeTrail raw).1.map SitePoint.fromHub
            step := (decodeTrail raw).2
            asOf := raw.asOf.getD now
            untilS
            fromS
            model := .build classify [] (decodeTrail raw).2 } (layer.seen.lookup name) later)
      else layer.trails.lookup other := by
  unfold setHistory rebuild
  simp only [AList.lookup_insert]
  by_cases hname : other = name
  · rw [hname, AList.lookup_insert, if_pos rfl]
  · rw [AList.lookup_insert_ne hname, AList.lookup_insert_ne hname, if_neg hname]

/-- A trail after a step is one from before, or one that was built with the clock in its span. -/
theorem trail_of_step {event : LayerEvent} (hallowed : layer.Allowed event) {other : String}
    (htrail : trail ∈ (layer.step classify event).trails.lookup other) :
    trail ∈ layer.trails.lookup other ∨
      ∃ before seen nowS, trail = Trail.rebuilt classify before seen nowS ∧
        (before ∈ layer.trails.lookup other ∨ InOrder before.history) ∧
        ∀ first ∈ before.fromS, first ≤ nowS := by
  cases event with
  | setHistory name raw untilS fromS now later =>
    change trail ∈ (layer.setHistory classify name raw untilS fromS now later).trails.lookup other at htrail
    rw [lookup_setHistory] at htrail
    split at htrail
    · exact .inr ⟨_, _, later, (Option.some.inj htrail).symm, .inr hallowed.1, hallowed.2⟩
    · exact .inl htrail
  | observe name position online now later =>
    change trail ∈ (layer.observe classify name position online now later).trails.lookup other at htrail
    rw [lookup_observe] at htrail
    split at htrail
    · next hbuilt =>
      obtain ⟨before, hbefore, rfl⟩ := Option.map_eq_some_iff.mp htrail
      split
      · exact .inr ⟨before, _, later, rfl, .inl hbefore, hallowed before (hbuilt.1 ▸ hbefore)⟩
      · exact .inl hbefore
    · exact .inl htrail
  | remove name =>
    change trail ∈ (layer.trails.erase name).lookup other at htrail
    by_cases hother : other = name
    · rw [hother, AList.lookup_erase] at htrail
      exact absurd htrail (by simp)
    · rw [AList.lookup_erase_ne hother] at htrail
      exact .inl htrail
  | clear => exact absurd htrail (by simp [step, clear])

theorem trailKept_step (h : ∀ name, ∀ trail ∈ layer.trails.lookup name, TrailKept trail)
    {event : LayerEvent} (hallowed : layer.Allowed event) :
    ∀ name, ∀ trail ∈ (layer.step classify event).trails.lookup name, TrailKept trail := by
  intro other trail htrail
  obtain hbefore | ⟨before, seen, nowS, rfl, horder, hnow⟩ := trail_of_step hallowed htrail
  · exact h other trail hbefore
  · have hhistory : InOrder before.history :=
      horder.elim (fun hbefore ↦ (h other before hbefore).history) id
    exact trailKept_rebuilt hhistory hnow seen

/-- A player who is built anew has moved, or came or went. -/
theorem notesMoves_of_built {position : Option Position} {online : Bool}
    (hbuilt : (layer.noted name position online now).2 = true ∨
      ((layer.seen.lookup name).getD .unknown).online ≠ online) :
    layer.NotesMoves (.observe name position online now later) := by
  cases position with
  | none => trivial
  | some position =>
    cases online with
    | false => trivial
    | true =>
      intro trail _ _ seen hmem honline last hlast hsame
      have hmem : layer.seen.lookup name = some seen := hmem
      have hstill := (not_moved_iff honline).mpr ⟨last, hlast, hsame⟩
      unfold noted at hbuilt
      rw [hmem, Option.getD_some, hstill, honline] at hbuilt
      simp at hbuilt

/-- A trail that is not built anew ends on the marker exactly when the move was noted. -/
theorem endsOnMarker_kept_iff (hseen : SeenSound layer) {position : Option Position} {online : Bool}
    (h : ∀ trail ∈ layer.trails.lookup name, ∀ seen ∈ layer.seen.lookup name, EndsOnMarker trail seen)
    (hstill : (layer.noted name position online now).2 = false)
    (honline : ((layer.seen.lookup name).getD .unknown).online = online) :
    (∀ trail ∈ layer.trails.lookup name, EndsOnMarker trail (layer.noted name position online now).1) ↔
      layer.NotesMoves (.observe name position online now later) := by
  cases online with
  | false =>
    have hoffline : (layer.noted name position false now).1.online = false := online_noteSeen _ _ _ _
    refine iff_of_true (fun trail _ _ hon ↦ absurd (hoffline.symm.trans hon) (by simp)) ?_
    cases position <;> trivial
  | true =>
    obtain ⟨seen, hmem⟩ : ∃ seen, layer.seen.lookup name = some seen := by
      cases hlookup : layer.seen.lookup name with
      | none => simp [hlookup, Seen.unknown] at honline
      | some seen => exact ⟨seen, rfl⟩
    unfold noted at hstill ⊢
    simp only [hmem, Option.getD_some] at honline hstill ⊢
    cases position with
    | none =>
      refine iff_of_true (fun trail htrail ↦ ?_) trivial
      have hsame : (noteSeen seen none true now).1 = seen := by
        simp [noteSeen, ← honline]
      rw [hsame]
      exact h trail htrail seen hmem
    | some position =>
      obtain ⟨last, hlast, hsame⟩ := (not_moved_iff honline).mp hstill
      refine forall₂_congr fun trail htrail ↦ ?_
      by_cases huntil : trail.untilS = none
      · rw [endsOnMarker_still_iff (h trail htrail seen hmem) (hseen name seen hmem) huntil honline hlast
          hsame hstill]
        constructor
        · intro hnoted _ other hother _ last' hlast' _ noted hnoted'
          obtain rfl := Option.some.inj (hmem.symm.trans hother)
          exact hnoted noted hnoted'
        · intro hnoted noted hnoted'
          exact hnoted huntil seen hmem honline last hlast hsame noted hnoted'
      · exact iff_of_true (fun hnone ↦ absurd hnone huntil) fun hnone ↦ absurd hnone huntil

theorem marker_observe_iff (hseen : SeenSound layer)
    (h : ∀ name, ∀ trail ∈ layer.trails.lookup name, ∀ seen ∈ layer.seen.lookup name, EndsOnMarker trail seen)
    (name : String) (position : Option Position) (online : Bool) (now later : ℚ) :
    (∀ other, ∀ trail ∈ (layer.observe classify name position online now later).trails.lookup other,
      ∀ seen ∈ (layer.observe classify name position online now later).seen.lookup other,
        EndsOnMarker trail seen) ↔
      layer.NotesMoves (.observe name position online now later) := by
  have hothers {other : String} (hother : other ≠ name) :
      ∀ trail ∈ (layer.observe classify name position online now later).trails.lookup other,
        ∀ seen ∈ (layer.observe classify name position online now later).seen.lookup other,
          EndsOnMarker trail seen := by
    intro trail htrail seen hmem
    rw [lookup_observe, if_neg fun hsame ↦ hother hsame.1] at htrail
    rw [seen_observe, AList.lookup_insert_ne hother] at hmem
    exact h other trail htrail seen hmem
  have hname : (∀ other,
      ∀ trail ∈ (layer.observe classify name position online now later).trails.lookup other,
        ∀ seen ∈ (layer.observe classify name position online now later).seen.lookup other,
          EndsOnMarker trail seen) ↔
      ∀ trail ∈ (layer.observe classify name position online now later).trails.lookup name,
        EndsOnMarker trail (layer.noted name position online now).1 := by
    have hnoted : (layer.observe classify name position online now later).seen.lookup name =
        some (layer.noted name position online now).1 := by
      rw [seen_observe, AList.lookup_insert]
    constructor
    · intro hall trail htrail
      exact hall name trail htrail _ hnoted
    · intro hall other trail htrail seen hmem
      by_cases hother : other = name
      · subst hother
        obtain rfl := Option.some.inj (hnoted.symm.trans hmem)
        exact hall trail htrail
      · exact hothers hother trail htrail seen hmem
  rw [hname, lookup_observe]
  by_cases hbuilt : (layer.noted name position online now).2 = true ∨
      ((layer.seen.lookup name).getD .unknown).online ≠ online
  · rw [if_pos ⟨rfl, hbuilt⟩]
    refine iff_of_true (fun trail htrail ↦ ?_) (notesMoves_of_built hbuilt)
    obtain ⟨before, hbefore, rfl⟩ := Option.map_eq_some_iff.mp htrail
    split
    · exact endsOnMarker_rebuilt _ _ _
    · next huntil => exact fun hnone ↦ absurd hnone huntil
  · rw [if_neg fun hsame ↦ hbuilt hsame.2]
    rw [not_or, Bool.not_eq_true, not_not] at hbuilt
    exact endsOnMarker_kept_iff hseen (h name) hbuilt.1 hbuilt.2

/-- The trails end on their markers after a step exactly when it notes where players moved. -/
theorem marker_step_iff (hseen : SeenSound layer)
    (h : ∀ name, ∀ trail ∈ layer.trails.lookup name, ∀ seen ∈ layer.seen.lookup name, EndsOnMarker trail seen)
    (event : LayerEvent) :
    (∀ name, ∀ trail ∈ (layer.step classify event).trails.lookup name,
      ∀ seen ∈ (layer.step classify event).seen.lookup name, EndsOnMarker trail seen) ↔
      layer.NotesMoves event := by
  cases event with
  | setHistory name raw untilS fromS now later =>
    refine iff_of_true (fun other trail htrail seen hmem ↦ ?_) trivial
    change trail ∈ (layer.setHistory classify name raw untilS fromS now later).trails.lookup other at htrail
    change seen ∈ (layer.setHistory classify name raw untilS fromS now later).seen.lookup other at hmem
    rw [lookup_setHistory] at htrail
    rw [seen_setHistory] at hmem
    split at htrail
    · next hother =>
      subst hother
      obtain rfl := Option.some.inj htrail
      have hmem : layer.seen.lookup other = some seen := hmem
      rw [hmem]
      exact endsOnMarker_rebuilt _ _ _
    · exact h other trail htrail seen hmem
  | remove name =>
    refine iff_of_true (fun other trail htrail seen hmem ↦ ?_) trivial
    change trail ∈ (layer.trails.erase name).lookup other at htrail
    by_cases hother : other = name
    · rw [hother, AList.lookup_erase] at htrail
      exact absurd htrail (by simp)
    · rw [AList.lookup_erase_ne hother] at htrail
      exact h other trail htrail seen hmem
  | clear =>
    exact iff_of_true (fun other trail htrail ↦ absurd htrail (by simp [step, clear])) trivial
  | observe name position online now later => exact marker_observe_iff hseen h name position online now later

/-! ## The run -/

theorem kept_step_iff (hseen : SeenSound layer) (h : Kept layer) {event : LayerEvent}
    (hallowed : layer.Allowed event) : Kept (layer.step classify event) ↔ layer.NotesMoves event := by
  rw [← marker_step_iff hseen h.marker event]
  constructor
  · exact fun hnext ↦ hnext.marker
  · intro hmarker
    exact ⟨trailKept_step h.trails hallowed, fun name seen hmem ↦ (seenSound_step hseen event name seen hmem).buffer,
      hmarker⟩

theorem seenSound_empty : SeenSound empty := fun _ _ hseen ↦ absurd hseen (by simp [empty])

theorem kept_empty : Kept empty where
  trails _ _ htrail := absurd htrail (by simp [empty])
  buffers _ _ hseen := absurd hseen (by simp [empty])
  marker _ _ htrail := absurd htrail (by simp [empty])

theorem always_kept_iff (classify : Classify) {events : List LayerEvent}
    (hallowed : OsrsMap.Run.Along (step classify) Allowed empty events) :
    OsrsMap.Run.Always (step classify) Kept empty events ↔
      OsrsMap.Run.Along (step classify) NotesMoves empty events :=
  OsrsMap.Run.always_iff_along_of_allowed (fun _ event hseen ↦ seenSound_step hseen event)
    (fun _ _ hseen h hallowed ↦ kept_step_iff hseen h hallowed) seenSound_empty kept_empty hallowed

theorem bufferOf_step_ne_nil (hseen : SeenSound layer) (event : LayerEvent) {name : String}
    (h : layer.bufferOf name ≠ []) : (layer.step classify event).bufferOf name ≠ [] := by
  cases event with
  | setHistory other raw untilS fromS now later =>
    change (layer.setHistory classify other raw untilS fromS now later).bufferOf name ≠ []
    unfold bufferOf at h ⊢
    rwa [seen_setHistory]
  | remove other => exact h
  | clear => exact h
  | observe other position online now later =>
    change (layer.observe classify other position online now later).bufferOf name ≠ []
    unfold bufferOf at h ⊢
    rw [seen_observe]
    by_cases hname : name = other
    · subst hname
      rw [AList.lookup_insert, Option.elim_some]
      obtain ⟨seen, hmem⟩ : ∃ seen, layer.seen.lookup name = some seen := by
        cases hlookup : layer.seen.lookup name with
        | none => simp [hlookup] at h
        | some seen => exact ⟨seen, rfl⟩
      unfold noted
      rw [hmem] at h ⊢
      exact buffer_noteSeen_ne_nil (hseen name seen hmem) h position online now
    · rwa [AList.lookup_insert_ne hname]

/-- No buffer that had a point is ever empty again. -/
def NeverEmptied (classify : Classify) (events : List LayerEvent) : Prop :=
  ∀ before later, before ++ later <+: events → ∀ name,
    (before.foldl (step classify) empty).bufferOf name ≠ [] →
      ((before ++ later).foldl (step classify) empty).bufferOf name ≠ []

theorem neverEmptied (classify : Classify) (events : List LayerEvent) : NeverEmptied classify events := by
  intro before later _ name hbefore
  rw [List.foldl_append]
  have hseen : SeenSound (before.foldl (step classify) empty) :=
    @OsrsMap.Run.foldl_of_step _ _ (step classify) SeenSound
      (fun _ event h ↦ seenSound_step h event) empty before seenSound_empty
  have hboth := @OsrsMap.Run.foldl_of_step _ _ (step classify)
    (fun layer ↦ SeenSound layer ∧ layer.bufferOf name ≠ [])
    (fun _ event h ↦ ⟨seenSound_step h.1 event, bufferOf_step_ne_nil h.1 event h.2⟩) _ later ⟨hseen, hbefore⟩
  exact hboth.2

/-- Whatever the clock says, and whatever the steps are classified as: the trails are kept, with
their ends on the markers, in exactly the runs whose steps note where players moved. -/
theorem layer_kept_iff_notesMoves (classify : Classify) (events : List LayerEvent)
    (hallowed : OsrsMap.Run.Along (step classify) Allowed empty events) :
    (OsrsMap.Run.Always (step classify) Kept empty events ∧ NeverEmptied classify events) ↔
      OsrsMap.Run.Along (step classify) NotesMoves empty events := by
  rw [and_iff_left (neverEmptied classify events)]
  exact always_kept_iff classify hallowed

instance decidableAllowed (layer : TrailLayer) : (event : LayerEvent) → Decidable (layer.Allowed event)
  | .setHistory _ raw _ fromS _ later => inferInstanceAs (Decidable
      (InOrder ((decodeTrail raw).1.map SitePoint.fromHub) ∧ ∀ first ∈ fromS, first ≤ later))
  | .observe name _ _ _ later => inferInstanceAs (Decidable
      (∀ trail ∈ layer.trails.lookup name, ∀ first ∈ trail.fromS, first ≤ later))
  | .remove _ | .clear => inferInstanceAs (Decidable True)

instance decidableNotesMoves (layer : TrailLayer) :
    (event : LayerEvent) → Decidable (layer.NotesMoves event)
  | .observe name (some position) true now _ => inferInstanceAs (Decidable
      (∀ trail ∈ layer.trails.lookup name, trail.untilS = none →
        ∀ seen ∈ layer.seen.lookup name, seen.online = true →
          ∀ last ∈ seen.buffer.getLast?, samePlace last (position.seenAt now) = true →
            ∀ noted ∈ seen.position, sameTile (noted.seenAt now) (position.seenAt now) = true ∨
              behind trail.history seen.buffer trail.asOf (position.seenAt now) = true))
  | .observe _ (some _) false _ _ | .observe _ none _ _ _ | .setHistory _ _ _ _ _ _
  | .remove _ | .clear => inferInstanceAs (Decidable True)

def tile (x : ℤ) : Position where
  x
  y := 3200
  plane := 0
  boat := false
  world := some 302

/-- A player walks, the page's clock goes back, and the history comes anew. -/
def walking : List LayerEvent :=
  [.setHistory "Lumby" (.bare [[3200, 3199, 0, 100, 40]]) none (some 60) 101 101,
    .observe "Lumby" (some (tile 3201)) true 102 102,
    .observe "Lumby" (some (tile 3202)) true 90 90,
    .observe "Lumby" (some (tile 3203)) true 104 104,
    .setHistory "Lumby" (.bare [[3200, 3199, 0, 100, 40], [3202, 3199, 0, 104]]) none (some 60) 105 105,
    .observe "Lumby" (some (tile 3203)) true 106 106]

theorem kept_walking : OsrsMap.Run.Always (step fun _ _ _ ↦ .walk) Kept empty walking :=
  ((layer_kept_iff_notesMoves _ walking (by decide +kernel)).mpr (by decide +kernel)).1

/-- A player logs out on another tile, comes back before the page knows where, and turns up where
they had been before. -/
def backAgain : List LayerEvent :=
  [.setHistory "Lumby" (.bare []) none none 0 0,
    .observe "Lumby" (some (tile 3201)) true 1 1,
    .observe "Lumby" (some (tile 3202)) false 2 2,
    .observe "Lumby" none true 3 3,
    .observe "Lumby" (some (tile 3201)) true 4 4]

/-- The trail ends where the player was in between. -/
theorem not_kept_backAgain : ¬ OsrsMap.Run.Always (step fun _ _ _ ↦ .walk) Kept empty backAgain := by
  rw [always_kept_iff _ (by decide +kernel)]
  decide +kernel

end TrailLayer

end OsrsMap.Site
