import OsrsMap.Library.PartitionPoint
import OsrsMap.Site.TrailLayer
import Mathlib.Data.Nat.PSub

/-!
# What happens next on the trails

`indexAt`, `positionAt`, `nextChangeAfter` and `placeMarks` of `site/src/canvas-map/trail-model.js`,
and what `TrailLayer` (`site/src/canvas-map/trail-layer.js`) makes of them: the marks shown on a
trail, when something next happens on any trail, and where a player hops next.

On trails in order the next change is no later than any arrival, mark or walk that is still to come,
and the next hop is the first one that lands in the span that is asked for.
-/

namespace OsrsMap.Site

open Timeline

/-! ## A trail at a time -/

/-- The loop of `indexAt` over the window from `low` up to and without `high`. -/
def indexFrom (points : List LivePoint) (t : ℚ) (low high : ℕ) (found : Option ℕ) : Option ℕ :=
  if low < high then
    let middle := (low + (high - 1)) / 2
    if points[middle]?.any (·.t0 ≤ t) then indexFrom points t (middle + 1) high (some middle)
    else indexFrom points t low middle found
  else found
termination_by high - low

/-- The index of the last point reached by time `t`. -/
def indexAt (points : List LivePoint) (t : ℚ) : Option ℕ :=
  indexFrom points t 0 points.length none

/-- Where a player was at a time: how far the step from a point to the next has got, and what that
step is. -/
structure Place where
  index : ℕ
  frac : ℚ
  kind : Option Kind
  x : ℚ
  y : ℚ
  plane : ℤ
  moving : Bool

namespace LayerModel

def tMin (model : LayerModel) : Option ℚ := model.points.head?.map LivePoint.t0

def tMax (model : LayerModel) : Option ℚ := model.points.getLast?.map LivePoint.t1

def positionAt (model : LayerModel) (t : ℚ) : Option Place := do
  let index ← indexAt model.points t
  let point ← model.points[index]?
  let stays : Place :=
    { index, frac := 0, kind := none, x := point.x, y := point.y, plane := point.plane,
      moving := false }
  match model.points[index + 1]? with
  | none => some stays
  | some next =>
    if t ≤ point.t1 then some stays
    else
      let frac := (t - point.t1) / max (next.t0 - point.t1) (1 / 1000000000)
      let kind := model.kinds[index]?
      let along := if kind.any Kind.connected then frac else 0
      some
        { index, frac, kind
          x := point.x + (next.x - point.x) * along
          y := point.y + (next.y - point.y) * along
          plane := if along < 1 then point.plane else next.plane
          moving := true }

/-- When something next happens on the trail at or after `t`: `t` itself while the player is under
way, the end of the stay or of the absence while nothing is happening. -/
def nextChangeAfter (model : LayerModel) (t : ℚ) : Option ℚ :=
  match indexAt model.points t with
  | none => model.tMin
  | some index =>
    match model.points[index]?, model.points[index + 1]? with
    | some point, some next =>
      if t ≤ point.t1 then some point.t1
      else if !(model.kinds[index]?.any Kind.connected) || model.gapS < next.t0 - point.t1 then
        some next.t0
      else some t
    | _, _ => none

end LayerModel

/-! ## Marks -/

/-- A hub event as the map reads it: its id is empty when it has none, `timeMs` is what `Date.parse`
makes of `occurred_at`, and a coordinate is none when it is no number. The filters of the map read
its type and what it is worth. -/
structure MapEvent where
  id : String
  member : String
  type : String
  timeMs : Option ℚ
  location : Option (Option ℤ × Option ℤ × ℤ)
  valueGp : ℤ
deriving DecidableEq, Repr

/-- `EVENT_KINDS`, without labels and colours. -/
def eventKinds : List (String × List String) :=
  [("loot", ["loot", "pk_loot"]),
   ("level", ["level_up"]),
   ("death", ["death"]),
   ("other",
    ["collection_log", "achievement_diary", "combat_task", "superior_spawn", "slayer_task_complete"])]

def eventKind (event : MapEvent) : Option String :=
  (eventKinds.find? fun kind ↦ kind.2.contains event.type).map Prod.fst

/-- `INSTANCE_SPACE_FROM_X`. -/
def instanceSpaceFromX : ℤ := 6400

def inInstanceSpace (x : Option ℤ) : Bool := x.any (instanceSpaceFromX ≤ ·)

/-- Where an event says it happened, in the site's coordinates. -/
def eventPlace (event : MapEvent) : Option (Option ℤ × Option ℤ × ℤ) :=
  match event.location with
  | none => none
  | some (x, y, plane) => if inInstanceSpace x then none else some (x, y.map (· + 1), plane)

/-- A mark on a trail; `approximate` when its place is a guess. -/
structure Mark where
  id : String
  event : MapEvent
  x : ℚ
  y : ℚ
  plane : ℤ
  t : ℚ
  approximate : Bool

/-- `MARK_SLACK_S`: how long before or after a trail an event may fall. -/
def markSlackS : ℚ := 60

/-- What `placeMarks` makes of one event. -/
def placeMark (member : String) (model : LayerModel) (event : MapEvent) : Option Mark := do
  let tMin ← model.tMin
  let tMax ← model.tMax
  if event.member ≠ member ∨ event.id = "" ∨ eventKind event = none then none
  let timeMs ← event.timeMs
  let t := timeMs / 1000
  if t < tMin - markSlackS ∨ tMax + markSlackS < t then none
  match eventPlace event with
  | some (x, y, plane) =>
    let x ← x
    let y ← y
    some { id := event.id, event, x, y, plane, t, approximate := false }
  | none =>
    let place ← model.positionAt t
    let approximate := place.moving && !(place.kind.any Kind.connected)
    some { id := event.id, event, x := place.x, y := place.y, plane := place.plane, t, approximate }

/-- A member's events as marks on their trail, oldest first. -/
def placeMarks (events : List MapEvent) (member : String) (model : LayerModel) : List Mark :=
  (events.filterMap (placeMark member model)).mergeSort fun a b ↦ a.t ≤ b.t

/-! ## The layer -/

/-- A hop of a player: when they left, when they landed, and how. -/
structure LayerHop where
  leave : ℚ
  land : ℚ
  kind : Kind
deriving DecidableEq, Repr

/-- The next room of a house or of a raid is not somewhere else. -/
def isNextRoom : Kind → Bool
  | .house | .instanced => true
  | _ => false

/-- The loop of `nextHop` over the jumps of a model. -/
def LayerModel.nextHop (model : LayerModel) (after upTo : ℚ) : List Jump → Option LayerHop
  | [] => none
  | jump :: jumps =>
    if isNextRoom jump.kind then model.nextHop after upTo jumps
    else
      match model.points[jump.fromIndex]?, model.points[jump.fromIndex + 1]? with
      | some left, some landed =>
        if upTo < landed.t0 then none
        else if after < landed.t0 then some { leave := left.t1, land := landed.t0, kind := jump.kind }
        else model.nextHop after upTo jumps
      | _, _ => none

/-- `change !== null && (next === null || change < next)`. -/
def earlier (next change : Option ℚ) : Option ℚ :=
  match next, change with
  | next, none => next
  | none, some change => some change
  | some next, some change => if change < next then some change else some next

/-- The layer with the events of the players and the filter that decides which of them count. -/
structure MarkedLayer extends TrailLayer where
  events : Keyed.Map String (List MapEvent)
  eventFilter : Option (MapEvent → Bool)

namespace MarkedLayer

/-- The events on a player's trail. They are placed when they are first asked for, and anew after the
events or the model changed. -/
def marksOn (layer : MarkedLayer) (name : String) : List Mark :=
  match layer.trails.lookup name with
  | none => []
  | some trail => placeMarks ((layer.events.lookup name).getD []) name trail.model

/-- The events on a player's trail that the filter lets through, oldest first. -/
def shownMarksOn (layer : MarkedLayer) (name : String) : List Mark :=
  match layer.eventFilter with
  | none => layer.marksOn name
  | some passes => (layer.marksOn name).filter fun mark ↦ passes mark.event

/-- The first mark at or after a time. -/
def firstMark (marks : List Mark) (time : ℚ) : Option Mark :=
  marks[bisect (holdsAt (fun mark ↦ !decide (time ≤ mark.t)) marks) 0 marks.length]?

/-- When something next happens on any of the trails at or after a time. -/
def nextChangeAfter (layer : MarkedLayer) (time : ℚ) : Option ℚ :=
  layer.trails.entries.foldl
    (fun next entry ↦
      earlier (earlier next (entry.2.model.nextChangeAfter time))
        ((firstMark (layer.shownMarksOn entry.1) time).map Mark.t))
    none

/-- Where a player next turns up somewhere else, landing after `after` and up to `upTo`. -/
def nextHop (layer : MarkedLayer) (name : String) (after upTo : ℚ) : Option LayerHop :=
  match layer.trails.lookup name with
  | none => none
  | some trail => trail.model.nextHop after upTo trail.model.jumps

end MarkedLayer

/-! ## The search for a point -/

variable {points : List LivePoint} {t : ℚ}

/-- Whether the point at an index is reached by a time. -/
def reached (points : List LivePoint) (t : ℚ) (index : ℕ) : Bool := points[index]?.any (·.t0 ≤ t)

theorem reached_iff {index : ℕ} (hindex : index < points.length) :
    reached points t index = true ↔ points[index].t0 ≤ t := by
  simp [reached, List.getElem?_eq_getElem hindex]

theorem lt_length_of_reached {index : ℕ} (h : reached points t index = true) :
    index < points.length := by
  by_contra hout
  rw [reached, List.getElem?_eq_none (Nat.not_lt.mp hout)] at h
  exact absurd h Bool.false_ne_true

theorem reached_of_le (horder : InOrder points) {i j : ℕ} (hij : i ≤ j)
    (h : reached points t j = true) : reached points t i = true := by
  have hj := lt_length_of_reached h
  rw [reached_iff hj] at h
  exact (reached_iff (hij.trans_lt hj)).mpr ((horder.first_le hij hj).trans h)

/-- The search ends at the point before the first one that is not reached. -/
theorem indexFrom_spec (horder : InOrder points) (low high : ℕ)
    (hlow : ∀ i < low, reached points t i = true)
    (hhigh : ∀ i, high ≤ i → reached points t i = false) :
    ∃ count, indexFrom points t low high low.ppred = count.ppred ∧
      ∀ i, reached points t i = true ↔ i < count := by
  generalize hfound : low.ppred = found
  induction low, high, found using indexFrom.induct points t with
  | case1 low high found hlt middle hreached ih =>
    rw [indexFrom, if_pos hlt]
    simp only [middle] at hreached ih
    simp only [hreached, if_true]
    refine ih (fun i hi ↦ ?_) hhigh rfl
    exact reached_of_le horder (Nat.lt_succ_iff.mp hi) hreached
  | case2 low high found hlt middle hahead ih =>
    rw [indexFrom, if_pos hlt]
    simp only [middle] at hahead ih
    simp only [hahead]
    refine ih hlow (fun i hi ↦ ?_) hfound
    exact Bool.eq_false_iff.mpr fun hreached ↦ hahead (reached_of_le horder hi hreached)
  | case3 low high found hempty =>
    rw [indexFrom, if_neg hempty, ← hfound]
    refine ⟨low, rfl, fun i ↦ ⟨fun hreached ↦ ?_, hlow i⟩⟩
    by_contra hbehind
    rw [hhigh i (by omega)] at hreached
    exact absurd hreached Bool.false_ne_true

theorem indexAt_spec (horder : InOrder points) (t : ℚ) :
    ∃ count, indexAt points t = count.ppred ∧ ∀ i, reached points t i = true ↔ i < count := by
  refine indexFrom_spec horder 0 points.length (fun i hi ↦ absurd hi (Nat.not_lt_zero i)) ?_
  intro i hi
  exact Bool.eq_false_iff.mpr fun hreached ↦ absurd (lt_length_of_reached hreached) (by omega)

/-! ## The next change of a trail -/

/-- The time is no later than another, and there is one. -/
def AtMost (next : Option ℚ) (time : ℚ) : Prop := ∃ change ∈ next, change ≤ time

variable {model : LayerModel}

/-- The next change is no later than any arrival that is still to come. -/
theorem LayerModel.nextChangeAfter_le_arrival (horder : InOrder model.points) {j : ℕ}
    (hj : j < model.points.length) (hlater : t < model.points[j].t0) :
    AtMost (model.nextChangeAfter t) model.points[j].t0 := by
  obtain ⟨count, hindex, hreached⟩ := indexAt_spec horder t
  have hcount : count ≤ j := by
    by_contra hbefore
    have hat := (reached_iff hj).mp ((hreached j).mpr (Nat.not_le.mp hbefore))
    exact absurd hat (not_le.mpr hlater)
  unfold nextChangeAfter
  rw [hindex]
  cases count with
  | zero =>
    have hlength : 0 < model.points.length := by omega
    refine ⟨model.points[0].t0, ?_, horder.first_le (Nat.zero_le j) hj⟩
    simp [tMin, List.head?_eq_getElem?, List.getElem?_eq_getElem hlength]
  | succ index =>
    have hnext : model.points[index + 1].t0 ≤ model.points[j].t0 := horder.first_le hcount hj
    have hstay : model.points[index].t1 ≤ model.points[index + 1].t0 :=
      horder.le (Nat.lt_succ_self index) (by omega)
    simp only [Nat.ppred_succ, List.getElem?_eq_getElem (show index < model.points.length by omega),
      List.getElem?_eq_getElem (show index + 1 < model.points.length by omega)]
    split
    · exact ⟨_, rfl, hstay.trans hnext⟩
    · split
      · exact ⟨_, rfl, hnext⟩
      · exact ⟨_, rfl, hlater.le⟩

/-- A player is under way on a connected step that took at most `gapS`. -/
structure UnderWay (model : LayerModel) (time : ℚ) (i : ℕ) : Prop where
  lt_length : i + 1 < model.points.length
  left : model.points[i].t1 < time
  arrives : time < model.points[i + 1].t0
  connected : model.kinds[i]?.any Kind.connected = true
  soon : model.points[i + 1].t0 - model.points[i].t1 ≤ model.gapS

/-- The next change is no later than any time from then on at which the player is under way. -/
theorem LayerModel.nextChangeAfter_le_underWay (horder : InOrder model.points) {time : ℚ} {i : ℕ}
    (h : UnderWay model time i) (hlater : t ≤ time) : AtMost (model.nextChangeAfter t) time := by
  have hi : i < model.points.length := by have := h.lt_length; omega
  by_cases hahead : t < model.points[i].t0
  · obtain ⟨change, hchange, hle⟩ := nextChangeAfter_le_arrival horder hi hahead
    refine ⟨change, hchange, ?_⟩
    calc change ≤ model.points[i].t0 := hle
      _ ≤ model.points[i].t1 := horder.each _ (List.getElem_mem hi)
      _ ≤ time := h.left.le
  · obtain ⟨count, hindex, hreached⟩ := indexAt_spec horder t
    have hat : i < count := (hreached i).mp ((reached_iff hi).mpr (not_lt.mp hahead))
    have hnext : ¬ i + 1 < count := by
      intro hbefore
      have harrived := (reached_iff h.lt_length).mp ((hreached (i + 1)).mpr hbefore)
      exact absurd (hlater.trans_lt h.arrives) (not_lt.mpr harrived)
    obtain rfl : count = i + 1 := by omega
    unfold nextChangeAfter
    have hsoon := h.soon
    simp only [hindex, Nat.ppred_succ, List.getElem?_eq_getElem hi,
      List.getElem?_eq_getElem h.lt_length, h.connected, Bool.not_true, Bool.false_or]
    split
    · exact ⟨_, rfl, h.left.le⟩
    · rw [if_neg (by simpa using hsoon)]
      exact ⟨_, rfl, hlater⟩

/-! ## The next change of the layer -/

variable {layer : MarkedLayer} {name : String}

theorem placeMarks_sorted (events : List MapEvent) (member : String) (model : LayerModel) :
    (placeMarks events member model).Pairwise fun a b ↦ a.t ≤ b.t := by
  have hsorted := @List.pairwise_mergeSort Mark (fun a b ↦ decide (a.t ≤ b.t))
    (fun a b c hab hbc ↦ by simp only [decide_eq_true_eq] at *; exact hab.trans hbc)
    (fun a b ↦ by simpa using le_total a.t b.t) (events.filterMap (placeMark member model))
  exact hsorted.imp fun h ↦ of_decide_eq_true h

theorem MarkedLayer.shownMarksOn_sorted (layer : MarkedLayer) (name : String) :
    (layer.shownMarksOn name).Pairwise fun a b ↦ a.t ≤ b.t := by
  have hmarks : (layer.marksOn name).Pairwise fun a b ↦ a.t ≤ b.t := by
    unfold marksOn
    split
    · exact .nil
    · exact placeMarks_sorted _ _ _
  unfold shownMarksOn
  split
  · exact hmarks
  · exact hmarks.filter _

/-- The search finds a mark that is no later than any from the time on. -/
theorem MarkedLayer.firstMark_le {marks : List Mark} (h : marks.Pairwise fun a b ↦ a.t ≤ b.t)
    {mark : Mark} (hmark : mark ∈ marks) (hlater : t ≤ mark.t) :
    AtMost ((firstMark marks t).map Mark.t) mark.t := by
  have hpartitioned : marks.Pairwise fun a b ↦
      (!decide (t ≤ b.t)) = true → (!decide (t ≤ a.t)) = true := by
    refine h.imp fun {a b} hab hb ↦ ?_
    simp only [Bool.not_eq_true', decide_eq_false_iff_not, not_le] at hb ⊢
    exact hab.trans_lt hb
  unfold firstMark
  rw [getElem?_bisect hpartitioned]
  obtain ⟨first, hfirst, hle⟩ := @exists_find?_of_pairwise _ (fun mark : Mark ↦ !!decide (t ≤ mark.t))
    _ _ h (fun _ ↦ le_rfl) mark hmark (by simpa using hlater)
  exact ⟨first.t, by rw [hfirst]; rfl, hle⟩

variable {next change : Option ℚ} {time : ℚ}

theorem AtMost.earlier_left (h : AtMost next time) : AtMost (earlier next change) time := by
  obtain ⟨found, rfl, hle⟩ := h
  cases change with
  | none => exact ⟨found, rfl, hle⟩
  | some change =>
    simp only [earlier]
    split
    · next hlt => exact ⟨change, rfl, hlt.le.trans hle⟩
    · exact ⟨found, rfl, hle⟩

theorem AtMost.earlier_right (h : AtMost change time) : AtMost (earlier next change) time := by
  obtain ⟨change, rfl, hle⟩ := h
  cases next with
  | none => exact ⟨change, rfl, hle⟩
  | some next =>
    simp only [earlier]
    split
    · exact ⟨change, rfl, hle⟩
    · next hge => exact ⟨next, rfl, (not_lt.mp hge).trans hle⟩

/-- The earliest of all answers is no later than any of them. -/
theorem atMost_foldl {ι : Type*} {changeOf markOf : ι → Option ℚ} {entries : List ι} {entry : ι}
    (hentry : entry ∈ entries) (h : AtMost (changeOf entry) time ∨ AtMost (markOf entry) time) :
    AtMost (entries.foldl
      (fun next entry ↦ earlier (earlier next (changeOf entry)) (markOf entry)) next) time := by
  induction entries generalizing next with
  | nil => exact absurd hentry List.not_mem_nil
  | cons first rest ih =>
    obtain rfl | hrest := List.mem_cons.mp hentry
    · refine @Run.foldl_of_step _ _ _ (fun next ↦ AtMost next time)
        (fun _ _ hnext ↦ hnext.earlier_left.earlier_left) _ rest ?_
      obtain hchange | hmark := h
      · exact hchange.earlier_right.earlier_left
      · exact hmark.earlier_right
    · exact ih hrest

/-- Nothing lies between two times: no shown mark, no arrival, landings among them, and no time at
which anyone is under way on a step that took at most `gapS`. -/
structure Quiet (layer : MarkedLayer) (before after : ℚ) : Prop where
  marks : ∀ name, ∀ mark ∈ layer.shownMarksOn name, before ≤ mark.t → after < mark.t
  arrivals : ∀ name, ∀ trail ∈ layer.trails.lookup name, ∀ point ∈ trail.model.points,
    before < point.t0 → after < point.t0
  underWay : ∀ name, ∀ trail ∈ layer.trails.lookup name, ∀ time i, UnderWay trail.model time i →
    before ≤ time → after < time

/-- The models of the layer were built of points in order. -/
structure Modelled (classify : Classify) (layer : MarkedLayer) : Prop where
  inOrder : ∀ name, ∀ trail ∈ layer.trails.lookup name, InOrder trail.model.points
  built : ∀ name, ∀ trail ∈ layer.trails.lookup name,
    trail.model = .build classify trail.model.points trail.step

/-- Every layer that histories in order and sightings make has such models. -/
theorem modelled_of_allowed (classify : Classify) {events : List LayerEvent}
    (hallowed : OsrsMap.Run.Along (TrailLayer.step classify) TrailLayer.Allowed .empty events)
    (hlayer : layer.toTrailLayer = events.foldl (TrailLayer.step classify) .empty) :
    Modelled classify layer := by
  have hkept : OsrsMap.Run.Always (TrailLayer.step classify)
      (fun layer ↦ ∀ name, ∀ trail ∈ layer.trails.lookup name, TrailLayer.TrailKept trail ∧
        trail.model = .build classify trail.model.points trail.step) .empty events := by
    refine OsrsMap.Run.always_of_along (fun layer event h hevent name trail htrail ↦ ?_)
      (fun name trail htrail ↦ absurd htrail (by simp [TrailLayer.empty])) hallowed
    refine ⟨TrailLayer.trailKept_step (fun name trail htrail ↦ (h name trail htrail).1) hevent name trail
      htrail, ?_⟩
    obtain hbefore | ⟨before, seen, nowS, rfl, -, -⟩ := TrailLayer.trail_of_step hevent htrail
    · exact (h name trail hbefore).2
    · rfl
  have hfinal := hkept.final
  rw [← hlayer] at hfinal
  exact ⟨fun name trail htrail ↦ (hfinal name trail htrail).1.inOrder,
    fun name trail htrail ↦ (hfinal name trail htrail).2⟩

theorem MarkedLayer.trails_of_mark {mark : Mark} (h : mark ∈ layer.shownMarksOn name) :
    ∃ trail, layer.trails.lookup name = some trail := by
  have hmark : mark ∈ layer.marksOn name := by
    unfold shownMarksOn at h
    split at h
    · exact h
    · exact List.mem_of_mem_filter h
  unfold marksOn at hmark
  split at hmark
  · exact absurd hmark List.not_mem_nil
  · next trail htrail => exact ⟨trail, htrail⟩

/-- Before the next change of the layer nothing happens. -/
theorem MarkedLayer.quiet_of_lt_nextChange (horder : ∀ name, ∀ trail ∈ layer.trails.lookup name,
      InOrder trail.model.points) {before after : ℚ}
    (h : ∀ change ∈ layer.nextChangeAfter before, after < change) : Quiet layer before after := by
  have hsoonest {name : String} {trail : Trail} (htrail : layer.trails.lookup name = some trail) {time : ℚ}
      (hnext : AtMost (trail.model.nextChangeAfter before) time ∨
        AtMost ((firstMark (layer.shownMarksOn name) before).map Mark.t) time) : after < time := by
    obtain ⟨change, hchange, hle⟩ := @atMost_foldl none time _
      (fun entry : Sigma fun _ : String ↦ Trail ↦ entry.2.model.nextChangeAfter before)
      (fun entry ↦ (firstMark (layer.shownMarksOn entry.1) before).map Mark.t) _ _
      (AList.mem_lookup_iff.mp htrail) hnext
    exact (h change hchange).trans_le hle
  constructor
  · intro name mark hmark hlater
    obtain ⟨trail, htrail⟩ := trails_of_mark hmark
    exact hsoonest htrail (.inr (firstMark_le (layer.shownMarksOn_sorted name) hmark hlater))
  · intro name trail htrail point hpoint hlater
    obtain ⟨j, hj, rfl⟩ := List.mem_iff_getElem.mp hpoint
    have horder := horder name trail htrail
    exact hsoonest htrail (.inl (LayerModel.nextChangeAfter_le_arrival horder hj hlater))
  · intro name trail htrail time i hway hlater
    have horder := horder name trail htrail
    exact hsoonest htrail (.inl (LayerModel.nextChangeAfter_le_underWay horder hway hlater))

/-! ## The next hop -/

/-- A jump as a hop, unless it leads to the next room. -/
def LayerModel.hopOf (model : LayerModel) (jump : Jump) : Option LayerHop :=
  if isNextRoom jump.kind then none
  else
    match model.points[jump.fromIndex]?, model.points[jump.fromIndex + 1]? with
    | some left, some landed => some { leave := left.t1, land := landed.t0, kind := jump.kind }
    | _, _ => none

/-- The teleports, entrances and unknown jumps of a trail, in their order. -/
def LayerModel.hops (model : LayerModel) : List LayerHop := model.jumps.filterMap model.hopOf

def MarkedLayer.hops (layer : MarkedLayer) (name : String) : List LayerHop :=
  (layer.trails.lookup name).elim [] (·.model.hops)

/-- What is answered is the first hop that lands after the span began, if it lands in the span. -/
theorem LayerModel.nextHop_eq {after upTo : ℚ} (hspan : after ≤ upTo) {jumps : List Jump}
    (hjumps : ∀ jump ∈ jumps, jump.fromIndex + 1 < model.points.length) :
    model.nextHop after upTo jumps =
      ((jumps.filterMap model.hopOf).find? (after < ·.land)).filter (·.land ≤ upTo) := by
  induction jumps with
  | nil => rfl
  | cons jump jumps ih =>
    have hjump := hjumps jump List.mem_cons_self
    have ih := ih fun other hother ↦ hjumps other (List.mem_cons_of_mem _ hother)
    unfold nextHop
    cases hroom : isNextRoom jump.kind with
    | true =>
      have hhop : model.hopOf jump = none := by simp [hopOf, hroom]
      rw [if_pos rfl, List.filterMap_cons_none hhop, ih]
    | false =>
      have hhop : model.hopOf jump = some
          { leave := model.points[jump.fromIndex].t1
            land := model.points[jump.fromIndex + 1].t0
            kind := jump.kind } := by
        simp [hopOf, hroom, List.getElem?_eq_getElem hjump,
          List.getElem?_eq_getElem (Nat.lt_of_succ_lt hjump)]
      rw [List.filterMap_cons_some hhop]
      simp only [Bool.false_eq_true, if_false, List.getElem?_eq_getElem hjump,
        List.getElem?_eq_getElem (Nat.lt_of_succ_lt hjump), List.find?_cons]
      by_cases hlate : upTo < model.points[jump.fromIndex + 1].t0
      · simp [hlate, hspan.trans_lt hlate, Option.filter]
      · by_cases hlands : after < model.points[jump.fromIndex + 1].t0
        · simp [hlate, hlands, not_lt.mp hlate, Option.filter]
        · simp [hlate, hlands, ih]

theorem LayerModel.jumps_build (classify : Classify) (points : List LivePoint) (step : ℤ) :
    (LayerModel.build classify points step).jumps =
      (List.range points.length).flatMap (jumpAt (LayerModel.build classify points step).kinds) := by
  cases points with
  | nil => rfl
  | cons point rest => exact jumps_foldl_splitAt (by simp) _ _

theorem lt_of_mem_jumpAt {kinds : List Kind} {index : ℕ} {jump : Jump} (h : jump ∈ jumpAt kinds index) :
    jump.fromIndex = index ∧ index < kinds.length := by
  obtain ⟨kind, hkind, rfl⟩ := List.mem_map.mp h
  obtain ⟨hkind, -⟩ := Option.filter_eq_some_iff.mp (Option.mem_toList.mp hkind)
  exact ⟨rfl, (List.getElem?_eq_some_iff.mp hkind).choose⟩

variable {classify : Classify} {step : ℤ}

theorem LayerModel.lt_length_of_jump {jump : Jump}
    (h : jump ∈ (LayerModel.build classify points step).jumps) :
    jump.fromIndex + 1 < points.length := by
  rw [jumps_build] at h
  obtain ⟨index, -, hjump⟩ := List.mem_flatMap.mp h
  obtain ⟨rfl, hlt⟩ := lt_of_mem_jumpAt hjump
  have hkinds : (LayerModel.build classify points step).kinds.length = points.length - 1 := by
    simp [build]
  omega

/-- The hops of a trail in order land in their order. -/
theorem LayerModel.hops_sorted (horder : InOrder points) :
    (LayerModel.build classify points step).hops.Pairwise fun a b ↦ a.land ≤ b.land := by
  have hjumps : (LayerModel.build classify points step).jumps.Pairwise
      fun a b ↦ a.fromIndex < b.fromIndex := by
    rw [jumps_build]
    refine List.pairwise_flatMap.mpr ⟨fun index _ ↦ ?_, ?_⟩
    · unfold jumpAt
      cases ((LayerModel.build classify points step).kinds[index]?).filter (!·.connected) <;> simp
    · refine List.pairwise_lt_range.imp fun {i j} hij a ha b hb ↦ ?_
      rw [(lt_of_mem_jumpAt ha).1, (lt_of_mem_jumpAt hb).1]
      exact hij
  refine List.pairwise_filterMap.mpr (hjumps.imp_of_mem fun {a b} ha hb hab hop hhop later hlater ↦ ?_)
  have hlengthA : a.fromIndex + 1 < (LayerModel.build classify points step).points.length :=
    lt_length_of_jump ha
  have hlengthB : b.fromIndex + 1 < (LayerModel.build classify points step).points.length :=
    lt_length_of_jump hb
  simp only [hopOf, List.getElem?_eq_getElem hlengthA, List.getElem?_eq_getElem hlengthB,
    List.getElem?_eq_getElem (Nat.lt_of_succ_lt hlengthA),
    List.getElem?_eq_getElem (Nat.lt_of_succ_lt hlengthB), Option.ite_none_left_eq_some,
    Option.some.injEq] at hhop hlater
  obtain ⟨-, rfl⟩ := hhop
  obtain ⟨-, rfl⟩ := hlater
  exact horder.first_le (by omega) hlengthB

/-! ## The next hop of the layer -/

theorem MarkedLayer.nextHop_eq (h : Modelled classify layer) (name : String) {after upTo : ℚ}
    (hspan : after ≤ upTo) : layer.nextHop name after upTo =
      ((layer.hops name).find? (after < ·.land)).filter (·.land ≤ upTo) := by
  unfold nextHop hops
  cases htrail : layer.trails.lookup name with
  | none => rfl
  | some trail =>
    apply LayerModel.nextHop_eq hspan
    rw [h.built name trail htrail]
    exact fun jump hjump ↦ LayerModel.lt_length_of_jump hjump

theorem MarkedLayer.hops_sorted (h : Modelled classify layer) (name : String) :
    (layer.hops name).Pairwise fun a b ↦ a.land ≤ b.land := by
  unfold hops
  cases htrail : layer.trails.lookup name with
  | none => exact .nil
  | some trail =>
    have hsorted := @LayerModel.hops_sorted _ classify trail.step (h.inOrder name trail htrail)
    rw [← h.built name trail htrail] at hsorted
    exact hsorted

end OsrsMap.Site
