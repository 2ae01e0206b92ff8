import OsrsMap.Library.Run
import OsrsMap.Site.GearTrips
import Mathlib.Data.List.Chain
import Mathlib.Data.List.Flatten

/-!
# The trips of a gear log

The log of what a player wore is partitioned into trips (`site/src/data/gear-trips.js`). What every
row keeps is an invariant of the loop; that no trip goes on after a gap hangs on what follows an
empty set.
-/

namespace OsrsMap.Site

variable {τ : Type}

/-! ## What a log is partitioned into -/

/-- A trip lies between the first and the last of its changes. -/
def Spans (changes : List (GearRow τ)) (startedAt endedAt : τ) : Prop :=
  changes.head?.map GearRow.changedAt = some startedAt ∧
    changes.getLast?.map GearRow.changedAt = some endedAt

/-- No two consecutive changes of a trip are 20 minutes apart. -/
def InGaps (trip : Trip τ) : Prop :=
  trip.changes.IsChain fun a b ↦ b.atMs - a.atMs < tripGapMs

instance decidableInGaps (trip : Trip τ) : Decidable (InGaps trip) :=
  inferInstanceAs (Decidable (trip.changes.IsChain fun a b ↦ b.atMs - a.atMs < tripGapMs))

/-- The log is partitioned into trips. -/
structure TripsPartition (dateParse : τ → Option ℤ) (changes : List (GearChange τ)) (now : ℤ) :
    Prop where
  anyOrder : ∀ other, other.Perm changes → gearTrips dateParse other now = gearTrips dateParse changes now
  newestFirst : (gearTrips dateParse changes now).Pairwise fun newer older ↦
    ∃ started ended, dateParse newer.startedAt = some started ∧
      dateParse older.endedAt = some ended ∧ ended < started
  spans : ∀ trip ∈ gearTrips dateParse changes now, ∃ started ended,
    dateParse trip.startedAt = some started ∧ dateParse trip.endedAt = some ended ∧
      started ≤ ended ∧ ∀ row ∈ trip.changes, started ≤ row.atMs ∧ row.atMs ≤ ended
  counted : ∀ row ∈ gearRows dateParse changes, row.set ≠ [] →
    ∃ trip ∈ gearTrips dateParse changes now, row ∈ trip.changes ∧
      (∀ worn ∈ row.set, trip.Has worn) ∧
      ∀ other ∈ gearTrips dateParse changes now, row ∈ other.changes → other = trip
  inGaps : ∀ trip ∈ gearTrips dateParse changes now, InGaps trip
  ended : ∀ trip ∈ gearTrips dateParse changes now, ∀ last ∈ trip.changes,
    ∀ empty ∈ gearRows dateParse changes, empty.set = [] →
      tripGapMs ≤ empty.atMs - last.atMs →
      (∀ row ∈ trip.changes, row.atMs < empty.atMs → row.atMs ≤ last.atMs) →
      ∀ row ∈ trip.changes, row.atMs ≤ empty.atMs

/-- Everything was taken off by the last row, 20 minutes or more after the row before it. -/
def takenOff (rows : List (GearRow τ)) : Bool :=
  match rows.reverse with
  | row :: earlier :: _ => row.set.isEmpty && tripGapMs ≤ row.atMs - earlier.atMs
  | _ => false

/-- After everything was taken off, a row starts a trip of its own, or is left out as well. -/
def Grouping.Spared (grouping : Grouping τ) (turn : GearRow τ × ℤ) : Prop :=
  takenOff grouping.rows = true →
    afterGap grouping.previous turn.1 = true ∨
      ∀ trip ∈ grouping.trip, trip.newOutfit turn.1 = true

instance decidableSpared (grouping : Grouping τ) (turn : GearRow τ × ℤ) :
    Decidable (grouping.Spared turn) :=
  inferInstanceAs (Decidable (takenOff grouping.rows = true →
    afterGap grouping.previous turn.1 = true ∨
      ∀ trip ∈ grouping.trip, trip.newOutfit turn.1 = true))

/-! ## The rows of a log -/

section Rows

variable {row : GearRow τ} {rows : List (GearRow τ)}

theorem takenOff_concat : takenOff (rows ++ [row]) = (row.set.isEmpty && afterGap rows.getLast? row) := by
  unfold takenOff afterGap
  rw [List.reverse_append, List.reverse_singleton, List.singleton_append, List.getLast?_eq_head?_reverse]
  cases rows.reverse with
  | nil => simp
  | cons earlier before => simp

theorem exists_of_takenOff (h : takenOff rows = true) : ∃ before earlier row,
    rows = before ++ [earlier] ++ [row] ∧ tripGapMs ≤ row.atMs - earlier.atMs := by
  unfold takenOff at h
  split at h
  · next row earlier before hrows =>
    refine ⟨before.reverse, earlier, row, ?_, ?_⟩
    · rw [← List.reverse_reverse rows, hrows, List.reverse_cons, List.reverse_cons]
    · rw [Bool.and_eq_true, decide_eq_true_eq] at h
      exact h.2
  · exact absurd h Bool.false_ne_true

/-- Rows in the order of their times. -/
def InTime (rows : List (GearRow τ)) : Prop := rows.Pairwise fun a b ↦ a.atMs < b.atMs

end Rows

namespace Grouping

variable {grouping : Grouping τ} {row : GearRow τ} {turn : GearRow τ × ℤ}

/-- What a row makes of the trips. -/
inductive Turned (grouping : Grouping τ) (row : GearRow τ) : Grouping τ → Prop
  | leaves (hgap : afterGap grouping.previous row = true) (hset : row.set = []) :
    Turned grouping row (grouping.leave row)
  | opens (ms : ℤ) (hkept : ¬ (afterGap grouping.previous row = true ∧ row.set = []))
    (hopens : ∀ trip ∈ grouping.trip, afterGap grouping.previous row = true ∨ trip.newOutfit row = true) :
    Turned grouping row (grouping.openTrip row ms)
  | counts {trip : OpenTrip τ} (ms : ℤ) (htrip : grouping.trip = some trip)
    (hgap : afterGap grouping.previous row = false) (houtfit : trip.newOutfit row = false) :
    Turned grouping row (grouping.count trip row ms)

theorem turned_step (grouping : Grouping τ) (turn : GearRow τ × ℤ) :
    Turned grouping turn.1 (grouping.step turn) := by
  unfold step
  dsimp only
  split
  · next hleave => exact .leaves hleave.1 hleave.2
  · next hkept =>
    split
    · next hnone => exact .opens _ hkept (by simp [hnone])
    · next trip htrip =>
      split
      · next hopens =>
        refine .opens _ hkept fun other hother ↦ ?_
        obtain rfl : trip = other := Option.some.inj (htrip.symm.trans hother)
        exact hopens
      · next hcounts =>
        rw [not_or, Bool.not_eq_true, Bool.not_eq_true] at hcounts
        exact .counts _ htrip hcounts.1 hcounts.2

theorem rows_step (grouping : Grouping τ) (turn : GearRow τ × ℤ) :
    (grouping.step turn).rows = grouping.rows ++ [turn.1] := by
  have hturned := turned_step grouping turn
  generalize grouping.step turn = next at hturned
  cases hturned <;> rfl

/-- The changes counted to the trips. -/
def counted (grouping : Grouping τ) : List (GearRow τ) := grouping.closed.flatMap Trip.changes

/-- What always holds of the trips so far. -/
structure Holds (grouping : Grouping τ) : Prop where
  previous : grouping.previous = grouping.rows.getLast?
  opened : grouping.trip = none → grouping.rows = []
  sublist : grouping.counted.Sublist grouping.rows
  worn : ∀ row ∈ grouping.rows, row.set ≠ [] → row ∈ grouping.counted
  spans : ∀ trip ∈ grouping.closed, Spans trip.changes trip.startedAt trip.endedAt
  kits : ∀ trip ∈ grouping.closed, ∀ row ∈ trip.changes, ∀ worn ∈ row.set, trip.Has worn
  last : ∀ trip ∈ grouping.trip, ∃ newest, trip.changes.getLast? = some newest ∧
    if takenOff grouping.rows then newest ∈ grouping.rows.dropLast
    else grouping.rows.getLast? = some newest

theorem holds_start : (start : Grouping τ).Holds where
  previous := rfl
  opened _ := rfl
  sublist := .slnil
  worn _ hrow := absurd hrow List.not_mem_nil
  spans _ htrip := absurd htrip List.not_mem_nil
  kits _ htrip := absurd htrip List.not_mem_nil
  last _ htrip := nomatch htrip

/-- A row is the newest change of a trip with earlier changes, and the trips that are over are older
ones. -/
structure Grown (grouping : Grouping τ) (row : GearRow τ) (older : List (Trip τ))
    (earlier : List (GearRow τ)) (trip : OpenTrip τ) (next : Grouping τ) : Prop where
  underWay : next.trip = some trip
  closed : next.closed = older ++ [trip.close]
  previous : next.previous = some row
  rows : next.rows = grouping.rows ++ [row]
  changes : trip.changes = earlier ++ [row]
  spans : Spans trip.changes trip.startedAt trip.endedAt
  kit : ∀ change ∈ trip.changes, ∀ worn ∈ change.set, trip.Has worn
  counted : older.flatMap Trip.changes ++ earlier = grouping.counted
  inClosed : ∀ other ∈ older, other ∈ grouping.closed

theorem grown_openTrip (grouping : Grouping τ) (row : GearRow τ) (ms : ℤ) :
    ∃ trip, Grown grouping row grouping.closed [] trip (grouping.openTrip row ms) := by
  let trip := ((OpenTrip.start row).carry grouping.previous row).wear row.set ms
  obtain ⟨hstarted, hended, hchanges⟩ : trip.startedAt = row.changedAt ∧
      trip.endedAt = row.changedAt ∧ trip.changes = [row] := by
    have hframe : trip.frame = (row.changedAt, row.changedAt, [row]) := OpenTrip.frame_start
    simpa only [OpenTrip.frame, Prod.mk.injEq] using hframe
  refine ⟨trip, rfl, rfl, rfl, rfl, hchanges, ?_, ?_, List.append_nil _, fun _ htrip ↦ htrip⟩
  · rw [hstarted, hended, hchanges]
    exact ⟨rfl, rfl⟩
  · rw [hchanges]
    intro change hchange worn hworn
    obtain rfl := List.mem_singleton.mp hchange
    exact OpenTrip.has_wear _ ms hworn

theorem closed_of_trip {trip : OpenTrip τ} (htrip : grouping.trip = some trip) :
    grouping.closed = grouping.trips ++ [trip.close] := by
  rw [closed, htrip]
  rfl

theorem grown_count (h : grouping.Holds) {trip : OpenTrip τ} (htrip : grouping.trip = some trip)
    (row : GearRow τ) (ms : ℤ) :
    ∃ longer, Grown grouping row grouping.trips trip.changes longer (grouping.count trip row ms) := by
  let longer := (trip.swap row).wear row.set ms
  have hclosed := closed_of_trip htrip
  have hmem : trip.close ∈ grouping.closed := by
    rw [hclosed]
    exact List.mem_append_right _ (List.mem_singleton_self _)
  obtain ⟨hstarted, hended, hchanges⟩ : longer.startedAt = trip.startedAt ∧
      longer.endedAt = row.changedAt ∧ longer.changes = trip.changes ++ [row] := by
    have hframe : longer.frame = (trip.startedAt, row.changedAt, trip.changes ++ [row]) :=
      OpenTrip.frame_wear _
    simpa only [OpenTrip.frame, Prod.mk.injEq] using hframe
  refine ⟨longer, rfl, rfl, rfl, rfl, hchanges, ?_, ?_, ?_, ?_⟩
  · obtain ⟨hhead, -⟩ := h.spans trip.close hmem
    rw [hstarted, hended, hchanges, Spans, List.getLast?_concat]
    refine ⟨?_, rfl⟩
    cases hfirst : trip.changes with
    | nil => simp [OpenTrip.close, hfirst] at hhead
    | cons first rest => simpa [OpenTrip.close, hfirst] using hhead
  · rw [hchanges]
    intro change hchange worn hworn
    obtain hchange | hchange := List.mem_append.mp hchange
    · have hhas : (trip.swap row).Has worn :=
        OpenTrip.has_close_iff.mp (h.kits trip.close hmem change hchange worn hworn)
      exact hhas.wear row.set ms
    · obtain rfl := List.mem_singleton.mp hchange
      exact OpenTrip.has_wear _ ms hworn
  · rw [counted, hclosed, List.flatMap_append, List.flatMap_singleton]
    rfl
  · intro older holder
    rw [hclosed]
    exact List.mem_append_left _ holder

theorem holds_leave (h : grouping.Holds) (hgap : afterGap grouping.previous row = true)
    (hset : row.set = []) : (grouping.leave row).Holds where
  previous := List.getLast?_concat.symm
  opened hnone := by
    rw [h.previous, h.opened hnone] at hgap
    exact absurd hgap Bool.false_ne_true
  sublist := h.sublist.trans (List.sublist_append_left _ _)
  worn other hother hworn := by
    obtain hother | hother := List.mem_append.mp hother
    · exact h.worn other hother hworn
    · exact absurd (List.mem_singleton.mp hother ▸ hset) hworn
  spans := h.spans
  kits := h.kits
  last trip htrip := by
    obtain ⟨newest, hnewest, hlast⟩ := h.last trip htrip
    have htaken : takenOff (grouping.rows ++ [row]) = true := by
      rw [takenOff_concat, ← h.previous, hgap, hset]
      rfl
    refine ⟨newest, hnewest, ?_⟩
    rw [leave, if_pos htaken, List.dropLast_concat]
    split at hlast
    · exact List.mem_of_mem_dropLast hlast
    · exact List.mem_of_getLast? hlast

theorem Grown.counted_eq {older : List (Trip τ)} {earlier : List (GearRow τ)} {trip : OpenTrip τ}
    {next : Grouping τ} (grown : Grown grouping row older earlier trip next) :
    next.counted = grouping.counted ++ [row] := by
  rw [Grouping.counted, grown.closed, List.flatMap_append, List.flatMap_singleton, ← grown.counted,
    List.append_assoc]
  exact congrArg _ grown.changes

theorem Grown.forall_closed {older : List (Trip τ)} {earlier : List (GearRow τ)}
    {trip : OpenTrip τ} {next : Grouping τ} {P : Trip τ → Prop}
    (grown : Grown grouping row older earlier trip next) (h : ∀ trip ∈ grouping.closed, P trip)
    (htrip : P trip.close) : ∀ trip ∈ next.closed, P trip := by
  intro other hother
  rw [grown.closed] at hother
  obtain hother | hother := List.mem_append.mp hother
  · exact h other (grown.inClosed other hother)
  · exact List.mem_singleton.mp hother ▸ htrip

theorem Grown.holds {older : List (Trip τ)} {earlier : List (GearRow τ)} {trip : OpenTrip τ}
    {next : Grouping τ} (grown : Grown grouping row older earlier trip next) (h : grouping.Holds)
    (hkept : ¬ (afterGap grouping.previous row = true ∧ row.set = [])) : next.Holds where
  previous := by rw [grown.previous, grown.rows, List.getLast?_concat]
  opened hnone := by
    rw [grown.underWay] at hnone
    cases hnone
  sublist := by
    rw [grown.counted_eq, grown.rows]
    exact h.sublist.append_right [row]
  worn other hother hworn := by
    rw [grown.rows] at hother
    rw [grown.counted_eq]
    obtain hother | hother := List.mem_append.mp hother
    · exact List.mem_append_left _ (h.worn other hother hworn)
    · exact List.mem_append_right _ hother
  spans := grown.forall_closed h.spans grown.spans
  kits := grown.forall_closed h.kits fun change hchange worn hworn ↦
    OpenTrip.has_close_iff.mpr (grown.kit change hchange worn hworn)
  last other hother := by
    obtain rfl : trip = other := Option.some.inj (grown.underWay.symm.trans hother)
    have htaken : ¬ takenOff next.rows = true := by
      rw [grown.rows, takenOff_concat, ← h.previous, Bool.and_eq_true, List.isEmpty_iff]
      exact fun htaken ↦ hkept htaken.symm
    refine ⟨row, by rw [grown.changes, List.getLast?_concat], ?_⟩
    rw [if_neg htaken, grown.rows, List.getLast?_concat]

theorem holds_step (h : grouping.Holds) (turn : GearRow τ × ℤ) : (grouping.step turn).Holds := by
  have hturned := turned_step grouping turn
  generalize grouping.step turn = next at hturned ⊢
  cases hturned with
  | leaves hgap hset => exact holds_leave h hgap hset
  | opens ms hkept hopens =>
    obtain ⟨trip, hgrown⟩ := grown_openTrip grouping turn.1 ms
    exact hgrown.holds h hkept
  | counts ms htrip hgap houtfit =>
    obtain ⟨longer, hgrown⟩ := grown_count h htrip turn.1 ms
    exact hgrown.holds h fun hleave ↦ Bool.false_ne_true (hgap.symm.trans hleave.1)

/-! ## Gaps between the changes of a trip -/

def AllInGaps (grouping : Grouping τ) : Prop := ∀ trip ∈ grouping.closed, InGaps trip

theorem isChain_concat_iff {earlier : List (GearRow τ)} {newest : GearRow τ}
    (hnewest : earlier.getLast? = some newest)
    (hearlier : earlier.IsChain fun a b ↦ b.atMs - a.atMs < tripGapMs) :
    ((earlier ++ [row]).IsChain fun a b ↦ b.atMs - a.atMs < tripGapMs) ↔
      row.atMs - newest.atMs < tripGapMs := by
  rw [List.isChain_append, hnewest]
  constructor
  · rintro ⟨-, -, hjoin⟩
    exact hjoin newest rfl row rfl
  · intro hgap
    refine ⟨hearlier, List.isChain_singleton _, fun a ha b hb ↦ ?_⟩
    rwa [← Option.some.inj ha, ← Option.some.inj hb]

/-- The newest change of the trip under way is within 20 minutes of a row that goes on with it
exactly if the trip was not over. -/
theorem gap_iff (h : grouping.Holds) (htime : InTime (grouping.rows ++ [row])) {trip : OpenTrip τ}
    (htrip : grouping.trip = some trip) (hgap : afterGap grouping.previous row = false) :
    ∃ newest, trip.changes.getLast? = some newest ∧
      (row.atMs - newest.atMs < tripGapMs ↔ ¬ takenOff grouping.rows = true) := by
  obtain ⟨newest, hnewest, hlast⟩ := h.last trip htrip
  refine ⟨newest, hnewest, ?_⟩
  split at hlast
  · next htaken =>
    obtain ⟨before, earlier, taken, hrows, hearlier⟩ := exists_of_takenOff htaken
    rw [hrows] at hlast htime
    have hbefore : newest.atMs ≤ earlier.atMs := by
      rw [List.dropLast_concat] at hlast
      obtain hmem | hmem := List.mem_append.mp hlast
      · have hpair := (List.pairwise_append.mp (List.pairwise_append.mp htime).1).1
        exact ((List.pairwise_append.mp hpair).2.2 newest hmem earlier (List.mem_singleton_self _)).le
      · exact (congrArg GearRow.atMs (List.mem_singleton.mp hmem)).le
    have hafter : taken.atMs < row.atMs := (List.pairwise_append.mp htime).2.2 taken
      (List.mem_append_right _ (List.mem_singleton_self _)) row (List.mem_singleton_self _)
    constructor
    · intro hlt
      omega
    · exact fun hnot ↦ absurd htaken hnot
  · next htaken =>
    rw [h.previous, hlast, afterGap, Option.any_some, decide_eq_false_iff_not, not_le] at hgap
    exact ⟨fun _ ↦ htaken, fun _ ↦ hgap⟩

/-- A row goes on with a trip within 20 minutes exactly if it is spared. -/
theorem allInGaps_step_iff (h : grouping.Holds) (hgaps : grouping.AllInGaps)
    (htime : InTime (grouping.rows ++ [turn.1])) :
    (grouping.step turn).AllInGaps ↔ grouping.Spared turn := by
  have hturned := turned_step grouping turn
  generalize grouping.step turn = next at hturned ⊢
  cases hturned with
  | leaves hgap hset => exact ⟨fun _ _ ↦ Or.inl hgap, fun _ ↦ hgaps⟩
  | opens ms hkept hopens =>
    obtain ⟨trip, hgrown⟩ := grown_openTrip grouping turn.1 ms
    have hsingle : InGaps trip.close := by
      unfold InGaps OpenTrip.close
      rw [hgrown.changes]
      exact List.isChain_singleton _
    refine ⟨fun _ _ ↦ ?_, fun _ ↦ hgrown.forall_closed hgaps hsingle⟩
    by_cases hgap : afterGap grouping.previous turn.1 = true
    · exact Or.inl hgap
    · exact Or.inr fun trip htrip ↦ (hopens trip htrip).resolve_left hgap
  | @counts trip ms htrip hgap houtfit =>
    obtain ⟨longer, hgrown⟩ := grown_count h htrip turn.1 ms
    obtain ⟨newest, hnewest, hiff⟩ := gap_iff h htime htrip hgap
    have hclosed := closed_of_trip htrip
    have htrip' : InGaps trip.close := hgaps trip.close (by
      rw [hclosed]
      exact List.mem_append_right _ (List.mem_singleton_self _))
    have hlonger : InGaps longer.close ↔ ¬ takenOff grouping.rows = true := by
      rw [← hiff, ← isChain_concat_iff hnewest htrip', ← hgrown.changes]
      rfl
    constructor
    · intro hnext htaken
      have hmem : longer.close ∈ (grouping.count trip turn.1 ms).closed := by
        rw [hgrown.closed]
        exact List.mem_append_right _ (List.mem_singleton_self _)
      exact absurd htaken (hlonger.mp (hnext longer.close hmem))
    · intro hspared
      apply hgrown.forall_closed hgaps (hlonger.mpr fun htaken ↦ ?_)
      obtain hafter | houtfit' := hspared htaken
      · exact Bool.false_ne_true (hgap.symm.trans hafter)
      · exact Bool.false_ne_true (houtfit.symm.trans (houtfit' trip htrip))

theorem allInGaps_of_step (h : (grouping.step turn).AllInGaps) : grouping.AllInGaps := by
  have hturned := turned_step grouping turn
  generalize grouping.step turn = next at hturned h
  cases hturned with
  | leaves hgap hset => exact h
  | opens ms hkept hopens =>
    exact fun trip htrip ↦ h trip (List.mem_append_left _ htrip)
  | @counts trip ms htrip hgap houtfit =>
    have hchanges : ((trip.swap turn.1).wear turn.1.set ms).changes = trip.changes ++ [turn.1] :=
      congrArg (·.2.2) (OpenTrip.frame_wear (trip.swap turn.1))
    intro other hother
    rw [closed_of_trip htrip] at hother
    obtain hother | hother := List.mem_append.mp hother
    · exact h other (List.mem_append_left _ hother)
    · obtain rfl := List.mem_singleton.mp hother
      have hlonger := h _ (List.mem_append_right _ (List.mem_singleton_self _))
      unfold InGaps OpenTrip.close at hlonger ⊢
      rw [hchanges] at hlonger
      exact hlonger.left_of_append

theorem rows_foldl (grouping : Grouping τ) (turns : List (GearRow τ × ℤ)) :
    (turns.foldl step grouping).rows = grouping.rows ++ turns.map Prod.fst := by
  induction turns generalizing grouping with
  | nil => exact (List.append_nil _).symm
  | cons turn turns ih =>
    rw [List.foldl_cons, ih, rows_step, List.append_assoc, List.map_cons, List.singleton_append]

theorem along_inTime {turns : List (GearRow τ × ℤ)}
    (h : InTime (grouping.rows ++ turns.map Prod.fst)) :
    Run.Along step (fun grouping turn ↦ InTime (grouping.rows ++ [turn.1])) grouping turns := by
  induction turns generalizing grouping with
  | nil => trivial
  | cons turn turns ih =>
    rw [List.map_cons, ← List.singleton_append, ← List.append_assoc] at h
    refine ⟨(List.pairwise_append.mp h).1, ih ?_⟩
    rwa [rows_step]

/-- The trips of a run stay within their gaps exactly if every row is spared. -/
theorem allInGaps_foldl_iff {turns : List (GearRow τ × ℤ)} (htime : InTime (turns.map Prod.fst)) :
    (turns.foldl step start).AllInGaps ↔ Run.Along step Spared start turns := by
  rw [Run.final_iff_always (P := AllInGaps) fun grouping turn ↦ allInGaps_of_step]
  exact Run.always_iff_along_of_allowed (fun grouping turn (h : Holds grouping) ↦ holds_step h turn)
    (fun grouping turn h hgaps hturn ↦ allInGaps_step_iff h hgaps hturn) holds_start
    (fun trip htrip ↦ absurd htrip List.not_mem_nil) (along_inTime htime)

end Grouping

/-! ## The trips of a log -/

section Log

variable {dateParse : τ → Option ℤ} {changes : List (GearChange τ)} {now : ℤ}

/-- After everything was taken off long after the last change, nothing goes on with the trip that
was over. -/
def NothingReturns (dateParse : τ → Option ℤ) (changes : List (GearChange τ)) (now : ℤ) : Prop :=
  Run.Along Grouping.step Grouping.Spared Grouping.start (turns now (gearRows dateParse changes))

instance decidableNothingReturns (dateParse : τ → Option ℤ) (changes : List (GearChange τ))
    (now : ℤ) : Decidable (NothingReturns dateParse changes now) :=
  inferInstanceAs (Decidable (Run.Along Grouping.step Grouping.Spared Grouping.start
    (turns now (gearRows dateParse changes))))

/-- The changes have distinct times, as far as these can be read. -/
def DistinctTimes (dateParse : τ → Option ℤ) (changes : List (GearChange τ)) : Prop :=
  (changes.filterMap fun change ↦ dateParse change.changedAt).Nodup

instance decidableDistinctTimes (dateParse : τ → Option ℤ) (changes : List (GearChange τ)) :
    Decidable (DistinctTimes dateParse changes) :=
  inferInstanceAs (Decidable (changes.filterMap fun change ↦ dateParse change.changedAt).Nodup)

theorem map_fst_turns (rows : List (GearRow τ)) : (turns now rows).map Prod.fst = rows := by
  apply List.map_fst_zip
  rw [List.length_append, List.length_map, List.length_tail, List.length_singleton]
  omega

theorem dateParse_of_mem {row : GearRow τ} (hrow : row ∈ gearRows dateParse changes) :
    dateParse row.changedAt = some row.atMs := by
  obtain ⟨change, -, hread⟩ := List.mem_filterMap.mp ((List.mem_insertionSort _).mp hrow)
  obtain ⟨atMs, hparse, rfl⟩ := Option.map_eq_some_iff.mp hread
  exact hparse

theorem map_atMs_filterMap (changes : List (GearChange τ)) :
    (changes.filterMap (readRow dateParse)).map GearRow.atMs =
      changes.filterMap fun change ↦ dateParse change.changedAt := by
  rw [List.map_filterMap]
  apply List.filterMap_congr
  intro change hchange
  rw [readRow, Option.map_map]
  exact Option.map_id'

theorem nodup_gearRows (hdistinct : DistinctTimes dateParse changes) :
    ((gearRows dateParse changes).map GearRow.atMs).Nodup := by
  have hperm := (List.perm_insertionSort (fun a b : GearRow τ ↦ a.atMs ≤ b.atMs)
    (changes.filterMap (readRow dateParse))).map GearRow.atMs
  rw [map_atMs_filterMap] at hperm
  exact hperm.nodup_iff.mpr hdistinct

theorem sorted_gearRows (dateParse : τ → Option ℤ) (changes : List (GearChange τ)) :
    (gearRows dateParse changes).Pairwise fun a b ↦ a.atMs ≤ b.atMs := by
  have : Std.Total fun a b : GearRow τ ↦ a.atMs ≤ b.atMs := ⟨fun a b ↦ le_total a.atMs b.atMs⟩
  have : IsTrans (GearRow τ) fun a b ↦ a.atMs ≤ b.atMs := ⟨fun _ _ _ hab hbc ↦ hab.trans hbc⟩
  exact List.pairwise_insertionSort _ _

theorem inTime_gearRows (hdistinct : DistinctTimes dateParse changes) :
    InTime (gearRows dateParse changes) := by
  have hne := List.pairwise_map.mp (nodup_gearRows hdistinct)
  exact (sorted_gearRows dateParse changes).imp₂ (fun _ _ hle hne ↦ lt_of_le_of_ne hle hne) hne

/-- The order of the changes says nothing. -/
theorem gearRows_perm (hdistinct : DistinctTimes dateParse changes) {other : List (GearChange τ)}
    (hperm : other.Perm changes) : gearRows dateParse other = gearRows dateParse changes := by
  have hrows : (gearRows dateParse other).Perm (gearRows dateParse changes) :=
    ((List.perm_insertionSort _ _).trans (hperm.filterMap _)).trans (List.perm_insertionSort _ _).symm
  refine hrows.eq_of_pairwise (fun a b ha hb hab hba ↦ ?_) (sorted_gearRows dateParse other)
    (sorted_gearRows dateParse changes)
  exact List.inj_on_of_nodup_map (nodup_gearRows hdistinct) (hrows.mem_iff.mp ha) hb (le_antisymm hab hba)

/-- The last state of the loop. -/
def grouped (dateParse : τ → Option ℤ) (changes : List (GearChange τ)) (now : ℤ) : Grouping τ :=
  (turns now (gearRows dateParse changes)).foldl Grouping.step Grouping.start

theorem holds_grouped : (grouped dateParse changes now).Holds := by
  unfold grouped
  exact Run.foldl_of_step (P := Grouping.Holds) (fun _ turn h ↦ Grouping.holds_step h turn) _
    Grouping.holds_start

theorem rows_grouped (dateParse : τ → Option ℤ) (changes : List (GearChange τ)) (now : ℤ) :
    (grouped dateParse changes now).rows = gearRows dateParse changes := by
  rw [grouped, Grouping.rows_foldl, map_fst_turns]
  rfl

theorem mem_gearTrips {trip : Trip τ} :
    trip ∈ gearTrips dateParse changes now ↔ trip ∈ (grouped dateParse changes now).closed :=
  List.mem_reverse

/-- The changes of the trips, one trip after the other, are in the order of their times. -/
theorem inTime_counted (hdistinct : DistinctTimes dateParse changes) :
    InTime (grouped dateParse changes now).counted := by
  have hsorted := inTime_gearRows hdistinct
  rw [← rows_grouped dateParse changes now] at hsorted
  exact hsorted.sublist holds_grouped.sublist

theorem dateParse_of_counted {trip : Trip τ} (htrip : trip ∈ (grouped dateParse changes now).closed)
    {row : GearRow τ} (hrow : row ∈ trip.changes) : dateParse row.changedAt = some row.atMs := by
  have hmem : row ∈ gearRows dateParse changes := by
    rw [← rows_grouped dateParse changes now]
    exact holds_grouped.sublist.subset (List.mem_flatMap.mpr ⟨trip, htrip, hrow⟩)
  exact dateParse_of_mem hmem

/-- The first and the last change of a trip. -/
theorem exists_ends {trip : Trip τ} (htrip : trip ∈ (grouped dateParse changes now).closed) :
    ∃ first last, trip.changes.head? = some first ∧ trip.changes.getLast? = some last ∧
      dateParse trip.startedAt = some first.atMs ∧ dateParse trip.endedAt = some last.atMs := by
  obtain ⟨hstarted, hended⟩ := holds_grouped.spans trip htrip
  obtain ⟨first, hfirst, hstarted⟩ := Option.map_eq_some_iff.mp hstarted
  obtain ⟨last, hlast, hended⟩ := Option.map_eq_some_iff.mp hended
  refine ⟨first, last, hfirst, hlast, ?_, ?_⟩
  · rw [← hstarted]
    exact dateParse_of_counted htrip (List.mem_of_head? hfirst)
  · rw [← hended]
    exact dateParse_of_counted htrip (List.mem_of_getLast? hlast)

/-- All changes of a trip come before those of the trips after it. -/
theorem pairwise_closed (now : ℤ) (hdistinct : DistinctTimes dateParse changes) :
    (grouped dateParse changes now).closed.Pairwise fun older newer ↦
      ∀ a ∈ older.changes, ∀ b ∈ newer.changes, a.atMs < b.atMs :=
  (List.pairwise_flatMap.mp (inTime_counted hdistinct)).2

theorem inTime_changes (hdistinct : DistinctTimes dateParse changes) {trip : Trip τ}
    (htrip : trip ∈ (grouped dateParse changes now).closed) : InTime trip.changes :=
  (List.pairwise_flatMap.mp (inTime_counted hdistinct)).1 trip htrip

theorem eq_of_mem_changes (hdistinct : DistinctTimes dateParse changes) {trip other : Trip τ}
    (htrip : trip ∈ (grouped dateParse changes now).closed)
    (hother : other ∈ (grouped dateParse changes now).closed) {row : GearRow τ}
    (hrow : row ∈ trip.changes) (hrow' : row ∈ other.changes) : other = trip := by
  have hpairwise := List.pairwise_iff_getElem.mp (pairwise_closed now hdistinct)
  obtain ⟨i, hi, rfl⟩ := List.mem_iff_getElem.mp htrip
  obtain ⟨j, hj, rfl⟩ := List.mem_iff_getElem.mp hother
  obtain hlt | heq | hgt := Nat.lt_trichotomy i j
  · exact absurd (hpairwise i j hi hj hlt row hrow row hrow') (lt_irrefl _)
  · simp only [heq]
  · exact absurd (hpairwise j i hj hi hgt row hrow' row hrow) (lt_irrefl _)

/-- The changes of a trip lie between its first and its last one. -/
theorem between_of_mem (hdistinct : DistinctTimes dateParse changes) {trip : Trip τ}
    (htrip : trip ∈ (grouped dateParse changes now).closed) {first last row : GearRow τ}
    (hfirst : trip.changes.head? = some first) (hlast : trip.changes.getLast? = some last)
    (hrow : row ∈ trip.changes) : first.atMs ≤ row.atMs ∧ row.atMs ≤ last.atMs := by
  have htime := inTime_changes hdistinct htrip
  constructor
  · obtain ⟨rest, hrest⟩ := List.head?_eq_some_iff.mp hfirst
    rw [hrest] at htime hrow
    obtain rfl | hmem := List.mem_cons.mp hrow
    · exact le_rfl
    · exact (List.rel_of_pairwise_cons htime hmem).le
  · obtain ⟨before, hbefore⟩ := List.getLast?_eq_some_iff.mp hlast
    rw [hbefore] at htime hrow
    obtain hmem | hmem := List.mem_append.mp hrow
    · exact ((List.pairwise_append.mp htime).2.2 row hmem last (List.mem_singleton_self _)).le
    · exact (congrArg GearRow.atMs (List.mem_singleton.mp hmem)).le

/-- Within the gaps of a trip, no change comes after a moment 20 minutes from the last change
before it. -/
theorem le_of_inGaps {trip : Trip τ} (htime : InTime trip.changes) (hgaps : InGaps trip)
    {last row : GearRow τ} (hlast : last ∈ trip.changes) {moment : ℤ}
    (hmoment : tripGapMs ≤ moment - last.atMs)
    (hnone : ∀ row ∈ trip.changes, row.atMs < moment → row.atMs ≤ last.atMs)
    (hrow : row ∈ trip.changes) : row.atMs ≤ last.atMs := by
  obtain ⟨before, after, hchanges⟩ := List.append_of_mem hlast
  unfold InGaps at hgaps
  rw [hchanges] at htime hgaps hrow
  obtain ⟨-, hafter, hbefore⟩ := List.pairwise_append.mp htime
  cases after with
  | nil =>
    obtain hmem | hmem := List.mem_append.mp hrow
    · exact (hbefore row hmem last List.mem_cons_self).le
    · exact (congrArg GearRow.atMs (List.mem_singleton.mp hmem)).le
  | cons next after =>
    have hgap : next.atMs - last.atMs < tripGapMs :=
      (List.isChain_cons_cons.mp hgaps.right_of_append).1
    have hnext : last.atMs < next.atMs := List.rel_of_pairwise_cons hafter List.mem_cons_self
    have hle := hnone next (by simp [hchanges]) (by omega)
    omega

/-- A log with distinct times is partitioned into trips exactly if nothing goes on with a trip that
was over. -/
theorem tripsPartition_iff (hdistinct : DistinctTimes dateParse changes) :
    TripsPartition dateParse changes now ↔ NothingReturns dateParse changes now := by
  have hiff : (grouped dateParse changes now).AllInGaps ↔ NothingReturns dateParse changes now := by
    apply Grouping.allInGaps_foldl_iff
    rw [map_fst_turns]
    exact inTime_gearRows hdistinct
  rw [← hiff]
  constructor
  · exact fun h trip htrip ↦ h.inGaps trip (mem_gearTrips.mpr htrip)
  · intro hgaps
    refine ⟨?_, ?_, ?_, ?_, ?_, ?_⟩
    · intro other hperm
      unfold gearTrips
      rw [gearRows_perm hdistinct hperm]
    · refine List.pairwise_reverse.mpr ((pairwise_closed now hdistinct).imp_of_mem
        fun {older newer} holder hnewer hbefore ↦ ?_)
      obtain ⟨-, last, -, hlast, -, hended⟩ := exists_ends holder
      obtain ⟨first, -, hfirst, -, hstarted, -⟩ := exists_ends hnewer
      exact ⟨first.atMs, last.atMs, hstarted, hended,
        hbefore last (List.mem_of_getLast? hlast) first (List.mem_of_head? hfirst)⟩
    · intro trip htrip
      have htrip := mem_gearTrips.mp htrip
      obtain ⟨first, last, hfirst, hlast, hstarted, hended⟩ := exists_ends htrip
      refine ⟨first.atMs, last.atMs, hstarted, hended, ?_, fun row hrow ↦ ?_⟩
      · exact (between_of_mem hdistinct htrip hfirst hlast (List.mem_of_head? hfirst)).2
      · exact between_of_mem hdistinct htrip hfirst hlast hrow
    · intro row hrow hworn
      rw [← rows_grouped dateParse changes now] at hrow
      obtain ⟨trip, htrip, hmem⟩ := List.mem_flatMap.mp (holds_grouped.worn row hrow hworn)
      refine ⟨trip, mem_gearTrips.mpr htrip, hmem, holds_grouped.kits trip htrip row hmem, ?_⟩
      intro other hother hmem'
      exact eq_of_mem_changes hdistinct htrip (mem_gearTrips.mp hother) hmem hmem'
    · exact fun trip htrip ↦ hgaps trip (mem_gearTrips.mp htrip)
    · intro trip htrip last hlast empty hempty hset hlong hnone row hrow
      have htrip := mem_gearTrips.mp htrip
      have hle := le_of_inGaps (inTime_changes hdistinct htrip) (hgaps trip htrip) hlast hlong hnone hrow
      unfold tripGapMs at hlong
      omega

end Log

/-! ## Two logs -/

/-- Three items worn at a minute. -/
def wornAt (minute weapon : ℤ) : GearChange ℤ where
  changedAt := minute * 60000
  equipment := some [26382, 1, 28955, 1, 0, 0, weapon, 1]

def takenOffAt (minute : ℤ) : GearChange ℤ where
  changedAt := minute * 60000
  equipment := some [0, 0, 0, 0, 0, 0, 0, 0]

/-- The changes of two trips and an empty set between them, in the order of a log. -/
def twoTrips : List (GearChange ℤ) := [wornAt 95 22325, takenOffAt 60, wornAt 1 12926, wornAt 0 22325]

theorem tripsPartition_twoTrips : TripsPartition some twoTrips 6000000 :=
  (tripsPartition_iff (by decide +kernel)).mpr (by decide +kernel)

/-- The third change comes 90 minutes after the second, the last one ten minutes later. -/
def returning : List (GearChange ℤ) := [wornAt 0 22325, wornAt 1 12926, takenOffAt 90, wornAt 100 22325]

/-- The last change is counted to the trip that was over. -/
theorem not_tripsPartition_returning :
    DistinctTimes some returning ∧ ¬ TripsPartition some returning 6600000 := by
  refine ⟨by decide +kernel, fun h ↦ ?_⟩
  have hgaps := h.inGaps
  revert hgaps
  decide +kernel


end OsrsMap.Site
