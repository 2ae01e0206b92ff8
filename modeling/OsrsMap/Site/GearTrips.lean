import Mathlib.Data.List.Sort
import Mathlib.Data.Finset.Card

/-!
# Gear history as trips

`gearTrips` (`site/src/data/gear-trips.js`) groups the log of what a player wore into trips: runs of
changes less than 20 minutes apart with an outfit in common.

A set that is empty and comes 20 minutes or more after the change before it is left out, and with it
the trip before is meant to be over. The trip stays open all the same, and a change that follows the
empty set within 20 minutes is counted to it.
-/

namespace OsrsMap.Site

/-- `TRIP_GAP_MS`. -/
def tripGapMs : ℤ := 20 * 60000

/-- `TRIP_MIN_SHARED`. -/
def tripMinShared : ℕ := 2

/-- `SLOT_ORDER`. -/
def slotOrder : List ℕ := [0, 1, 2, 13, 3, 4, 5, 7, 9, 10, 12]

/-! ## Sets -/

structure WornItem where
  slot : ℕ
  id : ℤ
  quantity : ℤ
deriving DecidableEq, Repr

/-- The map from slots to what is worn there, in the order of the slots. -/
abbrev GearSet := List WornItem

def slotMapFrom (slot : ℕ) : List ℤ → GearSet
  | id :: quantity :: equipment =>
    if 0 < id then ⟨slot, id, quantity⟩ :: slotMapFrom (slot + 1) equipment
    else slotMapFrom (slot + 1) equipment
  | _ => []

/-- `slotMap`, of what is no array if there is none. -/
def slotMap : Option (List ℤ) → GearSet
  | none => []
  | some equipment => slotMapFrom 0 equipment

def sharedCount (set : GearSet) (ids : Finset ℤ) : ℕ := set.countP fun worn ↦ worn.id ∈ ids

/-- `setKey`, the slots and ids for their text: a set is in the order of its slots, so that two sets
have the same ones exactly when the sorted texts are the same. -/
def setKey (set : GearSet) : List (ℕ × ℤ) := set.map fun worn ↦ (worn.slot, worn.id)

def slotRank (slot : ℕ) : ℕ :=
  if slot ∈ slotOrder then slotOrder.idxOf slot else slotOrder.length + slot

/-! ## Changes -/

/-- A change of the log, with a time as it is written. -/
structure GearChange (τ : Type) where
  changedAt : τ
  equipment : Option (List ℤ)
deriving DecidableEq, Repr

structure GearRow (τ : Type) where
  atMs : ℤ
  changedAt : τ
  set : GearSet
deriving DecidableEq, Repr

variable {τ : Type}

/-- A change as a row, if its time can be read. -/
def readRow (dateParse : τ → Option ℤ) (change : GearChange τ) : Option (GearRow τ) :=
  (dateParse change.changedAt).map fun atMs ↦ ⟨atMs, change.changedAt, slotMap change.equipment⟩

/-- The changes that can be read, the oldest first. -/
def gearRows (dateParse : τ → Option ℤ) (changes : List (GearChange τ)) : List (GearRow τ) :=
  (changes.filterMap (readRow dateParse)).insertionSort fun a b ↦ a.atMs ≤ b.atMs

/-! ## Trips -/

/-- An item worn in a slot during a trip. -/
structure SlotEntry where
  id : ℤ
  quantity : ℤ
  ms : ℤ
  order : ℕ
deriving DecidableEq, Repr

/-- A trip under way. Not of the code: the changes counted to it. -/
structure OpenTrip (τ : Type) where
  startedAt : τ
  endedAt : τ
  swaps : ℕ
  ids : Finset ℤ
  setups : Finset (List (ℕ × ℤ))
  worn : List (ℕ × List SlotEntry)
  seen : ℕ
  changes : List (GearRow τ)

structure KitSlot where
  slot : ℕ
  items : List (ℤ × ℤ)
deriving DecidableEq, Repr

/-- A trip as it is returned. Not of the code: the changes counted to it. -/
structure Trip (τ : Type) where
  startedAt : τ
  endedAt : τ
  swaps : ℕ
  setups : ℕ
  kit : List KitSlot
  changes : List (GearRow τ)
deriving DecidableEq

/-- The items of a slot after one of them was worn for a time. -/
def wearEntry (worn : WornItem) (ms : ℤ) (order : ℕ) (items : List SlotEntry) : List SlotEntry :=
  if items.any fun entry ↦ entry.id = worn.id then
    items.map fun entry ↦ if entry.id = worn.id then { entry with ms := entry.ms + ms } else entry
  else items ++ [⟨worn.id, worn.quantity, ms, order⟩]

namespace OpenTrip

/-- `openTrip`, for its first change. -/
def start (row : GearRow τ) : OpenTrip τ where
  startedAt := row.changedAt
  endedAt := row.changedAt
  swaps := 0
  ids := ∅
  setups := ∅
  worn := []
  seen := 0
  changes := [row]

/-- One item of `wear`. -/
def wearItem (ms : ℤ) (trip : OpenTrip τ) (worn : WornItem) : OpenTrip τ :=
  let slots := if trip.worn.any fun slot ↦ slot.1 = worn.slot then trip.worn
    else trip.worn ++ [(worn.slot, [])]
  let bySlot := (slots.lookup worn.slot).getD []
  { trip with
    ids := insert worn.id trip.ids
    worn := slots.map fun slot ↦
      if slot.1 = worn.slot then (slot.1, wearEntry worn ms trip.seen slot.2) else slot
    seen := if bySlot.any fun entry ↦ entry.id = worn.id then trip.seen else trip.seen + 1 }

def wear (trip : OpenTrip τ) (set : GearSet) (ms : ℤ) : OpenTrip τ :=
  if set.isEmpty then trip
  else set.foldl (wearItem ms) { trip with setups := insert (setKey set) trip.setups }

/-- The longest worn first, then the first seen. -/
def comesFirst (a b : SlotEntry) : Prop := b.ms < a.ms ∨ (b.ms = a.ms ∧ a.order ≤ b.order)

instance decidableComesFirst (a b : SlotEntry) : Decidable (comesFirst a b) :=
  inferInstanceAs (Decidable (b.ms < a.ms ∨ (b.ms = a.ms ∧ a.order ≤ b.order)))

def close (trip : OpenTrip τ) : Trip τ where
  startedAt := trip.startedAt
  endedAt := trip.endedAt
  swaps := trip.swaps
  setups := trip.setups.card
  kit := (trip.worn.insertionSort fun a b ↦ slotRank a.1 ≤ slotRank b.1).map fun slot ↦
    ⟨slot.1, (slot.2.insertionSort comesFirst).map fun entry ↦ (entry.id, entry.quantity)⟩
  changes := trip.changes

/-- `newOutfit`: the set has too little in common with the trip. -/
def newOutfit (trip : OpenTrip τ) (row : GearRow τ) : Bool :=
  trip.ids.Nonempty ∧ tripMinShared < row.set.length ∧ sharedCount row.set trip.ids < tripMinShared

/-- A swap from the set worn before the trip: that set came along. -/
def carry (trip : OpenTrip τ) (previous : Option (GearRow τ)) (row : GearRow τ) : OpenTrip τ :=
  let set := (previous.map GearRow.set).getD []
  let before := (set.map WornItem.id).toFinset
  if before.Nonempty ∧ row.set ≠ [] ∧ tripMinShared ≤ sharedCount row.set before then
    { trip.wear set 0 with swaps := 1 }
  else trip

/-- Another change of the trip. -/
def swap (trip : OpenTrip τ) (row : GearRow τ) : OpenTrip τ :=
  { trip with
    swaps := trip.swaps + 1
    endedAt := row.changedAt
    changes := trip.changes ++ [row] }

end OpenTrip

/-! ## The loop -/

/-- A row that comes `TRIP_GAP_MS` or more after the one before it. -/
def afterGap (previous : Option (GearRow τ)) (row : GearRow τ) : Bool :=
  previous.any fun previous ↦ tripGapMs ≤ row.atMs - previous.atMs

/-- The trips so far. Not of the code: the rows so far. -/
structure Grouping (τ : Type) where
  trips : List (Trip τ)
  trip : Option (OpenTrip τ)
  previous : Option (GearRow τ)
  rows : List (GearRow τ)

namespace Grouping

def start : Grouping τ := ⟨[], none, none, []⟩

/-- The trips with the one under way. -/
def closed (grouping : Grouping τ) : List (Trip τ) :=
  grouping.trips ++ (grouping.trip.map OpenTrip.close).toList

/-- The row starts a trip. -/
def openTrip (grouping : Grouping τ) (row : GearRow τ) (ms : ℤ) : Grouping τ where
  trips := grouping.closed
  trip := some (((OpenTrip.start row).carry grouping.previous row).wear row.set ms)
  previous := some row
  rows := grouping.rows ++ [row]

/-- The row goes with no trip. -/
def leave (grouping : Grouping τ) (row : GearRow τ) : Grouping τ :=
  { grouping with previous := some row, rows := grouping.rows ++ [row] }

/-- The row goes with the trip under way. -/
def count (grouping : Grouping τ) (trip : OpenTrip τ) (row : GearRow τ) (ms : ℤ) : Grouping τ :=
  { grouping with
    trip := some ((trip.swap row).wear row.set ms)
    previous := some row
    rows := grouping.rows ++ [row] }

/-- One row, and when the next one comes. -/
def step (grouping : Grouping τ) (turn : GearRow τ × ℤ) : Grouping τ :=
  let row := turn.1
  let ms := max 0 (min (turn.2 - row.atMs) tripGapMs)
  if afterGap grouping.previous row ∧ row.set = [] then
    grouping.leave row
  else
    match grouping.trip with
    | none => grouping.openTrip row ms
    | some trip =>
      if afterGap grouping.previous row ∨ trip.newOutfit row then grouping.openTrip row ms
      else grouping.count trip row ms

end Grouping

/-- The rows, each with the time of the next one, the last with now. -/
def turns (now : ℤ) (rows : List (GearRow τ)) : List (GearRow τ × ℤ) :=
  rows.zip (rows.tail.map GearRow.atMs ++ [now])

/-- `gearTrips`. -/
def gearTrips (dateParse : τ → Option ℤ) (changes : List (GearChange τ)) (now : ℤ) : List (Trip τ) :=
  ((turns now (gearRows dateParse changes)).foldl Grouping.step Grouping.start).closed.reverse

/-! ## What is worn -/

/-- The kit has an item in a slot. -/
def Trip.Has (trip : Trip τ) (worn : WornItem) : Prop :=
  ∃ slot ∈ trip.kit, slot.slot = worn.slot ∧ ∃ item ∈ slot.items, item.1 = worn.id

namespace OpenTrip

/-- The trip has an item in a slot. -/
def Has (trip : OpenTrip τ) (worn : WornItem) : Prop :=
  ∃ slot ∈ trip.worn, slot.1 = worn.slot ∧ ∃ entry ∈ slot.2, entry.id = worn.id

variable {trip : OpenTrip τ} {ms : ℤ} {worn other : WornItem} {set : GearSet}
  {previous : Option (GearRow τ)} {row : GearRow τ}

theorem has_close_iff : trip.close.Has worn ↔ trip.Has worn := by
  unfold Trip.Has Has close
  constructor
  · rintro ⟨slot, hslot, hworn, item, hitem, hid⟩
    obtain ⟨open', hopen, rfl⟩ := List.mem_map.mp hslot
    obtain ⟨entry, hentry, rfl⟩ := List.mem_map.mp hitem
    exact ⟨open', (List.mem_insertionSort _).mp hopen, hworn, entry,
      (List.mem_insertionSort _).mp hentry, hid⟩
  · rintro ⟨slot, hslot, hworn, entry, hentry, hid⟩
    refine ⟨_, List.mem_map.mpr ⟨slot, (List.mem_insertionSort _).mpr hslot, rfl⟩, hworn, ?_⟩
    exact ⟨_, List.mem_map.mpr ⟨entry, (List.mem_insertionSort _).mpr hentry, rfl⟩, hid⟩

theorem exists_wearEntry (order : ℕ) (items : List SlotEntry) :
    ∃ entry ∈ wearEntry worn ms order items, entry.id = worn.id := by
  unfold wearEntry
  split
  · next hany =>
    obtain ⟨entry, hentry, hid⟩ := List.any_eq_true.mp hany
    have hid : entry.id = worn.id := by simpa using hid
    exact ⟨_, List.mem_map.mpr ⟨entry, hentry, if_pos hid⟩, hid⟩
  · exact ⟨_, List.mem_append_right _ (List.mem_singleton_self _), rfl⟩

theorem wearEntry_keeps (worn : WornItem) (ms : ℤ) (order : ℕ) {items : List SlotEntry} {entry : SlotEntry}
    (hentry : entry ∈ items) : ∃ kept ∈ wearEntry worn ms order items, kept.id = entry.id := by
  unfold wearEntry
  split
  · refine ⟨_, List.mem_map.mpr ⟨entry, hentry, rfl⟩, ?_⟩
    split <;> rfl
  · exact ⟨entry, List.mem_append_left _ hentry, rfl⟩

theorem has_wearItem (trip : OpenTrip τ) (ms : ℤ) (worn : WornItem) :
    (trip.wearItem ms worn).Has worn := by
  unfold wearItem Has
  dsimp only
  have hslot : ∃ slot ∈ (if trip.worn.any fun slot ↦ slot.1 = worn.slot then trip.worn
      else trip.worn ++ [(worn.slot, [])]), slot.1 = worn.slot := by
    split
    · next hany => simpa using List.any_eq_true.mp hany
    · exact ⟨_, List.mem_append_right _ (List.mem_singleton_self _), rfl⟩
  obtain ⟨slot, hslot, hworn⟩ := hslot
  exact ⟨_, List.mem_map.mpr ⟨slot, hslot, if_pos hworn⟩, hworn, exists_wearEntry _ _⟩

theorem Has.wearItem (h : trip.Has other) (ms : ℤ) (worn : WornItem) :
    (trip.wearItem ms worn).Has other := by
  obtain ⟨slot, hslot, hother, entry, hentry, hid⟩ := h
  unfold OpenTrip.wearItem Has
  dsimp only
  have hslot : slot ∈ (if trip.worn.any fun slot ↦ slot.1 = worn.slot then trip.worn
      else trip.worn ++ [(worn.slot, [])]) := by
    split
    · exact hslot
    · exact List.mem_append_left _ hslot
  refine ⟨_, List.mem_map.mpr ⟨slot, hslot, rfl⟩, ?_⟩
  split
  · obtain ⟨kept, hkept, hsame⟩ := wearEntry_keeps worn ms trip.seen hentry
    exact ⟨hother, kept, hkept, hsame.trans hid⟩
  · exact ⟨hother, entry, hentry, hid⟩

theorem Has.foldl (h : trip.Has other) (ms : ℤ) (set : GearSet) :
    (set.foldl (OpenTrip.wearItem ms) trip).Has other := by
  induction set generalizing trip with
  | nil => exact h
  | cons worn set ih => exact ih (h.wearItem ms worn)

theorem has_foldl (trip : OpenTrip τ) (ms : ℤ) (hworn : worn ∈ set) :
    (set.foldl (wearItem ms) trip).Has worn := by
  induction set generalizing trip with
  | nil => cases hworn
  | cons first set ih =>
    obtain rfl | hworn := List.mem_cons.mp hworn
    · exact (has_wearItem trip ms worn).foldl ms set
    · exact ih (trip.wearItem ms first) hworn

theorem Has.wear (h : trip.Has other) (set : GearSet) (ms : ℤ) : (trip.wear set ms).Has other := by
  unfold OpenTrip.wear
  split
  · exact h
  · have hsetups : Has { trip with setups := insert (setKey set) trip.setups } other := h
    exact hsetups.foldl ms set

theorem has_wear (trip : OpenTrip τ) (ms : ℤ) (hworn : worn ∈ set) : (trip.wear set ms).Has worn := by
  unfold wear
  rw [if_neg (by simpa using List.ne_nil_of_mem hworn)]
  exact has_foldl _ ms hworn

/-! ## The changes of a trip -/

/-- What wearing leaves as it is. -/
def frame (trip : OpenTrip τ) : τ × τ × List (GearRow τ) :=
  (trip.startedAt, trip.endedAt, trip.changes)

theorem frame_foldl (trip : OpenTrip τ) : (set.foldl (wearItem ms) trip).frame = trip.frame := by
  induction set generalizing trip with
  | nil => rfl
  | cons worn set ih => exact ih (wearItem ms trip worn)

theorem frame_wear (trip : OpenTrip τ) : (trip.wear set ms).frame = trip.frame := by
  unfold wear
  split
  · rfl
  · exact frame_foldl _

theorem frame_carry (trip : OpenTrip τ) : (trip.carry previous row).frame = trip.frame := by
  unfold carry
  dsimp only
  split
  · exact frame_wear trip
  · rfl

theorem frame_start : (((start row).carry previous row).wear set ms).frame =
    (row.changedAt, row.changedAt, [row]) := by
  rw [frame_wear, frame_carry]
  rfl

end OpenTrip

end OsrsMap.Site
