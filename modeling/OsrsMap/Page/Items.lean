import OsrsMap.Library.Ordered
import OsrsMap.Page.GuildData
import OsrsMap.Sync.Arrays

/-!
# The items on the page

What becomes of the items of a report on their way to the page: they go into an array of slots (`inventory`,
`equipment`), the page reads the array in pairs (`transformItemsFromStorage`), takes those it has details of
(`Item.parseItemData`, `site/src/data/item.js`) and counts them (`MemberData.updateItemQuantitiesIn`,
`site/src/data/member-data.js`).
-/

namespace OsrsMap.Page

open Sync (HubItem clampI32 placeItem itemWrite itemWrites inventorySlots equipmentSlots)
open Writes (flat writeAll lastTo)

/-- An item on the page; a quantity that the array is too short for is undefined. -/
structure Item where
  id : ℤ
  quantity : Option ℤ
deriving DecidableEq, Repr

/-- `new Item(0, 0)`. -/
def Item.none : Item := ⟨0, some 0⟩

def Item.isValid (item : Item) : Bool := 0 < item.id

/-- Items without details are shown as empty slots. -/
def parseItemData (itemDetails : ℤ → Bool) (data : List (ℤ × Option ℤ)) : List Item :=
  data.map fun (id, quantity) ↦
    if id ≤ 0 then .none else if itemDetails id = false then .none else ⟨id, quantity⟩

/-- `(quantities.get(id) || 0) + quantity`, where none is NaN. -/
def addQuantity (before : Option (Option ℤ)) (quantity : Option ℤ) : Option ℤ :=
  quantity.map ((before.getD Option.none).getD 0 + ·)

/-- `updateItemQuantitiesIn`: how many of each item there are. -/
def itemQuantities (items : List Item) : OrderedMap ℤ (Option ℤ) :=
  items.foldl
    (fun quantities item ↦
      if item.isValid then quantities.set item.id (addQuantity (quantities.get item.id) item.quantity)
      else quantities)
    .empty

/-- `inventoryQuantityForItem`, of one kind of inventory. -/
def quantityForItem (quantities : OrderedMap ℤ (Option ℤ)) (id : ℤ) : ℤ :=
  ((quantities.get id).getD Option.none).getD 0

/-- The items of an array. -/
def itemsOf (itemDetails : ℤ → Bool) (array : List ℤ) : List Item :=
  parseItemData itemDetails (transformItemsFromStorage array)

/-! ## Slot by slot -/

/-- The last item that was put into a slot. -/
def lastIn (slot : ℕ) (placed : List (Option ℕ × HubItem)) : Option HubItem :=
  (placed.reverse.find? fun entry ↦ entry.1 = some slot ∧ 0 < entry.2.id).map Prod.snd

/-- An item of the hub as it is shown. -/
def shownItem (itemDetails : ℤ → Bool) (item : HubItem) : Item :=
  if itemDetails item.id then ⟨item.id, some (clampI32 item.quantity)⟩ else .none

variable {itemDetails : ℤ → Bool} {slots : ℕ} {placed : List (Option ℕ × HubItem)}

theorem transformItemsFromStorage_flat (pairs : List (ℤ × ℤ)) :
    transformItemsFromStorage (flat pairs) = pairs.map fun pair ↦ (pair.1, some pair.2) := by
  induction pairs with
  | nil => rfl
  | cons pair pairs ih => rw [Writes.flat_cons, transformItemsFromStorage, ih, List.map_cons]

theorem lastTo_itemWrites {slot : ℕ} (hslot : slot < slots) : lastTo slot (itemWrites slots placed) =
    (lastIn slot placed).map fun item ↦ (item.id, clampI32 item.quantity) := by
  have hsame (entry : Option ℕ × HubItem) :
      ((itemWrite slots entry).any fun write ↦ write.1 = slot) =
        decide (entry.1 = some slot ∧ 0 < entry.2.id) := by
    obtain ⟨place, item⟩ := entry
    cases place with
    | none => simp [itemWrite]
    | some place =>
      rw [itemWrite]
      by_cases hplace : place = slot
      · obtain rfl := hplace
        by_cases hid : 0 < item.id <;> simp [hslot, hid]
      · split_ifs <;> simp [hplace]
  unfold lastTo itemWrites lastIn
  rw [← List.filterMap_reverse, List.find?_filterMap, funext hsame]
  cases hfind : placed.reverse.find? fun entry ↦ decide (entry.1 = some slot ∧ 0 < entry.2.id) with
  | none => rfl
  | some entry =>
    obtain ⟨place, item⟩ := entry
    obtain ⟨rfl, hid⟩ : place = some slot ∧ 0 < item.id := by simpa using List.find?_some hfind
    simp [itemWrite, hslot, hid]

/-- Every slot shows the item that was put into it last, when the page has details of it. -/
theorem itemsOf_flat : itemsOf itemDetails (flat (writeAll (List.replicate slots (0, 0)) (itemWrites slots placed))) =
    (List.range slots).map fun slot ↦ (lastIn slot placed).elim .none (shownItem itemDetails) := by
  rw [itemsOf, transformItemsFromStorage_flat, parseItemData, List.map_map]
  apply List.ext_getElem?
  intro slot
  rw [List.getElem?_map, List.getElem?_map, Writes.getElem?_writeAll]
  by_cases hslot : slot < slots
  · rw [List.getElem?_replicate, if_pos hslot, List.getElem?_range hslot, lastTo_itemWrites hslot]
    cases hlast : lastIn slot placed with
    | none => simp [hlast]
    | some item =>
      obtain ⟨entry, hfind, rfl⟩ := Option.map_eq_some_iff.mp hlast
      obtain ⟨-, hid⟩ : entry.1 = some slot ∧ 0 < entry.2.id := by simpa using List.find?_some hfind
      cases hknown : itemDetails entry.2.id <;> simp [hlast, shownItem, hknown, not_le.mpr hid]
  · have hnone : (List.range slots)[slot]? = none := by simpa using hslot
    rw [List.getElem?_replicate, if_neg hslot, hnone]
    rfl

/-- The page has the 28 slots of the inventory and the 14 of the equipment, each with what the report last put
into it. -/
theorem itemsOf_report (itemDetails : ℤ → Bool) (items : List HubItem) :
    itemsOf itemDetails (Sync.inventory items) =
        (List.range 28).map (fun slot ↦
          (lastIn slot (inventorySlots items)).elim .none (shownItem itemDetails)) ∧
      itemsOf itemDetails (Sync.equipment items) =
        (List.range 14).map fun slot ↦
          (lastIn slot (equipmentSlots items)).elim .none (shownItem itemDetails) := by
  rw [Sync.inventory_eq, Sync.equipment_eq]
  exact ⟨itemsOf_flat, itemsOf_flat⟩

/-! ## Quantities -/

/-- What an item counts for. -/
def Item.counts (id : ℤ) (item : Item) : ℤ := if item.isValid ∧ item.id = id then item.quantity.getD 0 else 0

theorem quantityForItem_set (quantities : OrderedMap ℤ (Option ℤ)) (id other quantity : ℤ) :
    quantityForItem (quantities.set other (addQuantity (quantities.get other) (some quantity))) id =
      quantityForItem quantities id + if other = id then quantity else 0 := by
  unfold quantityForItem
  rw [OrderedMap.get_set]
  by_cases h : id = other
  · obtain rfl := h
    simp [addQuantity]
  · simp [h, Ne.symm h]

/-- Every item is counted once. -/
theorem quantityForItem_itemQuantities {items : List Item} (h : ∀ item ∈ items, item.quantity.isSome) (id : ℤ) :
    quantityForItem (itemQuantities items) id = (items.map (Item.counts id)).sum := by
  have hcount (quantities : OrderedMap ℤ (Option ℤ)) :
      quantityForItem (items.foldl (fun quantities item ↦
        if item.isValid then quantities.set item.id (addQuantity (quantities.get item.id) item.quantity)
        else quantities) quantities) id =
        quantityForItem quantities id + (items.map (Item.counts id)).sum := by
    induction items generalizing quantities with
    | nil => simp
    | cons item items ih =>
      obtain ⟨quantity, hquantity⟩ := Option.isSome_iff_exists.mp (h item List.mem_cons_self)
      rw [List.foldl_cons, ih fun later hlater ↦ h later (List.mem_cons_of_mem _ hlater), List.map_cons,
        List.sum_cons, ← add_assoc, Item.counts, hquantity]
      congr 1
      by_cases hvalid : item.isValid
      · rw [if_pos hvalid, quantityForItem_set]
        simp [hvalid]
      · simp [hvalid]
  rw [itemQuantities, hcount]
  simp [quantityForItem, OrderedMap.get_empty]

/-- Every item of a report has a slot of its own. -/
structure Placed (slots : ℕ) (placed : List (Option ℕ × HubItem)) : Prop where
  slot : ∀ entry ∈ placed, 0 < entry.2.id → ∃ slot < slots, entry.1 = some slot
  distinct : ((placed.filter (0 < ·.2.id)).map Prod.fst).Nodup

instance decidablePlaced (slots : ℕ) (placed : List (Option ℕ × HubItem)) : Decidable (Placed slots placed) :=
  decidable_of_iff
    ((∀ entry ∈ placed, 0 < entry.2.id → entry.1.any (· < slots)) ∧
      ((placed.filter (0 < ·.2.id)).map Prod.fst).Nodup)
    ⟨fun h ↦ ⟨fun entry hentry hid ↦ by
        obtain ⟨slot, hslot, hlt⟩ := (Option.any_eq_true _ _).mp (h.1 entry hentry hid)
        exact ⟨slot, by simpa using hlt, hslot⟩, h.2⟩,
      fun h ↦ ⟨fun entry hentry hid ↦ by
        obtain ⟨slot, hlt, hslot⟩ := h.slot entry hentry hid
        simpa [hslot] using hlt, h.distinct⟩⟩

/-- Then every item is written. -/
theorem itemWrites_of_placed (h : Placed slots placed) : itemWrites slots placed =
    (placed.filter (0 < ·.2.id)).map fun entry ↦ (entry.1.getD 0, entry.2.id, clampI32 entry.2.quantity) := by
  have hslot := h.slot
  clear h
  induction placed with
  | nil => rfl
  | cons entry placed ih =>
    obtain ⟨place, item⟩ := entry
    have hrest := ih fun later hlater ↦ hslot later (List.mem_cons_of_mem _ hlater)
    by_cases hid : 0 < item.id
    · obtain ⟨slot, hlt, rfl : place = some slot⟩ := hslot _ List.mem_cons_self hid
      have hwrite : itemWrite slots (some slot, item) = some (slot, item.id, clampI32 item.quantity) :=
        if_pos ⟨hlt, hid⟩
      rw [itemWrites, List.filterMap_cons_some hwrite, List.filter_cons_of_pos (by simpa using hid), List.map_cons,
        ← hrest]
      rfl
    · have hwrite : itemWrite slots (place, item) = none := by
        cases place with
        | none => rfl
        | some slot => exact if_neg fun hplaced ↦ hid hplaced.2
      rw [itemWrites, List.filterMap_cons_none hwrite, List.filter_cons_of_neg (by simpa using hid), ← hrest]
      rfl

theorem nodup_itemWrites (h : Placed slots placed) : ((itemWrites slots placed).map Prod.fst).Nodup := by
  rw [itemWrites_of_placed h, List.map_map]
  refine List.Nodup.of_map some ?_
  rw [List.map_map]
  convert h.distinct using 1
  apply List.map_congr_left
  intro entry hentry
  obtain ⟨hmem, hid⟩ := List.mem_filter.mp hentry
  obtain ⟨slot, -, hslot⟩ := h.slot entry hmem (by simpa using hid)
  simp [hslot]

theorem lt_of_mem_itemWrites {write : ℕ × ℤ × ℤ} (h : write ∈ itemWrites slots placed) : write.1 < slots := by
  obtain ⟨⟨place, item⟩, -, hwrite⟩ := List.mem_filterMap.mp h
  cases place with
  | none => cases hwrite
  | some slot =>
    rw [itemWrite] at hwrite
    split_ifs at hwrite with hslot
    obtain rfl := (Option.some.inj hwrite).symm
    exact hslot.1

/-- An item that is counted has an id, so it was written. -/
theorem sum_placed {id : ℤ} (hid : 0 < id) (placed : List (Option ℕ × HubItem)) :
    ((placed.filter (0 < ·.2.id)).map
      ((fun write : ℕ × ℤ × ℤ ↦ if write.2.1 = id then write.2.2 else 0) ∘
        fun entry ↦ (entry.1.getD 0, entry.2.id, clampI32 entry.2.quantity))).sum =
      ((placed.filter (·.2.id = id)).map fun entry ↦ clampI32 entry.2.quantity).sum := by
  induction placed with
  | nil => rfl
  | cons entry placed ih =>
    by_cases hsame : entry.2.id = id
    · rw [List.filter_cons_of_pos (by simpa [hsame] using hid), List.filter_cons_of_pos (by simpa using hsame),
        List.map_cons, List.sum_cons, ih, List.map_cons, List.sum_cons]
      simp [hsame]
    · rw [List.filter_cons_of_neg (p := fun entry : Option ℕ × HubItem ↦ decide (entry.2.id = id))
        (by simpa using hsame), ← ih]
      by_cases hpos : 0 < entry.2.id
      · rw [List.filter_cons_of_pos (by simpa using hpos)]
        simp [hsame]
      · rw [List.filter_cons_of_neg (by simpa using hpos)]

theorem quantityForItem_placed (h : Placed slots placed) {id : ℤ} (hid : 0 < id)
    (hknown : itemDetails id = true) :
    quantityForItem (itemQuantities
        (itemsOf itemDetails (flat (writeAll (List.replicate slots (0, 0)) (itemWrites slots placed))))) id =
      ((placed.filter (·.2.id = id)).map fun entry ↦ clampI32 entry.2.quantity).sum := by
  let weight (pair : ℤ × ℤ) : ℤ := if pair.1 = id then pair.2 else 0
  have hitems (pairs : List (ℤ × ℤ)) :
      quantityForItem (itemQuantities (itemsOf itemDetails (flat pairs))) id = (pairs.map weight).sum := by
    rw [quantityForItem_itemQuantities, itemsOf, transformItemsFromStorage_flat, parseItemData, List.map_map,
      List.map_map]
    · congr 1
      apply List.map_congr_left
      intro pair _
      dsimp only [Function.comp_apply, weight]
      by_cases hsame : pair.1 = id
      · simp [hsame, hknown, hid, not_le.mpr hid, Item.counts, Item.isValid]
      · split_ifs <;> simp [hsame, Item.counts, Item.isValid, Item.none]
    · intro item hitem
      rw [itemsOf, transformItemsFromStorage_flat, parseItemData, List.map_map] at hitem
      obtain ⟨pair, -, rfl⟩ := List.mem_map.mp hitem
      dsimp only [Function.comp_apply]
      split_ifs <;> rfl
  rw [hitems, Writes.sum_writeAll (nodup_itemWrites h), itemWrites_of_placed h]
  · have hempty : ((List.replicate slots ((0 : ℤ), (0 : ℤ))).map weight).sum = 0 := by
      simp [weight, hid.ne]
    rw [hempty, zero_add, List.map_map]
    exact sum_placed hid placed
  · intro write hwrite
    have hlt := lt_of_mem_itemWrites hwrite
    exact ⟨(0, 0), by rw [List.getElem?_replicate, if_pos hlt], by simp [weight]⟩

/-- Items that come without slots have one each, as long as they are no more than the slots. -/
theorem placed_inventorySlots {items : List HubItem} (hslots : Sync.hasSlots items = false)
    (hfit : items.length ≤ 28) : Placed 28 (inventorySlots items) := by
  have heq : inventorySlots items = items.zipIdx.map fun entry ↦ (some entry.2, entry.1) := by
    simp [inventorySlots, hslots]
  constructor
  · intro entry hentry _
    rw [heq] at hentry
    obtain ⟨⟨item, index⟩, hmem, rfl⟩ := List.mem_map.mp hentry
    have hlt := List.snd_lt_of_mem_zipIdx hmem
    exact ⟨index, by omega, rfl⟩
  · refine (List.filter_sublist.map Prod.fst).nodup ?_
    rw [heq, List.map_map]
    have hindex : items.zipIdx.map (Prod.fst ∘ fun entry ↦ (some entry.2, entry.1)) =
        (items.zipIdx.map Prod.snd).map some := by
      rw [List.map_map]
      rfl
    rw [hindex, List.zipIdx_map_snd]
    exact List.Nodup.map (Option.some_injective ℕ) List.nodup_range'

/-- When every item of a report has a slot of its own, the page counts of each kind what the report has of
it: nothing is lost on the way and nothing is there twice. -/
theorem quantityForItem_report (items : List HubItem) {id : ℤ} (hid : 0 < id) (hknown : itemDetails id = true) :
    (Placed 28 (inventorySlots items) →
      quantityForItem (itemQuantities (itemsOf itemDetails (Sync.inventory items))) id =
        ((items.filter (·.id = id)).map (clampI32 ·.quantity)).sum) ∧
      (Placed 14 (equipmentSlots items) →
        quantityForItem (itemQuantities (itemsOf itemDetails (Sync.equipment items))) id =
          ((items.filter (·.id = id)).map (clampI32 ·.quantity)).sum) := by
  have hsnd : (inventorySlots items).map Prod.snd = items := by
    rw [inventorySlots, List.map_map]
    exact List.zipIdx_map_fst 0 items
  have hsnd' : (equipmentSlots items).map Prod.snd = items := by
    rw [equipmentSlots, List.map_map]
    exact items.map_id
  have hall (placed : List (Option ℕ × HubItem)) (heq : placed.map Prod.snd = items) :
      ((placed.filter (·.2.id = id)).map fun entry ↦ clampI32 entry.2.quantity).sum =
        ((items.filter (·.id = id)).map (clampI32 ·.quantity)).sum := by
    rw [← heq, List.filter_map, List.map_map]
    rfl
  rw [Sync.inventory_eq, Sync.equipment_eq]
  exact ⟨fun h ↦ (quantityForItem_placed h hid hknown).trans (hall _ hsnd),
    fun h ↦ (quantityForItem_placed h hid hknown).trans (hall _ hsnd')⟩

/-- Twice the same item in two slots, and one that the page has no details of. -/
def threeItems : List HubItem := [⟨995, 2 ^ 40, none, none⟩, ⟨4151, 1, none, none⟩, ⟨995, 5, none, none⟩]

theorem quantityForItem_threeItems :
    quantityForItem (itemQuantities (itemsOf (· ≠ 4151) (Sync.inventory threeItems))) 995 = 2 ^ 31 + 4 :=
  ((quantityForItem_report threeItems (by decide) rfl).1 (placed_inventorySlots rfl (by decide))).trans (by decide)

end OsrsMap.Page
