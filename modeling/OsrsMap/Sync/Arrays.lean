import OsrsMap.Library.Writes
import OsrsMap.Hub.XpSeries

/-!
# The arrays of a report

`skills`, `inventory` and `equipment` (`server/src/hub/convert.rs`): what the hub says of an account's XP
and items, as the flat arrays that the site reads. An item goes to its slot, a skill to its place in the
order of the skills; a later item or skill in the same place replaces an earlier one.
-/

namespace OsrsMap.Sync

open Writes (flat writeAll)
open Hub (skillOrder skillIndex)

structure HubSkill where
  skill : String
  xp : Option ℤ
deriving DecidableEq, Repr

structure HubItem where
  id : ℤ
  quantity : ℤ
  equipmentSlot : Option String
  inventorySlot : Option ℕ
deriving DecidableEq, Repr

def clampI32 (value : ℤ) : ℤ := max 0 (min value (2 ^ 31 - 1))

/-- Maps a RuneLite `EquipmentInventorySlot` name to its index in the 14-slot equipment array the site
expects. -/
def equipmentSlotIndex : String → Option ℕ
  | "HEAD" => some 0
  | "CAPE" => some 1
  | "AMULET" => some 2
  | "WEAPON" => some 3
  | "BODY" => some 4
  | "SHIELD" => some 5
  | "LEGS" => some 7
  | "GLOVES" => some 9
  | "BOOTS" => some 10
  | "RING" => some 12
  | "AMMO" => some 13
  | _ => none

/-- The XP of every skill, in the order of `SKILL_ORDER`. -/
def skills (lines : List HubSkill) : List ℤ :=
  lines.foldl
    (fun xp line ↦
      match skillIndex line.skill, line.xp with
      | some index, some value => xp.set index (clampI32 value)
      | _, _ => xp)
    (List.replicate skillOrder.length 0)

/-- An item at its slot, when it has one of the array's: its id, and next to it its quantity. -/
def placeItem (slots : ℕ) (flat : List ℤ) (placed : Option ℕ × HubItem) : List ℤ :=
  match placed with
  | (none, _) => flat
  | (some slot, item) =>
    if slot < slots ∧ 0 < item.id then
      (flat.set (slot * 2) item.id).set (slot * 2 + 1) (clampI32 item.quantity)
    else flat

/-- Whether the hub says in which slots the items are (plugin 1.5.1 and later). -/
def hasSlots (items : List HubItem) : Bool := items.any (·.inventorySlot.isSome)

/-- The items with their slots: the ones they were sent with, otherwise the order in which they were sent. -/
def inventorySlots (items : List HubItem) : List (Option ℕ × HubItem) :=
  items.zipIdx.map fun (item, index) ↦ (if hasSlots items then item.inventorySlot else some index, item)

def equipmentSlots (items : List HubItem) : List (Option ℕ × HubItem) :=
  items.map fun item ↦ (item.equipmentSlot.bind equipmentSlotIndex, item)

/-- 28 inventory slots as id/quantity pairs. -/
def inventory (items : List HubItem) : List ℤ :=
  (inventorySlots items).foldl (placeItem 28) (List.replicate 56 0)

/-- 14 equipment slots as id/quantity pairs, placed by slot name. -/
def equipment (items : List HubItem) : List ℤ :=
  (equipmentSlots items).foldl (placeItem 14) (List.replicate 28 0)

/-! ## As writes to places -/

/-- What a skill's line writes. -/
def HubSkill.write (line : HubSkill) : Option (ℕ × ℤ) :=
  match skillIndex line.skill, line.xp with
  | some index, some value => some (index, clampI32 value)
  | _, _ => none

theorem skills_eq (lines : List HubSkill) :
    skills lines = writeAll (List.replicate skillOrder.length 0) (lines.filterMap HubSkill.write) := by
  rw [← Writes.foldl_write, skills]
  congr 1
  funext xp line
  unfold HubSkill.write
  cases skillIndex line.skill <;> cases line.xp <;> rfl

/-- What an item writes to its slot: its id and its quantity. -/
def itemWrite (slots : ℕ) : Option ℕ × HubItem → Option (ℕ × ℤ × ℤ)
  | (none, _) => none
  | (some slot, item) =>
    if slot < slots ∧ 0 < item.id then some (slot, item.id, clampI32 item.quantity) else none

/-- The writes of items, in their order. -/
def itemWrites (slots : ℕ) (placed : List (Option ℕ × HubItem)) : List (ℕ × ℤ × ℤ) :=
  placed.filterMap (itemWrite slots)

theorem foldl_placeItem (slots : ℕ) (placed : List (Option ℕ × HubItem)) (pairs : List (ℤ × ℤ)) :
    placed.foldl (placeItem slots) (flat pairs) = flat (writeAll pairs (itemWrites slots placed)) := by
  induction placed generalizing pairs with
  | nil => rfl
  | cons first placed ih =>
    obtain ⟨slot, item⟩ := first
    rw [List.foldl_cons]
    cases slot with
    | none => exact ih pairs
    | some slot =>
      by_cases h : slot < slots ∧ 0 < item.id
      · have hwrite : itemWrite slots (some slot, item) = some (slot, item.id, clampI32 item.quantity) :=
          if_pos h
        rw [placeItem, if_pos h, ← Writes.flat_set pairs slot (item.id, clampI32 item.quantity), ih, itemWrites,
          itemWrites, List.filterMap_cons_some hwrite, Writes.writeAll_cons]
      · have hwrite : itemWrite slots (some slot, item) = none := if_neg h
        rw [placeItem, if_neg h, ih, itemWrites, itemWrites, List.filterMap_cons_none hwrite]

theorem flat_replicate (count : ℕ) : flat (List.replicate count ((0 : ℤ), (0 : ℤ))) = List.replicate (count * 2) 0 := by
  induction count with
  | zero => rfl
  | succ count ih =>
    rw [List.replicate_succ, Writes.flat_cons, ih, Nat.succ_mul]
    rfl

theorem inventory_eq (items : List HubItem) :
    inventory items = flat (writeAll (List.replicate 28 (0, 0)) (itemWrites 28 (inventorySlots items))) := by
  rw [← foldl_placeItem, flat_replicate]
  rfl

theorem equipment_eq (items : List HubItem) :
    equipment items = flat (writeAll (List.replicate 14 (0, 0)) (itemWrites 14 (equipmentSlots items))) := by
  rw [← foldl_placeItem, flat_replicate]
  rfl

end OsrsMap.Sync
