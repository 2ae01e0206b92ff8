import OsrsMap.Sync.Convert
import Mathlib.Logic.Equiv.List
import Mathlib.Tactic.DeriveEncodable

/-!
# The details of an account

`HubMeta` and `HubMeta::from_account` (`server/src/hub/convert.rs`), with the records of the hub's that
they pass on (`server/src/hub/models.rs`). The details are stored as one JSON value; on a special world
they keep the main game's totals from what was sent before.
-/

namespace OsrsMap.Sync

/-! ## What the hub says -/

structure HubSlayerTask where
  name : Option String
  location : Option String
  remaining : ℤ
  amount : ℤ
deriving DecidableEq, Repr

structure HubSlayerStreaks where
  normal : Option ℤ
  wilderness : Option ℤ
  mortimer : Option ℤ
deriving DecidableEq, Repr

structure HubSlayer where
  task : Option HubSlayerTask
  points : Option ℤ
  streaks : HubSlayerStreaks
deriving DecidableEq, Repr

structure HubPoison where
  kind : String
  damage : Option ℤ
deriving DecidableEq, Repr

structure HubEffect where
  id : String
  name : String
  endsAt : String
  precisionMs : ℤ
deriving DecidableEq, Repr

structure HubStatus where
  runEnergy : ℤ
  running : Bool
  specialAttack : ℤ
  poison : HubPoison
  wildernessLevel : Option ℤ
  effects : List HubEffect
deriving DecidableEq, Repr

/-- The totals of an account and the values of its items. -/
structure Totals where
  totalLevel : Option ℤ
  overallXp : Option ℤ
  inventoryValue : Option ℤ
  equipmentValue : Option ℤ
deriving DecidableEq, Repr

/-- No totals. -/
def Totals.none : Totals := ⟨.none, .none, .none, .none⟩

/-- What `HubMeta::from_account` reads of an account next to its categories and its world: `owner` is
the owner's name, and the totals are of `skills`, `inventory` and `equipment`, if they are there. -/
structure HubDetails where
  accountType : Option ℤ
  typeLabel : Option String
  owner : Option String
  totals : Totals
  spellbook : Option String
  activePrayers : Option (List String)
  slayer : Option HubSlayer
  status : Option HubStatus
  gameState : Option String
  isOnBoat : Option Bool
deriving DecidableEq, Repr

/-- Of an account that the hub says nothing of but its totals. -/
def plainDetails (totals : Totals) : HubDetails where
  accountType := none
  typeLabel := none
  owner := none
  totals := totals
  spellbook := none
  activePrayers := none
  slayer := none
  status := none
  gameState := none
  isOnBoat := none

/-- Details about an account the site shows but doesn't compute with. -/
structure HubMeta where
  accountType : Option ℤ
  typeLabel : Option String
  owner : Option String
  categories : List String
  totalLevel : Option ℤ
  overallXp : Option ℤ
  inventoryValue : Option ℤ
  equipmentValue : Option ℤ
  spellbook : Option String
  activePrayers : Option (List String)
  slayer : Option HubSlayer
  status : Option HubStatus
  gameState : Option String
  isOnBoat : Bool
  specialWorld : Bool
deriving DecidableEq, Repr

namespace HubMeta

def totals (details : HubMeta) : Totals where
  totalLevel := details.totalLevel
  overallXp := details.overallXp
  inventoryValue := details.inventoryValue
  equipmentValue := details.equipmentValue

/-- On a special world the hub's totals and item values describe that world, so the main game's values
from before are kept, for as long as their category is shared. -/
def fromAccount (report : HubReport) (details : HubDetails) (previous : Option HubMeta) : HubMeta :=
  let specialWorld := report.specialWorld.getD false
  let mainGame (category : String) (current : Option ℤ) (pick : HubMeta → Option ℤ) : Option ℤ :=
    if specialWorld && report.shares category then previous.bind pick else current
  { accountType := details.accountType
    typeLabel := details.typeLabel
    owner := details.owner
    categories := report.categories
    totalLevel := mainGame "stats" details.totals.totalLevel HubMeta.totalLevel
    overallXp := mainGame "stats" details.totals.overallXp HubMeta.overallXp
    inventoryValue := mainGame "inventory" details.totals.inventoryValue HubMeta.inventoryValue
    equipmentValue := mainGame "equipment" details.totals.equipmentValue HubMeta.equipmentValue
    spellbook := details.spellbook
    activePrayers := details.activePrayers
    slayer := details.slayer
    status := details.status
    gameState := details.gameState
    isOnBoat := details.isOnBoat.getD false
    specialWorld }

end HubMeta

/-! ## An account of a snapshot -/

/-- An account of a snapshot: `report`, but for its details, and what these are made of. -/
structure SnapshotAccount where
  report : HubReport
  details : HubDetails

namespace SnapshotAccount

variable (account : SnapshotAccount)

def onSpecialWorld : Bool := account.report.specialWorld.getD false

/-- Whether it shares the categories that the totals belong to. -/
def sharesTotals : Bool :=
  account.report.shares "stats" && account.report.shares "inventory" && account.report.shares "equipment"

variable {account} {previous : Option HubMeta}

theorem totals_of_mainGame (h : account.onSpecialWorld = false) :
    (HubMeta.fromAccount account.report account.details previous).totals = account.details.totals := by
  have hworld : account.report.specialWorld.getD false = false := h
  simp [HubMeta.fromAccount, HubMeta.totals, hworld]

/-- On a special world the totals are those from before. -/
theorem totals_of_specialWorld (h : account.onSpecialWorld = true) (hshares : account.sharesTotals = true) :
    (HubMeta.fromAccount account.report account.details previous).totals =
      previous.elim .none HubMeta.totals := by
  have hworld : account.report.specialWorld.getD false = true := h
  obtain ⟨⟨hstats, hinventory⟩, hequipment⟩ :
      (account.report.shares "stats" = true ∧ account.report.shares "inventory" = true) ∧
        account.report.shares "equipment" = true := by
    simpa [sharesTotals] using hshares
  cases previous <;>
    simp [HubMeta.fromAccount, HubMeta.totals, Totals.none, hworld, hstats, hinventory, hequipment]

end SnapshotAccount

/-! ## As JSON -/

/-- How details are written as the text of a JSON value and read from it (`serde_json`): what was
written is read as it was. -/
structure MetaJson where
  write : HubMeta → String
  read : String → Option HubMeta
  read_write : ∀ details, read (write details) = some details

namespace MetaJson

variable (json : MetaJson)

/-- The details in a column. -/
def readColumn : Payload → Option HubMeta
  | .array _ => none
  | .json text => json.read text

/-- The totals in a column; none where nothing is stored. -/
def totals (column : Option Payload) : Totals := (column.bind json.readColumn).elim .none HubMeta.totals

/-- What `HubMeta::from_account` makes of an account is what is stored. -/
def reportOf (account : SnapshotAccount) : HubReport :=
  { account.report with
    hubMeta := fun previous ↦
      .json (json.write (HubMeta.fromAccount account.report account.details
        (previous.bind json.readColumn))) }

variable {json} {account : SnapshotAccount} {previous : Option MemberSections}

theorem totals_write (details : HubMeta) : json.totals (some (.json (json.write details))) = details.totals := by
  rw [totals, Option.bind_some, readColumn, json.read_write]
  rfl

theorem totals_fromAccount_mainGame (h : account.onSpecialWorld = false) :
    json.totals ((json.reportOf account).fromAccount previous .hubMeta) = account.details.totals :=
  (totals_write _).trans (SnapshotAccount.totals_of_mainGame h)

/-- On a special world the totals are those that were sent before. -/
theorem totals_fromAccount_specialWorld (h : account.onSpecialWorld = true)
    (hshares : account.sharesTotals = true) :
    json.totals ((json.reportOf account).fromAccount previous .hubMeta) =
      json.totals (previous.bind (· .hubMeta)) :=
  (totals_write _).trans (SnapshotAccount.totals_of_specialWorld h hshares)

end MetaJson

/-! ## Texts of plain details -/

section Texts

instance encodableChar : Encodable Char := Encodable.ofLeftInverse Char.toNat Char.ofNat Char.ofNat_toNat

instance encodableString : Encodable String :=
  Encodable.ofLeftInverse String.toList String.ofList fun _ ↦ String.ofList_toList

deriving instance Encodable for HubSlayerTask, HubSlayerStreaks, HubSlayer, HubPoison, HubEffect,
  HubStatus, HubMeta

/-- The categories that the totals belong to. -/
def totalsCategories : List String := ["stats", "inventory", "equipment"]

def mainTotals : Totals := ⟨some 1500, some 2000000, some 300, some 400⟩

/-- Details of an account that shares its totals and of which the hub says nothing else. -/
def plainMeta (totals : Totals) (specialWorld : Bool) : HubMeta where
  accountType := none
  typeLabel := none
  owner := none
  categories := totalsCategories
  totalLevel := totals.totalLevel
  overallXp := totals.overallXp
  inventoryValue := totals.inventoryValue
  equipmentValue := totals.equipmentValue
  spellbook := none
  activePrayers := none
  slayer := none
  status := none
  gameState := none
  isOnBoat := false
  specialWorld := specialWorld

def mainText : String :=
  "\x7b\"categories\":[\"stats\",\"inventory\",\"equipment\"],\"equipment_value\":400," ++
    "\"inventory_value\":300,\"is_on_boat\":false,\"overall_xp\":2000000," ++
    "\"special_world\":false,\"total_level\":1500\x7d"

def keptText : String :=
  "\x7b\"categories\":[\"stats\",\"inventory\",\"equipment\"],\"equipment_value\":400," ++
    "\"inventory_value\":300,\"is_on_boat\":false,\"overall_xp\":2000000," ++
    "\"special_world\":true,\"total_level\":1500\x7d"

def lostText : String :=
  "\x7b\"categories\":[\"stats\",\"inventory\",\"equipment\"],\"is_on_boat\":false," ++
    "\"special_world\":true\x7d"

/-- A text that is longer than each of these, and by how much. -/
def countedText (n : ℕ) : String :=
  mainText ++ keptText ++ lostText ++ String.ofList (List.replicate n '|')

def readCount (text : String) : ℕ := text.length - (mainText ++ keptText ++ lostText).length

theorem length_countedText (n : ℕ) :
    (countedText n).length = (mainText ++ keptText ++ lostText).length + n := by
  rw [countedText, String.length_append, String.length_ofList, List.length_replicate]

theorem readCount_countedText (n : ℕ) : readCount (countedText n) = n := by
  rw [readCount, length_countedText, Nat.add_sub_cancel_left]

theorem countedText_ne (n : ℕ) :
    countedText n ≠ mainText ∧ countedText n ≠ keptText ∧ countedText n ≠ lostText := by
  have hmain : mainText.length ≠ 0 := by
    rw [ne_eq, String.length_eq_zero_iff]
    decide +kernel
  have hkept : keptText.length ≠ 0 := by
    rw [ne_eq, String.length_eq_zero_iff]
    decide +kernel
  have hlength := length_countedText n
  rw [String.length_append, String.length_append] at hlength
  refine ⟨fun h ↦ ?_, fun h ↦ ?_, fun h ↦ ?_⟩
  all_goals
    rw [h] at hlength
    omega

/-- The texts of plain details are those of `serde_json`; any others are counted off. -/
def plainJson : MetaJson where
  write details :=
    if details = plainMeta mainTotals false then mainText
    else if details = plainMeta mainTotals true then keptText
    else if details = plainMeta .none true then lostText
    else countedText (Encodable.encode details)
  read text :=
    if text = mainText then some (plainMeta mainTotals false)
    else if text = keptText then some (plainMeta mainTotals true)
    else if text = lostText then some (plainMeta .none true)
    else Encodable.decode (readCount text)
  read_write details := by
    have hkept : keptText ≠ mainText := by decide +kernel
    have hlost : lostText ≠ mainText ∧ lostText ≠ keptText := by decide +kernel
    have hother := countedText_ne (Encodable.encode details)
    by_cases h : details = plainMeta mainTotals false
    · rw [if_pos h, if_pos rfl, h]
    · by_cases h' : details = plainMeta mainTotals true
      · rw [if_neg h, if_pos h', if_neg hkept, if_pos rfl, h']
      · by_cases h'' : details = plainMeta .none true
        · rw [if_neg h, if_neg h', if_pos h'', if_neg hlost.1, if_neg hlost.2, if_pos rfl, h'']
        · rw [if_neg h, if_neg h', if_neg h'', if_neg hother.1, if_neg hother.2.1,
            if_neg hother.2.2, readCount_countedText, Encodable.encodek]

end Texts

end OsrsMap.Sync
