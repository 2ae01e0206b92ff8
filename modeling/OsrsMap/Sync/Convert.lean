import OsrsMap.Sync.Account

/-!
# The sections of an account

`MemberSections::from_account` (`server/src/hub/convert.rs`). A section whose category the owner does
not share is empty; one that the hub has nothing new for is left out.
-/

namespace OsrsMap.Sync

/-- Where an account is; `stale` when the plugin has not said so for a while. -/
structure HubLocation where
  x : ℤ
  y : ℤ
  plane : ℤ
  stale : Bool
deriving DecidableEq, Repr

/-- What the hub says of an account. The arrays are as `skills`, `inventory` and `equipment` make
them; `hubMeta` is what `HubMeta::from_account` makes of the rest, given what was sent before. Points
are a current value and its maximum. -/
structure HubReport where
  id : String
  name : String
  accountHash : Option String
  categories : List String
  online : Option Bool
  lastSeen : Option ℤ
  hp : Option (ℤ × ℤ)
  prayer : Option (ℤ × ℤ)
  world : Option ℤ
  specialWorld : Option Bool
  location : Option HubLocation
  skills : Option (List ℤ)
  inventory : Option (List ℤ)
  equipment : Option (List ℤ)
  hubMeta : Option Payload → Payload

/-- An account of which the hub says nothing but its hit points, and shares them or not. -/
def plainReport (id name : String) (categories : List String) (hp : ℤ) : HubReport where
  id := id
  name := name
  accountHash := none
  categories := categories
  online := some true
  lastSeen := none
  hp := some (hp, 99)
  prayer := none
  world := none
  specialWorld := none
  location := none
  skills := none
  inventory := none
  equipment := none
  hubMeta _ := .json ""

/-- The category a section belongs to; the details have none. -/
def categoryOf : Section → Option String
  | .stats => some "activity"
  | .coordinates => some "location_live"
  | .skills => some "stats"
  | .inventory => some "inventory"
  | .equipment => some "equipment"
  | .hubMeta => none

namespace HubReport

variable (report : HubReport)

/-- Whether the key may read a category of the account. -/
def shares (category : String) : Bool := report.categories.any (· = category)

/-- `[hp, hp max, prayer, prayer max, energy, unused, world]`. -/
def stats : Option (List ℤ) :=
  if report.hp.isNone ∧ report.prayer.isNone ∧ report.world.isNone then none
  else
    let (hp, hpMax) := report.hp.getD (0, 0)
    let (prayer, prayerMax) := report.prayer.getD (0, 0)
    some [hp, hpMax, prayer, prayerMax, 0, 0, report.world.getD 0]

/-- A section of a category: empty when the category is not shared. -/
def shared (category : String) (values : Option (List ℤ)) : Option Payload :=
  (if report.shares category then values else some []).map Payload.array

/-- Special worlds have their own XP and items, which stay out. -/
def mainGame (values : Option (List ℤ)) : Option (List ℤ) :=
  values.filter fun _ ↦ !report.specialWorld.getD false

def coordinates : Option (List ℤ) :=
  (report.location.filter (!·.stale)).map fun location ↦ [location.x, location.y, location.plane]

/-- `MemberSections::from_account`. -/
def fromAccount (previous : Option MemberSections) : MemberSections
  | .stats => report.shared "activity" report.stats
  | .coordinates => report.shared "location_live" report.coordinates
  | .skills => report.shared "stats" (report.mainGame report.skills)
  | .inventory => report.shared "inventory" (report.mainGame report.inventory)
  | .equipment => report.shared "equipment" (report.mainGame report.equipment)
  | .hubMeta => some (report.hubMeta (previous.bind (· .hubMeta)))

/-- The account as the sync processes it. -/
def account : HubAccount where
  id := report.id
  name := report.name
  accountHash := report.accountHash
  categories := report.categories
  online := report.online
  locationStale := report.location.map (·.stale)
  lastSeen := report.lastSeen
  sections := report.fromAccount

variable {report} {part : Section} {category : String}

/-- A section whose category is not shared (any more) is empty, whatever was sent before. -/
theorem fromAccount_withdrawn (hcategory : categoryOf part = some category)
    (h : report.shares category = false) (previous : Option MemberSections) :
    report.fromAccount previous part = some (.array []) := by
  cases part <;> cases hcategory <;> simp [fromAccount, shared, h]

/-- The details are never left out. -/
theorem fromAccount_hubMeta (previous : Option MemberSections) :
    (report.fromAccount previous .hubMeta).isSome = true := rfl

end HubReport

end OsrsMap.Sync
