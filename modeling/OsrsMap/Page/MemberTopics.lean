import OsrsMap.Library.Run
import OsrsMap.Page.Levels
import OsrsMap.Page.Regions

/-!
# What the page works out for a member

`MemberData` (`site/src/data/member-data.js`) with all that it works out from the sections of a member (items
and how many there are of each, levels, the combat level, the place), the topics it publishes them under and the
drops of XP that it announces. `PubSub` (`site/src/data/pubsub.js`) hands the last value of a topic to whoever
subscribes later, so a value that stays behind would still be shown: of the skills that a member no longer
shares, the last drops of XP stay.
-/

namespace OsrsMap.Page

open Sync (Section Payload)

/-- `memberInventoryFields`. -/
inductive InventoryField where
  | inventory
  | equipment
deriving DecidableEq, Repr

/-- `Object.values(SkillName)`. -/
def allSkillNames : List String := (skillNames.take 15) ++ "Overall" :: skillNames.drop 15

/-- The fields of a member; what is none is undefined. -/
structure MemberFields where
  stats : Option Shown
  hubMeta : Option Shown
  coordinates : Option Shown
  skills : Option (List Skill)
  combatLevel : Option ℕ
  items : InventoryField → Option (List Item)
  itemQuantities : InventoryField → OrderedMap ℤ (Option ℤ)
  region : Option (Option String)
  online : Bool
  lastSeen : Option ℤ

/-- The last values of the member's topics; one that was not published, or forgotten since, has none. -/
structure Topics where
  stats : Option Shown
  hubMeta : Option Shown
  skill : String → Option Skill
  xp : Option (List Skill)
  items : InventoryField → Option (List Item)
  region : Option (Option String)
  presence : Option Bool

/-- A member, its topics and the names of the regions. Not of the code: the drops of XP announced so far. -/
structure LiveMember where
  fields : MemberFields
  topics : Topics
  names : RegionNames
  announced : List Skill

/-- `this.skills[skillName]`. -/
def skillNamed (skills : List Skill) (name : String) : Option Skill := skills.find? (·.name = name)

/-- What `Skill.parseSkillData` makes of a section. -/
def Shown.parseSkills : Shown → List Skill
  | .skills xp overall => parseSkillData xp overall
  | _ => []

/-- What `Item.parseItemData` makes of a section. -/
def Shown.parseItems (itemDetails : ℤ → Bool) : Shown → List Item
  | .items data => parseItemData itemDetails data
  | _ => []

def Shown.position : Shown → Option ℤ × Option ℤ
  | .coordinates x y _ => (x, y)
  | _ => (none, none)

/-- The drops of XP between two reports: what was gained, skill by skill. -/
def xpDrops (previous skills : List Skill) : List Skill :=
  allSkillNames.filterMap fun name ↦
    match skillNamed skills name, skillNamed previous name with
    | some skill, some before =>
      if 0 < skill.xp - before.xp ∧ name ≠ "Overall" then
        some { name, xp := skill.xp - before.xp, level := calculateLevel (skill.xp - before.xp) }
      else none
    | _, _ => none

/-- `relevantSkillNames`. -/
def combatSkillNames : List String := ["Defence", "Hitpoints", "Prayer", "Attack", "Strength", "Ranged", "Magic"]

/-- `computeCombatLevel`: none when it returns without a level. It is counted in fortieths, of which a quarter is
ten and `s` is thirteen; in floating point the whole part is the same for all levels up to 99. -/
def computeCombatLevel (skills : List Skill) : Option ℕ :=
  if combatSkillNames.all fun name ↦ (skillNamed skills name).isSome then
    let level (name : String) : ℕ := ((skillNamed skills name).map fun skill ↦ min skill.level 99).getD 0
    let base := level "Defence" + level "Hitpoints" + level "Prayer" / 2
    let melee := level "Attack" + level "Strength"
    let range := level "Ranged" / 2 + level "Ranged"
    let mage := level "Magic" / 2 + level "Magic"
    some ((10 * base + 13 * max melee (max range mage)) / 40)
  else none

/-- The topics of the skills after a report: all of them are published when there was none before, and
otherwise those whose XP is not what it was. -/
def publishSkills (previous : Option (List Skill)) (skills : List Skill) (topic : String → Option Skill)
    (name : String) : Option Skill :=
  if name ∈ allSkillNames then
    match previous with
    | none => skillNamed skills name
    | some previous =>
      match skillNamed skills name, skillNamed previous name with
      | some skill, some before => if skill.xp - before.xp ≠ 0 then some skill else topic name
      | _, _ => topic name
  else topic name

namespace LiveMember

/-- `new MemberData(name)`. -/
def new (names : RegionNames) : LiveMember where
  fields :=
    { stats := none
      hubMeta := none
      coordinates := none
      skills := none
      combatLevel := none
      items := fun _ ↦ none
      itemQuantities := fun _ ↦ .empty
      region := none
      online := false
      lastSeen := none }
  topics :=
    { stats := none
      hubMeta := none
      skill := fun _ ↦ none
      xp := none
      items := fun _ ↦ none
      region := none
      presence := none }
  names
  announced := []

variable (itemDetails : ℤ → Bool) (member : LiveMember)

def regionNow : Option String := regionForMember member.names (member.fields.coordinates.map Shown.position)

/-- `updateRegion`. -/
def updateRegion : LiveMember :=
  if some member.regionNow = member.fields.region then member
  else
    { member with
      fields := { member.fields with region := some member.regionNow }
      topics := { member.topics with region := some member.regionNow } }

/-- Another value of a kind of items, and of how many there are. -/
def setItems (field : InventoryField) (items : Option (List Item)) : LiveMember :=
  { member with
    fields :=
      { member.fields with
        items := Function.update member.fields.items field items
        itemQuantities :=
          Function.update member.fields.itemQuantities field (items.elim .empty Page.itemQuantities) }
    topics := { member.topics with items := Function.update member.topics.items field items } }

/-- The drops of XP that a report of skills brings. -/
def dropsTo (skills : List Skill) : List Skill := member.fields.skills.elim [] fun previous ↦ xpDrops previous skills

/-- `drop`: a section and what was worked out from it are forgotten, the drops of XP apart. -/
def drop : Section → LiveMember
  | .stats =>
    { member with
      fields := { member.fields with stats := none }
      topics := { member.topics with stats := none } }
  | .coordinates =>
    ({ member with fields := { member.fields with coordinates := none } } : LiveMember).updateRegion
  | .skills =>
    { member with
      fields := { member.fields with skills := none, combatLevel := none }
      topics :=
        { member.topics with
          skill := fun name ↦ if name ∈ allSkillNames then none else member.topics.skill name } }
  | .inventory => member.setItems .inventory none
  | .equipment => member.setItems .equipment none
  | .hubMeta => member

/-- What `update` does with a section that has a value. -/
def take (value : Shown) : Section → LiveMember
  | .stats =>
    { member with
      fields := { member.fields with stats := some value }
      topics := { member.topics with stats := some value } }
  | .hubMeta => { member with fields := { member.fields with hubMeta := some value } }
  | .coordinates =>
    ({ member with fields := { member.fields with coordinates := some value } } : LiveMember).updateRegion
  | .skills =>
    { member with
      fields :=
        { member.fields with
          skills := some value.parseSkills
          combatLevel := (computeCombatLevel value.parseSkills).or member.fields.combatLevel }
      topics :=
        { member.topics with
          skill := publishSkills member.fields.skills value.parseSkills member.topics.skill
          xp :=
            if member.dropsTo value.parseSkills = [] then member.topics.xp
            else some (member.dropsTo value.parseSkills) }
      announced := member.announced ++ member.dropsTo value.parseSkills }
  | .inventory => member.setItems .inventory (some (value.parseItems itemDetails))
  | .equipment => member.setItems .equipment (some (value.parseItems itemDetails))

/-- `sharedSections`. -/
def sharedSections : List Section := [.stats, .coordinates, .skills, .inventory, .equipment]

/-- The sections in the order in which `update` takes them. -/
def takenSections : List Section := [.stats, .hubMeta, .coordinates, .skills, .inventory, .equipment]

/-- `update`, given what a poll has for each section: none is undefined, and `some none` is `null`. What the
player shares is published last. -/
def update (shown : Section → Option (Option Shown)) : LiveMember :=
  let dropped := sharedSections.foldl
    (fun member part ↦ if shown part = some none then member.drop part else member) member
  let taken := takenSections.foldl
    (fun member part ↦ ((shown part).getD none).elim member fun value ↦ member.take itemDetails value part) dropped
  if ((shown .hubMeta).getD none).isSome then
    { taken with topics := { taken.topics with hubMeta := taken.fields.hubMeta } }
  else taken

/-- `updatePresence`. -/
def updatePresence (entry : RosterEntry) : LiveMember :=
  let lastSeen := entry.lastSeen.map toDate
  let changed : Bool := member.fields.online ≠ entry.online ∨ member.fields.lastSeen ≠ lastSeen
  { member with
    fields := { member.fields with online := entry.online, lastSeen }
    topics := { member.topics with presence := if changed then some entry.online else member.topics.presence } }

end LiveMember

/-- What happens to a member while they are on the roster. -/
inductive MemberEvent where
  | poll (data : Sync.MemberData)
  | presence (entry : RosterEntry)
  /-- The names of the regions are loaded, and the places named anew. -/
  | regionsLoaded (names : RegionNames)

def LiveMember.step (itemDetails : ℤ → Bool) (member : LiveMember) : MemberEvent → LiveMember
  | .poll data => member.update itemDetails fun part ↦ (data.sections part).map (transformFromStorage part)
  | .presence entry => member.updatePresence entry
  | .regionsLoaded names => ({ member with names } : LiveMember).updateRegion

/-- The same for the sections alone. -/
def MemberData.step (member : MemberData) : MemberEvent → MemberData
  | .poll data => member.update data
  | .presence entry => member.updatePresence entry
  | .regionsLoaded _ => member

/-! ## Skills -/

section Skills

variable {name : String}

/-- A skill that is not the total has the level of its XP. -/
def Skill.Levelled (skill : Skill) : Prop := skill.name ≠ "Overall" → skill.level = calculateLevel skill.xp

/-- A report has every skill. -/
theorem exists_skillNamed (array : List ℤ) (hname : name ∈ allSkillNames) :
    ∃ skill, skillNamed (transformSkillsFromStorage array).parseSkills name = some skill ∧
      skill.name = name ∧ skill.Levelled := by
  let xp := skillNames.zipIdx.map fun entry ↦ (entry.1, array[entry.2]?.getD 0)
  have hparse : (transformSkillsFromStorage array).parseSkills = parseSkillData xp (xp.map Prod.snd).sum := rfl
  have hnames : (parseSkillData xp (xp.map Prod.snd).sum).map Skill.name = skillNames ++ ["Overall"] := by
    have hxp : xp.map Prod.fst = skillNames := by
      rw [List.map_map]
      exact List.zipIdx_map_fst 0 skillNames
    rw [parseSkillData, List.map_append, List.map_map, ← hxp, List.map_map]
    rfl
  have hmem : name ∈ (parseSkillData xp (xp.map Prod.snd).sum).map Skill.name := by
    rw [hnames]
    revert name
    decide
  obtain ⟨found, hfound, hfname⟩ := List.mem_map.mp hmem
  have hsome : (skillNamed (parseSkillData xp (xp.map Prod.snd).sum) name).isSome :=
    List.find?_isSome.mpr ⟨found, hfound, decide_eq_true hfname⟩
  obtain ⟨skill, hskill⟩ := Option.isSome_iff_exists.mp hsome
  have hsname : skill.name = name := by simpa using List.find?_some hskill
  refine ⟨skill, hparse ▸ hskill, hsname, fun hnot ↦ ?_⟩
  obtain hplain | htotal := List.mem_append.mp (List.mem_of_find?_eq_some hskill)
  · obtain ⟨entry, -, rfl⟩ := List.mem_map.mp hplain
    rfl
  · rw [List.mem_singleton.mp htotal] at hnot
    exact absurd rfl hnot

/-- A report has all that the combat level is worked out from. -/
theorem isSome_computeCombatLevel (array : List ℤ) :
    (computeCombatLevel (transformSkillsFromStorage array).parseSkills).isSome = true := by
  have hall : (combatSkillNames.all fun name ↦
      (skillNamed (transformSkillsFromStorage array).parseSkills name).isSome) = true := by
    rw [List.all_eq_true]
    intro name hname
    have hknown : name ∈ allSkillNames := by
      revert name
      decide
    obtain ⟨skill, hskill, -⟩ := exists_skillNamed array hknown
    rw [hskill, Option.isSome_some]
  rw [computeCombatLevel, if_pos hall]
  rfl

/-- The topics of the skills tell of a section: the XP of every skill, and everything else of it but, for the
total, the level. -/
def TellsSkills (topic : String → Option Skill) (value : Option Shown) : Prop :=
  ∀ name ∈ allSkillNames,
    (topic name).map Skill.xp = (value.bind fun shown ↦ skillNamed shown.parseSkills name).map Skill.xp ∧
      ∀ told ∈ topic name, told.name = name ∧ told.Levelled

/-- The value of a section as the server sends it. -/
def Shown.Reported (shown : Shown) : Prop := ∃ array, shown = transformSkillsFromStorage array

variable {topic : String → Option Skill} {before : Option Shown} {shown : Shown}

theorem tellsSkills_publishSkills (h : TellsSkills topic before) (hbefore : ∀ shown ∈ before, shown.Reported)
    (hshown : shown.Reported) :
    TellsSkills (publishSkills (before.map Shown.parseSkills) shown.parseSkills topic) (some shown) := by
  intro name hname
  obtain ⟨array, rfl⟩ := hshown
  obtain ⟨skill, hskill, hsname, hlevelled⟩ := exists_skillNamed array hname
  unfold publishSkills
  rw [Option.bind_some, if_pos hname, hskill]
  have hnew : (some skill).map Skill.xp = (some skill).map Skill.xp ∧
      ∀ told ∈ some skill, told.name = name ∧ told.Levelled :=
    ⟨rfl, by rintro _ ⟨⟩; exact ⟨hsname, hlevelled⟩⟩
  cases before with
  | none => exact hnew
  | some old =>
    obtain ⟨oldArray, rfl⟩ := hbefore _ rfl
    obtain ⟨previous, hprevious, -, -⟩ := exists_skillNamed oldArray hname
    obtain ⟨hxp, hrest⟩ := h name hname
    rw [Option.bind_some, hprevious] at hxp
    rw [Option.map_some]
    dsimp only
    rw [hprevious]
    dsimp only
    split_ifs with hchanged
    · exact hnew
    · refine ⟨?_, hrest⟩
      rw [hxp, Option.map_some, Option.map_some]
      congr 1
      omega

/-- What a topic tells of a skill other than the total is just what the page has. -/
theorem TellsSkills.eq (h : TellsSkills topic (some shown)) (hshown : shown.Reported) (hname : name ∈ allSkillNames)
    (htotal : name ≠ "Overall") : topic name = skillNamed shown.parseSkills name := by
  obtain ⟨array, rfl⟩ := hshown
  obtain ⟨skill, hskill, hsname, hlevelled⟩ := exists_skillNamed array hname
  obtain ⟨hxp, hrest⟩ := h name hname
  rw [Option.bind_some, hskill, Option.map_some] at hxp
  obtain ⟨told, htold, htxp⟩ := Option.map_eq_some_iff.mp hxp
  obtain ⟨htname, htlevelled⟩ := hrest told htold
  have hlevel : told.level = skill.level := by
    rw [htlevelled (htname ▸ htotal), hlevelled (hsname ▸ htotal), htxp]
  have hsame : told = skill := by
    cases told
    cases skill
    simp_all
  rw [htold, hskill, hsame]

end Skills

/-! ## Sections -/

namespace LiveMember

variable {itemDetails : ℤ → Bool} {member : LiveMember} {value : Option Shown} {part other : Section}

/-- The place is the one of the coordinates, and everyone was told. -/
structure Placed (member : LiveMember) : Prop where
  told : member.topics.region = member.fields.region
  now : ∀ place ∈ member.fields.region, place = member.regionNow
  nowhere : member.fields.region = none → member.fields.coordinates = none

/-- The items and their quantities are those of the section, and everyone was told. -/
def ShowsItems (itemDetails : ℤ → Bool) (member : LiveMember) (value : Option Shown) (field : InventoryField) :
    Prop :=
  let items := value.map (Shown.parseItems itemDetails)
  member.fields.items field = items ∧ member.topics.items field = items ∧
    member.fields.itemQuantities field = items.elim .empty itemQuantities

/-- A section, with what was worked out from it and what was told of it. -/
def Shows (itemDetails : ℤ → Bool) (member : LiveMember) (value : Option Shown) : Section → Prop
  | .stats => member.fields.stats = value ∧ member.topics.stats = value
  | .hubMeta => member.fields.hubMeta = value
  | .coordinates => member.fields.coordinates = value ∧ member.Placed
  | .skills =>
    member.fields.skills = value.map Shown.parseSkills ∧ TellsSkills member.topics.skill value ∧
      (∀ shown ∈ value, shown.Reported) ∧
      member.fields.combatLevel = (value.map Shown.parseSkills).bind computeCombatLevel
  | .inventory => ShowsItems itemDetails member value .inventory
  | .equipment => ShowsItems itemDetails member value .equipment

theorem coordinates_updateRegion : member.updateRegion.fields.coordinates = member.fields.coordinates := by
  unfold updateRegion
  split_ifs <;> rfl

theorem placed_updateRegion (h : member.topics.region = member.fields.region) : member.updateRegion.Placed := by
  unfold updateRegion
  split_ifs with hsame
  · exact ⟨h, fun place hplace ↦ Option.some.inj (hplace.symm.trans hsame.symm), by simp [← hsame]⟩
  · exact ⟨rfl, by rintro _ ⟨⟩; rfl, by simp⟩

/-- The place is all that `updateRegion` changes. -/
theorem shows_updateRegion (h : member.Shows itemDetails value part) (hpart : part ≠ .coordinates) :
    member.updateRegion.Shows itemDetails value part := by
  unfold updateRegion
  split_ifs
  · exact h
  · cases part with
    | coordinates => exact absurd rfl hpart
    | stats | hubMeta | skills | inventory | equipment => exact h

theorem showsItems_setItems (value : Option Shown) {field : InventoryField} :
    (member.setItems field (value.map (Shown.parseItems itemDetails))).ShowsItems itemDetails value field := by
  simp [ShowsItems, setItems]

theorem showsItems_setItems_of_ne {field changed : InventoryField} (h : member.ShowsItems itemDetails value field)
    (hne : field ≠ changed) (items : Option (List Item)) :
    (member.setItems changed items).ShowsItems itemDetails value field := by
  simpa [ShowsItems, setItems, Function.update_of_ne hne] using h

/-- A kind of items changes, and nothing else. -/
theorem shows_setItems (h : member.Shows itemDetails value part) {field : InventoryField}
    (items : Option (List Item)) (hinventory : part = .inventory → field ≠ .inventory)
    (hequipment : part = .equipment → field ≠ .equipment) :
    (member.setItems field items).Shows itemDetails value part := by
  cases part with
  | stats | hubMeta | skills => exact h
  | coordinates => exact ⟨h.1, h.2.told, h.2.now, h.2.nowhere⟩
  | inventory => exact showsItems_setItems_of_ne h (hinventory rfl).symm items
  | equipment => exact showsItems_setItems_of_ne h (hequipment rfl).symm items

theorem tellsSkills_none (topic : String → Option Skill) :
    TellsSkills (fun name ↦ if name ∈ allSkillNames then none else topic name) none := by
  intro name hname
  simp [hname]

/-- Dropping a section drops what was worked out from it, and leaves the others. -/
theorem shows_drop (h : member.Shows itemDetails value part) (hother : other ≠ .hubMeta) :
    (member.drop other).Shows itemDetails (if part = other then none else value) part := by
  cases other with
  | hubMeta => exact absurd rfl hother
  | stats =>
    cases part with
    | stats => exact ⟨rfl, rfl⟩
    | coordinates => exact ⟨h.1, h.2.told, h.2.now, h.2.nowhere⟩
    | hubMeta | skills | inventory | equipment => exact h
  | coordinates =>
    cases part with
    | coordinates => exact ⟨coordinates_updateRegion, placed_updateRegion h.2.told⟩
    | stats | hubMeta | skills | inventory | equipment => exact shows_updateRegion h (by decide)
  | skills =>
    cases part with
    | skills => exact ⟨rfl, tellsSkills_none _, by simp, rfl⟩
    | coordinates => exact ⟨h.1, h.2.told, h.2.now, h.2.nowhere⟩
    | stats | hubMeta | inventory | equipment => exact h
  | inventory =>
    by_cases hsame : part = .inventory
    · obtain rfl := hsame
      exact showsItems_setItems none
    · rw [if_neg hsame]
      exact shows_setItems h none (fun hpart ↦ absurd hpart hsame) (fun _ ↦ by decide)
  | equipment =>
    by_cases hsame : part = .equipment
    · obtain rfl := hsame
      exact showsItems_setItems none
    · rw [if_neg hsame]
      exact shows_setItems h none (fun _ ↦ by decide) (fun hpart ↦ absurd hpart hsame)

/-- Taking a section works out everything anew from it, and leaves the others. -/
theorem shows_take (h : member.Shows itemDetails value part) {shown : Shown}
    (hshown : other = .skills → shown.Reported) :
    (member.take itemDetails shown other).Shows itemDetails (if part = other then some shown else value) part := by
  cases other with
  | hubMeta =>
    cases part with
    | hubMeta => exact rfl
    | coordinates => exact ⟨h.1, h.2.told, h.2.now, h.2.nowhere⟩
    | stats | skills | inventory | equipment => exact h
  | stats =>
    cases part with
    | stats => exact ⟨rfl, rfl⟩
    | coordinates => exact ⟨h.1, h.2.told, h.2.now, h.2.nowhere⟩
    | hubMeta | skills | inventory | equipment => exact h
  | coordinates =>
    cases part with
    | coordinates => exact ⟨coordinates_updateRegion, placed_updateRegion h.2.told⟩
    | stats | hubMeta | skills | inventory | equipment => exact shows_updateRegion h (by decide)
  | skills =>
    cases part with
    | skills =>
      obtain ⟨hskills, htells, hreported, -⟩ := h
      refine ⟨rfl, ?_, by rintro _ ⟨⟩; exact hshown rfl, ?_⟩
      · dsimp only [take]
        rw [hskills]
        exact tellsSkills_publishSkills htells hreported (hshown rfl)
      · obtain ⟨array, rfl⟩ := hshown rfl
        obtain ⟨level, hlevel⟩ := Option.isSome_iff_exists.mp (isSome_computeCombatLevel array)
        dsimp only [take]
        rw [hlevel, Option.some_or, if_pos rfl, Option.map_some, Option.bind_some, hlevel]
    | coordinates => exact ⟨h.1, h.2.told, h.2.now, h.2.nowhere⟩
    | stats | hubMeta | inventory | equipment => exact h
  | inventory =>
    by_cases hsame : part = .inventory
    · obtain rfl := hsame
      exact showsItems_setItems (some shown)
    · rw [if_neg hsame]
      exact shows_setItems h _ (fun hpart ↦ absurd hpart hsame) (fun _ ↦ by decide)
  | equipment =>
    by_cases hsame : part = .equipment
    · obtain rfl := hsame
      exact showsItems_setItems (some shown)
    · rw [if_neg hsame]
      exact shows_setItems h _ (fun _ ↦ by decide) (fun hpart ↦ absurd hpart hsame)

/-! ## A whole poll -/

theorem mem_takenSections (part : Section) : part ∈ takenSections := by cases part <;> decide

theorem mem_sharedSections (h : part ≠ .hubMeta) : part ∈ sharedSections := by
  cases part with
  | hubMeta => exact absurd rfl h
  | stats | coordinates | skills | inventory | equipment => decide

section Poll

variable {shown : Section → Option (Option Shown)} {parts : List Section}

theorem shows_foldl_drop (h : member.Shows itemDetails value part) (hparts : .hubMeta ∉ parts) :
    (parts.foldl (fun member part ↦ if shown part = some none then member.drop part else member) member).Shows
      itemDetails (if part ∈ parts ∧ shown part = some none then none else value) part := by
  induction parts generalizing member value with
  | nil => simpa using h
  | cons other parts ih =>
    obtain ⟨hother, hrest⟩ : Section.hubMeta ≠ other ∧ Section.hubMeta ∉ parts := by simpa using hparts
    rw [List.foldl_cons]
    by_cases hnull : shown other = some none
    · rw [if_pos hnull]
      convert ih (shows_drop h hother.symm) hrest using 1
      by_cases hpart : part = other
      · simp [hpart, hnull]
      · simp [hpart]
    · rw [if_neg hnull]
      convert ih h hrest using 1
      by_cases hpart : part = other
      · simp [hpart, hnull]
      · simp [hpart]

theorem shows_foldl_take (h : member.Shows itemDetails value part)
    (hshown : ∀ value ∈ (shown .skills).getD none, value.Reported) :
    (parts.foldl (fun member part ↦ ((shown part).getD none).elim member fun value ↦
      member.take itemDetails value part) member).Shows itemDetails
      (if part ∈ parts then ((shown part).getD none).or value else value) part := by
  induction parts generalizing member value with
  | nil => simpa using h
  | cons other parts ih =>
    rw [List.foldl_cons]
    cases htaken : (shown other).getD none with
    | none =>
      rw [Option.elim_none]
      convert ih h using 1
      by_cases hpart : part = other
      · simp [hpart, htaken]
      · simp [hpart]
    | some taken =>
      have hreported : other = .skills → taken.Reported := by
        rintro rfl
        exact hshown taken htaken
      rw [Option.elim_some]
      convert ih (shows_take h hreported) using 1
      by_cases hpart : part = other
      · simp [hpart, htaken]
      · simp [hpart]

/-- What a poll leaves alone until its end. -/
structure Keeps (before after : LiveMember) : Prop where
  online : after.fields.online = before.fields.online
  lastSeen : after.fields.lastSeen = before.fields.lastSeen
  presence : after.topics.presence = before.topics.presence
  hubMeta : after.topics.hubMeta = before.topics.hubMeta

theorem Keeps.trans {first second third : LiveMember} (h : Keeps first second) (h' : Keeps second third) :
    Keeps first third :=
  ⟨h'.online.trans h.online, h'.lastSeen.trans h.lastSeen, h'.presence.trans h.presence, h'.hubMeta.trans h.hubMeta⟩

theorem Keeps.updateRegion {before : LiveMember} (h : Keeps before member) : Keeps before member.updateRegion := by
  unfold LiveMember.updateRegion
  split_ifs <;> exact ⟨h.online, h.lastSeen, h.presence, h.hubMeta⟩

theorem keeps_drop (member : LiveMember) (other : Section) : Keeps member (member.drop other) := by
  cases other with
  | coordinates =>
    rw [drop]
    exact Keeps.updateRegion ⟨rfl, rfl, rfl, rfl⟩
  | stats | hubMeta | skills | inventory | equipment => exact ⟨rfl, rfl, rfl, rfl⟩

theorem keeps_take (member : LiveMember) (value : Shown) (other : Section) :
    Keeps member (member.take itemDetails value other) := by
  cases other with
  | coordinates =>
    rw [take]
    exact Keeps.updateRegion ⟨rfl, rfl, rfl, rfl⟩
  | stats | hubMeta | skills | inventory | equipment => exact ⟨rfl, rfl, rfl, rfl⟩

theorem keeps_foldl {step : LiveMember → Section → LiveMember} (hstep : ∀ member part, Keeps member (step member part))
    (parts : List Section) (member : LiveMember) : Keeps member (parts.foldl step member) := by
  induction parts generalizing member with
  | nil => exact ⟨rfl, rfl, rfl, rfl⟩
  | cons part parts ih => exact (hstep member part).trans (ih _)

/-- The topic of the drops of XP has those that were announced last, if there were any. -/
structure Announces (member : LiveMember) : Prop where
  last : ∀ drops ∈ member.topics.xp, drops ≠ [] ∧ drops <:+ member.announced
  silent : member.topics.xp = none → member.announced = []

theorem Announces.updateRegion (h : member.Announces) : member.updateRegion.Announces := by
  unfold LiveMember.updateRegion
  split_ifs <;> exact ⟨h.last, h.silent⟩

theorem announces_drop (h : member.Announces) (other : Section) : (member.drop other).Announces := by
  cases other with
  | coordinates =>
    rw [drop]
    exact Announces.updateRegion ⟨h.last, h.silent⟩
  | stats | hubMeta | skills | inventory | equipment => exact ⟨h.last, h.silent⟩

theorem announces_take (h : member.Announces) (value : Shown) (other : Section) :
    (member.take itemDetails value other).Announces := by
  cases other with
  | coordinates =>
    rw [take]
    exact Announces.updateRegion ⟨h.last, h.silent⟩
  | skills =>
    rw [take]
    generalize member.dropsTo value.parseSkills = drops
    constructor
    case last =>
      intro told htold
      dsimp only at htold ⊢
      split_ifs at htold with hnone
      · rw [hnone, List.append_nil]
        exact h.last told htold
      · obtain rfl := Option.some.inj htold
        exact ⟨hnone, List.suffix_append _ _⟩
    case silent =>
      intro htold
      dsimp only at htold ⊢
      split_ifs at htold with hnone
      rw [hnone, List.append_nil]
      exact h.silent htold
  | stats | hubMeta | inventory | equipment => exact ⟨h.last, h.silent⟩

theorem announces_foldl {step : LiveMember → Section → LiveMember}
    (hstep : ∀ member part, Announces member → Announces (step member part)) (parts : List Section)
    (h : member.Announces) : (parts.foldl step member).Announces := by
  induction parts generalizing member with
  | nil => exact h
  | cons part parts ih => exact ih (hstep member part h)

variable {plain : MemberData} {data : Sync.MemberData}

/-- What the page has of a member is what it works out from the sections as they are now, and everyone was told
of it; the drops of XP that were announced last stay. -/
structure Follows (itemDetails : ℤ → Bool) (plain : MemberData) (member : LiveMember) : Prop where
  shows : ∀ part, member.Shows itemDetails (plain.sections part) part
  hubMeta : member.topics.hubMeta = member.fields.hubMeta
  online : member.fields.online = plain.online
  lastSeen : member.fields.lastSeen = plain.lastSeen
  presence : member.topics.presence = some member.fields.online ∨
    member.topics.presence = none ∧ member.fields.online = false ∧ member.fields.lastSeen = none
  announces : member.Announces

/-- XP comes as an array, as its column has it. -/
def Typed (data : Sync.MemberData) : Prop := ∀ payload ∈ data.sections .skills, ∃ xp, payload = .array xp

theorem reported_of_typed (h : Typed data) :
    ∀ value ∈ ((data.sections .skills).map (transformFromStorage .skills)).getD none, value.Reported := by
  intro value hvalue
  cases hdata : data.sections .skills with
  | none => simp [hdata] at hvalue
  | some payload =>
    obtain ⟨xp, rfl⟩ := h payload hdata
    rw [hdata, Option.map_some, Option.getD_some] at hvalue
    cases xp with
    | nil => cases hvalue
    | cons first xp => exact ⟨first :: xp, (Option.some.inj hvalue).symm⟩

theorem follows_poll (h : member.Follows itemDetails plain) (htyped : Typed data) :
    (member.step itemDetails (.poll data)).Follows itemDetails (plain.step (.poll data)) := by
  let shown (part : Section) := (data.sections part).map (transformFromStorage part)
  let dropped := sharedSections.foldl
    (fun member part ↦ if shown part = some none then member.drop part else member) member
  let taken := takenSections.foldl
    (fun member part ↦ ((shown part).getD none).elim member fun value ↦ member.take itemDetails value part) dropped
  have hkept : Keeps member taken := by
    refine Keeps.trans (keeps_foldl (fun member part ↦ ?_) _ member) (keeps_foldl (fun member part ↦ ?_) _ dropped)
    · split_ifs
      · exact keeps_drop member part
      · exact ⟨rfl, rfl, rfl, rfl⟩
    · cases (shown part).getD none with
      | none => exact ⟨rfl, rfl, rfl, rfl⟩
      | some value => exact keeps_take member value part
  have hshows (part : Section) : taken.Shows itemDetails ((plain.update data).sections part) part := by
    have hdropped : dropped.Shows itemDetails
        (if part ∈ sharedSections ∧ shown part = some none then none else plain.sections part) part :=
      shows_foldl_drop (h.shows part) (by decide)
    have htaken : taken.Shows itemDetails
        (if part ∈ takenSections then ((shown part).getD none).or
          (if part ∈ sharedSections ∧ shown part = some none then none else plain.sections part)
        else if part ∈ sharedSections ∧ shown part = some none then none else plain.sections part) part :=
      shows_foldl_take hdropped (reported_of_typed htyped)
    convert htaken using 1
    rw [if_pos (mem_takenSections part), MemberData.sections_update]
    unfold shown Cursor.Cell.receive
    cases data.sections part with
    | none => simp
    | some payload =>
      cases hvalue : transformFromStorage part payload with
      | some value => simp [hvalue]
      | none =>
        have hpart : part ≠ .hubMeta := by
          rintro rfl
          cases hvalue
        simp [hvalue, mem_sharedSections hpart]
  have hannounces : taken.Announces := by
    refine announces_foldl (fun member part h ↦ ?_) _ (announces_foldl (fun member part h ↦ ?_) _ h.announces)
    · cases (shown part).getD none with
      | none => exact h
      | some value => exact announces_take h value part
    · split_ifs
      · exact announces_drop h part
      · exact h
  have hpresence : taken.topics.presence = some taken.fields.online ∨
      taken.topics.presence = none ∧ taken.fields.online = false ∧ taken.fields.lastSeen = none := by
    rw [hkept.presence, hkept.online, hkept.lastSeen]
    exact h.presence
  have hfollows : (if ((shown .hubMeta).getD none).isSome then
      { taken with topics := { taken.topics with hubMeta := taken.fields.hubMeta } } else taken).Follows itemDetails
      (plain.update data) := by
    split_ifs with hpublished
    · exact
        { shows := fun part ↦ by
            have hpart := hshows part
            cases part with
            | coordinates => exact ⟨hpart.1, hpart.2.told, hpart.2.now, hpart.2.nowhere⟩
            | stats | hubMeta | skills | inventory | equipment => exact hpart
          hubMeta := rfl
          online := hkept.online.trans h.online
          lastSeen := hkept.lastSeen.trans h.lastSeen
          presence := hpresence
          announces := ⟨hannounces.last, hannounces.silent⟩ }
    · refine
        { shows := hshows
          hubMeta := ?_
          online := hkept.online.trans h.online
          lastSeen := hkept.lastSeen.trans h.lastSeen
          presence := hpresence
          announces := hannounces }
      have hsame : (plain.update data).sections .hubMeta = plain.sections .hubMeta := by
        rw [MemberData.sections_update]
        cases hdata : data.sections .hubMeta with
        | none => rfl
        | some payload => simp [shown, hdata, transformFromStorage] at hpublished
      have hfields : taken.fields.hubMeta = plain.sections .hubMeta := (hshows .hubMeta).trans hsame
      have hbefore : member.fields.hubMeta = plain.sections .hubMeta := h.shows .hubMeta
      rw [hkept.hubMeta, h.hubMeta, hbefore, hfields]
  exact hfollows

theorem follows_step (h : member.Follows itemDetails plain) (event : MemberEvent)
    (htyped : ∀ data, event = .poll data → Typed data) :
    (member.step itemDetails event).Follows itemDetails (plain.step event) := by
  cases event with
  | poll data => exact follows_poll h (htyped data rfl)
  | presence entry =>
    refine
      { h with
        shows := fun part ↦ ?_
        online := rfl
        lastSeen := rfl
        presence := ?_
        announces := ⟨h.announces.last, h.announces.silent⟩ }
    · have hpart := h.shows part
      cases part with
      | coordinates => exact ⟨hpart.1, hpart.2.told, hpart.2.now, hpart.2.nowhere⟩
      | stats | hubMeta | skills | inventory | equipment => exact hpart
    · dsimp only [step, LiveMember.updatePresence]
      split_ifs with hchanged
      · exact .inl rfl
      · obtain ⟨honline, hlastSeen⟩ : member.fields.online = entry.online ∧
            member.fields.lastSeen = entry.lastSeen.map toDate := by simpa using hchanged
        rw [← honline, ← hlastSeen]
        exact h.presence
  | regionsLoaded names =>
    have hkept : Keeps member (member.step itemDetails (.regionsLoaded names)) :=
      Keeps.updateRegion ⟨rfl, rfl, rfl, rfl⟩
    have hset (part : Section) (hpart : part ≠ .coordinates) :
        ({ member with names } : LiveMember).Shows itemDetails (plain.sections part) part := by
      have hshows := h.shows part
      cases part with
      | coordinates => exact absurd rfl hpart
      | stats | hubMeta | skills | inventory | equipment => exact hshows
    have hfields : (member.step itemDetails (.regionsLoaded names)).fields.hubMeta = plain.sections .hubMeta :=
      shows_updateRegion (hset .hubMeta (by decide)) (by decide)
    constructor
    case shows =>
      intro part
      by_cases hpart : part = .coordinates
      · obtain rfl := hpart
        obtain ⟨hcoordinates, hplaced⟩ := h.shows .coordinates
        exact ⟨coordinates_updateRegion.trans hcoordinates, placed_updateRegion hplaced.told⟩
      · exact shows_updateRegion (hset part hpart) hpart
    case hubMeta => exact (hkept.hubMeta.trans h.hubMeta).trans ((h.shows .hubMeta).trans hfields.symm)
    case online => exact hkept.online.trans h.online
    case lastSeen => exact hkept.lastSeen.trans h.lastSeen
    case presence =>
      rw [hkept.presence, hkept.online, hkept.lastSeen]
      exact h.presence
    case announces => exact Announces.updateRegion ⟨h.announces.last, h.announces.silent⟩

theorem follows_new (itemDetails : ℤ → Bool) (names : RegionNames) : (new names).Follows itemDetails .new where
  shows part := by
    cases part with
    | stats => exact ⟨rfl, rfl⟩
    | hubMeta => exact rfl
    | coordinates => exact ⟨rfl, rfl, by simp [new], fun _ ↦ rfl⟩
    | skills => exact ⟨rfl, fun name _ ↦ ⟨rfl, by simp [new]⟩, by simp [MemberData.new], rfl⟩
    | inventory | equipment => exact ⟨rfl, rfl, rfl⟩
  hubMeta := rfl
  online := rfl
  lastSeen := rfl
  presence := .inr ⟨rfl, rfl, rfl⟩
  announces := ⟨by simp [new], fun _ ↦ rfl⟩

end Poll

theorem follows_foldl {plain : MemberData} {member : LiveMember} (h : member.Follows itemDetails plain)
    {events : List MemberEvent} (htyped : ∀ data, .poll data ∈ events → Typed data) :
    (events.foldl (step itemDetails) member).Follows itemDetails (events.foldl MemberData.step plain) :=
  Run.foldl_related (R := fun plain member ↦ Follows itemDetails plain member)
    (fun _ _ event h (htyped : ∀ data, event = .poll data → Typed data) ↦ follows_step h event htyped)
    h fun event hevent data (hdata : event = .poll data) ↦ htyped data (hdata ▸ hevent)

/-- Somebody's XP and items come in, they gain XP and no longer share their items. -/
def sharedForAWhile : List MemberEvent :=
  [.presence ⟨"Ann", true, none⟩,
    .poll ⟨"Ann", fun
      | .skills => some (.array [10, 20])
      | .inventory => some (.array [995, 7])
      | _ => none⟩,
    .poll ⟨"Ann", fun
      | .skills => some (.array [15, 20])
      | .inventory => some (.array [])
      | _ => none⟩]

theorem typed_sharedForAWhile (data : Sync.MemberData) (h : .poll data ∈ sharedForAWhile) : Typed data := by
  simp only [sharedForAWhile, List.mem_cons, List.not_mem_nil, or_false, reduceCtorEq, false_or,
    MemberEvent.poll.injEq] at h
  obtain rfl | rfl := h
  · rintro _ ⟨⟩
    exact ⟨_, rfl⟩
  · rintro _ ⟨⟩
    exact ⟨_, rfl⟩

section Drops

variable {name : String} {previous skills : List Skill}

/-- All XP of a skill that was announced so far. -/
def gained (member : LiveMember) (name : String) : ℤ :=
  ((member.announced.filter (·.name = name)).map Skill.xp).sum

/-- The XP of a skill, where there is any. -/
def xpOf (skills : Option (List Skill)) (name : String) : ℤ :=
  ((skills.bind fun skills ↦ skillNamed skills name).map Skill.xp).getD 0

/-- Of the drops of names that are all different, a name has its own. -/
theorem filter_filterMap_name {names : List String} (hdistinct : names.Nodup) {drop : String → Option Skill}
    (hdrop : ∀ name, ∀ skill ∈ drop name, skill.name = name) (hname : name ∈ names) :
    (names.filterMap drop).filter (·.name = name) = (drop name).toList := by
  induction names with
  | nil => cases hname
  | cons first names ih =>
    obtain ⟨hfirst, hrest⟩ := List.nodup_cons.mp hdistinct
    have hothers (hnot : name ∉ names) : (names.filterMap drop).filter (·.name = name) = [] := by
      rw [List.filter_eq_nil_iff]
      intro skill hskill hsame
      obtain ⟨other, hother, hdropped⟩ := List.mem_filterMap.mp hskill
      have hsame' : skill.name = name := by simpa using hsame
      exact hnot (hsame' ▸ (hdrop other skill hdropped).symm ▸ hother)
    by_cases hsame : name = first
    · obtain rfl := hsame
      cases hfound : drop name with
      | none => rw [List.filterMap_cons_none hfound, hothers hfirst, Option.toList_none]
      | some skill =>
        rw [List.filterMap_cons_some hfound, List.filter_cons_of_pos, hothers hfirst, Option.toList_some]
        simpa using hdrop name skill hfound
    · have hmem : name ∈ names := (List.mem_cons.mp hname).resolve_left hsame
      cases hfound : drop first with
      | none => rw [List.filterMap_cons_none hfound, ih hrest hmem]
      | some skill =>
        rw [List.filterMap_cons_some hfound, List.filter_cons_of_neg, ih hrest hmem]
        simpa [hdrop first skill hfound] using Ne.symm hsame

/-- What is announced between two reports is what was gained. -/
theorem sum_xpDrops (hname : name ∈ allSkillNames) (htotal : name ≠ "Overall") {before after : Skill}
    (hbefore : skillNamed previous name = some before) (hafter : skillNamed skills name = some after)
    (hgrown : before.xp ≤ after.xp) :
    (((xpDrops previous skills).filter (·.name = name)).map Skill.xp).sum = after.xp - before.xp := by
  rw [xpDrops, filter_filterMap_name (by decide) _ hname]
  · rw [hafter, hbefore]
    dsimp only
    split_ifs with hgain
    · simp
    · have hsame : ¬ 0 < after.xp - before.xp := fun hgained ↦ hgain ⟨hgained, htotal⟩
      simp only [Option.toList_none, List.map_nil, List.sum_nil]
      omega
  · intro other skill hskill
    split at hskill
    · split_ifs at hskill
      · obtain rfl := Option.some.inj hskill
        rfl
      · cases hskill
    · cases hskill

/-- The skills, and what was announced, are as they were. -/
structure SameSkills (before after : LiveMember) : Prop where
  skills : after.fields.skills = before.fields.skills
  announced : after.announced = before.announced

theorem SameSkills.trans {first second third : LiveMember} (h : SameSkills first second)
    (h' : SameSkills second third) : SameSkills first third :=
  ⟨h'.skills.trans h.skills, h'.announced.trans h.announced⟩

theorem SameSkills.updateRegion {before : LiveMember} (h : SameSkills before member) :
    SameSkills before member.updateRegion := by
  unfold LiveMember.updateRegion
  split_ifs <;> exact ⟨h.skills, h.announced⟩

theorem sameSkills_drop (member : LiveMember) (hother : other ≠ .skills) : SameSkills member (member.drop other) := by
  cases other with
  | skills => exact absurd rfl hother
  | coordinates =>
    rw [drop]
    exact SameSkills.updateRegion ⟨rfl, rfl⟩
  | stats | hubMeta | inventory | equipment => exact ⟨rfl, rfl⟩

theorem sameSkills_take (member : LiveMember) (value : Shown) (hother : other ≠ .skills) :
    SameSkills member (member.take itemDetails value other) := by
  cases other with
  | skills => exact absurd rfl hother
  | coordinates =>
    rw [take]
    exact SameSkills.updateRegion ⟨rfl, rfl⟩
  | stats | hubMeta | inventory | equipment => exact ⟨rfl, rfl⟩

theorem sameSkills_foldl {step : LiveMember → Section → LiveMember} {parts : List Section}
    (hstep : ∀ member, ∀ part ∈ parts, SameSkills member (step member part)) (member : LiveMember) :
    SameSkills member (parts.foldl step member) := by
  induction parts generalizing member with
  | nil => exact ⟨rfl, rfl⟩
  | cons part parts ih =>
    exact (hstep member part List.mem_cons_self).trans
      (ih (fun member later hlater ↦ hstep member later (List.mem_cons_of_mem _ hlater)) _)

/-- A poll that does not drop the skills replaces them or leaves them; what was gained is announced. -/
theorem skills_update (itemDetails : ℤ → Bool) (member : LiveMember) {shown : Section → Option (Option Shown)}
    (hnull : shown .skills ≠ some none) :
    (member.update itemDetails shown).fields.skills =
        (((shown .skills).getD none).map Shown.parseSkills).or member.fields.skills ∧
      (member.update itemDetails shown).announced =
        member.announced ++ (((shown .skills).getD none).elim [] fun value ↦
          member.fields.skills.elim [] fun previous ↦ xpDrops previous value.parseSkills) := by
  let takeStep (member : LiveMember) (part : Section) : LiveMember :=
    ((shown part).getD none).elim member fun value ↦ member.take itemDetails value part
  have hother (member : LiveMember) (part : Section) (hpart : part ≠ .skills) :
      SameSkills member (takeStep member part) := by
    unfold takeStep
    cases (shown part).getD none with
    | none => exact ⟨rfl, rfl⟩
    | some value => exact sameSkills_take member value hpart
  let dropped := sharedSections.foldl
    (fun member part ↦ if shown part = some none then member.drop part else member) member
  have hdropped : SameSkills member dropped := by
    refine sameSkills_foldl (fun member part _ ↦ ?_) member
    split_ifs with hpart
    · exact sameSkills_drop member fun hsame ↦ hnull (hsame ▸ hpart)
    · exact ⟨rfl, rfl⟩
  let before := [Section.stats, .hubMeta, .coordinates].foldl takeStep dropped
  have hbefore : SameSkills member before :=
    hdropped.trans (sameSkills_foldl (fun member part hpart ↦ hother member part (by rintro rfl; simp at hpart)) _)
  let after := [Section.inventory, .equipment].foldl takeStep (takeStep before .skills)
  have hafter : SameSkills (takeStep before .skills) after :=
    sameSkills_foldl (fun member part hpart ↦ hother member part (by rintro rfl; simp at hpart)) _
  have hupdate : SameSkills after (member.update itemDetails shown) := by
    have hlast : SameSkills after (if ((shown .hubMeta).getD none).isSome then
        { after with topics := { after.topics with hubMeta := after.fields.hubMeta } } else after) := by
      split_ifs <;> exact ⟨rfl, rfl⟩
    exact hlast
  have hall := hafter.trans hupdate
  rw [hall.skills, hall.announced]
  unfold takeStep
  cases (shown .skills).getD none with
  | none => simp [hbefore.skills, hbefore.announced]
  | some value => simp [take, dropsTo, hbefore.skills, hbefore.announced]

/-- A poll has no skills, or an array of them in which no skill has less XP than the member had. -/
def Grows (member : LiveMember) : MemberEvent → Prop
  | .poll data => ∀ payload ∈ data.sections .skills, ∃ xp ≠ [], payload = .array xp ∧
      ∀ name ∈ allSkillNames,
        xpOf member.fields.skills name ≤ xpOf (some (transformSkillsFromStorage xp).parseSkills) name
  | _ => True

/-- The page has the skills of a report. -/
def Skilled (member : LiveMember) : Prop :=
  ∃ xp, member.fields.skills = some (transformSkillsFromStorage xp).parseSkills

/-- A step that leaves the skills announces nothing. -/
theorem SameSkills.gained {before after : LiveMember} (h : SameSkills before after) (hskilled : before.Skilled)
    (name : String) :
    after.Skilled ∧ after.gained name - xpOf after.fields.skills name =
      before.gained name - xpOf before.fields.skills name := by
  unfold Skilled LiveMember.gained
  rw [h.skills, h.announced]
  exact ⟨hskilled, rfl⟩

/-- What is announced at a step is what is gained at it. -/
theorem gained_step (h : member.Skilled) {event : MemberEvent} (hgrows : member.Grows event) {name : String}
    (hname : name ∈ allSkillNames) (htotal : name ≠ "Overall") :
    (member.step itemDetails event).Skilled ∧
      gained (member.step itemDetails event) name - xpOf (member.step itemDetails event).fields.skills name =
        gained member name - xpOf member.fields.skills name := by
  cases event with
  | presence entry => exact ⟨h, rfl⟩
  | regionsLoaded names =>
    have hsame : SameSkills member (member.step itemDetails (.regionsLoaded names)) :=
      SameSkills.updateRegion ⟨rfl, rfl⟩
    exact hsame.gained h name
  | poll data =>
    let shown (part : Section) := (data.sections part).map (transformFromStorage part)
    have hstep : member.step itemDetails (.poll data) = member.update itemDetails shown := rfl
    rw [hstep]
    cases hdata : data.sections .skills with
    | none =>
      have hnone : shown .skills = none := by simp [shown, hdata]
      have hnull : shown .skills ≠ some none := by simp [hnone]
      obtain ⟨hskills, hannounced⟩ := skills_update itemDetails member hnull
      exact SameSkills.gained ⟨by simpa [hnone] using hskills, by simpa [hnone] using hannounced⟩ h name
    | some payload =>
      obtain ⟨xp, hxp, rfl, hmore⟩ := hgrows payload hdata
      have hvalue : shown .skills = some (some (transformSkillsFromStorage xp)) := by
        cases xp with
        | nil => exact absurd rfl hxp
        | cons first xp => simp [shown, hdata, transformFromStorage]
      have hnull : shown .skills ≠ some none := by simp [hvalue]
      obtain ⟨hskills, hannounced⟩ := skills_update itemDetails member hnull
      obtain ⟨old, hold⟩ := h
      obtain ⟨before, hbefore, -, -⟩ := exists_skillNamed old hname
      obtain ⟨after, hafter, -, -⟩ := exists_skillNamed xp hname
      rw [hvalue, hold] at hskills hannounced
      have hgrown := hmore name hname
      simp only [xpOf, hold, Option.bind_some, hbefore, hafter, Option.map_some, Option.getD_some] at hgrown
      refine ⟨⟨xp, hskills⟩, ?_⟩
      have hsum := sum_xpDrops hname htotal hbefore hafter hgrown
      unfold LiveMember.gained
      rw [hskills, hannounced, hold]
      simp only [Option.getD_some, Option.elim_some, Option.map_some, Option.some_or, List.filter_append,
        List.map_append, List.sum_append, hsum, xpOf, Option.bind_some, hbefore, hafter]
      omega

/-- While the XP is known and no skill loses any, what is announced of a skill is just what it gains: no drop is
left out and none is announced twice. -/
theorem gained_run (itemDetails : ℤ → Bool) (names : RegionNames) {earlier later : List MemberEvent}
    (htyped : ∀ data, .poll data ∈ earlier → Typed data)
    (hshown : (earlier.foldl (step itemDetails) (new names)).fields.skills.isSome)
    (hgrows : Run.Along (step itemDetails) Grows (earlier.foldl (step itemDetails) (new names)) later)
    {name : String} (hname : name ∈ skillNames) :
    gained ((earlier ++ later).foldl (step itemDetails) (new names)) name -
        gained (earlier.foldl (step itemDetails) (new names)) name =
      xpOf ((earlier ++ later).foldl (step itemDetails) (new names)).fields.skills name -
        xpOf (earlier.foldl (step itemDetails) (new names)).fields.skills name := by
  have hall : name ∈ allSkillNames ∧ name ≠ "Overall" := by
    revert name
    decide
  let start := earlier.foldl (step itemDetails) (new names)
  have hstart : start.Skilled := by
    obtain ⟨hskills, -, hreported, -⟩ := (follows_foldl (follows_new itemDetails names) htyped).shows .skills
    cases hvalue : (earlier.foldl MemberData.step .new).sections .skills with
    | none =>
      rw [hskills, hvalue] at hshown
      cases hshown
    | some shown =>
      obtain ⟨xp, rfl⟩ := hreported shown hvalue
      exact ⟨xp, by rw [hskills, hvalue, Option.map_some]⟩
  have hrun := Run.always_of_along (P := fun member ↦ member.Skilled ∧
      gained member name - xpOf member.fields.skills name = gained start name - xpOf start.fields.skills name)
    (fun member event hmember hgrow ↦ by
      obtain ⟨hskilled, hsame⟩ := gained_step hmember.1 hgrow hall.1 hall.2
      exact ⟨hskilled, hsame.trans hmember.2⟩)
    ⟨hstart, rfl⟩ hgrows
  have hfinal := hrun.final.2
  unfold start at hfinal
  rw [List.foldl_append]
  omega

theorem gained_run_sharedForAWhile :
    gained ((sharedForAWhile.take 2 ++ sharedForAWhile.drop 2).foldl (step fun _ ↦ true) (new fun _ ↦ none))
        "Agility" -
      gained ((sharedForAWhile.take 2).foldl (step fun _ ↦ true) (new fun _ ↦ none)) "Agility" = 15 - 10 := by
  have hgrows : Run.Along (step fun _ ↦ true) Grows
      ((sharedForAWhile.take 2).foldl (step fun _ ↦ true) (new fun _ ↦ none)) (sharedForAWhile.drop 2) := by
    refine ⟨?_, trivial⟩
    rintro _ ⟨⟩
    exact ⟨_, by simp, rfl, by decide +kernel⟩
  exact (gained_run _ _ (fun data hdata ↦ typed_sharedForAWhile data (List.mem_of_mem_take hdata)) rfl hgrows
    (by decide)).trans (by decide +kernel)

end Drops

end LiveMember

end OsrsMap.Page
