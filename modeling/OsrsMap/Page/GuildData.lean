import OsrsMap.Library.Keyed
import OsrsMap.Library.Cursor
import OsrsMap.Sync.Account
import Mathlib.Algebra.Ring.Int.Defs

/-!
# The page's members

`GuildData.update` (`site/src/data/guild-data.js`) and `MemberData.update`
(`site/src/data/member-data.js`): what the page makes of an answer to a poll. What is worked out
from a section (levels, item quantities, the region) and what is published are left out. Times are
microseconds, as the database has them; a `Date` keeps the milliseconds.
-/

namespace OsrsMap.Page

open Sync (Section Payload)
open Keyed (Map alterEach alterAll)
open Cursor (Cell)

/-! ## Answers -/

structure RosterEntry where
  name : String
  online : Bool
  lastSeen : Option ℤ
deriving DecidableEq, Repr

/-- What `/api/members` answers with. -/
structure MembersResponse where
  cursor : ℤ
  roster : List RosterEntry
  members : List Sync.MemberData

/-- `new Date(time)`. -/
def toDate (time : ℤ) : ℤ := time / 1000 * 1000

/-! ## Sections -/

/-- `SkillName`, but for `Overall`. -/
def skillNames : List String :=
  ["Agility", "Attack", "Construction", "Cooking", "Crafting", "Defence", "Farming", "Firemaking",
    "Fishing", "Fletching", "Herblore", "Hitpoints", "Hunter", "Magic", "Mining", "Prayer",
    "Ranged", "Runecraft", "Slayer", "Smithing", "Strength", "Thieving", "Woodcutting", "Sailing"]

/-- A section as the page has it; a number that an array is too short for is undefined. -/
inductive Shown where
  | items (items : List (ℤ × Option ℤ))
  | skills (xp : List (String × ℤ)) (overall : ℤ)
  | stats (hitpoints prayer : Option ℤ × Option ℤ) (world : Option ℤ)
  | coordinates (x y plane : Option ℤ)
  | stored (value : Payload)
deriving DecidableEq, Repr

def transformItemsFromStorage : List ℤ → List (ℤ × Option ℤ)
  | [] => []
  | [id] => [(id, none)]
  | id :: quantity :: rest => (id, some quantity) :: transformItemsFromStorage rest

def transformSkillsFromStorage (skills : List ℤ) : Shown :=
  let xp := skillNames.zipIdx.map fun (name, index) ↦ (name, skills[index]?.getD 0)
  .skills xp (xp.map Prod.snd).sum

def transformStatsFromStorage (stats : List ℤ) : Shown :=
  .stats (stats[0]?, stats[1]?) (stats[2]?, stats[3]?) stats[6]?

def transformCoordinatesFromStorage (coordinates : List ℤ) : Shown :=
  .coordinates coordinates[0]? (coordinates[1]?.map (· + 1)) coordinates[2]?

/-- `transformFromStorage` for one section: none is `null`. `hub_meta` has no transformer, and is
the only column that holds JSON. -/
def transformFromStorage : Section → Payload → Option Shown
  | .hubMeta, value => some (.stored value)
  | _, .json text => some (.stored (.json text))
  | _, .array [] => none
  | .inventory, .array items | .equipment, .array items =>
    some (.items (transformItemsFromStorage items))
  | .skills, .array skills => some (transformSkillsFromStorage skills)
  | .stats, .array stats => some (transformStatsFromStorage stats)
  | .coordinates, .array coordinates => some (transformCoordinatesFromStorage coordinates)

/-! ## Members -/

/-- A member on the page; a section that is none is undefined. -/
structure MemberData where
  sections : Section → Option Shown
  online : Bool
  lastSeen : Option ℤ
  hasData : Bool
  reloadRequested : Bool

namespace MemberData

/-- `new MemberData(name)`. -/
def new : MemberData where
  sections _ := none
  online := false
  lastSeen := none
  hasData := false
  reloadRequested := false

def updatePresence (member : MemberData) (entry : RosterEntry) : MemberData :=
  { member with online := entry.online, lastSeen := entry.lastSeen.map toDate }

/-- `MemberData.update`: a section that is undefined is left as it is, one that is `null` is
dropped. Only `meta` is not looked at for `null`. -/
def update (member : MemberData) (data : Sync.MemberData) : MemberData :=
  { member with
    sections := fun part ↦
      match (data.sections part).map (transformFromStorage part) with
      | none => member.sections part
      | some none => if part = .hubMeta then member.sections part else none
      | some (some value) => some value }

/-- Whether the member's data is missing and was not asked for yet. -/
def waits (member : MemberData) : Bool := !member.hasData && !member.reloadRequested

def requestReload (member : MemberData) : MemberData :=
  if member.waits then { member with reloadRequested := true } else member

end MemberData

/-! ## The map -/

/-- The `Map` of the members. Its order is read nowhere: `sortedMembers` sorts. -/
abbrev GuildData := Map String MemberData

namespace GuildData

/-- The first loop of `update`: everyone on the roster has a member. -/
def visitRoster (page : GuildData) (roster : List RosterEntry) : GuildData :=
  alterEach RosterEntry.name
    (fun entry member ↦ some ((member.getD .new).updatePresence entry)) roster page

/-- The second loop: data of members the page does not have is skipped. -/
def takeMembers (page : GuildData) (members : List Sync.MemberData) : GuildData :=
  alterEach Sync.MemberData.name
    (fun data member ↦ member.map fun member ↦ { member.update data with hasData := true })
    members page

/-- What the first two loops make of the page. -/
def loaded (page : GuildData) (response : MembersResponse) : GuildData :=
  (page.visitRoster response.roster).takeMembers response.members

/-- Whether the roster has a name that is new to the page. -/
def appears (page : GuildData) (roster : List RosterEntry) : Bool :=
  roster.any fun entry ↦ (page.lookup entry.name).isNone

/-- `needsFullReload`, as it is in the end. -/
def needsFullReload (page : GuildData) (response : MembersResponse) : Bool :=
  page.appears response.roster &&
    (page.loaded response).keys.any fun name ↦
      ((page.loaded response).lookup name).any MemberData.waits

/-- Each member asks for a reload once. -/
def requestReloads (page : GuildData) : GuildData :=
  alterAll (fun _ member ↦ some member.requestReload) page

/-- The last loop: who is not on the roster is dropped, data and all. -/
def dropAbsent (page : GuildData) (roster : List RosterEntry) : GuildData :=
  alterAll (fun name member ↦ if name ∈ roster.map RosterEntry.name then some member else none)
    page

/-- The page after an answer. -/
def members (page : GuildData) (response : MembersResponse) : GuildData :=
  let loaded := page.loaded response
  let asked := if page.appears response.roster then requestReloads loaded else loaded
  asked.dropAbsent response.roster

/-- `GuildData.update`, with the `from_time` for the next poll: the epoch when a full reload is
needed. -/
def update (page : GuildData) (response : MembersResponse) : GuildData × ℤ :=
  (page.members response,
    if page.needsFullReload response then 0 else toDate response.cursor)

end GuildData

/-! ## What an answer does to one name -/

/-- No name is on the roster twice or has data twice. -/
structure MembersResponse.Distinct (response : MembersResponse) : Prop where
  roster : (response.roster.map RosterEntry.name).Nodup
  members : (response.members.map Sync.MemberData.name).Nodup

/-- The data an answer has for a name. -/
def MembersResponse.data (response : MembersResponse) (name : String) : Option Sync.MemberData :=
  response.members.find? fun data ↦ data.name = name

namespace MemberData

variable {member : MemberData} {data : Sync.MemberData} {part : Section}

/-- What the second loop makes of a member. -/
def receive (member : MemberData) (data : Option Sync.MemberData) : MemberData :=
  match data with
  | none => member
  | some data => { member.update data with hasData := true }

/-- A section after an update is what a reader of its column has. -/
theorem sections_update : (member.update data).sections part =
    Cell.receive (transformFromStorage part) (member.sections part) (data.sections part) := by
  cases hdata : data.sections part with
  | none => simp [update, hdata, Cell.receive]
  | some payload =>
    cases hunpacked : transformFromStorage part payload with
    | some shown => simp [update, hdata, Cell.receive, hunpacked]
    | none =>
      have hpart : part ≠ .hubMeta := by
        rintro rfl
        exact absurd hunpacked (by simp [transformFromStorage])
      simp [update, hdata, Cell.receive, hunpacked, hpart]

theorem sections_receive (data : Option Sync.MemberData) : (member.receive data).sections part =
    Cell.receive (transformFromStorage part) (member.sections part)
      (data.bind fun data ↦ data.sections part) := by
  cases data with
  | none => rfl
  | some data => exact sections_update

theorem hasData_receive (data : Option Sync.MemberData) :
    (member.receive data).hasData = (member.hasData || data.isSome) := by
  cases data <;> simp [receive]

theorem reloadRequested_receive (data : Option Sync.MemberData) :
    (member.receive data).reloadRequested = member.reloadRequested := by
  cases data <;> rfl

@[simp]
theorem sections_updatePresence (entry : RosterEntry) :
    (member.updatePresence entry).sections = member.sections := rfl

@[simp]
theorem sections_requestReload : member.requestReload.sections = member.sections := by
  unfold requestReload
  split <;> rfl

theorem not_waits_requestReload : member.requestReload.waits = false := by
  unfold requestReload
  split
  · simp [waits]
  · next h => simpa using h

end MemberData

namespace GuildData

variable {page : GuildData} {response : MembersResponse} {entry : RosterEntry} {name : String}

theorem lookup_visitRoster (hdistinct : response.Distinct) (hentry : entry ∈ response.roster) :
    (page.visitRoster response.roster).lookup entry.name =
      some (((page.lookup entry.name).getD .new).updatePresence entry) :=
  Keyed.lookup_alterEach_of_nodup _ hdistinct.roster hentry

theorem lookup_takeMembers (hdistinct : response.Distinct) :
    (page.takeMembers response.members).lookup name =
      (page.lookup name).map (MemberData.receive · (response.data name)) := by
  cases hdata : response.data name with
  | none =>
    have hnone : ∀ data ∈ response.members, data.name ≠ name := by
      simpa [MembersResponse.data] using hdata
    rw [takeMembers, Keyed.lookup_alterEach_of_notMem hnone]
    exact Option.map_id'.symm
  | some data =>
    have hname : data.name = name := by
      simpa using List.find?_some hdata
    rw [← hname]
    exact Keyed.lookup_alterEach_of_nodup _ hdistinct.members (List.mem_of_find?_eq_some hdata)

theorem lookup_loaded (hdistinct : response.Distinct) (hentry : entry ∈ response.roster) :
    (page.loaded response).lookup entry.name =
      some ((((page.lookup entry.name).getD .new).updatePresence entry).receive
        (response.data entry.name)) := by
  rw [loaded, lookup_takeMembers hdistinct, lookup_visitRoster hdistinct hentry, Option.map_some]

theorem lookup_loaded_of_notMem (hdistinct : response.Distinct)
    (hname : name ∉ response.roster.map RosterEntry.name) :
    (page.loaded response).lookup name =
      (page.lookup name).map (MemberData.receive · (response.data name)) := by
  have hkept : (page.visitRoster response.roster).lookup name = page.lookup name :=
    Keyed.lookup_alterEach_of_notMem fun entry hentry hsame ↦
      hname (hsame ▸ List.mem_map_of_mem hentry)
  rw [loaded, lookup_takeMembers hdistinct, hkept]

/-- Exactly the names of the roster are left. -/
theorem lookup_members_of_notMem (hname : name ∉ response.roster.map RosterEntry.name) :
    (page.members response).lookup name = none := by
  rw [members, dropAbsent, Keyed.lookup_alterAll]
  simp only [hname, if_false, Option.bind_eq_none_iff]
  exact fun _ _ ↦ trivial

/-- What an answer makes of a name on the roster. -/
theorem lookup_members (hentry : entry ∈ response.roster) :
    (page.members response).lookup entry.name =
      ((page.loaded response).lookup entry.name).map fun member ↦
        if page.appears response.roster then member.requestReload else member := by
  have hname : entry.name ∈ response.roster.map RosterEntry.name := List.mem_map_of_mem hentry
  rw [members, dropAbsent, Keyed.lookup_alterAll]
  simp only [hname, if_true]
  cases page.appears response.roster with
  | false => simp
  | true =>
    rw [Option.map_eq_bind, if_pos rfl, requestReloads, Keyed.lookup_alterAll, Option.bind_fun_some]
    rfl

/-- A member shows of each section what it showed, unless the answer has something for it. -/
theorem exists_lookup_members (hdistinct : response.Distinct) (hentry : entry ∈ response.roster) :
    ∃ member, (page.members response).lookup entry.name = some member ∧
      ∀ part, member.sections part = Cell.receive (transformFromStorage part)
        (((page.lookup entry.name).getD .new).sections part)
        ((response.data entry.name).bind fun data ↦ data.sections part) := by
  rw [lookup_members hentry, lookup_loaded hdistinct hentry, Option.map_some]
  refine ⟨_, rfl, fun part ↦ ?_⟩
  have hsections (member : MemberData) :
      (if page.appears response.roster then member.requestReload else member).sections =
        member.sections := by
    split
    · exact MemberData.sections_requestReload
    · rfl
  rw [hsections, MemberData.sections_receive, MemberData.sections_updatePresence]

/-! ## Reloads -/

/-- Whoever has no data has asked for it. -/
def Asked (page : GuildData) : Prop :=
  ∀ name member, page.lookup name = some member → member.waits = false

theorem appears_iff : page.appears response.roster = true ↔
    ∃ entry ∈ response.roster, page.lookup entry.name = none := by
  simp [appears]

theorem waits_receive {member : MemberData} (h : member.waits = false)
    (data : Option Sync.MemberData) : (member.receive data).waits = false := by
  rw [MemberData.waits, MemberData.hasData_receive, MemberData.reloadRequested_receive]
  cases data <;> simp_all [MemberData.waits]

theorem asked_members (h : page.Asked) (hdistinct : response.Distinct) :
    (page.members response).Asked := by
  intro name member hmember
  by_cases hname : name ∈ response.roster.map RosterEntry.name
  · obtain ⟨entry, hentry, rfl⟩ := List.mem_map.mp hname
    rw [lookup_members hentry, lookup_loaded hdistinct hentry, Option.map_some] at hmember
    obtain rfl := Option.some.inj hmember
    cases happears : page.appears response.roster with
    | true => exact MemberData.not_waits_requestReload
    | false =>
      -- Nobody is new: the member was there, and had asked or had data.
      cases hold : page.lookup entry.name with
      | none => exact absurd (appears_iff.mpr ⟨entry, hentry, hold⟩) (by simp [happears])
      | some old =>
        have hdone : (old.updatePresence entry).waits = false := h entry.name old hold
        exact waits_receive hdone (response.data entry.name)
  · rw [lookup_members_of_notMem hname] at hmember
    exact absurd hmember (by simp)

/-- A reload is asked for exactly when a name that is new to the page comes without data. -/
theorem needsFullReload_iff (h : page.Asked) (hdistinct : response.Distinct) :
    page.needsFullReload response = true ↔
      ∃ entry ∈ response.roster, page.lookup entry.name = none ∧
        response.data entry.name = none := by
  rw [needsFullReload, Bool.and_eq_true, appears_iff]
  constructor
  · rintro ⟨-, hwaits⟩
    obtain ⟨name, -, hname⟩ := List.any_eq_true.mp hwaits
    obtain ⟨member, hmember, hwaiting⟩ := (Option.any_eq_true _ _).mp hname
    by_cases hroster : name ∈ response.roster.map RosterEntry.name
    · obtain ⟨entry, hentry, rfl⟩ := List.mem_map.mp hroster
      rw [lookup_loaded hdistinct hentry] at hmember
      obtain rfl := Option.some.inj hmember
      cases hold : page.lookup entry.name with
      | some old =>
        have hdone : (old.updatePresence entry).waits = false := h entry.name old hold
        rw [hold, Option.getD_some, waits_receive hdone] at hwaiting
        exact absurd hwaiting (by simp)
      | none =>
        refine ⟨entry, hentry, hold, ?_⟩
        cases hdata : response.data entry.name with
        | none => rfl
        | some data => simp [hdata, MemberData.receive, MemberData.waits] at hwaiting
    · rw [lookup_loaded_of_notMem hdistinct hroster] at hmember
      obtain ⟨old, hold, rfl⟩ := Option.map_eq_some_iff.mp hmember
      exact absurd hwaiting (by simp [waits_receive (h name old hold)])
  · rintro ⟨entry, hentry, hnew, hdata⟩
    have hloaded : (page.loaded response).lookup entry.name =
        some (MemberData.new.updatePresence entry) := by
      rw [lookup_loaded hdistinct hentry, hnew, hdata]
      rfl
    refine ⟨⟨entry, hentry, hnew⟩, List.any_eq_true.mpr ⟨entry.name, ?_, ?_⟩⟩
    · exact AList.mem_keys.mp (AList.lookup_isSome.mp (by rw [hloaded]; rfl))
    · rw [hloaded]
      rfl

end GuildData

end OsrsMap.Page
