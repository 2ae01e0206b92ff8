import OsrsMap.Library.Table
import Mathlib.Data.Int.Notation
import Mathlib.Tactic.SplitIfs

/-!
# The members table

`guildmap.members` (`server/src/db/schema.rs`) and the statements the sync, the admins and the page
run on it (`db/hub.rs`, `db/members.rs`, `update_batcher.rs`). Names are `CITEXT`: they are compared
without regard to case. The names that get into the table are ASCII (`validName`), where that is
also what `to_lowercase` and `eq_ignore_ascii_case` come to.
-/

namespace OsrsMap.Sync

/-- A name as it is compared: `CITEXT` and `to_lowercase`. -/
def fold (name : String) : String := name.toLower

def nameChar (c : Char) : Bool := c.isAlphanum || c = ' ' || c = '-' || c = '_'

/-- `valid_name`: the names the map can store. -/
def validName (name : String) : Bool :=
  1 ≤ name.length ∧ name.length ≤ 16 ∧ name.toList.all nameChar ∧ name.toList.any (· ≠ ' ')

/-- The data of a member, section by section (`SECTIONS`, `MEMBER_COLUMNS`). -/
inductive Section where
  | stats
  | coordinates
  | skills
  | inventory
  | equipment
  | hubMeta
deriving DecidableEq, Repr

/-- The order of `SECTIONS`. -/
def sections : List Section := [.stats, .coordinates, .skills, .inventory, .equipment, .hubMeta]

/-- What a column holds: an array of numbers, or the text of a JSON value. -/
inductive Payload where
  | array (values : List ℤ)
  | json (text : String)
deriving DecidableEq, Repr

/-- A data column with its `_last_update`. -/
structure Column where
  value : Option Payload
  lastUpdate : Option ℤ
deriving DecidableEq, Repr

structure MemberRow where
  memberName : String
  hidden : Bool
  hubAccountId : Option String
  accountHash : Option String
  hubOnline : Bool
  hubLastSeen : Option ℤ
  hubOrphanedAt : Option ℤ
  column : Section → Column

/-- The unique columns. -/
inductive MemberKey where
  | name (folded : String)
  | account (id : String)
deriving DecidableEq, Repr

def MemberRow.keys (row : MemberRow) : List MemberKey :=
  .name (fold row.memberName) :: (row.hubAccountId.map MemberKey.account).toList

/-- The rows, in the order of `member_id`. -/
abbrev Members := Table MemberRow MemberKey MemberRow.keys

/-- `member_name=$1`. -/
def MemberRow.named (name : String) (row : MemberRow) : Bool := fold row.memberName = fold name

/-- `hub_account_id=$1`. -/
def MemberRow.boundTo (id : String) (row : MemberRow) : Bool := row.hubAccountId = some id

/-- A row as a new name gets it. -/
def newRow (name : String) : MemberRow where
  memberName := name
  hidden := false
  hubAccountId := none
  accountHash := none
  hubOnline := false
  hubLastSeen := none
  hubOrphanedAt := none
  column _ := { value := none, lastUpdate := none }

/-! ## The statements -/

/-- A member row as seen by the hub sync. -/
structure HubMemberRow where
  memberName : String
  hubAccountId : Option String
  hidden : Bool
deriving DecidableEq, Repr

def hubMemberRow (row : MemberRow) : HubMemberRow where
  memberName := row.memberName
  hubAccountId := row.hubAccountId
  hidden := row.hidden

namespace Members

variable (members : Members)

def getMemberByHubId (id : String) : Option HubMemberRow :=
  (members.find (MemberRow.boundTo id)).map hubMemberRow

/-- First by the plugin's account hash, then by name. -/
def findRow (accountHash : Option String) (name : String) : Option MemberRow :=
  (accountHash.bind fun hash ↦ members.find fun row ↦ row.accountHash = some hash).or
    (members.find (MemberRow.named name))

def findMemberForHubAccount (accountHash : Option String) (name : String) : Option HubMemberRow :=
  (members.findRow accountHash name).map hubMemberRow

/-- `INSERT ... ON CONFLICT (member_name) DO NOTHING`. -/
def ensureMemberExists (name : String) : Option Members :=
  match members.find (MemberRow.named name) with
  | some _ => some members
  | none => members.insert (newRow name)

/-- Binds a hub account id to a member, taking it away from any other member first. -/
def bindHubAccount (name id : String) (accountHash : Option String) : Option Members :=
  (members.update (fun row ↦ row.boundTo id && !row.named name)
    fun row ↦ { row with hubAccountId := none }).bind fun members ↦
  members.update (MemberRow.named name) fun row ↦
    { row with
      hubAccountId := some id
      accountHash := accountHash.or row.accountHash
      hubOrphanedAt := none }

def setHubPresence (name : String) (online : Bool) (lastSeen : Option ℤ) (now : ℤ) :
    Option Members :=
  members.update (MemberRow.named name) fun row ↦
    { row with hubOnline := online, hubLastSeen := (lastSeen.or row.hubLastSeen).or (some now) }

/-- Hides a member from the map, or shows it again. -/
def setMemberHidden (name : String) (hidden : Bool) : Option Members :=
  members.update (MemberRow.named name) fun row ↦ { row with hidden }

def renameHubMember (original new : String) : Option Members :=
  members.update (MemberRow.named original) fun row ↦ { row with memberName := new }

def deleteMember (name : String) : Members := members.delete (MemberRow.named name)

/-- The first statement of `mark_hub_orphans`. -/
def clearHubOrphans (visible : List String) : Option Members :=
  members.update (fun row ↦ row.hubAccountId.any (· ∈ visible))
    fun row ↦ { row with hubOrphanedAt := none }

/-- Marks bound members whose hub account is no longer visible, and clears the mark for those that
are. -/
def markHubOrphans (visible : List String) (now : ℤ) : Option Members :=
  (members.clearHubOrphans visible).bind fun members ↦
  members.update (fun row ↦ row.hubAccountId.any (· ∉ visible) && row.hubOrphanedAt.isNone)
    fun row ↦ { row with hubOrphanedAt := some now, hubOnline := false }

/-- The rows `get_members` reads. -/
def onRoster (row : MemberRow) : Bool := !row.hidden && row.hubOrphanedAt.isNone

/-- The names of the roster, here in the order of the rows. -/
def roster : List String := (members.rows.filter onRoster).map (·.memberName)

end Members

/-! ## What the statements do to the rows -/

namespace Members

variable {members members' : Members} {row other : MemberRow} {name id original new : String}
  {accountHash : Option String}

theorem named_iff : row.named name = true ↔ MemberKey.name (fold name) ∈ row.keys := by
  cases row.hubAccountId <;> simp [MemberRow.named, MemberRow.keys, eq_comm]

theorem boundTo_iff : row.boundTo id = true ↔ MemberKey.account id ∈ row.keys := by
  cases h : row.hubAccountId <;> simp [MemberRow.boundTo, MemberRow.keys, h, eq_comm]

@[simp]
theorem boundTo_eq_true : row.boundTo id = true ↔ row.hubAccountId = some id := by
  simp [MemberRow.boundTo]

@[simp]
theorem named_eq_true : row.named name = true ↔ fold row.memberName = fold name := by
  simp [MemberRow.named]

/-- A name is of one row. -/
theorem eq_of_name (hrow : row ∈ members) (hother : other ∈ members)
    (h : fold row.memberName = fold other.memberName) : row = other :=
  Table.eq_of_key hrow hother (named_iff.mp (named_eq_true.mpr h)) (by simp [MemberRow.keys])

/-- An account is bound to one row. -/
theorem eq_of_account (hrow : row ∈ members) (hother : other ∈ members)
    (h : row.hubAccountId = some id) (h' : other.hubAccountId = some id) : row = other :=
  Table.eq_of_key hrow hother (boundTo_iff.mp (boundTo_eq_true.mpr h))
    (boundTo_iff.mp (boundTo_eq_true.mpr h'))

theorem find_named_eq (hrow : row ∈ members) (h : fold row.memberName = fold name) :
    members.find (MemberRow.named name) = some row :=
  Table.find_of_key (fun _ ↦ named_iff) hrow (named_iff.mp (named_eq_true.mpr h))

theorem mem_of_findRow (h : members.findRow accountHash name = some row) : row ∈ members := by
  obtain h | ⟨-, h⟩ := Option.or_eq_some_iff.mp h
  · obtain ⟨hash, -, hfind⟩ := Option.bind_eq_some_iff.mp h
    exact (Table.mem_of_find hfind).1
  · exact (Table.mem_of_find h).1

theorem find_named_of_findRow (h : members.findRow accountHash name = none) :
    members.find (MemberRow.named name) = none :=
  (Option.or_eq_none_iff.mp h).2

/-- What `bind_hub_account` makes of a row. -/
def bindRow (name id : String) (accountHash : Option String) (row : MemberRow) : MemberRow :=
  if row.named name then
    { row with
      hubAccountId := some id
      accountHash := accountHash.or row.accountHash
      hubOrphanedAt := none }
  else if row.boundTo id then { row with hubAccountId := none }
  else row

theorem mem_bindHubAccount (h : members.bindHubAccount name id accountHash = some members') :
    row ∈ members' ↔ ∃ before ∈ members, bindRow name id accountHash before = row := by
  obtain ⟨mid, hclear, hset⟩ := Option.bind_eq_some_iff.mp h
  rw [Table.mem_update hset]
  constructor
  · rintro ⟨between, hbetween, rfl⟩
    obtain ⟨before, hbefore, rfl⟩ := (Table.mem_update hclear).mp hbetween
    refine ⟨before, hbefore, ?_⟩
    unfold bindRow
    cases hnamed : before.named name <;> cases hbound : before.boundTo id <;> simp_all [MemberRow.named]
  · rintro ⟨before, hbefore, rfl⟩
    refine ⟨_, (Table.mem_update hclear).mpr ⟨before, hbefore, rfl⟩, ?_⟩
    unfold bindRow
    cases hnamed : before.named name <;> cases hbound : before.boundTo id <;> simp_all [MemberRow.named]

theorem exists_bindHubAccount (members : Members) (name id : String) (accountHash : Option String) :
    ∃ members', members.bindHubAccount name id accountHash = some members' := by
  obtain ⟨mid, hclear⟩ : ∃ mid, members.update (fun row ↦ row.boundTo id && !row.named name)
      (fun row ↦ { row with hubAccountId := none }) = some mid :=
    Table.exists_update_of_subset fun row _ k hk ↦ by
      simp only [MemberRow.keys, Option.map_none, Option.toList_none] at hk ⊢
      exact List.mem_cons.mpr (.inl (List.mem_singleton.mp hk))
  -- After the first statement no row but the one with the name is bound to the account.
  have hfree : ∀ row ∈ mid, row.named name = false → MemberKey.account id ∉ row.keys := by
    intro row hrow hnamed hkey
    obtain ⟨before, -, rfl⟩ := (Table.mem_update hclear).mp hrow
    rw [← boundTo_iff] at hkey
    cases hbound : before.boundTo id <;> cases hname : before.named name <;>
      simp_all [MemberRow.named]
  obtain ⟨after, hset⟩ : ∃ after, mid.update (MemberRow.named name) (fun row ↦
      { row with
        hubAccountId := some id
        accountHash := accountHash.or row.accountHash
        hubOrphanedAt := none }) = some after := by
    refine Table.exists_update_of_key (fun row h ↦ named_iff.mp h) fun row hrow hnamed j hj other
      hother hnot ↦ ?_
    simp only [MemberRow.keys, Option.map_some, Option.toList_some, List.mem_cons,
      List.not_mem_nil, or_false] at hj
    obtain rfl | rfl := hj
    · intro hkey
      have hsame := Table.eq_of_key hrow hother (by simp [MemberRow.keys]) hkey
      rw [hsame, hnot] at hnamed
      exact absurd hnamed (by simp)
    · exact hfree other hother hnot
  exact ⟨after, by rw [bindHubAccount, hclear, Option.bind_some, hset]⟩

theorem mem_renameHubMember (h : members.renameHubMember original new = some members') :
    row ∈ members' ↔ ∃ before ∈ members,
      (if before.named original then { before with memberName := new } else before) = row :=
  Table.mem_update h

/-- A rename is refused only when another row has the new name. -/
theorem exists_renameHubMember
    (h : ∀ row ∈ members, row.named new = true → row.named original = true) :
    ∃ members', members.renameHubMember original new = some members' := by
  refine Table.exists_update_of_key (fun row hrow ↦ named_iff.mp hrow) fun row hrow hnamed j hj
    other hother hnot ↦ ?_
  have hj' : j = .name (fold new) ∨ j ∈ (row.hubAccountId.map MemberKey.account).toList :=
    List.mem_cons.mp hj
  obtain rfl | hj := hj'
  · intro hkey
    have := h other hother (named_iff.mpr hkey)
    simp [hnot] at this
  · intro hkey
    have hsame := Table.eq_of_key hrow hother (List.mem_cons_of_mem _ hj) hkey
    rw [hsame, hnot] at hnamed
    exact absurd hnamed (by simp)

theorem mem_setHubPresence {online : Bool} {lastSeen : Option ℤ} {now : ℤ}
    (h : members.setHubPresence name online lastSeen now = some members') :
    row ∈ members' ↔ ∃ before ∈ members, (if before.named name then
      { before with
        hubOnline := online
        hubLastSeen := (lastSeen.or before.hubLastSeen).or (some now) } else before) = row :=
  Table.mem_update h

theorem exists_setHubPresence (members : Members) (name : String) (online : Bool)
    (lastSeen : Option ℤ) (now : ℤ) :
    ∃ members', members.setHubPresence name online lastSeen now = some members' :=
  Table.exists_update_of_subset fun _ _ _ hk ↦ hk

/-- What `mark_hub_orphans` makes of a row. -/
def markRow (visible : List String) (now : ℤ) (row : MemberRow) : MemberRow :=
  match row.hubAccountId with
  | none => row
  | some id =>
    if id ∈ visible then { row with hubOrphanedAt := none }
    else if row.hubOrphanedAt.isNone then
      { row with hubOrphanedAt := some now, hubOnline := false }
    else row

section MarkRow

variable {visible : List String} {now : ℤ}

@[simp]
theorem markRow_memberName : (markRow visible now row).memberName = row.memberName := by
  unfold markRow
  split
  · rfl
  · split_ifs <;> rfl

@[simp]
theorem markRow_hubAccountId : (markRow visible now row).hubAccountId = row.hubAccountId := by
  unfold markRow
  split
  · rfl
  · split_ifs <;> rfl

@[simp]
theorem markRow_hidden : (markRow visible now row).hidden = row.hidden := by
  unfold markRow
  split
  · rfl
  · split_ifs <;> rfl

/-- A bound row loses the mark exactly when its account is visible; another one keeps its own. -/
theorem hubOrphanedAt_markRow : (markRow visible now row).hubOrphanedAt.isNone =
    match row.hubAccountId with
    | none => row.hubOrphanedAt.isNone
    | some id => decide (id ∈ visible) := by
  unfold markRow
  split
  · rfl
  · next id hid =>
    by_cases hvisible : id ∈ visible
    · simp [hvisible]
    · cases hmark : row.hubOrphanedAt <;> simp [hvisible, hmark]

end MarkRow

theorem mem_markHubOrphans {visible : List String} {now : ℤ}
    (h : members.markHubOrphans visible now = some members') :
    row ∈ members' ↔ ∃ before ∈ members, markRow visible now before = row := by
  obtain ⟨mid, hclear, hset⟩ := Option.bind_eq_some_iff.mp h
  have hboth (before : MemberRow) : markRow visible now before =
      (fun row : MemberRow ↦
        if row.hubAccountId.any (fun id ↦ decide (id ∉ visible)) && row.hubOrphanedAt.isNone then
          { row with hubOrphanedAt := some now, hubOnline := false } else row)
        (if before.hubAccountId.any fun id ↦ decide (id ∈ visible) then
          { before with hubOrphanedAt := none } else before) := by
    unfold markRow
    cases hid : before.hubAccountId with
    | none => simp [hid]
    | some id => by_cases hvisible : id ∈ visible <;> simp [hid, hvisible]
  rw [Table.mem_update hset]
  constructor
  · rintro ⟨between, hbetween, rfl⟩
    obtain ⟨before, hbefore, rfl⟩ := (Table.mem_update hclear).mp hbetween
    exact ⟨before, hbefore, hboth before⟩
  · rintro ⟨before, hbefore, rfl⟩
    exact ⟨_, (Table.mem_update hclear).mpr ⟨before, hbefore, rfl⟩, (hboth before).symm⟩

theorem exists_clearHubOrphans (members : Members) (visible : List String) :
    ∃ members', members.clearHubOrphans visible = some members' :=
  Table.exists_update_of_subset fun _ _ _ hk ↦ hk

theorem exists_markHubOrphans (members : Members) (visible : List String) (now : ℤ) :
    ∃ members', members.markHubOrphans visible now = some members' := by
  obtain ⟨mid, hclear⟩ := exists_clearHubOrphans members visible
  obtain ⟨after, hset⟩ : ∃ after, mid.update
      (fun row ↦ row.hubAccountId.any (· ∉ visible) && row.hubOrphanedAt.isNone)
      (fun row ↦ { row with hubOrphanedAt := some now, hubOnline := false }) = some after :=
    Table.exists_update_of_subset fun _ _ _ hk ↦ hk
  exact ⟨after, by rw [markHubOrphans, hclear, Option.bind_some, hset]⟩

/-- The names of the roster are those of the rows on it. -/
theorem mem_roster : name ∈ members.roster ↔
    ∃ row ∈ members, onRoster row = true ∧ row.memberName = name := by
  simp [roster, Table.mem_def, and_assoc]

end Members

end OsrsMap.Sync
