import OsrsMap.Page.GuildData
import OsrsMap.Sync.Batcher
import Mathlib.Data.List.MinMax

/-!
# What a poll reads

`get_members` (`server/src/db/members.rs`): the roster, and of each member on it the columns that
changed at or after a time. Times are microseconds.
-/

namespace OsrsMap.Page

open Sync (Section Payload Members MemberRow sections)
open Cursor (Cell)

/-- `ONLINE_CONFIRMATION`. -/
def onlineConfirmation : ℤ := 5 * 60 * 1000000

/-- `CURSOR_OVERLAP_MS`: how far the returned cursor lags behind the database clock. -/
def cursorOverlap : ℤ := 2000 * 1000

/-- `CASE WHEN column_last_update >= timestamp THEN column END`. -/
def changedColumn (row : MemberRow) (timestamp : ℤ) (part : Section) : Option Payload :=
  if (row.column part).lastUpdate.any (timestamp ≤ ·) then (row.column part).value else none

/-- `GREATEST` of the columns' `_last_update`; a NULL is ignored. -/
def lastUpdated (row : MemberRow) : Option ℤ :=
  (sections.filterMap fun part ↦ (row.column part).lastUpdate).max?

def rosterEntry (now : ℤ) (row : MemberRow) : RosterEntry where
  name := row.memberName
  online := row.hubOnline && row.hubLastSeen.any (now - onlineConfirmation < ·)
  lastSeen := row.hubLastSeen

/-- The roster (every visible member with its presence) and the data of the members that changed at
or after `timestamp`. -/
def getMembers (members : Members) (timestamp now : ℤ) : MembersResponse where
  cursor := now - cursorOverlap
  roster := (members.rows.filter Members.onRoster).map (rosterEntry now)
  members := (members.rows.filter fun row ↦
      Members.onRoster row && (lastUpdated row).any (timestamp ≤ ·)).map fun row ↦
    { name := row.memberName, sections := changedColumn row timestamp }

variable {members : Members} {row other : MemberRow} {timestamp now : ℤ} {part : Section}

theorem mem_sections (part : Section) : part ∈ sections := by
  cases part <;> decide

/-- A member is sent exactly when one of its columns is. -/
theorem lastUpdated_iff : (lastUpdated row).any (timestamp ≤ ·) = true ↔
    ∃ part, (row.column part).cell.changedSince timestamp = true := by
  simp only [Cell.changedSince, Option.any_eq_true, decide_eq_true_eq]
  constructor
  · rintro ⟨latest, hlatest, hle⟩
    obtain ⟨part, -, hpart⟩ := List.mem_filterMap.mp (List.max?_mem hlatest)
    exact ⟨part, latest, hpart, hle⟩
  · rintro ⟨part, stamp, hstamp, hle⟩
    have hmem : stamp ∈ sections.filterMap fun part ↦ (row.column part).lastUpdate :=
      List.mem_filterMap.mpr ⟨part, mem_sections part, hstamp⟩
    obtain ⟨latest, hlatest⟩ : ∃ latest, lastUpdated row = some latest := by
      apply Option.ne_none_iff_exists'.mp
      exact fun hnone ↦ List.ne_nil_of_mem hmem (List.max?_eq_none_iff.mp hnone)
    exact ⟨latest, hlatest, hle.trans ((List.max?_eq_some_iff.mp hlatest).2 stamp hmem)⟩

/-- The names of the roster are those of the rows on it. -/
theorem mem_roster_getMembers {name : String} :
    name ∈ (getMembers members timestamp now).roster.map RosterEntry.name ↔ name ∈ members.roster := by
  simp [getMembers, Members.roster, rosterEntry]

/-- Names are unique, also when they are compared with regard to case. -/
theorem nodup_memberName : (members.rows.map MemberRow.memberName).Nodup := by
  refine List.pairwise_map.mpr (members.unique.imp fun {a b} hab hsame ↦ ?_)
  refine hab (.name (Sync.fold a.memberName)) (by simp [MemberRow.keys]) ?_
  simp [MemberRow.keys, hsame]

theorem getMembers_distinct : (getMembers members timestamp now).Distinct where
  roster := by
    have hsublist := (List.filter_sublist (p := Members.onRoster) (l := members.rows)).map
      MemberRow.memberName
    simpa [getMembers, rosterEntry, Function.comp_def] using hsublist.nodup nodup_memberName
  members := by
    have hsublist := (List.filter_sublist (l := members.rows)
      (p := fun row ↦ Members.onRoster row && (lastUpdated row).any (timestamp ≤ ·))).map
      MemberRow.memberName
    simpa [getMembers, Function.comp_def] using hsublist.nodup nodup_memberName

/-- A row on the roster has data in an answer unless none of its columns changed since. -/
theorem data_getMembers_eq_none (hrow : row ∈ members) (hroster : Members.onRoster row = true) :
    (getMembers members timestamp now).data row.memberName = none ↔
      ∀ part, (row.column part).cell.changedSince timestamp = false := by
  have hiff := @lastUpdated_iff row timestamp
  constructor
  · intro hnone part
    by_contra hsent
    have hall := hiff.mpr ⟨part, by simpa using hsent⟩
    refine List.find?_eq_none.mp hnone _ (List.mem_map.mpr
      ⟨row, List.mem_filter.mpr ⟨hrow, ?_⟩, rfl⟩) (by simp)
    rw [hroster, hall]
    rfl
  · intro hunsent
    refine List.find?_eq_none.mpr fun data hdata ↦ ?_
    obtain ⟨other, hother, rfl⟩ := List.mem_map.mp hdata
    obtain ⟨hmem, hsent⟩ := List.mem_filter.mp hother
    simp only [decide_eq_true_eq]
    intro hname
    obtain rfl : other = row := Members.eq_of_name hmem hrow (congrArg Sync.fold hname)
    obtain ⟨part, hpart⟩ := hiff.mp (Bool.and_eq_true_iff.mp hsent).2
    exact absurd hpart (by simp [hunsent part])

/-- What an answer has of a row on the roster: each column that changed since. -/
theorem sent_getMembers (hrow : row ∈ members) (hroster : Members.onRoster row = true)
    (part : Section) : ((getMembers members timestamp now).data row.memberName).bind
      (fun data ↦ data.sections part) = (row.column part).cell.sent timestamp := by
  cases hdata : (getMembers members timestamp now).data row.memberName with
  | some data =>
    have hname : data.name = row.memberName := by simpa using List.find?_some hdata
    obtain ⟨other, hother, rfl⟩ := List.mem_map.mp (List.mem_of_find?_eq_some hdata)
    obtain rfl : other = row := Members.eq_of_name (List.mem_filter.mp hother).1 hrow
      (congrArg Sync.fold hname)
    rfl
  | none =>
    have hunsent := (data_getMembers_eq_none hrow hroster).mp hdata part
    simp [Cell.sent, hunsent]

end OsrsMap.Page
