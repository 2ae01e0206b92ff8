import OsrsMap.Library.Table
import OsrsMap.Skills.Aggregation
import OsrsMap.Skills.SkillGraph

/-!
# What is kept of the skill history

The tables of the samples (`server/src/db/skills.rs`): `aggregate_skills` writes to them,
`apply_skills_retention` deletes from them after each run, and `get_skills_for_period` reads them for the graphs.
A graph carries the row before its first date forward, so of each member the newest row that is too old stays.

The tables are compared with what they would hold if nothing was ever deleted for its age. The graphs are the
same as long as the cutoff is not after the first date that they show.
-/

namespace OsrsMap.Skills

open Newest (newest NewestFirst)

/-- `skills_day`, `skills_month` or `skills_year`: skills by member and time, the primary key. -/
abbrev SkillsTable := Keyed.Map (ℕ × ℤ) (List ℤ)

namespace SkillsTable

/-- `INSERT INTO ... ON CONFLICT (member_id, time) DO UPDATE`. -/
def upsert (table : SkillsTable) (sample : Sample) : SkillsTable :=
  table.insert (sample.memberId, sample.time) sample.skills

/-- The keys `WHERE time < cutoff`. -/
def olderKeys (table : SkillsTable) (cutoff : ℤ) : List (ℕ × ℤ) := table.keys.filter fun key ↦ key.2 < cutoff

/-- The times of a member `WHERE time < cutoff`. -/
def olderTimes (table : SkillsTable) (cutoff : ℤ) (memberId : ℕ) : List ℤ :=
  ((table.olderKeys cutoff).filter fun key ↦ key.1 = memberId).map Prod.snd

/-- `SELECT member_id, max(time) ... WHERE time < cutoff GROUP BY member_id`. -/
def newestOlderKeys (table : SkillsTable) (cutoff : ℤ) : List (ℕ × ℤ) :=
  ((table.olderKeys cutoff).map Prod.fst).dedup.filterMap fun memberId ↦
    (table.olderTimes cutoff memberId).max?.map fun time ↦ (memberId, time)

/-- `apply_skills_retention_for_period`. -/
def applyRetention (table : SkillsTable) (cutoff : ℤ) : SkillsTable :=
  let newestOlder := table.newestOlderKeys cutoff
  Keyed.alterAll (fun key skills ↦ if key.2 < cutoff ∧ key ∉ newestOlder then none else some skills) table

/-- The rows of a member go with it: `ON DELETE CASCADE`. -/
def deleteMember (table : SkillsTable) (memberId : ℕ) : SkillsTable :=
  Keyed.alterAll (fun key skills ↦ if key.1 = memberId then none else some skills) table

end SkillsTable

/-! ## The history -/

/-- The tables, and `aggregation_info`. -/
structure History where
  lastAggregation : ℤ
  tables : AggregatePeriod → SkillsTable

inductive HistoryEvent where
  /-- A run of `aggregate_skills` is committed; each of its statements saw some rows. -/
  | aggregate (now : ℤ) (seen : AggregatePeriod → List MemberSkills)
  | applyRetention
  | deleteMember (memberId : ℕ)

/-- What the graphs read of a row of the members. -/
structure Member where
  memberId : ℕ
  memberName : String
  hidden : Bool
  hubOrphanedAt : Option ℤ
deriving DecidableEq, Repr

/-- The members, of whom no two share an id or a name. -/
abbrev MembersTable := Table Member (ℕ ⊕ String) fun member ↦ [.inl member.memberId, .inr member.memberName]

/-- What `get_skills_for_period` selects of a row, with the name of its member. -/
def selectRow (members : MembersTable) (row : Σ _ : ℕ × ℤ, List ℤ) : Option (String × StoredRow) :=
  (members.find fun member ↦ member.memberId = row.1.1).bind fun member ↦
    if member.hidden ∨ member.hubOrphanedAt.isSome then none
    else some (member.memberName, { time := row.1.2, data := row.2 })

/-- `get_skills_for_period`. -/
def getSkillsForPeriod (members : MembersTable) (table : SkillsTable) : Keyed.Map String (List StoredRow) :=
  Keyed.alterEach Prod.fst (fun row data ↦ some (data.getD [] ++ [row.2])) (table.entries.filterMap (selectRow members)) ∅

namespace History

/- `date_trunc`, and `time - interval '1 day'` (month, year), in the time zone of the database. -/
variable (dateTrunc : DateUnit → ℤ → ℤ) (minusInterval : AggregatePeriod → ℤ → ℤ)

/-- Nothing was sampled yet. -/
def epoch : History where
  lastAggregation := 0
  tables _ := ∅

def aggregateSkills (history : History) (now : ℤ) (seen : AggregatePeriod → List MemberSkills) : History where
  lastAggregation := now
  tables period :=
    (aggregateForPeriod dateTrunc period history.lastAggregation (seen period)).foldl SkillsTable.upsert
      (history.tables period)

/-- What is too old for a period. -/
def cutoff (history : History) (period : AggregatePeriod) : ℤ := minusInterval period history.lastAggregation

def applySkillsRetention (history : History) : History :=
  { history with tables := fun period ↦ (history.tables period).applyRetention (history.cutoff minusInterval period) }

def deleteMember (history : History) (memberId : ℕ) : History :=
  { history with tables := fun period ↦ (history.tables period).deleteMember memberId }

def step (history : History) : HistoryEvent → History
  | .aggregate now seen => history.aggregateSkills dateTrunc now seen
  | .applyRetention => history.applySkillsRetention minusInterval
  | .deleteMember memberId => history.deleteMember memberId

def run (events : List HistoryEvent) : History := events.foldl (step dateTrunc minusInterval) epoch

/-- The cutoffs that the retentions use, of a run that goes on from a history. -/
def cutoffs (history : History) (period : AggregatePeriod) : List HistoryEvent → List ℤ
  | [] => []
  | event :: events =>
    let later := (history.step dateTrunc minusInterval event).cutoffs period events
    match event with
    | .applyRetention => history.cutoff minusInterval period :: later
    | .aggregate _ _ | .deleteMember _ => later

/-- Nothing is deleted for its age. -/
def stepWhole (history : History) : HistoryEvent → History
  | .aggregate now seen => history.aggregateSkills dateTrunc now seen
  | .applyRetention => history
  | .deleteMember memberId => history.deleteMember memberId

def runWhole (events : List HistoryEvent) : History := events.foldl (stepWhole dateTrunc) epoch

end History

/-! ## What is deleted -/

namespace SkillsTable

variable {table : SkillsTable} {cutoff : ℤ} {memberId : ℕ} {time : ℤ}

theorem mem_olderKeys {key : ℕ × ℤ} : key ∈ table.olderKeys cutoff ↔ key ∈ table ∧ key.2 < cutoff := by
  rw [olderKeys, List.mem_filter, ← AList.mem_keys, decide_eq_true_eq]

theorem mem_olderTimes : time ∈ table.olderTimes cutoff memberId ↔ (memberId, time) ∈ table ∧ time < cutoff := by
  rw [olderTimes, List.mem_map]
  constructor
  · rintro ⟨key, hkey, rfl⟩
    obtain ⟨hkey, hmember⟩ := List.mem_filter.mp hkey
    rw [← of_decide_eq_true hmember]
    exact mem_olderKeys.mp hkey
  · exact fun h ↦ ⟨_, List.mem_filter.mpr ⟨mem_olderKeys.mpr h, decide_eq_true rfl⟩, rfl⟩

theorem mem_newestOlderKeys :
    (memberId, time) ∈ table.newestOlderKeys cutoff ↔ (table.olderTimes cutoff memberId).max? = some time := by
  rw [newestOlderKeys, List.mem_filterMap]
  constructor
  · rintro ⟨member, -, h⟩
    obtain ⟨newest, hnewest, hkey⟩ := Option.map_eq_some_iff.mp h
    obtain ⟨rfl, rfl⟩ := Prod.mk.inj hkey
    exact hnewest
  · intro h
    have hold := mem_olderKeys.mpr (mem_olderTimes.mp (List.max?_eq_some_iff.mp h).1)
    exact ⟨memberId, List.mem_dedup.mpr (List.mem_map_of_mem hold), by rw [h]; rfl⟩

/-- Rows that are too old have one of them that is the newest. -/
theorem exists_newestOlder (hmem : (memberId, time) ∈ table) (hold : time < cutoff) :
    ∃ newer, time ≤ newer ∧ newer < cutoff ∧ (memberId, newer) ∈ table ∧
      (memberId, newer) ∈ table.newestOlderKeys cutoff := by
  have hthere : time ∈ table.olderTimes cutoff memberId := mem_olderTimes.mpr ⟨hmem, hold⟩
  obtain ⟨newer, hnewer⟩ := Option.isSome_iff_exists.mp (List.isSome_max?_of_mem hthere)
  obtain ⟨hnewerThere, hle⟩ := List.max?_eq_some_iff.mp hnewer
  obtain ⟨hnewerMem, hnewerOld⟩ := mem_olderTimes.mp hnewerThere
  exact ⟨newer, hle time hthere, hnewerOld, hnewerMem, mem_newestOlderKeys.mpr hnewer⟩

theorem lookup_applyRetention (key : ℕ × ℤ) : (table.applyRetention cutoff).lookup key =
    if key.2 < cutoff ∧ key ∉ table.newestOlderKeys cutoff then none else table.lookup key := by
  rw [applyRetention, Keyed.lookup_alterAll]
  cases table.lookup key with
  | none => rw [Option.bind_none, ite_self]
  | some skills => rfl

theorem lookup_deleteMember (key : ℕ × ℤ) :
    (table.deleteMember memberId).lookup key = if key.1 = memberId then none else table.lookup key := by
  rw [deleteMember, Keyed.lookup_alterAll]
  cases table.lookup key with
  | none => rw [Option.bind_none, ite_self]
  | some skills => rfl

theorem mem_iff_lookup {key : ℕ × ℤ} : key ∈ table ↔ ∃ skills, table.lookup key = some skills := by
  rw [← AList.lookup_isSome, Option.isSome_iff_exists]

theorem mem_applyRetention {key : ℕ × ℤ} : key ∈ table.applyRetention cutoff ↔
    key ∈ table ∧ (key.2 < cutoff → key ∈ table.newestOlderKeys cutoff) := by
  rw [mem_iff_lookup, mem_iff_lookup, lookup_applyRetention]
  split_ifs with hdeleted
  · simp only [exists_false, false_iff, not_and, Classical.not_imp]
    exact fun _ ↦ hdeleted
  · exact ⟨fun h ↦ ⟨h, fun hold ↦ by_contra fun hnot ↦ hdeleted ⟨hold, hnot⟩⟩, And.left⟩

/-- Of each member one row is left that is too old. -/
theorem eq_of_mem_applyRetention {other : ℤ} (hmem : (memberId, time) ∈ table.applyRetention cutoff)
    (hother : (memberId, other) ∈ table.applyRetention cutoff) (hold : time < cutoff) (hotherOld : other < cutoff) :
    time = other := by
  have hnewest := mem_newestOlderKeys.mp ((mem_applyRetention.mp hmem).2 hold)
  have hotherNewest := mem_newestOlderKeys.mp ((mem_applyRetention.mp hother).2 hotherOld)
  exact Option.some.inj (hnewest.symm.trans hotherNewest)

/-! ## What is missed -/

/-- A member has a newer row, also before the bound. -/
def Superseded (table : SkillsTable) (bound : ℤ) (memberId : ℕ) (time : ℤ) : Prop :=
  ∃ newer, time < newer ∧ newer < bound ∧ (memberId, newer) ∈ table

/-- A table has the rows of another as they are, less some that a newer one of the member is there for. -/
def Keeps (bound : ℤ) (kept whole : SkillsTable) : Prop :=
  ∀ memberId time, kept.lookup (memberId, time) = whole.lookup (memberId, time) ∨
    kept.lookup (memberId, time) = none ∧ kept.Superseded bound memberId time

variable {kept whole : SkillsTable} {bound : ℤ}

theorem keeps_empty : Keeps bound ∅ ∅ := fun _ _ ↦ .inl rfl

theorem Keeps.upsert (h : Keeps bound kept whole) (sample : Sample) :
    Keeps bound (kept.upsert sample) (whole.upsert sample) := by
  unfold SkillsTable.upsert
  intro memberId time
  by_cases hkey : (memberId, time) = (sample.memberId, sample.time)
  · rw [hkey, AList.lookup_insert, AList.lookup_insert]
    exact .inl rfl
  · rw [AList.lookup_insert_ne hkey, AList.lookup_insert_ne hkey]
    refine (h memberId time).imp_right fun ⟨hnone, newer, hlater, hbound, hmem⟩ ↦ ⟨hnone, newer, hlater, hbound, ?_⟩
    exact (AList.mem_insert kept).mpr (.inr hmem)

theorem Keeps.foldl_upsert (h : Keeps bound kept whole) (samples : List Sample) :
    Keeps bound (samples.foldl SkillsTable.upsert kept) (samples.foldl SkillsTable.upsert whole) := by
  induction samples generalizing kept whole with
  | nil => exact h
  | cons sample samples ih => exact ih (h.upsert sample)

theorem Keeps.deleteMember (h : Keeps bound kept whole) (memberId : ℕ) :
    Keeps bound (kept.deleteMember memberId) (whole.deleteMember memberId) := by
  intro other time
  rw [lookup_deleteMember, lookup_deleteMember]
  by_cases hmember : other = memberId
  · rw [if_pos hmember, if_pos hmember]
    exact .inl rfl
  · rw [if_neg hmember, if_neg hmember]
    refine (h other time).imp_right fun ⟨hnone, newer, hlater, hbound, hmem⟩ ↦ ⟨hnone, newer, hlater, hbound, ?_⟩
    obtain ⟨skills, hskills⟩ := mem_iff_lookup.mp hmem
    exact mem_iff_lookup.mpr ⟨skills, by rw [lookup_deleteMember, if_neg hmember, hskills]⟩

/-- A row that is deleted, or was, has one that is newer and stays. -/
theorem superseded_applyRetention (hcutoff : cutoff ≤ bound) {newer : ℤ} (hlater : time ≤ newer)
    (hbound : newer < bound) (hmem : (memberId, newer) ∈ table)
    (hgone : time < newer ∨ newer < cutoff ∧ (memberId, newer) ∉ table.newestOlderKeys cutoff) :
    (table.applyRetention cutoff).Superseded bound memberId time := by
  by_cases hold : newer < cutoff
  · obtain ⟨newest, hle, hnewestOld, hnewestMem, hnewest⟩ := exists_newestOlder hmem hold
    refine ⟨newest, ?_, hnewestOld.trans_le hcutoff, mem_applyRetention.mpr ⟨hnewestMem, fun _ ↦ hnewest⟩⟩
    obtain hlater | ⟨-, hnot⟩ := hgone
    · exact hlater.trans_le hle
    · refine hlater.trans_lt (lt_of_le_of_ne hle ?_)
      rintro rfl
      exact hnot hnewest
  · refine ⟨newer, ?_, hbound, mem_applyRetention.mpr ⟨hmem, fun h ↦ absurd h hold⟩⟩
    exact hgone.resolve_right fun h ↦ hold h.1

theorem Keeps.applyRetention (h : Keeps bound kept whole) (hcutoff : cutoff ≤ bound) :
    Keeps bound (kept.applyRetention cutoff) whole := by
  intro memberId time
  rw [lookup_applyRetention]
  obtain hsame | ⟨hnone, newer, hlater, hbound, hmem⟩ := h memberId time
  · split_ifs with hdeleted
    · cases hwhole : whole.lookup (memberId, time) with
      | none => exact .inl rfl
      | some skills =>
        have hmem : (memberId, time) ∈ kept := mem_iff_lookup.mpr ⟨skills, hsame.trans hwhole⟩
        exact .inr ⟨rfl, superseded_applyRetention hcutoff le_rfl (hdeleted.1.trans_le hcutoff) hmem (.inr hdeleted)⟩
    · exact .inl hsame
  · rw [hnone, ite_self]
    exact .inr ⟨rfl, superseded_applyRetention hcutoff hlater.le hbound hmem (.inl hlater)⟩

end SkillsTable

/-! ## What is read -/

section Reading

variable {members : MembersTable} {table kept whole : SkillsTable} {name : String}

/-- The rows of a name, in the order in which they were selected. -/
def rowsOf (members : MembersTable) (table : SkillsTable) (name : String) : List StoredRow :=
  ((table.entries.filterMap (selectRow members)).filter fun row ↦ row.1 = name).map Prod.snd

theorem foldl_append_rows (rows : List (String × StoredRow)) (data : List StoredRow) :
    rows.foldl (fun data row ↦ some (data.getD [] ++ [row.2])) (some data) = some (data ++ rows.map Prod.snd) := by
  induction rows generalizing data with
  | nil => exact congrArg some (List.append_nil data).symm
  | cons row rows ih =>
    refine (ih (data ++ [row.2])).trans ?_
    rw [List.append_assoc, List.map_cons, List.singleton_append]

/-- A member without rows is not among the answers. -/
theorem lookup_getSkillsForPeriod : (getSkillsForPeriod members table).lookup name =
    if rowsOf members table name = [] then none else some (rowsOf members table name) := by
  rw [getSkillsForPeriod, Keyed.lookup_alterEach, AList.lookup_empty, rowsOf]
  cases (table.entries.filterMap (selectRow members)).filter fun row ↦ row.1 = name with
  | nil => rfl
  | cons row rows => exact foldl_append_rows rows [row.2]

/-- The site shows the member's skill history. -/
def Member.Shown (member : Member) : Prop := member.hidden = false ∧ member.hubOrphanedAt = none

theorem find_memberId (members : MembersTable) (memberId : ℕ) {member : Member} :
    members.find (fun member ↦ member.memberId = memberId) = some member ↔
      member ∈ members ∧ member.memberId = memberId := by
  constructor
  · intro h
    obtain ⟨hmem, hid⟩ := Table.mem_of_find h
    exact ⟨hmem, of_decide_eq_true hid⟩
  · rintro ⟨hmem, rfl⟩
    exact Table.find_of_key (fun other ↦ by simp [eq_comm]) hmem (List.mem_cons_self (a := Sum.inl member.memberId))

theorem selectRow_eq_some {row : Σ _ : ℕ × ℤ, List ℤ} {stored : StoredRow} :
    selectRow members row = some (name, stored) ↔ ∃ member ∈ members, member.Shown ∧ member.memberName = name ∧
      row = ⟨(member.memberId, stored.time), stored.data⟩ := by
  rw [selectRow, Option.bind_eq_some_iff]
  constructor
  · rintro ⟨member, hfind, hselect⟩
    obtain ⟨hmem, hid⟩ := (find_memberId members row.1.1).mp hfind
    split_ifs at hselect with hleft
    obtain ⟨rfl, rfl⟩ := Prod.mk.inj (Option.some.inj hselect)
    rw [not_or, Bool.not_eq_true, Option.not_isSome_iff_eq_none] at hleft
    exact ⟨member, hmem, hleft, rfl, by rw [hid]⟩
  · rintro ⟨member, hmem, ⟨hhidden, horphaned⟩, rfl, rfl⟩
    refine ⟨member, (find_memberId members member.memberId).mpr ⟨hmem, rfl⟩, ?_⟩
    rw [if_neg (by simp [hhidden, horphaned])]

theorem mem_rowsOf {stored : StoredRow} : stored ∈ rowsOf members table name ↔
    ∃ member ∈ members, member.Shown ∧ member.memberName = name ∧
      table.lookup (member.memberId, stored.time) = some stored.data := by
  rw [rowsOf, List.mem_map]
  constructor
  · rintro ⟨⟨other, _⟩, hrow, rfl⟩
    obtain ⟨hselected, hname⟩ := List.mem_filter.mp hrow
    obtain rfl : other = name := of_decide_eq_true hname
    obtain ⟨row, hmem, hselect⟩ := List.mem_filterMap.mp hselected
    obtain ⟨member, hmember, hshown, hname, rfl⟩ := selectRow_eq_some.mp hselect
    exact ⟨member, hmember, hshown, hname, AList.mem_lookup_iff.mpr hmem⟩
  · rintro ⟨member, hmember, hshown, hname, hlookup⟩
    refine ⟨(name, stored), List.mem_filter.mpr ⟨List.mem_filterMap.mpr ?_, decide_eq_true rfl⟩, rfl⟩
    exact ⟨_, AList.mem_lookup_iff.mp hlookup, selectRow_eq_some.mpr ⟨member, hmember, hshown, hname, rfl⟩⟩

/-- A name is of one member. -/
theorem eq_of_memberName {a b : Member} (ha : a ∈ members) (hb : b ∈ members) (hname : a.memberName = b.memberName) :
    a = b := by
  have hkey (member : Member) : Sum.inr member.memberName ∈
      ([.inl member.memberId, .inr member.memberName] : List (ℕ ⊕ String)) :=
    List.mem_cons_of_mem _ (List.mem_singleton_self _)
  exact Table.eq_of_key ha hb (hkey a) (hname ▸ hkey b)

/-- No two rows of a name are of one time. -/
theorem pairwise_rowsOf : (rowsOf members table name).Pairwise fun a b ↦ a.time ≠ b.time := by
  have hkeys : table.entries.Pairwise fun a b ↦ a.1 ≠ b.1 := List.pairwise_map.mp table.nodupKeys
  rw [rowsOf, List.pairwise_map, List.pairwise_filter, List.pairwise_filterMap]
  refine hkeys.imp fun {a b} hab left hleft right hright hleftName hrightName htime ↦ hab ?_
  obtain ⟨first, hfirst, -, hfirstName, rfl⟩ := selectRow_eq_some.mp hleft
  obtain ⟨second, hsecond, -, hsecondName, rfl⟩ := selectRow_eq_some.mp hright
  have hname : first.memberName = second.memberName :=
    hfirstName.trans ((of_decide_eq_true hleftName).trans ((hsecondName.trans (of_decide_eq_true hrightName)).symm))
  obtain rfl := eq_of_memberName hfirst hsecond hname
  exact congrArg (Prod.mk first.memberId) htime

end Reading

/-! ## What is shown -/

section Graphs

variable {members : MembersTable} {kept whole : SkillsTable} {name : String} {buckets : Period}
  {skillData : List StoredRow} {skillName : SkillName}

theorem mem_chartRows {row : SkillRow} : row ∈ chartRows skillData ↔
    ∃ stored ∈ skillData, row = ⟨stored.time, transformSkillsFromStorage stored.data⟩ := by
  rw [chartRows, List.mem_mergeSort, List.mem_map]
  exact exists_congr fun stored ↦ and_congr_right fun _ ↦ eq_comm

theorem apart_chartRows (h : skillData.Pairwise fun a b ↦ a.time ≠ b.time) :
    ∀ a ∈ chartRows skillData, ∀ b ∈ chartRows skillData, a.time = b.time → a = b := by
  intro a ha b hb htime
  obtain ⟨first, hfirst, rfl⟩ := mem_chartRows.mp ha
  obtain ⟨second, hsecond, rfl⟩ := mem_chartRows.mp hb
  by_contra hne
  have hstored : first ≠ second := by
    rintro rfl
    exact hne rfl
  have : Std.Symm fun a b : StoredRow ↦ a.time ≠ b.time := ⟨fun _ _ ↦ Ne.symm⟩
  exact h.forall hfirst hsecond hstored htime

theorem lookup_of_keeps {bound : ℤ} (h : kept.Keeps bound whole) {memberId : ℕ} {time : ℤ} {skills : List ℤ}
    (hskills : kept.lookup (memberId, time) = some skills) : whole.lookup (memberId, time) = some skills := by
  obtain hsame | ⟨hnone, -⟩ := h memberId time
  · exact hsame ▸ hskills
  · rw [hnone] at hskills
    cases hskills

/-- What was deleted is not missed in any bucket: a newer row of the member is not after it either. -/
theorem xpAt_of_keeps (h : kept.Keeps buckets.firstDate whole) {date : ℤ} (hdate : buckets.firstDate ≤ date) :
    buckets.xpAt (chartRows (rowsOf members kept name)) skillName date =
      buckets.xpAt (chartRows (rowsOf members whole name)) skillName date := by
  unfold Period.xpAt
  refine congrArg (Option.bind · _) ?_
  refine Newest.newest_of_leftOut (newestFirst_chartRows _) (newestFirst_chartRows _)
    (apart_chartRows pairwise_rowsOf) (fun row hrow ↦ ?_) fun row hrow ↦ ?_
  · obtain ⟨stored, hstored, rfl⟩ := mem_chartRows.mp hrow
    obtain ⟨member, hmember, hshown, hname, hlookup⟩ := mem_rowsOf.mp hstored
    exact mem_chartRows.mpr
      ⟨stored, mem_rowsOf.mpr ⟨member, hmember, hshown, hname, lookup_of_keeps h hlookup⟩, rfl⟩
  · obtain ⟨stored, hstored, rfl⟩ := mem_chartRows.mp hrow
    obtain ⟨member, hmember, hshown, hname, hlookup⟩ := mem_rowsOf.mp hstored
    obtain hsame | ⟨-, newer, hlater, hbound, hmem⟩ := h member.memberId stored.time
    · exact .inl (mem_chartRows.mpr
        ⟨stored, mem_rowsOf.mpr ⟨member, hmember, hshown, hname, hsame.trans hlookup⟩, rfl⟩)
    · obtain ⟨skills, hskills⟩ := SkillsTable.mem_iff_lookup.mp hmem
      refine .inr ⟨_, mem_chartRows.mpr ⟨⟨newer, skills⟩, mem_rowsOf.mpr ?_, rfl⟩, hlater, ?_⟩
      · exact ⟨member, hmember, hshown, hname, hskills⟩
      · calc
          _ ≤ buckets.truncatedDate buckets.firstDate := buckets.mono hbound.le
          _ = buckets.firstDate := buckets.truncatedDate_firstDate
          _ ≤ date := hdate

theorem firstDate_le {date : ℤ} (hdate : date ∈ buckets.dates) : buckets.firstDate ≤ date := by
  obtain ⟨i, hi, rfl⟩ := List.getElem_of_mem hdate
  rw [Period.firstDate, List.head_eq_getElem]
  exact buckets.date_le (Nat.zero_le i) hi

theorem graph_of_keeps (h : kept.Keeps buckets.firstDate whole) (latest : Option SkillXp) :
    dataForPlayer buckets (chartRows (rowsOf members kept name)) latest skillName =
      dataForPlayer buckets (chartRows (rowsOf members whole name)) latest skillName := by
  have hseries : generateCompleteTimeSeries buckets (chartRows (rowsOf members kept name)) latest skillName =
      generateCompleteTimeSeries buckets (chartRows (rowsOf members whole name)) latest skillName := by
    rw [generateCompleteTimeSeries_eq (newestFirst_chartRows _),
      generateCompleteTimeSeries_eq (newestFirst_chartRows _),
      List.map_congr_left fun date hdate ↦ xpAt_of_keeps h (firstDate_le hdate)]
  unfold dataForPlayer
  rw [hseries]

/-- Whoever had a row still has one. -/
theorem rowsOf_eq_nil_of_keeps {bound : ℤ} (h : kept.Keeps bound whole) :
    rowsOf members kept name = [] ↔ rowsOf members whole name = [] := by
  simp only [List.eq_nil_iff_forall_not_mem, mem_rowsOf, not_exists, not_and]
  constructor
  · intro hnone stored member hmember hshown hname hlookup
    obtain hsame | ⟨-, newer, -, -, hmem⟩ := h member.memberId stored.time
    · exact hnone stored member hmember hshown hname (hsame.trans hlookup)
    · obtain ⟨skills, hskills⟩ := SkillsTable.mem_iff_lookup.mp hmem
      exact hnone ⟨newer, skills⟩ member hmember hshown hname hskills
  · intro hnone stored member hmember hshown hname hlookup
    exact hnone stored member hmember hshown hname (lookup_of_keeps h hlookup)

/-- A player's graph, from the tables to the site. -/
def graphOf (buckets : Period) (members : MembersTable) (table : SkillsTable) (latest : Option SkillXp)
    (skillName : SkillName) (name : String) : Option PlayerGraph :=
  ((getSkillsForPeriod members table).lookup name).map fun skillData ↦
    dataForPlayer buckets (chartRows skillData) latest skillName

theorem graphOf_of_keeps (h : kept.Keeps buckets.firstDate whole) (latest : Option SkillXp) :
    graphOf buckets members kept latest skillName name = graphOf buckets members whole latest skillName name := by
  unfold graphOf
  rw [lookup_getSkillsForPeriod, lookup_getSkillsForPeriod]
  by_cases hnone : rowsOf members kept name = []
  · rw [if_pos hnone, if_pos ((rowsOf_eq_nil_of_keeps h).mp hnone)]
  · rw [if_neg hnone, if_neg (mt (rowsOf_eq_nil_of_keeps h).mpr hnone)]
    exact congrArg some (graph_of_keeps h latest)

end Graphs

/-! ## Runs -/

namespace History

section Runs

variable {dateTrunc : DateUnit → ℤ → ℤ} {minusInterval : AggregatePeriod → ℤ → ℤ} {period : AggregatePeriod}
  {kept whole : History} {bound : ℤ}

/-- Two histories that go on together, one of them less what is too old. -/
structure Keeps (period : AggregatePeriod) (bound : ℤ) (kept whole : History) : Prop where
  lastAggregation : kept.lastAggregation = whole.lastAggregation
  table : (kept.tables period).Keeps bound (whole.tables period)

theorem keeps_epoch : Keeps period bound epoch epoch := ⟨rfl, SkillsTable.keeps_empty⟩

theorem Keeps.step (h : Keeps period bound kept whole) (event : HistoryEvent)
    (hcutoff : ∀ cutoff ∈ kept.cutoffs dateTrunc minusInterval period [event], cutoff ≤ bound) :
    Keeps period bound (kept.step dateTrunc minusInterval event) (whole.stepWhole dateTrunc event) := by
  cases event with
  | aggregate now seen =>
    refine ⟨rfl, ?_⟩
    dsimp only [History.step, stepWhole, aggregateSkills]
    rw [h.lastAggregation]
    exact h.table.foldl_upsert _
  | applyRetention =>
    exact ⟨h.lastAggregation, h.table.applyRetention (hcutoff _ (List.mem_singleton_self _))⟩
  | deleteMember memberId => exact ⟨h.lastAggregation, h.table.deleteMember memberId⟩

theorem cutoffs_cons (history : History) (event : HistoryEvent) (events : List HistoryEvent) :
    history.cutoffs dateTrunc minusInterval period (event :: events) =
      history.cutoffs dateTrunc minusInterval period [event] ++
        (history.step dateTrunc minusInterval event).cutoffs dateTrunc minusInterval period events := by
  cases event <;> rfl

theorem Keeps.foldl (h : Keeps period bound kept whole) (events : List HistoryEvent)
    (hcutoffs : ∀ cutoff ∈ kept.cutoffs dateTrunc minusInterval period events, cutoff ≤ bound) :
    Keeps period bound (events.foldl (History.step dateTrunc minusInterval) kept)
      (events.foldl (stepWhole dateTrunc) whole) := by
  induction events generalizing kept whole with
  | nil => exact h
  | cons event events ih =>
    rw [cutoffs_cons, List.forall_mem_append] at hcutoffs
    exact ih (h.step event hcutoffs.1) hcutoffs.2

/-- Whatever was aggregated and deleted, as long as a graph begins no earlier than what is kept: every graph is
the one that it would be if nothing had been deleted for its age. And when the retention has just run, a
member has one row that is too old at most. -/
theorem graphs_kept (dateTrunc : DateUnit → ℤ → ℤ) (minusInterval : AggregatePeriod → ℤ → ℤ)
    (period : AggregatePeriod) (buckets : Period) (events : List HistoryEvent)
    (hreach : ∀ cutoff ∈ epoch.cutoffs dateTrunc minusInterval period events, cutoff ≤ buckets.firstDate) :
    (∀ members latest skillName name,
      graphOf buckets members ((run dateTrunc minusInterval events).tables period) latest skillName name =
        graphOf buckets members ((runWhole dateTrunc events).tables period) latest skillName name) ∧
      ∀ memberId time other,
        let after := (run dateTrunc minusInterval events).applySkillsRetention minusInterval
        (memberId, time) ∈ after.tables period → time < after.cutoff minusInterval period →
          (memberId, other) ∈ after.tables period → other < after.cutoff minusInterval period → time = other := by
  have hkeeps : Keeps period buckets.firstDate (run dateTrunc minusInterval events) (runWhole dateTrunc events) :=
    keeps_epoch.foldl events hreach
  refine ⟨fun members latest skillName name ↦ graphOf_of_keeps hkeeps.table latest, ?_⟩
  intro memberId time other after hmem hold hother hotherOld
  exact SkillsTable.eq_of_mem_applyRetention hmem hother hold hotherOld

end Runs

end History

/-! ## Days and months -/

/-- Truncated to the day; the buckets are those that `datesForPeriod` has for a month, in UTC. -/
def Period.month (now : ℤ) : Period where
  truncatedDate time := time / 86400000 * 86400000
  dates := (List.range 30).map fun i : ℕ ↦ now / 86400000 * 86400000 - (29 - i) * 86400000
  now := now
  mono a b hab := by dsimp only; omega
  nonempty := by simp
  consecutive := by
    refine List.isChain_iff_getElem.mpr fun i hi ↦ ?_
    simp only [List.getElem_map, List.getElem_range]
    omega
  starts date hdate := by
    obtain ⟨i, -, rfl⟩ := List.mem_map.mp hdate
    omega
  ends := by
    simp only [List.getLast_map, List.getLast_range]
    omega
  covers time hfirst hnow := by
    simp only [List.head_map, List.head_range] at hfirst
    refine List.mem_map.mpr ⟨(29 - (now / 86400000 - time / 86400000)).toNat, ?_, ?_⟩
    · rw [List.mem_range]
      omega
    · omega

namespace History

/-- The units of `date_trunc` in milliseconds, with months of thirty days. -/
def utcTrunc : DateUnit → ℤ → ℤ
  | .hour, time => time / 3600000 * 3600000
  | .day, time => time / 86400000 * 86400000
  | .month, time => time / 2592000000 * 2592000000

/-- The intervals as they are in the middle of March: the month before has 28 days. -/
def minusInMarch : AggregatePeriod → ℤ → ℤ
  | .day, time => time - 86400000
  | .month, time => time - 28 * 86400000
  | .year, time => time - 365 * 86400000

/-- Ann trains for two days and is sampled twice. -/
def twoDays : List HistoryEvent :=
  [.aggregate 83937600000 fun _ ↦ [⟨1, ⟨some [100], some 83934000000⟩⟩],
    .aggregate 84024000000 fun _ ↦ [⟨1, ⟨some [200], some 84020400000⟩⟩], .applyRetention,
    .aggregate 86443200000 fun _ ↦ [], .applyRetention]

def onlyAnn : MembersTable where
  rows := [⟨1, "Ann", false, none⟩]
  unique := List.pairwise_singleton _ _

theorem graphs_kept_twoDays :
    graphOf (.day 86443200000) onlyAnn ((run utcTrunc minusInMarch twoDays).tables .day) none .agility "Ann" =
      graphOf (.day 86443200000) onlyAnn ((runWhole utcTrunc twoDays).tables .day) none .agility "Ann" :=
  (graphs_kept utcTrunc minusInMarch .day (.day 86443200000) twoDays (by decide +kernel)).1
    onlyAnn none .agility "Ann"

/-- In March a month is kept for 28 days, and its graph shows 30: what was first on it is gone. -/
theorem not_graphs_kept_march : ¬ ∀ members latest skillName name,
    graphOf (.month 86443200000) members ((run utcTrunc minusInMarch twoDays).tables .month) latest skillName name =
      graphOf (.month 86443200000) members ((runWhole utcTrunc twoDays).tables .month) latest skillName name := by
  intro h
  have hkept : (graphOf (.month 86443200000) onlyAnn ((run utcTrunc minusInMarch twoDays).tables .month) none .agility
      "Ann").map (fun graph ↦ graph.completeTimeSeries.head?) = some (some none) := by decide +kernel
  have hwhole : (getSkillsForPeriod onlyAnn ((runWhole utcTrunc twoDays).tables .month)).lookup "Ann" =
      some [⟨83980800000, [200]⟩, ⟨83894400000, [100]⟩] := by decide +kernel
  have hsorted : chartRows [⟨83980800000, [200]⟩, ⟨83894400000, [100]⟩] =
      [⟨83980800000, transformSkillsFromStorage [200]⟩, ⟨83894400000, transformSkillsFromStorage [100]⟩] :=
    List.mergeSort_of_pairwise (by decide)
  rw [h onlyAnn none .agility "Ann", graphOf, hwhole, Option.map_some, hsorted] at hkept
  exact absurd hkept (by decide +kernel)

end History

end OsrsMap.Skills
