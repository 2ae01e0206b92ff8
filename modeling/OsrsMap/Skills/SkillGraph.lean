import Mathlib
import OsrsMap.Library.Keyed
import OsrsMap.Library.Newest

/-!
# The XP graph

`generateCompleteTimeSeries` and `dataForPlayer` (`site/src/skill-graph/skill-graph.js`) on the rows
that `createChart` (`site/src/skills-graphs/skills-graphs.js`) makes of a player's skill history.
The rows are sampled only when skills change, so a bucket without a row shows what the row before it
left.
-/

namespace OsrsMap.Skills

open Newest (newest NewestFirst)

/-! ## Rows -/

/-- `SkillName`, in the order of its keys. -/
inductive SkillName where
  | agility | attack | construction | cooking | crafting | defence | farming | firemaking | fishing
  | fletching | herblore | hitpoints | hunter | magic | mining | overall | prayer | ranged
  | runecraft | slayer | smithing | strength | thieving | woodcutting | sailing
deriving DecidableEq, Repr

/-- `Object.keys(SkillName)`. -/
def SkillName.keys : List SkillName :=
  [.agility, .attack, .construction, .cooking, .crafting, .defence, .farming, .firemaking, .fishing,
    .fletching, .herblore, .hitpoints, .hunter, .magic, .mining, .overall, .prayer, .ranged,
    .runecraft, .slayer, .smithing, .strength, .thieving, .woodcutting, .sailing]

/-- The XP of skills. -/
abbrev SkillXp := List (SkillName × ℤ)

/-- Stored skills read up to a key. -/
structure Reading where
  result : SkillXp
  i : ℕ
  overall : ℤ

def Reading.read (skills : List ℤ) (reading : Reading) (skillName : SkillName) : Reading :=
  if skillName = .overall then reading
  else
    { result := reading.result ++ [(skillName, skills.getD reading.i 0)]
      i := reading.i + 1
      overall := reading.overall + skills.getD reading.i 0 }

/-- `GuildData.transformSkillsFromStorage`, of skills that are there. -/
def transformSkillsFromStorage (skills : List ℤ) : SkillXp :=
  let reading := SkillName.keys.foldl (Reading.read skills) ⟨[], 0, 0⟩
  reading.result ++ [(.overall, reading.overall)]

/-- A row of the skill history, as the server sends it. -/
structure StoredRow where
  time : ℤ
  data : List ℤ
deriving DecidableEq, Repr

structure SkillRow where
  time : ℤ
  data : SkillXp
deriving DecidableEq, Repr

/-- What `createChart` makes of a player's history: the newest row comes first. -/
def chartRows (skillData : List StoredRow) : List SkillRow :=
  (skillData.map fun x ↦ ⟨x.time, transformSkillsFromStorage x.data⟩).mergeSort
    fun a b ↦ b.time ≤ a.time

/-! ## Buckets -/

/-- The buckets of a period: how a time is truncated to the start of its bucket, and the starts of
the buckets up to the one of now. -/
structure Period where
  truncatedDate : ℤ → ℤ
  dates : List ℤ
  now : ℤ
  mono : Monotone truncatedDate
  nonempty : dates ≠ []
  consecutive : dates.IsChain (· < ·)
  starts : ∀ date ∈ dates, truncatedDate date = date
  ends : dates.getLast nonempty = truncatedDate now
  covers : ∀ time, dates.head nonempty ≤ time → time ≤ now → truncatedDate time ∈ dates

/-- Truncated to the hour; the buckets are those that `datesForPeriod` has for a day, in a time zone
that is whole hours off. -/
def Period.day (now : ℤ) : Period where
  truncatedDate time := time / 3600000 * 3600000
  dates := (List.range 24).map fun i : ℕ ↦ now / 3600000 * 3600000 - (23 - i) * 3600000
  now := now
  mono a b hab := by dsimp only; omega
  nonempty := by simp
  consecutive := by
    refine List.isChain_iff_getElem.mpr fun i hi ↦ ?_
    simp only [List.getElem_map, List.getElem_range]
    omega
  starts date hdate := by
    obtain ⟨i, -, rfl⟩ := List.mem_map.mp hdate
    omega
  ends := by
    simp only [List.getLast_map, List.getLast_range]
    omega
  covers time hfirst hnow := by
    simp only [List.head_map, List.head_range] at hfirst
    refine List.mem_map.mpr ⟨(23 - (now / 3600000 - time / 3600000)).toNat, ?_, ?_⟩
    · rw [List.mem_range]
      omega
    · omega

/-- `dates[0]`. -/
def Period.firstDate (period : Period) : ℤ := period.dates.head period.nonempty

/-- The rows seen so far: the first of every bucket, and those before the period. -/
structure Bucketed where
  bucketedSkillData : Keyed.Map ℤ SkillXp
  datesOutsideOfPeriod : List SkillRow

def Bucketed.add (truncatedDate : ℤ → ℤ) (earliestDateInPeriod : ℤ) (bucketed : Bucketed)
    (skillData : SkillRow) : Bucketed where
  bucketedSkillData :=
    Keyed.alter bucketed.bucketedSkillData (truncatedDate skillData.time) fun data ↦
      some (data.getD skillData.data)
  datesOutsideOfPeriod :=
    if truncatedDate skillData.time < earliestDateInPeriod then
      bucketed.datesOutsideOfPeriod ++ [skillData]
    else bucketed.datesOutsideOfPeriod

/-- The entries up to a bucket, and what the next one shows when it has no row. -/
structure Series where
  result : List (Option ℤ)
  lastData : Option ℤ

def Series.push (bucketedSkillData : Keyed.Map ℤ SkillXp) (skillName : SkillName) (series : Series)
    (date : ℤ) : Series :=
  match bucketedSkillData.lookup date with
  | some data => ⟨series.result ++ [data.lookup skillName], data.lookup skillName⟩
  | none => ⟨series.result ++ [series.lastData], series.lastData⟩

/-- `generateCompleteTimeSeries`. -/
def generateCompleteTimeSeries (period : Period) (playerSkillData : List SkillRow)
    (currentSkillData : Option SkillXp) (skillName : SkillName) : List (Option ℤ) :=
  let earliestDateInPeriod := period.truncatedDate period.firstDate
  let bucketed := playerSkillData.foldl (Bucketed.add period.truncatedDate earliestDateInPeriod)
    ⟨∅, []⟩
  let lastData := bucketed.datesOutsideOfPeriod.head?.bind (·.data.lookup skillName)
  let series := period.dates.foldl (Series.push bucketed.bucketedSkillData skillName) ⟨[], lastData⟩
  match currentSkillData.bind (·.lookup skillName) with
  | some currentXp => series.result.set (series.result.length - 1) (some currentXp)
  | none => series.result

/-! ## Gains -/

/-- What `dataForPlayer` returns. -/
structure PlayerGraph where
  completeTimeSeries : List (Option ℤ)
  changeData : List ℤ
  cumulativeChangeData : List ℤ

structure Gains where
  changeData : List ℤ
  cumulativeChangeData : List ℤ
  s : ℤ

/-- One entry more, after the one before it. -/
def Gains.add (gains : Gains) : Option ℤ × Option ℤ → Gains
  | (some previous, some current) =>
    { changeData := gains.changeData ++ [current - previous]
      cumulativeChangeData := gains.cumulativeChangeData ++ [gains.s + (current - previous)]
      s := gains.s + (current - previous) }
  | _ =>
    { gains with
      changeData := gains.changeData ++ [0]
      cumulativeChangeData := gains.cumulativeChangeData ++ [gains.s] }

/-- `dataForPlayer`, of a player whose latest skills are as far as they are known. -/
def dataForPlayer (period : Period) (playerSkillData : List SkillRow)
    (latestSkillData : Option SkillXp) (skillName : SkillName) : PlayerGraph :=
  let completeTimeSeries :=
    generateCompleteTimeSeries period playerSkillData latestSkillData skillName
  let gains := (completeTimeSeries.zip completeTimeSeries.tail).foldl Gains.add ⟨[0], [0], 0⟩
  ⟨completeTimeSeries, gains.changeData, gains.cumulativeChangeData⟩

/-! ## The rows have every skill -/

theorem Reading.mem_foldl (skills : List ℤ) {skillName : SkillName} (hskill : skillName ≠ .overall)
    {names : List SkillName} {reading : Reading}
    (h : skillName ∈ reading.result.map Prod.fst ∨ skillName ∈ names) :
    skillName ∈ (names.foldl (Reading.read skills) reading).result.map Prod.fst := by
  induction names generalizing reading with
  | nil => simpa using h
  | cons name names ih =>
    rw [List.foldl_cons]
    apply ih
    unfold Reading.read
    obtain hresult | hnames := h
    · split
      · exact Or.inl hresult
      · rw [List.map_append]
        exact Or.inl (List.mem_append_left _ hresult)
    · obtain rfl | hnames := List.mem_cons.mp hnames
      · rw [if_neg hskill, List.map_append]
        exact Or.inl (List.mem_append_right _ (List.mem_singleton_self _))
      · exact Or.inr hnames

theorem SkillName.mem_keys (skillName : SkillName) : skillName ∈ SkillName.keys := by
  cases skillName <;> decide

theorem mem_transformSkillsFromStorage (skills : List ℤ) (skillName : SkillName) :
    skillName ∈ (transformSkillsFromStorage skills).map Prod.fst := by
  unfold transformSkillsFromStorage
  dsimp only
  rw [List.map_append]
  by_cases hskill : skillName = .overall
  · rw [hskill]
    exact List.mem_append_right _ (List.mem_singleton_self _)
  · apply List.mem_append_left
    exact Reading.mem_foldl skills hskill (Or.inr skillName.mem_keys)

theorem lookup_transformSkillsFromStorage (skills : List ℤ) (skillName : SkillName) :
    ∃ xp, (transformSkillsFromStorage skills).lookup skillName = some xp := by
  rw [← Option.isSome_iff_exists, List.lookup_isSome_iff]
  obtain ⟨entry, hentry, rfl⟩ := List.mem_map.mp (mem_transformSkillsFromStorage skills skillName)
  exact ⟨entry, hentry, beq_self_eq_true _⟩

theorem lookup_of_mem_chartRows {skillData : List StoredRow} {row : SkillRow}
    (hrow : row ∈ chartRows skillData) (skillName : SkillName) :
    ∃ xp, row.data.lookup skillName = some xp := by
  obtain ⟨x, -, rfl⟩ := List.mem_map.mp (List.mem_mergeSort.mp hrow)
  exact lookup_transformSkillsFromStorage x.data skillName

theorem newestFirst_chartRows (skillData : List StoredRow) :
    NewestFirst SkillRow.time (chartRows skillData) := by
  have hsorted := @List.pairwise_mergeSort SkillRow (fun a b ↦ b.time ≤ a.time)
    (fun a b c hab hbc ↦ by simp only [decide_eq_true_eq] at *; omega)
    (fun a b ↦ by simp only [Bool.or_eq_true, decide_eq_true_eq]; omega)
    (skillData.map fun x ↦ ⟨x.time, transformSkillsFromStorage x.data⟩)
  exact hsorted.imp fun hab ↦ of_decide_eq_true hab

/-! ## The buckets -/

namespace Period

variable (period : Period)

/-- The bucket of a row. -/
def bucketOf (row : SkillRow) : ℤ := period.truncatedDate row.time

/-- The XP in the newest row that is not after the bucket's end. -/
def xpAt (rows : List SkillRow) (skillName : SkillName) (date : ℤ) : Option ℤ :=
  (newest period.bucketOf rows date).bind (·.data.lookup skillName)

/-- A row is not after a bucket's end if it is not after some moment of the bucket. -/
theorem bucketOf_le_iff {row : SkillRow} {date : ℤ} (hdate : date ∈ period.dates) :
    period.bucketOf row ≤ date ↔ ∃ moment, period.truncatedDate moment = date ∧ row.time ≤ moment := by
  constructor
  · intro hle
    obtain heq | hlt := eq_or_lt_of_le hle
    · exact ⟨row.time, heq, le_rfl⟩
    · refine ⟨date, period.starts date hdate, ?_⟩
      by_contra hafter
      have hmono := period.mono (not_le.mp hafter).le
      rw [period.starts date hdate] at hmono
      exact absurd hlt (not_lt.mpr hmono)
  · rintro ⟨moment, rfl, hle⟩
    exact period.mono hle

theorem truncatedDate_firstDate : period.truncatedDate period.firstDate = period.firstDate :=
  period.starts _ (List.head_mem period.nonempty)

theorem date_lt {i j : ℕ} (hij : i < j) (hj : j < period.dates.length) :
    period.dates[i] < period.dates[j] :=
  List.pairwise_iff_getElem.mp (List.isChain_iff_pairwise.mp period.consecutive) i j
    (hij.trans hj) hj hij

theorem date_le {i j : ℕ} (hij : i ≤ j) (hj : j < period.dates.length) :
    period.dates[i] ≤ period.dates[j] := by
  obtain hlt | rfl := hij.lt_or_eq
  · exact (period.date_lt hlt hj).le
  · exact le_rfl

/-- A time in the bucket of one of the dates, or between two of them, is covered. -/
theorem mem_dates {i : ℕ} (hi : i + 1 < period.dates.length) {time : ℤ}
    (hafter : period.dates[i] < period.truncatedDate time)
    (hbefore : period.truncatedDate time < period.dates[i + 1]) :
    period.truncatedDate time ∈ period.dates := by
  have hnonempty : 0 < period.dates.length := by omega
  refine period.covers time ?_ ?_
  · by_contra hearly
    have hmono : period.truncatedDate time ≤ period.truncatedDate period.firstDate :=
      period.mono (not_le.mp hearly).le
    have hfirst : period.firstDate ≤ period.dates[i] := by
      rw [firstDate, List.head_eq_getElem]
      exact period.date_le (Nat.zero_le i) _
    rw [period.truncatedDate_firstDate] at hmono
    exact absurd hafter (not_lt.mpr (hmono.trans hfirst))
  · by_contra hlate
    have hmono : period.truncatedDate period.now ≤ period.truncatedDate time :=
      period.mono (not_le.mp hlate).le
    have hlast : period.dates[i + 1] ≤ period.truncatedDate period.now := by
      rw [← period.ends, List.getLast_eq_getElem]
      exact period.date_le (by omega) _
    exact absurd hbefore (not_lt.mpr (hlast.trans hmono))

/-- Nothing falls between two consecutive buckets. -/
theorem gapless : period.dates.IsChain fun a b ↦
    ∀ time, ¬ (a < period.truncatedDate time ∧ period.truncatedDate time < b) := by
  refine List.isChain_iff_getElem.mpr fun i hi time ⟨hafter, hbefore⟩ ↦ ?_
  obtain ⟨j, hj, hdate⟩ := List.mem_iff_getElem.mp (period.mem_dates hi hafter hbefore)
  rw [← hdate] at hafter hbefore
  have hij : i < j := by
    by_contra hle
    exact absurd hafter (not_lt.mpr (period.date_le (not_lt.mp hle) _))
  exact absurd hbefore (not_lt.mpr (period.date_le hij hj))

end Period

/-! ## The rows by their buckets -/

namespace Bucketed

variable {truncatedDate : ℤ → ℤ} {earliest : ℤ} {rows : List SkillRow} {bucketed : Bucketed}

theorem bucketedSkillData_foldl : (rows.foldl (add truncatedDate earliest) bucketed).bucketedSkillData =
    Keyed.alterEach (fun row ↦ truncatedDate row.time) (fun row data ↦ some (data.getD row.data))
      rows bucketed.bucketedSkillData := by
  induction rows generalizing bucketed with
  | nil => rfl
  | cons row rows ih => exact ih

theorem datesOutsideOfPeriod_foldl :
    (rows.foldl (add truncatedDate earliest) bucketed).datesOutsideOfPeriod =
      bucketed.datesOutsideOfPeriod ++
        rows.filter fun row ↦ truncatedDate row.time < earliest := by
  induction rows generalizing bucketed with
  | nil => exact (List.append_nil _).symm
  | cons row rows ih =>
    rw [List.foldl_cons, ih, add]
    dsimp only
    by_cases hearly : truncatedDate row.time < earliest
    · rw [if_pos hearly, List.filter_cons_of_pos (by simpa using hearly), List.append_assoc,
        List.singleton_append]
    · rw [if_neg hearly, List.filter_cons_of_neg (by simpa using hearly)]

theorem foldl_getD (row : SkillRow) (rows : List SkillRow) :
    rows.foldl (fun data row ↦ some (data.getD row.data)) (some row.data) = some row.data := by
  induction rows with
  | nil => rfl
  | cons next rows ih => exact ih

/-- A bucket has the data of the first of its rows. -/
theorem lookup_foldl {outside : List SkillRow} (date : ℤ) :
    (rows.foldl (add truncatedDate earliest) ⟨∅, outside⟩).bucketedSkillData.lookup date =
      (rows.find? fun row ↦ truncatedDate row.time = date).map SkillRow.data := by
  rw [bucketedSkillData_foldl, Keyed.lookup_alterEach, AList.lookup_empty, ← List.head?_filter]
  cases rows.filter fun row ↦ truncatedDate row.time = date with
  | nil => rfl
  | cons row rows => exact foldl_getD row rows

end Bucketed

/-! ## The series -/

section Carried

variable {period : Period} {rows : List SkillRow} {skillName : SkillName}
  {buckets : Keyed.Map ℤ SkillXp}

theorem newestFirst_bucketOf (h : NewestFirst SkillRow.time rows) :
    NewestFirst period.bucketOf rows :=
  h.imp fun hab ↦ period.mono hab

/-- What a bucket shows, if a bucket without a row shows what was carried to it. -/
theorem Series.push_eq (h : NewestFirst period.bucketOf rows) {date : ℤ}
    (hbucket : buckets.lookup date =
      (rows.find? fun row ↦ period.bucketOf row = date).map SkillRow.data)
    {series : Series} (hcarried : (rows.find? fun row ↦ period.bucketOf row = date) = none →
      series.lastData = period.xpAt rows skillName date) :
    series.push buckets skillName date =
      ⟨series.result ++ [period.xpAt rows skillName date], period.xpAt rows skillName date⟩ := by
  unfold push
  rw [hbucket]
  cases hfind : rows.find? fun row ↦ period.bucketOf row = date with
  | none => rw [Option.map_none, hcarried hfind]
  | some row =>
    have hxp : period.xpAt rows skillName date = row.data.lookup skillName := by
      rw [Period.xpAt, Newest.newest_of_find? h hfind, Option.bind_some]
    rw [Option.map_some, hxp]

/-- With no row in a bucket, and none between it and the bucket before, nothing changes. -/
theorem Period.xpAt_congr {date next : ℤ} (hdate : date < next)
    (hgap : ∀ time, ¬ (date < period.truncatedDate time ∧ period.truncatedDate time < next))
    (hnone : (rows.find? fun row ↦ period.bucketOf row = next) = none) :
    period.xpAt rows skillName next = period.xpAt rows skillName date := by
  unfold xpAt
  rw [Newest.newest_congr fun row hrow ↦ ?_]
  have hother : period.bucketOf row ≠ next := by simpa using List.find?_eq_none.mp hnone row hrow
  constructor
  · intro hle
    by_contra hafter
    exact hgap row.time ⟨not_le.mp hafter, lt_of_le_of_ne hle hother⟩
  · exact fun hle ↦ hle.trans hdate.le

theorem Series.foldl_push (h : NewestFirst period.bucketOf rows)
    (hbuckets : ∀ date, buckets.lookup date =
      (rows.find? fun row ↦ period.bucketOf row = date).map SkillRow.data)
    {dates : List ℤ} (hchain : dates.IsChain (· < ·))
    (hgap : dates.IsChain fun a b ↦
      ∀ time, ¬ (a < period.truncatedDate time ∧ period.truncatedDate time < b))
    {series : Series} (hcarried : ∀ date ∈ dates.head?,
      (rows.find? fun row ↦ period.bucketOf row = date) = none →
        series.lastData = period.xpAt rows skillName date) :
    (dates.foldl (Series.push buckets skillName) series).result =
      series.result ++ dates.map (period.xpAt rows skillName) := by
  induction dates generalizing series with
  | nil => exact (List.append_nil _).symm
  | cons date dates ih =>
    rw [List.foldl_cons, Series.push_eq h (hbuckets date) (hcarried date rfl)]
    refine (ih hchain.of_cons hgap.of_cons fun next hnext hnone ↦ ?_).trans ?_
    · obtain ⟨rest, rfl⟩ := List.head?_eq_some_iff.mp hnext
      have hdate : date < next := (List.isChain_cons_cons.mp hchain).1
      exact (Period.xpAt_congr hdate (List.isChain_cons_cons.mp hgap).1 hnone).symm
    · rw [List.map_cons, List.append_assoc, List.singleton_append]

/-- What is carried to the first bucket is the newest row before the period. -/
theorem carried_outside (h : (rows.find? fun row ↦ period.bucketOf row = period.firstDate) = none) :
    ((rows.filter fun row ↦ period.bucketOf row < period.firstDate).head?.bind
      (·.data.lookup skillName)) = period.xpAt rows skillName period.firstDate := by
  rw [List.head?_filter, Period.xpAt, newest]
  congr 1
  refine List.find?_congr fun row hrow ↦ ?_
  have hother : period.bucketOf row ≠ period.firstDate := by
    simpa using List.find?_eq_none.mp h row hrow
  exact decide_eq_decide.mpr ⟨le_of_lt, fun hle ↦ lt_of_le_of_ne hle hother⟩

theorem generateCompleteTimeSeries_eq (h : NewestFirst SkillRow.time rows)
    (latest : Option SkillXp) :
    generateCompleteTimeSeries period rows latest skillName =
      match latest.bind (·.lookup skillName) with
      | some currentXp => (period.dates.map (period.xpAt rows skillName)).set
          (period.dates.length - 1) (some currentXp)
      | none => period.dates.map (period.xpAt rows skillName) := by
  let bucketed := rows.foldl (Bucketed.add period.truncatedDate period.firstDate) ⟨∅, []⟩
  let series : Series :=
    ⟨[], bucketed.datesOutsideOfPeriod.head?.bind (·.data.lookup skillName)⟩
  have houtside : bucketed.datesOutsideOfPeriod =
      rows.filter fun row ↦ period.bucketOf row < period.firstDate :=
    Bucketed.datesOutsideOfPeriod_foldl
  have hcarried : ∀ date ∈ period.dates.head?,
      (rows.find? fun row ↦ period.bucketOf row = date) = none →
        series.lastData = period.xpAt rows skillName date := by
    intro date hdate hnone
    obtain rfl : period.firstDate = date := by
      rw [List.head?_eq_some_head period.nonempty] at hdate
      exact Option.some.inj hdate
    rw [← carried_outside hnone, ← houtside]
  have hbuckets : ∀ date, bucketed.bucketedSkillData.lookup date =
      (rows.find? fun row ↦ period.bucketOf row = date).map SkillRow.data :=
    Bucketed.lookup_foldl
  have hseries := Series.foldl_push (newestFirst_bucketOf h) hbuckets period.consecutive
    period.gapless hcarried
  rw [List.nil_append] at hseries
  unfold generateCompleteTimeSeries
  dsimp only
  rw [period.truncatedDate_firstDate, hseries, List.length_map]

end Carried

/-! ## The gains -/

namespace Gains

/-- The gain so far is what the entries say: the last one less the first that is known. -/
def Counts (entries : List (Option ℤ)) (last : Option ℤ) (gains : Gains) : Prop :=
  gains.cumulativeChangeData.getLast? = some gains.s ∧
    match entries.findSome? id, last with
    | some first, some xp => gains.s = xp - first
    | none, none => gains.s = 0
    | _, _ => False

theorem counts_start (entry : Option ℤ) : Counts [entry] entry ⟨[0], [0], 0⟩ := by
  cases entry with
  | none => exact ⟨rfl, rfl⟩
  | some xp => exact ⟨rfl, (Int.sub_self xp).symm⟩

/-- An entry that is unknown only while none was known before it is counted. -/
theorem Counts.add {entries : List (Option ℤ)} {previous current : Option ℤ} {gains : Gains}
    (h : Counts entries previous gains) (hcurrent : previous.isSome → current.isSome) :
    Counts (entries ++ [current]) current (gains.add (previous, current)) := by
  obtain ⟨hlast, hcounts⟩ := h
  unfold Counts
  rw [List.findSome?_append]
  cases previous with
  | none =>
    cases hfirst : entries.findSome? id with
    | some first => simp [hfirst] at hcounts
    | none =>
      rw [hfirst] at hcounts
      refine ⟨by simp [Gains.add], ?_⟩
      cases current with
      | none => exact hcounts
      | some xp => exact hcounts.trans (Int.sub_self xp).symm
  | some xp =>
    obtain ⟨now, rfl⟩ := Option.isSome_iff_exists.mp (hcurrent rfl)
    cases hfirst : entries.findSome? id with
    | none => simp [hfirst] at hcounts
    | some first =>
      rw [hfirst] at hcounts
      refine ⟨by simp [Gains.add], ?_⟩
      change gains.s + (now - xp) = now - first
      have hgained : gains.s = xp - first := hcounts
      omega

/-- Entries that stay known once they are. -/
def StayKnown (entries : List (Option ℤ)) : Prop :=
  entries.IsChain fun a b ↦ a.isSome → b.isSome

theorem counts_foldl {entry : Option ℤ} {rest : List (Option ℤ)} (h : StayKnown (entry :: rest))
    {seen : List (Option ℤ)} {gains : Gains} (hgains : Counts seen entry gains) :
    Counts (seen ++ rest) ((entry :: rest).getLast (List.cons_ne_nil _ _))
      (((entry :: rest).zip rest).foldl Gains.add gains) := by
  induction rest generalizing entry seen gains with
  | nil => simpa using hgains
  | cons next rest ih =>
    obtain ⟨hnext, hrest⟩ := List.isChain_cons_cons.mp h
    rw [List.zip_cons_cons, List.foldl_cons, List.getLast_cons (List.cons_ne_nil _ _)]
    have hstep := ih hrest (hgains.add hnext)
    rwa [List.append_assoc, List.singleton_append] at hstep

end Gains

/-! ## The graph -/

/-- What a graph shows of a player's rows. -/
structure PlayerGraph.Carries (period : Period) (rows : List SkillRow) (currentXp : Option ℤ)
    (skillName : SkillName) (graph : PlayerGraph) : Prop where
  length_eq : graph.completeTimeSeries.length = period.dates.length
  entries : ∀ i date, period.dates[i]? = some date → graph.completeTimeSeries[i]? = some
    (if i + 1 = period.dates.length then currentXp.or (period.xpAt rows skillName date)
      else period.xpAt rows skillName date)
  gained : ∀ first, graph.completeTimeSeries.findSome? id = some first →
    ∃ last, graph.completeTimeSeries.getLast? = some (some last) ∧
      graph.cumulativeChangeData.getLast? = some (last - first)

section Graph

variable {period : Period} {rows : List SkillRow} {skillName : SkillName}

theorem length_generateCompleteTimeSeries (h : NewestFirst SkillRow.time rows)
    (latest : Option SkillXp) :
    (generateCompleteTimeSeries period rows latest skillName).length = period.dates.length := by
  rw [generateCompleteTimeSeries_eq h]
  cases latest.bind (·.lookup skillName) with
  | none => exact List.length_map _
  | some currentXp => exact List.length_set.trans (List.length_map _)

theorem getElem?_generateCompleteTimeSeries (h : NewestFirst SkillRow.time rows)
    (skillName : SkillName) (latest : Option SkillXp) {i : ℕ} {date : ℤ} (hdate : period.dates[i]? = some date) :
    (generateCompleteTimeSeries period rows latest skillName)[i]? = some
      (if i + 1 = period.dates.length then
        (latest.bind (·.lookup skillName)).or (period.xpAt rows skillName date)
      else period.xpAt rows skillName date) := by
  obtain ⟨hi, -⟩ := List.getElem?_eq_some_iff.mp hdate
  rw [generateCompleteTimeSeries_eq h]
  cases latest.bind (·.lookup skillName) with
  | none =>
    dsimp only
    rw [List.getElem?_map, hdate, Option.none_or, ite_self]
    rfl
  | some currentXp =>
    dsimp only
    rw [List.getElem?_set, List.getElem?_map, hdate, List.length_map, Option.some_or]
    by_cases hlast : i + 1 = period.dates.length
    · rw [if_pos hlast, if_pos (by omega), if_pos (by omega)]
    · rw [if_neg hlast, if_neg (by omega)]
      rfl

theorem isSome_xpAt (hskill : ∀ row ∈ rows, ∃ xp, row.data.lookup skillName = some xp)
    (h : NewestFirst SkillRow.time rows) {date next : ℤ} (hdate : date ≤ next)
    (hsome : (period.xpAt rows skillName date).isSome) :
    (period.xpAt rows skillName next).isSome := by
  unfold Period.xpAt at hsome ⊢
  cases hnext : newest period.bucketOf rows next with
  | some row =>
    obtain ⟨hrow, -, -⟩ := Newest.newest_spec (newestFirst_bucketOf h) hnext
    obtain ⟨xp, hxp⟩ := hskill row hrow
    rw [Option.bind_some, hxp]
    rfl
  | none =>
    have hnone : newest period.bucketOf rows date = none :=
      Newest.newest_eq_none_iff.mpr fun row hrow ↦
        hdate.trans_lt (Newest.newest_eq_none_iff.mp hnext row hrow)
    rw [hnone] at hsome
    exact absurd hsome Bool.false_ne_true

theorem stayKnown_generateCompleteTimeSeries (period : Period) (h : NewestFirst SkillRow.time rows)
    (hskill : ∀ row ∈ rows, ∃ xp, row.data.lookup skillName = some xp) (latest : Option SkillXp) :
    Gains.StayKnown (generateCompleteTimeSeries period rows latest skillName) := by
  refine List.isChain_iff_getElem.mpr fun i hi hsome ↦ ?_
  have hdates : i + 1 < period.dates.length := by
    rwa [length_generateCompleteTimeSeries h] at hi
  have hi' : i < period.dates.length := Nat.lt_of_succ_lt hdates
  have hhere := getElem?_generateCompleteTimeSeries h skillName latest
    (List.getElem?_eq_getElem hi')
  have hnext := getElem?_generateCompleteTimeSeries h skillName latest
    (List.getElem?_eq_getElem hdates)
  rw [List.getElem?_eq_getElem (Nat.lt_of_succ_lt hi), if_neg hdates.ne, Option.some.injEq] at hhere
  rw [List.getElem?_eq_getElem hi, Option.some.injEq] at hnext
  rw [hhere] at hsome
  have hlater := isSome_xpAt hskill h (period.date_lt (Nat.lt_succ_self i) hdates).le hsome
  rw [hnext]
  split
  · rw [Option.isSome_or, hlater, Bool.or_true]
  · exact hlater

/-- The graph of a player carries values forward rightly, whatever rows are sent and in whatever
order. -/
theorem carries_dataForPlayer (period : Period) (skillData : List StoredRow)
    (latest : Option SkillXp) (skillName : SkillName) :
    (dataForPlayer period (chartRows skillData) latest skillName).Carries period
      (chartRows skillData) (latest.bind (·.lookup skillName)) skillName := by
  have hrows := newestFirst_chartRows skillData
  refine ⟨length_generateCompleteTimeSeries hrows latest,
    fun i date hdate ↦ getElem?_generateCompleteTimeSeries hrows skillName latest hdate, fun first hfirst ↦ ?_⟩
  have hknown := stayKnown_generateCompleteTimeSeries period hrows
    (fun row hrow ↦ lookup_of_mem_chartRows hrow skillName) latest
  unfold dataForPlayer at hfirst ⊢
  dsimp only at hfirst ⊢
  cases hseries : generateCompleteTimeSeries period (chartRows skillData) latest skillName with
  | nil => simp [hseries] at hfirst
  | cons entry rest =>
    rw [hseries] at hfirst hknown
    obtain ⟨hlast, hcounts⟩ := Gains.counts_foldl hknown (Gains.counts_start entry)
    rw [List.singleton_append, hfirst] at hcounts
    rw [List.tail_cons, hlast, List.getLast?_eq_some_getLast (List.cons_ne_nil _ _)]
    cases hxp : (entry :: rest).getLast (List.cons_ne_nil _ _) with
    | none => simp [hxp] at hcounts
    | some xp =>
      rw [hxp] at hcounts
      exact ⟨xp, rfl, congrArg some hcounts⟩

end Graph

end OsrsMap.Skills
