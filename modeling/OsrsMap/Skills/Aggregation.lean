import OsrsMap.Library.Run
import OsrsMap.Library.Cursor

/-!
# Skill history

`aggregate_skills` (`server/src/db/skills.rs`) next to the statements of the update batcher. A
statement is stamped with the start of its transaction and seen by others from its commit; a run of
the aggregator takes what is stamped at or after the start of the run before it, as far as it is
committed when it selects.

A value is missed when its statement started before a run did and was committed after the run had
selected: the next run looks only at later stamps. What a run found when it started and what was
replaced before the run selected it is missed as well.
-/

namespace OsrsMap.Skills

open Cursor (Cell)

inductive AggregatePeriod where
  | day
  | month
  | year
deriving DecidableEq, Repr

/-- The order of the statements of a run. -/
def periods : List AggregatePeriod := [.day, .month, .year]

/-- The unit that the samples of a period are truncated to. -/
inductive DateUnit where
  | hour
  | day
  | month
deriving DecidableEq, Repr

def AggregatePeriod.unit : AggregatePeriod → DateUnit
  | .day => .hour
  | .month => .day
  | .year => .month

/-- A row of the members table: `skills` with `skills_last_update`. -/
structure MemberSkills where
  memberId : ℕ
  skills : Cell (List ℤ) ℤ
deriving DecidableEq

/-- A row that was written to the table of a period; a later one with the same member and time
replaces it. -/
structure Sample where
  period : AggregatePeriod
  memberId : ℕ
  time : ℤ
  skills : List ℤ
deriving DecidableEq

/-- A run of `aggregate_skills` under way, with the samples as its transaction sees them. Not of the
code: the rows it found when it started. -/
structure AggregationRun where
  lastAggregation : ℤ
  started : ℤ
  todo : List AggregatePeriod
  samples : List Sample
  found : List MemberSkills

/-- What is committed, and the run under way. Not of the code: the rows that the last run that is
over had found when it started. -/
structure Database where
  rows : List MemberSkills
  lastAggregation : ℤ
  samples : List Sample
  clock : ℤ
  run : Option AggregationRun
  sampled : List MemberSkills

inductive Event where
  | pass (time : ℕ)
  | addMember (memberId : ℕ)
  /-- A statement that stores skills is committed. -/
  | store (memberId : ℕ) (skills : List ℤ) (started : ℤ)
  | begin
  /-- The run selects for its next period. -/
  | select
  | commit
  /-- The run fails and is rolled back. -/
  | fail

section Aggregation

/- `date_trunc` in the time zone of the database. -/
variable (dateTrunc : DateUnit → ℤ → ℤ)

/-- What a row gives for a period, if it holds skills. -/
def sample (period : AggregatePeriod) (row : MemberSkills) : Option Sample :=
  match row.skills.value, row.skills.changed with
  | some skills, some lastUpdate =>
    if skills.isEmpty then none
    else some { period, memberId := row.memberId, time := dateTrunc period.unit lastUpdate, skills }
  | _, _ => none

/-- `aggregate_skills_for_period`: what is inserted. -/
def aggregateForPeriod (period : AggregatePeriod) (lastAggregation : ℤ) (rows : List MemberSkills) :
    List Sample :=
  (rows.filter fun row ↦ row.skills.changedSince lastAggregation).filterMap (sample dateTrunc period)

/-- What a statement makes of a row. -/
def storeIn (memberId : ℕ) (skills : List ℤ) (started : ℤ) (row : MemberSkills) : MemberSkills :=
  if row.memberId = memberId then { row with skills := row.skills.write (some skills) started }
  else row

namespace Database

def start (now : ℤ) : Database where
  rows := []
  lastAggregation := 0
  samples := []
  clock := now
  run := none
  sampled := []

/-- A run starts when none is under way. -/
def begin (database : Database) : Database :=
  match database.run with
  | some _ => database
  | none =>
    { database with
      run := some
        { lastAggregation := database.lastAggregation
          started := database.clock
          todo := periods
          samples := database.samples
          found := database.rows } }

def select (database : Database) : Database :=
  match database.run with
  | none => database
  | some run =>
    match run.todo with
    | [] => database
    | period :: todo =>
      { database with
        run := some { run with
          todo
          samples := aggregateForPeriod dateTrunc period run.lastAggregation database.rows ++
            run.samples } }

def commit (database : Database) : Database :=
  match database.run with
  | none => database
  | some run =>
    if run.todo = [] then
      { database with
        lastAggregation := run.started
        samples := run.samples
        run := none
        sampled := run.found }
    else database

def step (database : Database) : Event → Database
  | .pass time => { database with clock := database.clock + time }
  | .addMember memberId =>
    { database with
      rows := database.rows ++ [{ memberId, skills := { value := none, changed := none } }] }
  | .store memberId skills started =>
    { database with rows := database.rows.map (storeIn memberId skills started) }
  | .begin => database.begin
  | .select => database.select dateTrunc
  | .commit => database.commit
  | .fail => { database with run := none }

/-! ## The property -/

/-- What the row holds was sampled for the period. -/
def SampledFor (samples : List Sample) (period : AggregatePeriod) (row : MemberSkills) : Prop :=
  ∀ taken ∈ sample dateTrunc period row, taken ∈ samples

instance (samples : List Sample) (period : AggregatePeriod) (row : MemberSkills) :
    Decidable (SampledFor dateTrunc samples period row) :=
  inferInstanceAs (Decidable (∀ taken ∈ sample dateTrunc period row, _))

/-- Whatever was stored when the last run started is in the buckets of its time, in every table. -/
def NothingMissed (database : Database) : Prop :=
  ∀ row ∈ database.sampled, ∀ skills time, row.skills.value = some skills →
    row.skills.changed = some time → skills ≠ [] → ∀ period,
      ({ period, memberId := row.memberId, time := dateTrunc period.unit time, skills } : Sample) ∈
        database.samples

/-- What the statement stores will be looked at by a run that is past its first select only if it
started after it, and what it replaces was sampled if a run under way has found it. -/
def SparesRow (database : Database) (row : MemberSkills) (skills : List ℤ) (started : ℤ) : Prop :=
  match database.run with
  | none => skills ≠ [] → database.lastAggregation ≤ started
  | some run =>
    (skills ≠ [] → run.lastAggregation ≤ started ∧ (run.todo = periods ∨ run.started ≤ started)) ∧
      (row ∈ run.found → ∀ period ∈ run.todo, SampledFor dateTrunc run.samples period row)

/-- A statement that stores something else than a row holds started no earlier than the last run
that is over, and no earlier than a run under way that has selected; and what it replaces is not
still to be selected. -/
def Spares (database : Database) : Event → Prop
  | .store memberId skills started => ∀ row ∈ database.rows, row.memberId = memberId →
      row.skills.value ≠ some skills → database.SparesRow dateTrunc row skills started
  | _ => True

instance decidableSparesRow (row : MemberSkills) (skills : List ℤ) (started : ℤ) :
    (database : Database) → Decidable (database.SparesRow dateTrunc row skills started)
  | { run := none, .. } => inferInstanceAs (Decidable (_ → _))
  | { run := some _, .. } => inferInstanceAs (Decidable (_ ∧ _))

instance (database : Database) : (event : Event) → Decidable (database.Spares dateTrunc event)
  | .store _ _ _ => inferInstanceAs (Decidable (∀ row ∈ database.rows, _ → _ → _))
  | .pass _ | .addMember _ | .begin | .select | .commit | .fail => inferInstanceAs (Decidable True)

end Database

end Aggregation

/-! ## What a run sees -/

namespace Database

variable {dateTrunc : DateUnit → ℤ → ℤ} {database : Database} {run : AggregationRun}
  {row : MemberSkills} {period : AggregatePeriod} {samples more : List Sample} {memberId : ℕ}
  {skills : List ℤ} {started last : ℤ}

theorem SampledFor.mono (h : SampledFor dateTrunc samples period row)
    (hmore : ∀ taken ∈ samples, taken ∈ more) : SampledFor dateTrunc more period row :=
  fun taken htaken ↦ hmore taken (h taken htaken)

/-- A row that changed since is taken. -/
theorem sampledFor_aggregate {rows : List MemberSkills} (hrow : row ∈ rows)
    (h : row.skills.changedSince last = true) :
    SampledFor dateTrunc (aggregateForPeriod dateTrunc period last rows) period row :=
  fun _ htaken ↦ List.mem_filterMap.mpr ⟨row, List.mem_filter.mpr ⟨hrow, h⟩, htaken⟩

/-- A statement leaves a row as it is, or stores something else in it. -/
theorem storeIn_cases (memberId : ℕ) (skills : List ℤ) (started : ℤ) (row : MemberSkills) :
    storeIn memberId skills started row = row ∨
      row.memberId = memberId ∧ row.skills.value ≠ some skills ∧
        storeIn memberId skills started row =
          { memberId := row.memberId, skills := { value := some skills, changed := some started } } := by
  unfold storeIn
  by_cases hmember : row.memberId = memberId
  · by_cases hsame : row.skills.value = some skills
    · left
      rw [if_pos hmember]
      simp [Cell.write, ← hsame]
    · right
      rw [if_pos hmember]
      exact ⟨hmember, hsame, by simp [Cell.write, Ne.symm hsame]⟩
  · left
    rw [if_neg hmember]

/-- What was stored is seen from its time on, or holds nothing to sample. -/
theorem stored_due (h : skills ≠ [] → last ≤ started) :
    (Cell.changedSince { value := some skills, changed := some started } last = true) ∨
      SampledFor dateTrunc samples period
        { memberId, skills := { value := some skills, changed := some started } } := by
  by_cases hskills : skills = []
  · right
    intro taken htaken
    simp [sample, hskills] at htaken
  · left
    simpa [Cell.changedSince] using h hskills

/-! ## The invariant -/

/-- What a run under way knows: each row that a select is over for was sampled, or was stored after
the run started; each row it found was sampled, or is still there to be selected. -/
structure Underway (dateTrunc : DateUnit → ℤ → ℤ) (database : Database) (run : AggregationRun) :
    Prop where
  last : run.lastAggregation = database.lastAggregation
  samples : ∀ taken ∈ database.samples, taken ∈ run.samples
  selected : ∀ row ∈ database.rows, ∀ period, period ∉ run.todo →
    row.skills.changedSince run.started = true ∨ SampledFor dateTrunc run.samples period row
  foundSelected : ∀ row ∈ run.found, ∀ period, period ∉ run.todo →
    SampledFor dateTrunc run.samples period row
  foundLeft : ∀ row ∈ run.found, ∀ period ∈ run.todo,
    row ∈ database.rows ∨ SampledFor dateTrunc run.samples period row

/-- Every row was sampled or changed since the last run started. -/
structure UpToDate (dateTrunc : DateUnit → ℤ → ℤ) (database : Database) : Prop where
  due : ∀ row ∈ database.rows, ∀ period,
    row.skills.changedSince database.lastAggregation = true ∨
      SampledFor dateTrunc database.samples period row
  sampled : ∀ row ∈ database.sampled, ∀ period, SampledFor dateTrunc database.samples period row
  underway : ∀ run, database.run = some run → Underway dateTrunc database run

theorem upToDate_start (now : ℤ) : UpToDate dateTrunc (start now) where
  due row hrow := absurd hrow List.not_mem_nil
  sampled row hrow := absurd hrow List.not_mem_nil
  underway run hrun := absurd hrun (by simp [start])

theorem upToDate_begin (h : UpToDate dateTrunc database) : UpToDate dateTrunc database.begin := by
  unfold begin
  split
  · exact h
  · refine ⟨h.due, h.sampled, fun run hrun ↦ ?_⟩
    obtain rfl := Option.some.inj hrun
    have hall (period : AggregatePeriod) : period ∈ periods := by cases period <;> decide
    exact
      { last := rfl
        samples := fun _ htaken ↦ htaken
        selected := fun _ _ period hperiod ↦ absurd (hall period) hperiod
        foundSelected := fun _ _ period hperiod ↦ absurd (hall period) hperiod
        foundLeft := fun row hrow _ _ ↦ .inl hrow }

theorem upToDate_select (h : UpToDate dateTrunc database) :
    UpToDate dateTrunc (database.select dateTrunc) := by
  unfold select
  split
  · exact h
  · next run hrun =>
    split
    · exact h
    · next period todo htodo =>
      have hunder := h.underway run hrun
      have hnow (row : MemberSkills) (hrow : row ∈ database.rows) : SampledFor dateTrunc
          (aggregateForPeriod dateTrunc period run.lastAggregation database.rows ++ run.samples)
          period row := by
        obtain hchanged | hsampled := h.due row hrow period
        · have htaken : SampledFor dateTrunc
              (aggregateForPeriod dateTrunc period run.lastAggregation database.rows) period row :=
            sampledFor_aggregate hrow (hunder.last ▸ hchanged)
          exact htaken.mono fun _ ↦ List.mem_append_left _
        · exact (hsampled.mono hunder.samples).mono fun _ ↦ List.mem_append_right _
      have hleft {other : AggregatePeriod} (hother : other ∉ todo) (hne : other ≠ period) :
          other ∉ run.todo := by
        rw [htodo, List.mem_cons, not_or]
        exact ⟨hne, hother⟩
      refine ⟨h.due, h.sampled, fun run' hrun' ↦ ?_⟩
      obtain rfl := Option.some.inj hrun'
      refine ⟨hunder.last, fun taken htaken ↦ List.mem_append_right _ (hunder.samples taken htaken),
        fun row hrow other hother ↦ ?_, fun row hrow other hother ↦ ?_,
        fun row hrow other hother ↦ ?_⟩
      · by_cases hperiod : other = period
        · exact .inr (hperiod ▸ hnow row hrow)
        · exact (hunder.selected row hrow other (hleft hother hperiod)).imp id
            fun hsampled ↦ hsampled.mono fun _ ↦ List.mem_append_right _
      · by_cases hperiod : other = period
        · subst hperiod
          obtain hthere | hsampled := hunder.foundLeft row hrow other (by simp [htodo])
          · exact hnow row hthere
          · exact hsampled.mono fun _ ↦ List.mem_append_right _
        · exact (hunder.foundSelected row hrow other (hleft hother hperiod)).mono
            fun _ ↦ List.mem_append_right _
      · exact (hunder.foundLeft row hrow other (by simp [htodo, hother])).imp id
          fun hsampled ↦ hsampled.mono fun _ ↦ List.mem_append_right _

theorem upToDate_commit (h : UpToDate dateTrunc database) : UpToDate dateTrunc database.commit := by
  unfold commit
  split
  · exact h
  · next run hrun =>
    split
    · next htodo =>
      have hunder := h.underway run hrun
      have hover (period : AggregatePeriod) : period ∉ run.todo := by simp [htodo]
      exact
        { due := fun row hrow period ↦ hunder.selected row hrow period (hover period)
          sampled := fun row hrow period ↦ hunder.foundSelected row hrow period (hover period)
          underway := fun run hrun ↦ absurd hrun (by simp) }
    · exact h

theorem upToDate_addMember (h : UpToDate dateTrunc database) (memberId : ℕ) :
    UpToDate dateTrunc (database.step dateTrunc (.addMember memberId)) := by
  have hnothing (samples : List Sample) (period : AggregatePeriod) : SampledFor dateTrunc samples
      period { memberId, skills := { value := none, changed := none } } :=
    fun taken htaken ↦ absurd htaken (by simp [sample])
  refine ⟨fun row hrow period ↦ ?_, h.sampled, fun run hrun ↦ ?_⟩
  · obtain hrow | hnew := List.mem_append.mp hrow
    · exact h.due row hrow period
    · rw [List.mem_singleton.mp hnew]
      exact .inr (hnothing _ period)
  · have hunder := h.underway run hrun
    refine ⟨hunder.last, hunder.samples, fun row hrow period hperiod ↦ ?_, hunder.foundSelected,
      fun row hrow period hperiod ↦ ?_⟩
    · obtain hrow | hnew := List.mem_append.mp hrow
      · exact hunder.selected row hrow period hperiod
      · rw [List.mem_singleton.mp hnew]
        exact .inr (hnothing _ period)
    · exact (hunder.foundLeft row hrow period hperiod).imp (List.mem_append_left _) id

theorem upToDate_store (h : UpToDate dateTrunc database)
    (hspares : database.Spares dateTrunc (.store memberId skills started)) :
    UpToDate dateTrunc (database.step dateTrunc (.store memberId skills started)) := by
  refine ⟨fun row hrow period ↦ ?_, h.sampled, fun run hrun ↦ ?_⟩
  · obtain ⟨before, hbefore, rfl⟩ := List.mem_map.mp hrow
    obtain hsame | ⟨hmember, hdistinct, hstored⟩ := storeIn_cases memberId skills started before
    · rw [hsame]
      exact h.due before hbefore period
    · rw [hstored]
      apply stored_due
      intro hskills
      have hrow := hspares before hbefore hmember hdistinct
      unfold SparesRow at hrow
      cases hrun : database.run with
      | none => exact (hrun ▸ hrow) hskills
      | some run =>
        rw [hrun] at hrow
        exact (h.underway run hrun).last ▸ (hrow.1 hskills).1
  · have hunder := h.underway run hrun
    have hspared : ∀ row ∈ database.rows, row.memberId = memberId →
        row.skills.value ≠ some skills → (skills ≠ [] → run.lastAggregation ≤ started ∧
          (run.todo = periods ∨ run.started ≤ started)) ∧
        (row ∈ run.found → ∀ period ∈ run.todo, SampledFor dateTrunc run.samples period row) := by
      intro row hrow hmember hdistinct
      have hspared := hspares row hrow hmember hdistinct
      unfold SparesRow at hspared
      rwa [show database.run = some run from hrun] at hspared
    refine ⟨hunder.last, hunder.samples, fun row hrow period hperiod ↦ ?_, hunder.foundSelected,
      fun row hrow period hperiod ↦ ?_⟩
    · obtain ⟨before, hbefore, rfl⟩ := List.mem_map.mp hrow
      obtain hsame | ⟨hmember, hdistinct, hstored⟩ := storeIn_cases memberId skills started before
      · rw [hsame]
        exact hunder.selected before hbefore period hperiod
      · rw [hstored]
        apply stored_due
        intro hskills
        obtain hall | hlater := ((hspared before hbefore hmember hdistinct).1 hskills).2
        · exact absurd (hall ▸ (by cases period <;> decide : period ∈ periods)) hperiod
        · exact hlater
    · obtain hthere | hsampled := hunder.foundLeft row hrow period hperiod
      · obtain hsame | ⟨hmember, hdistinct, -⟩ := storeIn_cases memberId skills started row
        · exact .inl (List.mem_map.mpr ⟨row, hthere, hsame⟩)
        · exact .inr ((hspared row hthere hmember hdistinct).2 hrow period hperiod)
      · exact .inr hsampled

theorem upToDate_step {event : Event} (h : UpToDate dateTrunc database)
    (hspares : database.Spares dateTrunc event) : UpToDate dateTrunc (database.step dateTrunc event) := by
  cases event with
  | pass time =>
    refine ⟨h.due, h.sampled, fun run hrun ↦ ?_⟩
    have hunder := h.underway run hrun
    exact ⟨hunder.last, hunder.samples, hunder.selected, hunder.foundSelected, hunder.foundLeft⟩
  | addMember memberId => exact upToDate_addMember h memberId
  | store memberId skills started => exact upToDate_store h hspares
  | begin => exact upToDate_begin h
  | select => exact upToDate_select h
  | commit => exact upToDate_commit h
  | fail => exact ⟨h.due, h.sampled, fun run hrun ↦ absurd hrun (by simp [step])⟩

theorem UpToDate.nothingMissed (h : UpToDate dateTrunc database) :
    database.NothingMissed dateTrunc := by
  intro row hrow skills time hvalue htime hskills period
  apply h.sampled row hrow period
  simp [sample, hvalue, htime, hskills]

/-- No run misses a value when no statement is overtaken by one. -/
theorem nothingMissed_of_spares (dateTrunc : DateUnit → ℤ → ℤ) (now : ℤ) {events : List Event}
    (h : Run.Along (step dateTrunc) (Spares dateTrunc) (start now) events) :
    Run.Always (step dateTrunc) (NothingMissed dateTrunc) (start now) events := by
  have hupToDate : Run.Always (step dateTrunc) (UpToDate dateTrunc) (start now) events :=
    Run.always_of_along (fun _ _ h hspares ↦ upToDate_step h hspares) (upToDate_start now) h
  exact hupToDate.mono fun _ hstate ↦ hstate.nothingMissed

/-! ## A statement overtaken by a run -/

/-- The units of `date_trunc`, with months of thirty days; in seconds. -/
def thirtyDayMonths : DateUnit → ℤ → ℤ
  | .hour, time => time / 3600 * 3600
  | .day, time => time / 86400 * 86400
  | .month, time => time / 2592000 * 2592000

/-- A whole run. -/
def aggregated : List Event := [.begin, .select, .select, .select, .commit]

/-- A statement that starts after a run did and is committed before it is over. -/
theorem nothingMissed_between : Run.Always (step thirtyDayMonths) (NothingMissed thirtyDayMonths)
    (start 1000000)
    ([.addMember 1, .begin, .select, .pass 1, .store 1 [154, 30] 1000000, .select, .select, .commit,
      .pass 1800] ++ aggregated) :=
  nothingMissed_of_spares thirtyDayMonths 1000000 (by decide +kernel)

/-- A statement that starts before a run and is committed when the run is over, and another run. -/
def overtaken : List Event :=
  [.addMember 1, .pass 1] ++ aggregated ++ [.store 1 [154, 30] 1000000, .pass 1800] ++ aggregated

/-- The second run takes what is stamped since the first one started. -/
theorem nothingMissed_fails_overtaken :
    ¬ Run.Always (step thirtyDayMonths) (NothingMissed thirtyDayMonths) (start 1000000) overtaken := by
  intro h
  let last := overtaken.foldl (step thirtyDayMonths) (start 1000000)
  have hfound : last.sampled =
      [{ memberId := 1, skills := { value := some [154, 30], changed := some 1000000 } }] := by
    decide +kernel
  have hnone : last.samples = [] := by decide +kernel
  have htaken := h.final _ (hfound ▸ List.mem_singleton_self _) [154, 30] 1000000 rfl rfl (by decide)
    .day
  exact List.not_mem_nil (hnone ▸ htaken)

end Database

end OsrsMap.Skills
