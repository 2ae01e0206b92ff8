import OsrsMap.Library.PartitionPoint
import OsrsMap.Skills.SkillGraph

/-!
# XP series to rows

`xp_series_to_rows` (`server/src/hub/xp.rs`): the hub has a line for every skill, with points only where
its XP changed; the skill graphs have a row for every moment, with all skills. One cursor per line goes
through the moments in order and carries the last value of its skill forward.
-/

namespace OsrsMap.Hub

/-- `SKILL_ORDER`. -/
def skillOrder : List String :=
  ["Agility", "Attack", "Construction", "Cooking", "Crafting", "Defence", "Farming", "Firemaking",
    "Fishing", "Fletching", "Herblore", "Hitpoints", "Hunter", "Magic", "Mining", "Prayer", "Ranged",
    "Runecraft", "Slayer", "Smithing", "Strength", "Thieving", "Woodcutting", "Sailing"]

/-- `skill.eq_ignore_ascii_case(name)`. -/
def eqIgnoreAsciiCase (skill name : String) : Bool := skill.toLower = name.toLower

/-- Index of a skill name in `SKILL_ORDER`, ignoring case. -/
def skillIndex (name : String) : Option ℕ := skillOrder.findIdx? (eqIgnoreAsciiCase · name)

/-- `(DateTime<Utc>, i64)`. -/
structure XpPoint where
  time : ℤ
  xp : ℤ
deriving DecidableEq, Repr

structure HubXpLine where
  skill : String
  points : List XpPoint
deriving DecidableEq, Repr

abbrev AggregateSkillData := Skills.StoredRow

/-- `clamp(0, i32::MAX as i64) as i32`. -/
def clampXp (xp : ℤ) : ℤ := max 0 (min xp (2 ^ 31 - 1))

/-- The index of a known skill and its points. -/
abbrev KnownLine := ℕ × List XpPoint

/-- The lines of known skills. -/
def knownLines (series : List HubXpLine) : List KnownLine :=
  series.filterMap fun line ↦ (skillIndex line.skill).map fun index ↦ (index, line.points)

/-- The moments of all points, in order. -/
def rowTimes (lines : List KnownLine) : List ℤ :=
  (lines.flatMap fun line ↦ line.2.map (·.time)).toFinset.sort

/-- `while positions[line_index] < points.len() && ...`, on the points not read yet. -/
def readUpTo (time : ℤ) (skill : ℕ) : List XpPoint → List ℤ → List XpPoint × List ℤ
  | [], current => ([], current)
  | point :: points, current =>
    if point.time ≤ time then readUpTo time skill points (current.set skill (clampXp point.xp))
    else (point :: points, current)

/-- One row: every line is read up to the time. -/
def advance (time : ℤ) : List KnownLine → List ℤ → List KnownLine × List ℤ
  | [], current => ([], current)
  | (skill, points) :: lines, current =>
    let (unread, current) := readUpTo time skill points current
    let (lines, current) := advance time lines current
    ((skill, unread) :: lines, current)

def fillRows : List ℤ → List KnownLine → List ℤ → List AggregateSkillData
  | [], _, _ => []
  | time :: times, lines, current =>
    let (lines, current) := advance time lines current
    { time, data := current } :: fillRows times lines current

def xpSeriesToRows (series : List HubXpLine) : List AggregateSkillData :=
  let lines := knownLines series
  fillRows (rowTimes lines) lines (List.replicate skillOrder.length 0)

/-! ## The last value -/

/-- The value of the last point, or the one before all of them. -/
def lastXp (points : List XpPoint) (before : ℤ) : ℤ :=
  (points.getLast?.map fun point ↦ clampXp point.xp).getD before

theorem lastXp_append (first second : List XpPoint) (before : ℤ) :
    lastXp (first ++ second) before = lastXp second (lastXp first before) := by
  unfold lastXp
  rw [List.getLast?_append]
  cases second.getLast? with
  | none => rfl
  | some point => rfl

theorem lastXp_cons (point : XpPoint) (points : List XpPoint) (before : ℤ) :
    lastXp (point :: points) before = lastXp points (clampXp point.xp) :=
  lastXp_append [point] points before

/-! ## One row -/

variable {time : ℤ} {skill : ℕ} {lines unread : List KnownLine} {current : List ℤ}

theorem fst_readUpTo (time : ℤ) (skill : ℕ) (points : List XpPoint) (current : List ℤ) :
    (readUpTo time skill points current).1 = points.dropWhile (·.time ≤ time) := by
  induction points generalizing current with
  | nil => rfl
  | cons point points ih =>
    rw [readUpTo]
    split
    · next hle => rw [ih, List.dropWhile_cons_of_pos (by simpa using hle)]
    · next hlater => rw [List.dropWhile_cons_of_neg (by simpa using hlater)]

/-- Reading a line sets its own skill and no other. -/
theorem getElem?_readUpTo (time : ℤ) (skill : ℕ) (points : List XpPoint) (current : List ℤ) (k : ℕ) :
    (readUpTo time skill points current).2[k]? = current[k]?.map fun before ↦
      if k = skill then lastXp (points.takeWhile (·.time ≤ time)) before else before := by
  induction points generalizing current with
  | nil => simp [readUpTo, lastXp]
  | cons point points ih =>
    rw [readUpTo]
    split
    · next hle =>
      rw [ih, List.takeWhile_cons_of_pos (by simpa using hle), List.getElem?_set]
      by_cases hk : k = skill
      · subst hk
        simp only [if_true, lastXp_cons]
        split
        · next hlt => rw [List.getElem?_eq_getElem hlt, Option.map_some, Option.map_some]
        · next hge => rw [List.getElem?_eq_none (Nat.not_lt.mp hge), Option.map_none, Option.map_none]
      · rw [if_neg (Ne.symm hk)]
        simp only [if_neg hk]
    · next hlater =>
      rw [List.takeWhile_cons_of_neg (by simpa using hlater)]
      simp [lastXp]

theorem fst_advance (time : ℤ) (lines : List KnownLine) (current : List ℤ) :
    (advance time lines current).1 =
      lines.map fun line ↦ (line.1, line.2.dropWhile (·.time ≤ time)) := by
  induction lines generalizing current with
  | nil => rfl
  | cons line lines ih =>
    obtain ⟨skill, points⟩ := line
    rw [advance, List.map_cons, ← ih, ← fst_readUpTo]

theorem getElem?_advance_of_notMem {k : ℕ} (h : k ∉ lines.map Prod.fst) (current : List ℤ) :
    (advance time lines current).2[k]? = current[k]? := by
  induction lines generalizing current with
  | nil => rfl
  | cons line lines ih =>
    obtain ⟨skill, points⟩ := line
    obtain ⟨hskill, hlines⟩ := not_or.mp (mt List.mem_cons.mpr h)
    rw [advance]
    dsimp only
    rw [ih hlines, getElem?_readUpTo]
    simp [hskill]

/-- A skill gets the last value of its line. -/
theorem getElem?_advance {line : KnownLine} (hnodup : (lines.map Prod.fst).Nodup) (hline : line ∈ lines)
    (current : List ℤ) : (advance time lines current).2[line.1]? =
      current[line.1]?.map (lastXp (line.2.takeWhile (·.time ≤ time))) := by
  induction lines generalizing current with
  | nil => exact absurd hline List.not_mem_nil
  | cons first lines ih =>
    obtain ⟨hfirst, hrest⟩ := List.nodup_cons.mp hnodup
    obtain ⟨skill, points⟩ := first
    rw [advance]
    dsimp only
    obtain rfl | hline := List.mem_cons.mp hline
    · rw [getElem?_advance_of_notMem hfirst, getElem?_readUpTo]
      simp only [if_true]
    · have hskill : line.1 ∈ lines.map Prod.fst := List.mem_map_of_mem hline
      have hother : line.1 ≠ skill := fun hsame ↦ hfirst (hsame ▸ hskill)
      rw [ih hrest hline, getElem?_readUpTo]
      simp [hother]

theorem length_readUpTo (time : ℤ) (skill : ℕ) (points : List XpPoint) (current : List ℤ) :
    (readUpTo time skill points current).2.length = current.length := by
  induction points generalizing current with
  | nil => rfl
  | cons point points ih =>
    rw [readUpTo]
    split
    · rw [ih, List.length_set]
    · rfl

theorem length_advance (time : ℤ) (lines : List KnownLine) (current : List ℤ) :
    (advance time lines current).2.length = current.length := by
  induction lines generalizing current with
  | nil => rfl
  | cons line lines ih =>
    obtain ⟨skill, points⟩ := line
    rw [advance]
    dsimp only
    rw [ih, length_readUpTo]

/-! ## All rows -/

/-- Every line has its points in order of time. -/
def InOrder (lines : List KnownLine) : Prop :=
  ∀ line ∈ lines, line.2.Pairwise fun a b ↦ a.time ≤ b.time

/-- What the cursors and the current values are when the points of the times seen are read. -/
structure ReadOf (lines : List KnownLine) (seen : ℤ → Bool) (unread : List KnownLine)
    (current : List ℤ) : Prop where
  unread_eq : unread = lines.map fun line ↦ (line.1, line.2.filter fun point ↦ !seen point.time)
  known : ∀ line ∈ lines,
    current[line.1]? = some (lastXp (line.2.filter fun point ↦ seen point.time) 0)
  unknown : ∀ skill < skillOrder.length, skill ∉ lines.map Prod.fst → current[skill]? = some 0
  length : current.length = skillOrder.length

theorem readOf_none (hknown : ∀ line ∈ lines, line.1 < skillOrder.length) :
    ReadOf lines (fun _ ↦ false) lines (List.replicate skillOrder.length 0) where
  unread_eq := by simp
  known line hline := by
    rw [List.getElem?_replicate, if_pos (hknown line hline), List.filter_false]
    rfl
  unknown skill hskill _ := by rw [List.getElem?_replicate, if_pos hskill]
  length := List.length_replicate

/-- Reading on to a time after those seen. -/
theorem ReadOf.advance {seen : ℤ → Bool} (h : ReadOf lines seen unread current)
    (hnodup : (lines.map Prod.fst).Nodup) (hsorted : InOrder lines)
    (hdown : ∀ s t, s ≤ t → seen t = true → seen s = true) (hseen : ∀ t, seen t = true → t ≤ time) :
    ReadOf lines (fun t ↦ t ≤ time) (advance time unread current).1
      (advance time unread current).2 := by
  have hskills : unread.map Prod.fst = lines.map Prod.fst := by
    rw [h.unread_eq, List.map_map]
    rfl
  have hread (line : KnownLine) (hline : line ∈ lines) :
      line.2.Pairwise fun a b ↦ seen b.time = true → seen a.time = true :=
    (hsorted line hline).imp fun {a b} hle ↦ hdown a.time b.time hle
  have hdue (line : KnownLine) (hline : line ∈ lines) :
      (line.2.filter fun point ↦ !seen point.time).Pairwise fun a b ↦
        decide (b.time ≤ time) = true → decide (a.time ≤ time) = true := by
    apply ((hsorted line hline).filter _).imp
    intro a b hle hb
    exact decide_eq_true (hle.trans (of_decide_eq_true hb))
  constructor
  · rw [fst_advance, h.unread_eq, List.map_map]
    apply List.map_congr_left
    intro line hline
    apply congrArg (Prod.mk line.1)
    calc (line.2.filter fun point ↦ !seen point.time).dropWhile (·.time ≤ time)
      _ = (line.2.filter fun point ↦ !seen point.time).filter fun point ↦ !decide (point.time ≤ time) :=
        dropWhile_eq_filter (hdue line hline)
      _ = line.2.filter fun point ↦ !decide (point.time ≤ time) := by
        rw [List.filter_filter]
        apply List.filter_congr
        intro point _
        cases hpoint : seen point.time with
        | false => simp
        | true => simpa using hseen point.time hpoint
  · intro line hline
    have hmem : (line.1, line.2.filter fun point ↦ !seen point.time) ∈ unread :=
      h.unread_eq ▸ List.mem_map_of_mem hline
    calc (Hub.advance time unread current).2[line.1]?
      _ = current[line.1]?.map
          (lastXp ((line.2.filter fun point ↦ !seen point.time).takeWhile (·.time ≤ time))) :=
        getElem?_advance (hskills ▸ hnodup) hmem current
      _ = some (lastXp (line.2.filter (fun point ↦ seen point.time) ++
          (line.2.filter fun point ↦ !seen point.time).filter fun point ↦ point.time ≤ time) 0) := by
        rw [h.known line hline, Option.map_some, takeWhile_eq_filter (hdue line hline), lastXp_append]
      _ = some (lastXp (line.2.filter fun point ↦ point.time ≤ time) 0) := by
        rw [← filter_eq_append (hread line hline)]
        exact fun point _ hpoint ↦ decide_eq_true (hseen point.time hpoint)
  · intro skill hskill hother
    rw [getElem?_advance_of_notMem (hskills ▸ hother)]
    exact h.unknown skill hskill hother
  · rw [length_advance]
    exact h.length

/-- Every row has what is read by its time. -/
theorem readOf_fillRows {times : List ℤ} {seen : ℤ → Bool} (h : ReadOf lines seen unread current)
    (hnodup : (lines.map Prod.fst).Nodup) (hsorted : InOrder lines)
    (hdown : ∀ s t, s ≤ t → seen t = true → seen s = true) (htimes : times.Pairwise (· < ·))
    (hseen : ∀ time ∈ times, ∀ t, seen t = true → t ≤ time) {row : AggregateSkillData}
    (hrow : row ∈ fillRows times unread current) :
    ∃ rest, ReadOf lines (fun t ↦ t ≤ row.time) rest row.data := by
  induction times generalizing seen unread current with
  | nil => exact absurd hrow List.not_mem_nil
  | cons time times ih =>
    obtain ⟨hfirst, hrest⟩ := List.pairwise_cons.mp htimes
    have hread := h.advance hnodup hsorted hdown (hseen time List.mem_cons_self)
    rw [fillRows] at hrow
    obtain rfl | hrow := List.mem_cons.mp hrow
    · exact ⟨_, hread⟩
    · refine ih hread ?_ hrest ?_ hrow
      · intro s t hle ht
        exact decide_eq_true (hle.trans (of_decide_eq_true ht))
      · intro later hlater t ht
        exact (of_decide_eq_true ht).trans (hfirst later hlater).le

theorem map_time_fillRows (times : List ℤ) (lines : List KnownLine) (current : List ℤ) :
    (fillRows times lines current).map (·.time) = times := by
  induction times generalizing lines current with
  | nil => rfl
  | cons time times ih => rw [fillRows, List.map_cons, ih]

/-! ## Lines of known skills -/

theorem skillIndex_lt {name : String} {index : ℕ} (h : skillIndex name = some index) :
    index < skillOrder.length :=
  (List.findIdx?_eq_some_iff_getElem.mp h).1

theorem mem_knownLines {series : List HubXpLine} {known : KnownLine} : known ∈ knownLines series ↔
    ∃ line ∈ series, skillIndex line.skill = some known.1 ∧ line.points = known.2 := by
  obtain ⟨index, points⟩ := known
  simp [knownLines, List.mem_filterMap, Option.map_eq_some_iff]

theorem mem_rowTimes {time : ℤ} : time ∈ rowTimes lines ↔
    ∃ line ∈ lines, ∃ point ∈ line.2, point.time = time := by
  simp [rowTimes]

/-- The rows are those of the moments of the known lines' points. -/
theorem map_time_xpSeriesToRows (series : List HubXpLine) :
    (xpSeriesToRows series).map (·.time) = rowTimes (knownLines series) :=
  map_time_fillRows _ _ _

theorem mem_time_xpSeriesToRows {series : List HubXpLine} {time : ℤ} :
    time ∈ (xpSeriesToRows series).map (·.time) ↔
      ∃ line ∈ series, (skillIndex line.skill).isSome ∧ ∃ point ∈ line.points, point.time = time := by
  rw [map_time_xpSeriesToRows, mem_rowTimes]
  constructor
  · rintro ⟨known, hknown, hpoint⟩
    obtain ⟨line, hline, hindex, hpoints⟩ := mem_knownLines.mp hknown
    exact ⟨line, hline, by simp [hindex], hpoints ▸ hpoint⟩
  · rintro ⟨line, hline, hsome, hpoint⟩
    obtain ⟨index, hindex⟩ := Option.isSome_iff_exists.mp hsome
    exact ⟨(index, line.points), mem_knownLines.mpr ⟨line, hline, hindex, rfl⟩, hpoint⟩

/-- A known skill that has a point has a history. -/
theorem xpSeriesToRows_ne_nil {series : List HubXpLine} {line : HubXpLine} (hline : line ∈ series)
    (hknown : (skillIndex line.skill).isSome) (hpoints : line.points ≠ []) :
    xpSeriesToRows series ≠ [] := by
  obtain ⟨point, hpoint⟩ := List.exists_mem_of_ne_nil _ hpoints
  have htime := mem_time_xpSeriesToRows.mpr ⟨line, hline, hknown, point, hpoint, rfl⟩
  intro hnone
  rw [hnone] at htime
  exact List.not_mem_nil htime

theorem knownLines_filter (series : List HubXpLine) :
    knownLines (series.filter fun line ↦ (skillIndex line.skill).isSome) = knownLines series := by
  unfold knownLines
  rw [List.filterMap_filter]
  apply List.filterMap_congr
  intro line _
  cases hindex : skillIndex line.skill with
  | none => simp
  | some index => simp

/-- For all lines of distinct known skills with their points in order of time: there is a row for every
moment of a point of a known skill, in order; every row has a value for each skill, that of its last
point at or before the row, or 0; and lines of unknown skills change nothing. -/
theorem xpSeriesToRows_forward (series : List HubXpLine)
    (hdistinct : (series.filterMap fun line ↦ skillIndex line.skill).Nodup)
    (hsorted : ∀ line ∈ series, line.points.Pairwise fun a b ↦ a.time ≤ b.time) :
    ((xpSeriesToRows series).map (·.time)).Pairwise (· < ·) ∧
    (∀ time, time ∈ (xpSeriesToRows series).map (·.time) ↔
      ∃ line ∈ series, (skillIndex line.skill).isSome ∧ ∃ point ∈ line.points, point.time = time) ∧
    (∀ row ∈ xpSeriesToRows series, row.data.length = skillOrder.length ∧
      (∀ line ∈ series, ∀ skill, skillIndex line.skill = some skill →
        row.data[skill]? = some (lastXp (line.points.filter (·.time ≤ row.time)) 0)) ∧
      ∀ skill < skillOrder.length, (∀ line ∈ series, skillIndex line.skill ≠ some skill) →
        row.data[skill]? = some 0) ∧
    xpSeriesToRows (series.filter fun line ↦ (skillIndex line.skill).isSome) = xpSeriesToRows series := by
  have hskills : (knownLines series).map Prod.fst = series.filterMap fun line ↦ skillIndex line.skill := by
    simp [knownLines, List.map_filterMap, Function.comp_def]
  have horder : (rowTimes (knownLines series)).Pairwise (· < ·) := (Finset.sortedLT_sort _).pairwise
  refine ⟨map_time_xpSeriesToRows series ▸ horder, fun time ↦ mem_time_xpSeriesToRows,
    fun row hrow ↦ ?_, ?_⟩
  · have hstart : ReadOf (knownLines series) (fun _ ↦ false) (knownLines series)
        (List.replicate skillOrder.length 0) := by
      apply readOf_none
      intro known hknown
      obtain ⟨line, -, hindex, -⟩ := mem_knownLines.mp hknown
      exact skillIndex_lt hindex
    have hinOrder : InOrder (knownLines series) := by
      intro known hknown
      obtain ⟨line, hline, -, hpoints⟩ := mem_knownLines.mp hknown
      exact hpoints ▸ hsorted line hline
    obtain ⟨rest, hread⟩ := readOf_fillRows hstart (hskills ▸ hdistinct) hinOrder (by simp) horder
      (by simp) hrow
    refine ⟨hread.length, fun line hline skill hindex ↦ ?_, fun skill hskill hother ↦ ?_⟩
    · exact hread.known (skill, line.points) (mem_knownLines.mpr ⟨line, hline, hindex, rfl⟩)
    · apply hread.unknown skill hskill
      rw [hskills, List.mem_filterMap]
      rintro ⟨line, hline, hindex⟩
      exact hother line hline hindex
  · unfold xpSeriesToRows
    rw [knownLines_filter]

/-- Lines of two known skills and of one that is not. -/
def threeLines : List HubXpLine :=
  [⟨"Agility", [⟨1, 100⟩, ⟨3, 150⟩]⟩, ⟨"attack", [⟨1, 10⟩, ⟨2, -20⟩]⟩, ⟨"Overall", [⟨4, 999⟩]⟩]

theorem xpSeriesToRows_forward_threeLines :
    ((xpSeriesToRows threeLines).map (·.time)).Pairwise (· < ·) ∧
    (∀ time, time ∈ (xpSeriesToRows threeLines).map (·.time) ↔
      ∃ line ∈ threeLines, (skillIndex line.skill).isSome ∧ ∃ point ∈ line.points, point.time = time) ∧
    (∀ row ∈ xpSeriesToRows threeLines, row.data.length = skillOrder.length ∧
      (∀ line ∈ threeLines, ∀ skill, skillIndex line.skill = some skill →
        row.data[skill]? = some (lastXp (line.points.filter (·.time ≤ row.time)) 0)) ∧
      ∀ skill < skillOrder.length, (∀ line ∈ threeLines, skillIndex line.skill ≠ some skill) →
        row.data[skill]? = some 0) ∧
    xpSeriesToRows (threeLines.filter fun line ↦ (skillIndex line.skill).isSome) =
      xpSeriesToRows threeLines :=
  xpSeriesToRows_forward threeLines (by decide +kernel) (by decide)

end OsrsMap.Hub
