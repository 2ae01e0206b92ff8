import OsrsMap.Page.Items
import Mathlib.Analysis.SpecialFunctions.Pow.NthRootLemmas
import Mathlib.Order.Bounds.Defs
import Mathlib.Order.Monotone.Basic

/-!
# The levels on the page

`Skill` (`site/src/data/skill.js`): the XP of a report, skill by skill, and the levels that the page works out
from it. The levels count on past 99, to 126; only the total stops at 99 for every skill.
-/

namespace OsrsMap.Page

open Sync (HubSkill clampI32)
open Hub (skillOrder skillIndex eqIgnoreAsciiCase)
open Writes (lastTo)

/-- `Math.floor(i + 300 * 2 ** (i / 7))`, by a whole root: the seventh root of `300 ^ 7 * 2 ^ i`. -/
def levelStep (i : ℕ) : ℕ := i + Nat.nthRoot 7 (300 ^ 7 * 2 ^ i)

def xpForLevel (level : ℕ) : ℕ := ((List.range level).map fun i ↦ levelStep (i + 1)).sum / 4

/-- `levelLookup`: the XP at which a level starts. -/
def levelLookup (level : ℕ) : ℕ := xpForLevel (level - 1)

/-- The last level there is. -/
def lastLevel : ℕ := 126

/-- `calculateLevel`: the first level that the XP lies in, otherwise 1. -/
def calculateLevel (xp : ℤ) : ℕ :=
  ((List.range lastLevel).map (· + 1)).find?
      (fun level ↦ (levelLookup level : ℤ) ≤ xp ∧ xp < levelLookup (level + 1)) |>.getD 1

structure Skill where
  name : String
  xp : ℤ
  level : ℕ
deriving DecidableEq, Repr

/-- `parseSkillData`. -/
def parseSkillData (xp : List (String × ℤ)) (overall : ℤ) : List Skill :=
  let skills := xp.map fun (name, xp) ↦ ({ name, xp, level := calculateLevel xp } : Skill)
  skills ++ [{ name := "Overall", xp := overall, level := (skills.map fun skill ↦ min 99 skill.level).sum }]

/-- The skills of an array. -/
def skillsOf (array : List ℤ) : List Skill :=
  match transformSkillsFromStorage array with
  | .skills xp overall => parseSkillData xp overall
  | _ => []

/-! ## Levels -/

theorem le_levelStep (i : ℕ) : 4 ≤ levelStep i := by
  have hroot : 4 ≤ Nat.nthRoot 7 (300 ^ 7 * 2 ^ i) := by
    rw [Nat.le_nthRoot_iff (by decide)]
    calc 4 ^ 7 ≤ 300 ^ 7 := by decide
      _ ≤ 300 ^ 7 * 2 ^ i := Nat.le_mul_of_pos_right _ (by positivity)
  exact hroot.trans (Nat.le_add_left _ _)

theorem xpForLevel_strictMono : StrictMono xpForLevel := by
  refine strictMono_nat_of_lt_succ fun level ↦ ?_
  have hstep := le_levelStep (level + 1)
  unfold xpForLevel
  rw [List.range_succ, List.map_append, List.sum_append]
  simp only [List.map_cons, List.map_nil, List.sum_cons, List.sum_nil, Nat.add_zero]
  omega

theorem levelLookup_lt_levelLookup {a b : ℕ} (ha : 1 ≤ a) (h : a < b) : levelLookup a < levelLookup b :=
  xpForLevel_strictMono (by omega)

theorem levelLookup_le_levelLookup {a b : ℕ} (h : a ≤ b) : levelLookup a ≤ levelLookup b :=
  xpForLevel_strictMono.monotone (by omega)

/-- Where the last level ends. -/
theorem levelLookup_end : levelLookup (lastLevel + 1) = 208545572 := by decide +kernel

example : levelLookup 2 = 83 ∧ levelLookup 10 = 1154 := by decide +kernel

/-- As long as the XP is less than the end of the last level, the level is the highest that has begun. -/
theorem isGreatest_calculateLevel {xp : ℤ} (hxp : 0 ≤ xp) (hlast : xp < levelLookup (lastLevel + 1)) :
    IsGreatest {level | 1 ≤ level ∧ level ≤ lastLevel ∧ (levelLookup level : ℤ) ≤ xp} (calculateLevel xp) := by
  -- The level that is found is the only one the XP lies in.
  have hfound : ∃ level, 1 ≤ level ∧ level ≤ lastLevel ∧
      (levelLookup level : ℤ) ≤ xp ∧ xp < levelLookup (level + 1) := by
    have hfirst : (levelLookup 1 : ℤ) ≤ xp := by simpa [levelLookup, xpForLevel] using hxp
    let level := Nat.findGreatest (fun level ↦ (levelLookup level : ℤ) ≤ xp) lastLevel
    have hle : level ≤ lastLevel := Nat.findGreatest_le lastLevel
    have hone : 1 ≤ level := Nat.le_findGreatest (by decide) hfirst
    refine ⟨level, hone, hle, Nat.findGreatest_spec (P := fun level ↦ (levelLookup level : ℤ) ≤ xp) (m := 1)
      (by decide) hfirst, ?_⟩
    obtain hlt | heq := hle.lt_or_eq
    · exact not_le.mp (Nat.findGreatest_is_greatest (Nat.lt_succ_self level) hlt)
    · rw [heq]
      exact hlast
  obtain ⟨level, hone, hle, hstart, hend⟩ := hfound
  have hsome : (((List.range lastLevel).map (· + 1)).find?
      fun level ↦ (levelLookup level : ℤ) ≤ xp ∧ xp < levelLookup (level + 1)).isSome := by
    rw [List.find?_isSome]
    refine ⟨level, List.mem_map.mpr ⟨level - 1, List.mem_range.mpr (by omega), by omega⟩, ?_⟩
    exact decide_eq_true ⟨hstart, hend⟩
  obtain ⟨found, hfind⟩ := Option.isSome_iff_exists.mp hsome
  obtain ⟨hfstart, hfend⟩ : (levelLookup found : ℤ) ≤ xp ∧ xp < levelLookup (found + 1) := by
    simpa using List.find?_some hfind
  obtain ⟨index, hindex, hsucc⟩ := List.mem_map.mp (List.mem_of_find?_eq_some hfind)
  have hlt := List.mem_range.mp hindex
  have hcalc : calculateLevel xp = found := by rw [calculateLevel, hfind, Option.getD_some]
  rw [hcalc]
  refine ⟨⟨by omega, by omega, hfstart⟩, ?_⟩
  rintro other ⟨-, -, hother⟩
  by_contra hmore
  have hbegun := levelLookup_le_levelLookup (show found + 1 ≤ other by omega)
  omega

/-- XP past the end of the last level is in none of them. -/
theorem calculateLevel_of_le {xp : ℤ} (h : (levelLookup (lastLevel + 1) : ℤ) ≤ xp) : calculateLevel xp = 1 := by
  have hnone : ((List.range lastLevel).map (· + 1)).find?
      (fun level ↦ (levelLookup level : ℤ) ≤ xp ∧ xp < levelLookup (level + 1)) = none := by
    rw [List.find?_eq_none]
    intro level hlevel hin
    obtain ⟨index, hindex, rfl⟩ := List.mem_map.mp hlevel
    have hlt := List.mem_range.mp hindex
    have hend := levelLookup_le_levelLookup (show index + 1 + 1 ≤ lastLevel + 1 by omega)
    have := (of_decide_eq_true hin).2
    omega
  rw [calculateLevel, hnone, Option.getD_none]

/-! ## The skills of a report -/

/-- The XP a report has for a skill: its last line of that name that has any. -/
def reportedXp (lines : List HubSkill) (name : String) : ℤ :=
  ((lines.reverse.find? fun line ↦ eqIgnoreAsciiCase name line.skill && line.xp.isSome).bind HubSkill.xp).elim 0
    clampI32

/-- The page and the server name the skills in the same order. -/
theorem skillNames_eq : skillNames = skillOrder := by decide

theorem skillIndex_eq_some_iff {index : ℕ} {name : String} (other : String) (h : skillOrder[index]? = some name) :
    skillIndex other = some index ↔ eqIgnoreAsciiCase name other = true := by
  obtain ⟨hlt, rfl⟩ := List.getElem?_eq_some_iff.mp h
  have hdistinct : (skillOrder.map String.toLower).Nodup := by decide +kernel
  rw [skillIndex, List.findIdx?_eq_some_iff_getElem]
  constructor
  · rintro ⟨_, hname, -⟩
    exact hname
  · intro hname
    refine ⟨hlt, hname, fun earlier hearlier hsame ↦ ?_⟩
    have hlower : (skillOrder.map String.toLower)[index]? = (skillOrder.map String.toLower)[earlier]? := by
      simp only [eqIgnoreAsciiCase, decide_eq_true_eq] at hname hsame
      rw [List.getElem?_map, List.getElem?_map, List.getElem?_eq_getElem hlt,
        List.getElem?_eq_getElem (hearlier.trans hlt), Option.map_some, Option.map_some, hname, hsame]
    have := (List.getElem?_inj (by simpa using hlt) hdistinct).mp hlower
    omega

/-- The array has for every skill what the report has. -/
theorem getElem?_skills {lines : List HubSkill} {index : ℕ} {name : String} (h : skillOrder[index]? = some name) :
    (Sync.skills lines)[index]? = some (reportedXp lines name) := by
  obtain ⟨hlt, -⟩ := List.getElem?_eq_some_iff.mp h
  have hsame (line : HubSkill) : (line.write.any fun write ↦ write.1 = index) =
      (eqIgnoreAsciiCase name line.skill && line.xp.isSome) := by
    have hiff := skillIndex_eq_some_iff line.skill h
    unfold HubSkill.write
    rw [Bool.eq_iff_iff, Bool.and_eq_true, ← hiff]
    cases skillIndex line.skill <;> cases line.xp <;> simp
  rw [Sync.skills_eq, Writes.getElem?_writeAll, List.getElem?_replicate, if_pos hlt, Option.map_some, lastTo,
    ← List.filterMap_reverse, List.find?_filterMap, funext hsame, reportedXp]
  cases hfind : lines.reverse.find? fun line ↦ eqIgnoreAsciiCase name line.skill && line.xp.isSome with
  | none => rfl
  | some line =>
    obtain ⟨hname, hxp⟩ : eqIgnoreAsciiCase name line.skill = true ∧ line.xp.isSome = true := by
      simpa using List.find?_some hfind
    obtain ⟨xp, hxp⟩ := Option.isSome_iff_exists.mp hxp
    simp [HubSkill.write, (skillIndex_eq_some_iff line.skill h).mpr hname, hxp]

theorem skillsOf_skills (lines : List HubSkill) :
    skillsOf (Sync.skills lines) =
      (skillNames.map fun name ↦
        ({ name, xp := reportedXp lines name, level := calculateLevel (reportedXp lines name) } : Skill)) ++
      [{ name := "Overall"
         xp := (skillNames.map (reportedXp lines)).sum
         level := (skillNames.map fun name ↦ min 99 (calculateLevel (reportedXp lines name))).sum }] := by
  have hread : (skillNames.zipIdx.map fun entry ↦ (entry.1, (Sync.skills lines)[entry.2]?.getD 0)) =
      skillNames.map fun name ↦ (name, reportedXp lines name) := by
    apply List.ext_getElem?
    intro index
    rw [List.getElem?_map, List.getElem?_map, List.getElem?_zipIdx]
    cases hname : skillNames[index]? with
    | none => rfl
    | some name =>
      rw [skillNames_eq] at hname
      simp [getElem?_skills hname]
  rw [skillsOf, transformSkillsFromStorage, hread]
  simp only [parseSkillData, List.map_map]
  rfl

theorem reportedXp_nonneg (lines : List HubSkill) (name : String) : 0 ≤ reportedXp lines name := by
  unfold reportedXp
  generalize (lines.reverse.find? _).bind HubSkill.xp = xp
  cases xp with
  | none => exact le_rfl
  | some xp => exact le_max_left _ _

/-- The page shows every skill with the XP that the report has for it and with the highest level that has begun
by then, and the totals of both, in which no level counts for more than 99. From the end of the last level on the
level is 1. -/
theorem skillsOf_report (lines : List HubSkill) :
    ∃ level : String → ℕ,
      (∀ name, reportedXp lines name < 208545572 →
        IsGreatest {level | 1 ≤ level ∧ level ≤ 126 ∧ (levelLookup level : ℤ) ≤ reportedXp lines name}
          (level name)) ∧
      (∀ name, 208545572 ≤ reportedXp lines name → level name = 1) ∧
      skillsOf (Sync.skills lines) =
        (skillNames.map fun name ↦
          ({ name, xp := reportedXp lines name, level := level name } : Skill)) ++
        [{ name := "Overall"
           xp := (skillNames.map (reportedXp lines)).sum
           level := (skillNames.map fun name ↦ min 99 (level name)).sum }] := by
  refine ⟨fun name ↦ calculateLevel (reportedXp lines name), fun name hlast ↦ ?_, fun name hmore ↦ ?_,
    skillsOf_skills lines⟩
  · refine isGreatest_calculateLevel (reportedXp_nonneg lines name) ?_
    rw [levelLookup_end]
    exact hlast
  · refine calculateLevel_of_le ?_
    rw [levelLookup_end]
    exact hmore

end OsrsMap.Page
