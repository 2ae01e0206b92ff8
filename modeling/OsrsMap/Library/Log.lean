import OsrsMap.Library.PartitionPoint
import Mathlib.Data.List.Range
import Mathlib.Data.List.TakeWhile

/-!
# Numbered logs

A log is a list of entries, oldest first, numbered from one. A reader asks for the newest entries,
or for those after the last number it has seen.
-/

namespace OsrsMap.Log

variable {α : Type*} (number : α → ℕ)

/-- The entries are numbered in order, from one. -/
def Numbered (log : List α) : Prop := ∀ index (h : index < log.length), number log[index] = index + 1

/-- The last entries, newest first. -/
def newest (count : ℕ) (log : List α) : List α := log.reverse.take count

/-- The entries after a number, newest first. -/
def after (last : ℕ) (log : List α) : List α :=
  log.reverse.takeWhile fun entry ↦ decide (last < number entry)

/-- The entries from one position up to another. -/
def window (first next : ℕ) (log : List α) : List α := (log.take next).drop first

variable {number} {log more : List α}

theorem Numbered.append (h : Numbered number log) {entry : α} (hnumber : number entry = log.length + 1) :
    Numbered number (log ++ [entry]) := by
  intro index hindex
  by_cases hlast : index < log.length
  · rw [List.getElem_append_left hlast]
    exact h index hlast
  · have heq : index = log.length := by
      rw [List.length_append, List.length_singleton] at hindex
      omega
    subst heq
    rw [List.getElem_append_right le_rfl]
    simpa using hnumber

theorem Numbered.take (h : Numbered number log) (count : ℕ) : Numbered number (log.take count) := by
  intro index hindex
  rw [List.getElem_take]
  exact h index _

theorem Numbered.number_mem (h : Numbered number log) {entry : α} (hentry : entry ∈ log) :
    0 < number entry ∧ number entry ≤ log.length := by
  obtain ⟨index, hindex, rfl⟩ := List.mem_iff_getElem.mp hentry
  rw [h index hindex]
  omega

/-- What is left when the entries up to a number are dropped has the later numbers. -/
theorem Numbered.mem_drop (h : Numbered number log) {entry : α} {count : ℕ} :
    entry ∈ log.drop count ↔ entry ∈ log ∧ count < number entry := by
  constructor
  · intro hentry
    obtain ⟨index, hindex, rfl⟩ := List.mem_iff_getElem.mp hentry
    rw [List.getElem_drop, h]
    exact ⟨List.getElem_mem _, by omega⟩
  · rintro ⟨hentry, hlater⟩
    obtain ⟨index, hindex, rfl⟩ := List.mem_iff_getElem.mp hentry
    rw [h index hindex] at hlater
    refine List.mem_iff_getElem.mpr ⟨index - count, ?_, ?_⟩
    · rw [List.length_drop]
      omega
    · rw [List.getElem_drop]
      congr 1
      omega

theorem Numbered.mem_take (h : Numbered number log) {entry : α} {count : ℕ} :
    entry ∈ log.take count ↔ entry ∈ log ∧ number entry ≤ count := by
  constructor
  · intro hentry
    have hnumber := (h.take count).number_mem hentry
    rw [List.length_take] at hnumber
    exact ⟨List.mem_of_mem_take hentry, by omega⟩
  · rintro ⟨hentry, hle⟩
    have hboth : entry ∈ log.take count ++ log.drop count := by rwa [List.take_append_drop]
    obtain htake | hdrop := List.mem_append.mp hboth
    · exact htake
    · exact absurd (h.mem_drop.mp hdrop).2 (not_lt.mpr hle)

theorem Numbered.nodup (h : Numbered number log) : log.Nodup := by
  refine List.pairwise_iff_getElem.mpr fun first second hfirst hsecond hlt heq ↦ ?_
  have hnumber := congrArg number heq
  rw [h first hfirst, h second hsecond] at hnumber
  omega

theorem Numbered.after_eq (h : Numbered number log) (last : ℕ) :
    after number last log = (log.drop last).reverse := by
  have hsplit : log.reverse = (log.drop last).reverse ++ (log.take last).reverse := by
    rw [← List.reverse_append, List.take_append_drop]
  have hlater : ∀ entry ∈ (log.drop last).reverse, decide (last < number entry) = true := by
    intro entry hentry
    exact decide_eq_true (h.mem_drop.mp (List.mem_reverse.mp hentry)).2
  have hnone : (log.take last).reverse.takeWhile (fun entry ↦ decide (last < number entry)) = [] := by
    cases hold : (log.take last).reverse with
    | nil => rfl
    | cons entry older =>
      have hentry : entry ∈ log.take last := by
        rw [← List.mem_reverse, hold]
        exact List.mem_cons_self
      exact List.takeWhile_cons_of_neg (by simpa using (h.mem_take.mp hentry).2)
  unfold after
  rw [hsplit, List.takeWhile_append_of_pos hlater, hnone, List.append_nil]

theorem mem_newest {count index : ℕ} (hindex : index < log.length) (hnear : log.length ≤ index + count) :
    log[index] ∈ newest count log := by
  have hkept : index - (log.length - count) < (log.drop (log.length - count)).length := by
    rw [List.length_drop]
    omega
  have hmem := List.getElem_mem hkept
  have hback : log.length - count + (index - (log.length - count)) = index := by omega
  have hreverse : newest count log = (log.drop (log.length - count)).reverse := by
    unfold newest
    rw [List.reverse_drop]
    by_cases hall : log.length ≤ count
    · rw [List.take_of_length_le, List.take_of_length_le] <;> simp <;> omega
    · congr 1
      omega
  rw [hreverse, List.mem_reverse]
  simpa only [List.getElem_drop, hback] using hmem

theorem newest_append (count : ℕ) (log more : List α) :
    newest count (log ++ more) = (more.reverse ++ newest count log).take count := by
  unfold newest
  rw [List.reverse_append, List.take_append, List.take_append, List.take_take]
  congr 2
  omega

theorem newest_of_length_le {count : ℕ} (h : log.length ≤ count) : newest count log = log.reverse :=
  List.take_of_length_le (by simpa using h)

/-- What is kept of a log is kept as the log grows. -/
theorem drop_kept (kept : ℕ) (log : List α) (entry : α) :
    (log.drop (log.length - kept) ++ [entry]).drop
        ((log.drop (log.length - kept) ++ [entry]).length - kept) =
      (log ++ [entry]).drop ((log ++ [entry]).length - kept) := by
  rw [← List.drop_append_of_le_length (Nat.sub_le _ _), List.drop_drop]
  congr 1
  simp only [List.length_drop, List.length_append, List.length_singleton]
  omega

/-- What is kept of a log answers for its newest entries as the log does. -/
theorem take_takeWhile_kept {count kept : ℕ} (h : count ≤ kept) (p : α → Bool) :
    ((log.drop (log.length - kept)).reverse.takeWhile p).take count =
      (log.reverse.takeWhile p).take count := by
  have hlength : (log.reverse.takeWhile p).length ≤ log.length :=
    (List.takeWhile_sublist p).length_le.trans_eq List.length_reverse
  rw [List.reverse_drop, ← List.take_takeWhile, List.take_take]
  by_cases hall : log.length ≤ kept
  · have hmin : min count (log.length - (log.length - kept)) = min count log.length := by omega
    rw [hmin, ← List.take_take, List.take_of_length_le hlength]
  · congr 1
    omega

theorem newest_drop {count kept : ℕ} (h : count ≤ kept) :
    newest count (log.drop (log.length - kept)) = newest count log := by
  have hall (entries : List α) : entries.takeWhile (fun _ ↦ true) = entries :=
    List.takeWhile_eq_self_iff.mpr fun _ _ ↦ rfl
  have hkept := @take_takeWhile_kept α log count kept h fun _ ↦ true
  rwa [hall, hall] at hkept

/-- The numbers of what is kept of a numbered log. -/
theorem Numbered.map_drop (h : Numbered number log) (count : ℕ) :
    (log.drop count).map number = List.range' (count + 1) (log.length - count) := by
  apply List.ext_getElem
  · simp
  · intro index hindex _
    rw [List.length_map, List.length_drop] at hindex
    rw [List.getElem_map, List.getElem_drop, h, List.getElem_range']
    omega

/-- Of entries in the order of their numbers those after a number come last. -/
theorem after_eq_filter (h : log.Pairwise fun a b ↦ number a < number b) (last : ℕ) :
    after number last log = (log.filter fun entry ↦ decide (last < number entry)).reverse := by
  unfold after
  rw [← List.filter_reverse]
  refine takeWhile_eq_filter ((List.pairwise_reverse.mpr h).imp fun {newer older} hless ↦ ?_)
  simp only [decide_eq_true_eq]
  omega

/-! ## Windows -/

@[simp]
theorem window_self (position : ℕ) (log : List α) : window position position log = [] := by
  simp [window]

theorem window_append {first middle next : ℕ} (hfirst : first ≤ middle) (hnext : middle ≤ next)
    (log : List α) : window first middle log ++ window middle next log = window first next log := by
  unfold window
  rw [List.drop_take, List.drop_take, List.drop_take]
  have hlength : next - first = (middle - first) + (next - middle) := by omega
  rw [hlength, List.take_add, List.drop_drop, Nat.add_sub_of_le hfirst]

theorem window_succ {position : ℕ} (h : position < log.length) :
    window position (position + 1) log = [log[position]] := by
  unfold window
  have hbefore : (log.take position).length = position := List.length_take_of_le h.le
  rw [List.take_add_one, List.getElem?_eq_getElem h, List.drop_append, hbefore, Nat.sub_self,
    List.drop_of_length_le hbefore.le]
  rfl

theorem length_window (first : ℕ) {next : ℕ} (h : next ≤ log.length) :
    (window first next log).length = next - first := by
  simp [window, h]

theorem mem_window {first next : ℕ} {entry : α} : entry ∈ window first next log ↔
    ∃ position, ∃ h : position < log.length, first ≤ position ∧ position < next ∧
      log[position] = entry := by
  unfold window
  constructor
  · intro hentry
    obtain ⟨index, hindex, rfl⟩ := List.mem_iff_getElem.mp hentry
    simp only [List.length_drop, List.length_take] at hindex
    refine ⟨first + index, by omega, by omega, by omega, ?_⟩
    simp
  · rintro ⟨position, hposition, hfirst, hnext, rfl⟩
    refine List.mem_iff_getElem.mpr ⟨position - first, ?_, ?_⟩
    · simp only [List.length_drop, List.length_take]
      omega
    · simp [Nat.add_sub_of_le hfirst]

theorem window_sublist (first next : ℕ) (log : List α) : (window first next log).Sublist log :=
  (List.drop_sublist _ _).trans (List.take_sublist _ _)

end OsrsMap.Log
