import Mathlib.Data.List.Range
import Mathlib.Order.Lattice

/-!
# A count cut in pieces

A loop over pieces of a fixed length, the last one maybe shorter, with a loop over each of them, goes
through every number once and in order. It may end anywhere in a piece: the pieces behind add nothing.
-/

namespace OsrsMap.Pieces

variable {length : ℕ}

/-- Where the pieces of a count begin. There is always a first one. -/
def starts (length count : ℕ) : List ℕ :=
  List.range' 0 ((max count 1 + (length - 1)) / length) length

/-- The numbers from the start of a piece, up to an end. -/
def numbers (length stop start : ℕ) : List ℕ := List.range' start (min (start + length) stop - start)

theorem mem_numbers {stop start i : ℕ} :
    i ∈ numbers length stop start ↔ start ≤ i ∧ i < start + length ∧ i < stop := by
  unfold numbers
  rw [List.mem_range'_1]
  omega

/-- An end that is one further on adds a number to the piece it was in. -/
theorem numbers_succ (stop start : ℕ) : numbers length (stop + 1) start =
    numbers length stop start ++ if start ≤ stop ∧ stop < start + length then [stop] else [] := by
  unfold numbers
  split
  · next h =>
    rw [Nat.min_eq_right (by omega), Nat.min_eq_right (by omega), Nat.succ_sub h.1,
      List.range'_1_concat, Nat.add_sub_of_le h.1]
  · rw [List.append_nil]
    congr 1
    omega

/-- The pieces of a count begin one behind the other. -/
theorem sorted_starts (hlength : 0 < length) (count : ℕ) : (starts length count).Pairwise (· < ·) :=
  List.pairwise_lt_range' length hlength

/-- Pieces that reach an end go through all up to it. -/
theorem flatMap_numbers_range' {stop start pieces : ℕ} (h : stop ≤ start + pieces * length) :
    (List.range' start pieces length).flatMap (numbers length stop) =
      List.range' start (stop - start) := by
  induction pieces generalizing start with
  | zero =>
    rw [Nat.zero_mul, Nat.add_zero] at h
    rw [Nat.sub_eq_zero_of_le h]
    rfl
  | succ pieces ih =>
    rw [Nat.succ_mul] at h
    rw [List.range'_succ, List.flatMap_cons, ih (by omega)]
    unfold numbers
    by_cases hlast : start + length ≤ stop
    · have hsplit : stop - start = length + (stop - (start + length)) := by omega
      rw [Nat.min_eq_left hlast, Nat.add_sub_cancel_left, List.range'_append_1, ← hsplit]
    · have hnone : stop - (start + length) = 0 := by omega
      rw [Nat.min_eq_right (by omega), hnone, List.range'_zero, List.append_nil]

/-- Up to an end within the count the pieces go through every number, once and in order. -/
theorem flatMap_numbers {count stop : ℕ} (hlength : 0 < length) (hstop : stop ≤ max count 1) :
    (starts length count).flatMap (numbers length stop) = List.range stop := by
  have hreach : stop ≤ 0 + (max count 1 + (length - 1)) / length * length := by
    have hdiv := Nat.div_add_mod (max count 1 + (length - 1)) length
    have hmod := Nat.mod_lt (max count 1 + (length - 1)) hlength
    rw [Nat.mul_comm] at hdiv
    omega
  rw [starts, flatMap_numbers_range' hreach, Nat.sub_zero, List.range_eq_range']

end OsrsMap.Pieces
