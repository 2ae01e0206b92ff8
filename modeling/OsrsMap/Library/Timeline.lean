import Mathlib.Data.List.Chain
import Mathlib.Order.Lattice

/-!
# Stays in order

A timeline is a list of stays, each with a first and a last moment, none of which begins before the
one before it is over.
-/

namespace OsrsMap.Timeline

variable {ι α : Type*} [LinearOrder α] {first last : ι → α}

variable (first last) in
structure Ordered (stays : List ι) : Prop where
  each : ∀ stay ∈ stays, first stay ≤ last stay
  chain : stays.IsChain fun a b ↦ last a ≤ first b

variable {stays : List ι} {stay : ι}

theorem ordered_nil : Ordered first last [] where
  each _ hstay := absurd hstay List.not_mem_nil
  chain := .nil

/-- A stay comes after those there are. -/
theorem Ordered.concat (h : Ordered first last stays) (hstay : first stay ≤ last stay)
    (hafter : ∀ newest ∈ stays.getLast?, last newest ≤ first stay) :
    Ordered first last (stays ++ [stay]) where
  each other hother := by
    obtain hbefore | hnew := List.mem_append.mp hother
    · exact h.each other hbefore
    · rwa [List.mem_singleton.mp hnew]
  chain := by
    refine List.isChain_append.mpr ⟨h.chain, List.isChain_singleton _, fun newest hnewest other hother ↦ ?_⟩
    obtain rfl : stay = other := by simpa using hother
    exact hafter newest hnewest

/-- The last stay may end later. -/
theorem Ordered.prolong {longer : ι} (h : Ordered first last (stays ++ [stay]))
    (hfirst : first longer = first stay) (hlast : last stay ≤ last longer) :
    Ordered first last (stays ++ [longer]) := by
  obtain ⟨hchain, -, hjoin⟩ := List.isChain_append.mp h.chain
  have hbefore : Ordered first last stays :=
    ⟨fun other hother ↦ h.each other (List.mem_append_left _ hother), hchain⟩
  refine hbefore.concat ?_ fun newest hnewest ↦ ?_
  · rw [hfirst]
    exact (h.each stay (List.mem_append_right _ (List.mem_singleton_self _))).trans hlast
  · rw [hfirst]
    exact hjoin newest hnewest stay rfl

theorem Ordered.suffix {later : List ι} (h : Ordered first last stays) (hlater : later <:+ stays) :
    Ordered first last later where
  each other hother := h.each other (hlater.subset hother)
  chain := h.chain.suffix hlater

/-- A stay is over when a later one begins. -/
theorem Ordered.le (h : Ordered first last stays) {i j : ℕ} (hij : i < j) (hj : j < stays.length) :
    last stays[i] ≤ first stays[j] := by
  induction j with
  | zero => exact absurd hij (Nat.not_lt_zero _)
  | succ j ih =>
    have hstep : last stays[j] ≤ first stays[j + 1] := List.isChain_iff_getElem.mp h.chain j hj
    obtain hlt | rfl := Nat.lt_succ_iff_lt_or_eq.mp hij
    · have hbetween := h.each stays[j] (List.getElem_mem _)
      exact ((ih hlt (by omega)).trans hbetween).trans hstep
    · exact hstep

/-- No stay begins before an earlier one. -/
theorem Ordered.first_le (h : Ordered first last stays) {i j : ℕ} (hij : i ≤ j) (hj : j < stays.length) :
    first stays[i] ≤ first stays[j] := by
  obtain hlt | rfl := hij.lt_or_eq
  · exact (h.each stays[i] (List.getElem_mem _)).trans (h.le hlt hj)
  · exact le_rfl

theorem ordered_iff : Ordered first last stays ↔
    (∀ stay ∈ stays, first stay ≤ last stay) ∧ stays.IsChain fun a b ↦ last a ≤ first b :=
  ⟨fun h ↦ ⟨h.each, h.chain⟩, fun h ↦ ⟨h.1, h.2⟩⟩

instance decidableOrdered (stays : List ι) : Decidable (Ordered first last stays) :=
  decidable_of_iff _ ordered_iff.symm

end OsrsMap.Timeline
