import Mathlib.Data.Nat.Notation
import Mathlib.Tactic.TypeStar

/-!
# Loops that run until a step finds nothing to do

A step makes a state into another one, or finds nothing to do. A loop that takes steps until one finds
nothing ends when every step makes the state smaller. What each step keeps holds of the state it ends
in, and there is nothing left to do there.
-/

namespace OsrsMap.Settling

variable {σ : Type*}

/-- The loop runs from a state and ends in another. -/
inductive Ends (step : σ → Option σ) : σ → σ → Prop
  | done {state : σ} (h : step state = none) : Ends step state state
  | next {state after last : σ} (h : step state = some after) (hrest : Ends step after last) :
    Ends step state last

/-- The loop for a number of rounds. -/
def rounds (step : σ → Option σ) : ℕ → σ → σ
  | 0, state => state
  | fuel + 1, state => (step state).elim state (rounds step fuel)

variable {step : σ → Option σ} {state last : σ}

/-- As many rounds as the state is large are enough, when every step makes the states smaller that have what
every step keeps. -/
theorem ends_rounds_of_keeps {P : σ → Prop} {size : σ → ℕ}
    (hshrinks : ∀ state after, P state → step state = some after → P after ∧ size after < size state)
    {fuel : ℕ} (hstate : P state) (h : size state ≤ fuel) : Ends step state (rounds step fuel state) := by
  induction fuel generalizing state with
  | zero =>
    apply Ends.done
    cases hstep : step state with
    | none => rfl
    | some after => exact absurd (hshrinks state after hstate hstep).2 (by omega)
  | succ fuel ih =>
    rw [rounds]
    cases hstep : step state with
    | none => exact .done hstep
    | some after =>
      obtain ⟨hafter, hsmaller⟩ := hshrinks state after hstate hstep
      exact .next hstep (ih hafter (by omega))

/-- As many rounds as the state is large are enough. -/
theorem ends_rounds {size : σ → ℕ}
    (hshrinks : ∀ state after, step state = some after → size after < size state)
    {fuel : ℕ} (h : size state ≤ fuel) : Ends step state (rounds step fuel state) :=
  @ends_rounds_of_keeps σ step state (fun _ ↦ True) size
    (fun state after _ hstep ↦ ⟨trivial, hshrinks state after hstep⟩) fuel trivial h

/-- What every step keeps holds in the end. -/
theorem Ends.keeps {P : σ → Prop} (hstep : ∀ state after, step state = some after → P state → P after)
    (h : Ends step state last) (hstate : P state) : P last := by
  induction h with
  | done _ => exact hstate
  | next hnext _ ih => exact ih (hstep _ _ hnext hstate)

/-- In the end there is nothing left to do. -/
theorem Ends.settled (h : Ends step state last) : step last = none := by
  induction h with
  | done hnone => exact hnone
  | next _ _ ih => exact ih

/-- When every step keeps something and makes the states that have it smaller, the loop ends, in a state that
has it and in which there is nothing left to do. -/
theorem exists_ends (step : σ → Option σ) (P : σ → Prop) (size : σ → ℕ)
    (hshrinks : ∀ state after, P state → step state = some after → P after ∧ size after < size state)
    (hstate : P state) : ∃ last, Ends step state last ∧ P last ∧ step last = none := by
  have hends : Ends step state (rounds step (size state) state) :=
    ends_rounds_of_keeps hshrinks hstate (Nat.le_refl _)
  refine ⟨_, hends, hends.keeps (fun state after hstep hstate ↦ ?_) hstate, hends.settled⟩
  exact (hshrinks state after hstate hstep).1

end OsrsMap.Settling
