import Mathlib.Data.List.Induction
import Mathlib.Tactic.TypeStar

/-!
# Partial values laid over each other

A layer has a value for some of its places and none for the others. Laid over another layer it
replaces what that has where it has a value itself. A stack of layers comes to the same whether the
layers are laid down one by one or merged first.

A source whose values are mirrored may be sent as what changed since it was last sent: laid over the
mirror that comes to the same as sending it whole.
-/

namespace OsrsMap.Overlay

variable {ι α : Type*}

/-- A later layer over an earlier one. -/
def overlay (later earlier : ι → Option α) : ι → Option α := fun i ↦ (later i).or (earlier i)

/-- Layers over a base, the first one lowest. -/
def stack (base : ι → Option α) (layers : List (ι → Option α)) : ι → Option α :=
  layers.foldl (fun below layer ↦ overlay layer below) base

variable {base current : ι → Option α} {layers : List (ι → Option α)} {i : ι}

@[simp]
theorem overlay_apply (later earlier : ι → Option α) (i : ι) :
    overlay later earlier i = (later i).or (earlier i) := rfl

theorem overlay_assoc (a b c : ι → Option α) : overlay (overlay a b) c = overlay a (overlay b c) := by
  funext i
  exact Option.or_assoc

theorem overlay_none (later : ι → Option α) : overlay later (fun _ ↦ none) = later := by
  funext i
  exact Option.or_none

theorem none_overlay (earlier : ι → Option α) : overlay (fun _ ↦ none) earlier = earlier := by
  funext i
  exact Option.none_or

@[simp]
theorem stack_nil (base : ι → Option α) : stack base [] = base := rfl

theorem stack_append (base : ι → Option α) (first second : List (ι → Option α)) :
    stack base (first ++ second) = stack (stack base first) second :=
  List.foldl_append

theorem stack_concat (base : ι → Option α) (layers : List (ι → Option α)) (layer : ι → Option α) :
    stack base (layers ++ [layer]) = overlay layer (stack base layers) := by
  rw [stack_append]
  rfl

/-- Layers may be merged before they are laid down. -/
theorem stack_eq_overlay (base : ι → Option α) (layers : List (ι → Option α)) :
    stack base layers = overlay (stack (fun _ ↦ none) layers) base := by
  induction layers using List.reverseRecOn with
  | nil => exact (none_overlay base).symm
  | append_singleton layers layer ih =>
    calc stack base (layers ++ [layer]) = overlay layer (stack base layers) := stack_concat _ _ _
      _ = overlay layer (overlay (stack (fun _ ↦ none) layers) base) := by rw [ih]
      _ = overlay (overlay layer (stack (fun _ ↦ none) layers)) base := (overlay_assoc _ _ _).symm
      _ = overlay (stack (fun _ ↦ none) (layers ++ [layer])) base := by rw [stack_concat]

/-- The same layer over two bases makes up for where they differ exactly where it has a value. -/
theorem overlay_eq_overlay_iff {later other : ι → Option α} :
    overlay later base = overlay later other ↔ ∀ i, base i ≠ other i → (later i).isSome = true := by
  constructor
  · intro h i hne
    have hsame := congrFun h i
    rw [overlay_apply, overlay_apply] at hsame
    cases hlater : later i with
    | none => exact absurd (by simpa [hlater] using hsame) hne
    | some value => rfl
  · intro h
    funext i
    rw [overlay_apply, overlay_apply]
    by_cases hne : base i = other i
    · rw [hne]
    · obtain ⟨value, hvalue⟩ := Option.isSome_iff_exists.mp (h i hne)
      rw [hvalue, Option.some_or, Option.some_or]

/-! ## What changed -/

/-- What was sent before is held. -/
def Held (previous : Option (ι → Option α)) (values : ι → Option α) : Prop :=
  ∀ sent ∈ previous, ∀ i value, sent i = some value → values i = some value

theorem held_none (values : ι → Option α) : Held none values :=
  fun _ hsent ↦ absurd hsent (by simp)

/-- What is laid down is held. -/
theorem held_overlay (current base : ι → Option α) : Held (some current) (overlay current base) := by
  intro sent hsent i value hvalue
  obtain rfl := Option.some.inj hsent
  rw [overlay_apply, hvalue, Option.some_or]

section Diff

variable [DecidableEq α]

/-- Whether a place differs from what was sent before, if anything was. -/
def changed (previous : Option (ι → Option α)) (current : ι → Option α) (i : ι) : Bool :=
  previous.all fun previous ↦ previous i ≠ current i

/-- The values that changed. -/
def diff (previous : Option (ι → Option α)) (current : ι → Option α) : ι → Option α :=
  fun i ↦ if changed previous current i then current i else none

variable {previous : Option (ι → Option α)}

theorem changed_eq_false : changed previous current i = false ↔
    ∃ sent, previous = some sent ∧ sent i = current i := by
  cases previous <;> simp [changed]

/-- Where what was sent before is held, what changed comes to the same as everything. -/
theorem overlay_diff (h : Held previous base) : overlay (diff previous current) base = overlay current base := by
  funext i
  rw [overlay_apply, overlay_apply, diff]
  cases hchanged : changed previous current i with
  | true => rw [if_pos rfl]
  | false =>
    obtain ⟨sent, hsent, hsame⟩ := changed_eq_false.mp hchanged
    rw [if_neg Bool.false_ne_true, Option.none_or]
    cases hcurrent : current i with
    | none => rw [Option.none_or]
    | some value => exact h sent hsent i value (hsame.trans hcurrent)

/-- At a place where what was sent before is held, what changed comes to the value there. -/
theorem overlay_diff_apply (hsome : (current i).isSome = true) (h : ∀ sent ∈ previous, base i = sent i) :
    overlay (diff previous current) base i = current i := by
  rw [overlay_apply, diff]
  cases hchanged : changed previous current i with
  | true =>
    obtain ⟨value, hvalue⟩ := Option.isSome_iff_exists.mp hsome
    rw [if_pos rfl, hvalue, Option.some_or]
  | false =>
    obtain ⟨sent, hsent, hsame⟩ := changed_eq_false.mp hchanged
    rw [if_neg Bool.false_ne_true, Option.none_or, h sent hsent, hsame]

/-- Nothing is sent exactly when everything is as it was sent before. -/
theorem diff_eq_none (h : ∀ i, changed previous current i = false) (i : ι) :
    diff previous current i = none := by
  rw [diff, h i, if_neg Bool.false_ne_true]

theorem isSome_diff : (diff previous current i).isSome = true ↔
    changed previous current i = true ∧ (current i).isSome = true := by
  unfold diff
  cases changed previous current i <;> simp

end Diff

end OsrsMap.Overlay
