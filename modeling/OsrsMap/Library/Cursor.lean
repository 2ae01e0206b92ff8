import Mathlib.Order.Lattice
import Mathlib.Tactic.TypeStar

/-!
# Copies kept up by a cursor

A store keeps each cell with the time its value last changed. A reader asks for the cells that
changed since a time, its cursor, and keeps what it decodes of their values; a cell that is not
sent stays as the reader had it. The copy is *caught up to* a cursor when it is right or the cell
changed since, so that the next answer sends it: writing keeps this as long as the cursor is not
later than the times writes are stamped with, and reading makes such a copy right.
-/

namespace OsrsMap.Cursor

variable {α β τ : Type*}

/-- A stored value, with the time it last changed. -/
structure Cell (α τ : Type*) where
  value : Option α
  changed : Option τ
deriving DecidableEq

variable [LinearOrder τ]

namespace Cell

/-- Stores a value, unless none is given or it is the value stored. -/
def write [DecidableEq α] (cell : Cell α τ) (new : Option α) (now : τ) : Cell α τ where
  value := new.or cell.value
  changed := if new.isSome ∧ new ≠ cell.value then some now else cell.changed

/-- Whether the value changed at the time or later. -/
def changedSince (cell : Cell α τ) (since : τ) : Bool := cell.changed.any (since ≤ ·)

/-- What is sent of a cell. -/
def sent (cell : Cell α τ) (since : τ) : Option α :=
  if cell.changedSince since then cell.value else none

/-- What a reader shows of a value. -/
def shown (decode : α → Option β) (cell : Cell α τ) : Option β := cell.value.bind decode

/-- A value is stored with the time it was, no earlier than the first time there is. -/
def Stamped (first : τ) (cell : Cell α τ) : Prop :=
  match cell.value, cell.changed with
  | none, none => True
  | some _, some changed => first ≤ changed
  | _, _ => False

/-- The copy is right, or the cell changed since. -/
def CaughtUp (decode : α → Option β) (copy : Option β) (since : τ) (cell : Cell α τ) : Prop :=
  copy = cell.shown decode ∨ cell.changedSince since = true

instance [DecidableEq β] (decode : α → Option β) (copy : Option β) (since : τ) (cell : Cell α τ) :
    Decidable (CaughtUp decode copy since cell) :=
  inferInstanceAs (Decidable (copy = cell.shown decode ∨ cell.changedSince since = true))

/-- What the reader has of a cell after an answer. -/
def receive (decode : α → Option β) (copy : Option β) (answer : Option α) : Option β :=
  match answer with
  | none => copy
  | some value => decode value

variable {decode : α → Option β} {copy : Option β} {cell : Cell α τ} {first since now : τ}

omit [LinearOrder τ] in
/-- A write is stamped exactly when it changes the value. -/
theorem changed_write [DecidableEq α] (cell : Cell α τ) (new : Option α) (now : τ) :
    (cell.write new now).changed =
      if (cell.write new now).value = cell.value then cell.changed else some now := by
  obtain ⟨value, changed⟩ := cell
  cases new with
  | none => simp [write]
  | some new => by_cases hsame : some new = value <;> simp [write, hsame]

theorem changedSince_iff : cell.changedSince since = true ↔
    ∃ changed, cell.changed = some changed ∧ since ≤ changed := by
  simp [changedSince, Option.any_eq_true]

theorem changedSince_first (h : cell.Stamped first) (hvalue : cell.value ≠ none) :
    cell.changedSince first = true := by
  obtain ⟨value, changed⟩ := cell
  cases value <;> cases changed <;> simp_all [Stamped, changedSince]

theorem value_ne_none (h : cell.Stamped first) (hsince : cell.changedSince since = true) :
    cell.value ≠ none := by
  obtain ⟨value, changed⟩ := cell
  cases value <;> cases changed <;> simp_all [Stamped, changedSince]

section Write

variable [DecidableEq α] {new : Option α}

theorem Stamped.write (h : cell.Stamped first) (hnow : first ≤ now) :
    (cell.write new now).Stamped first := by
  obtain ⟨value, changed⟩ := cell
  cases new with
  | none => simpa [Cell.write] using h
  | some new =>
    by_cases hsame : value = some new
    · simpa [Cell.write, hsame] using h
    · simpa [Cell.write, Ne.symm hsame, Stamped] using hnow

/-- A write is sent to whoever was caught up to an earlier cursor. -/
theorem CaughtUp.write (h : CaughtUp decode copy since cell) (hnow : since ≤ now) :
    CaughtUp decode copy since (cell.write new now) := by
  by_cases hnew : new.isSome ∧ new ≠ cell.value
  · right
    rw [changedSince_iff]
    exact ⟨now, if_pos hnew, hnow⟩
  · have hvalue : (cell.write new now).value = cell.value := by
      cases new with
      | none => rfl
      | some new => simpa [Cell.write] using hnew
    have hchanged : (cell.write new now).changed = cell.changed := if_neg hnew
    simpa only [CaughtUp, shown, changedSince, hvalue, hchanged] using h

end Write

/-- An answer makes right what was caught up. -/
theorem CaughtUp.receive (h : CaughtUp decode copy since cell) (hstamped : cell.Stamped first) :
    Cell.receive decode copy (cell.sent since) = cell.shown decode := by
  unfold sent
  split
  · next hsince =>
    cases hvalue : cell.value with
    | none => exact absurd hvalue (value_ne_none hstamped hsince)
    | some value => simp [Cell.receive, shown, hvalue]
  · next hnot => exact h.resolve_right hnot

/-- A reader with nothing is caught up when whatever is stored changed since. -/
theorem caughtUp_none (h : cell.value ≠ none → cell.changedSince since = true) :
    CaughtUp decode none since cell := by
  by_cases hvalue : cell.value = none
  · left
    simp [shown, hvalue]
  · exact .inr (h hvalue)

/-- Asking from the first time there is sends everything: only what was never stored is left as the
reader had it. -/
theorem caughtUp_first (hstamped : cell.Stamped first) (h : cell.value = none → copy = none) :
    CaughtUp decode copy first cell := by
  by_cases hvalue : cell.value = none
  · left
    simp [shown, hvalue, h hvalue]
  · exact .inr (changedSince_first hstamped hvalue)

end Cell

end OsrsMap.Cursor
