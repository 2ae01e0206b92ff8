import Mathlib.Algebra.BigOperators.Group.List.Basic

/-!
# Writes to the places of a list

Values are written to places of a list one after the other, and a place past its end is none. A place has
what was written to it last. When no place is written twice and every place is there, nothing is lost: what
the values weigh together is what the list weighs.
-/

namespace OsrsMap.Writes

variable {α : Type*}

/-- The list after the writes. -/
def writeAll (slots : List α) (writes : List (ℕ × α)) : List α :=
  writes.foldl (fun slots write ↦ slots.set write.1 write.2) slots

/-- What was written to a place last. -/
def lastTo (place : ℕ) (writes : List (ℕ × α)) : Option α :=
  (writes.reverse.find? fun write ↦ write.1 = place).map Prod.snd

variable {slots : List α} {writes : List (ℕ × α)} {place : ℕ}

@[simp]
theorem writeAll_cons (write : ℕ × α) :
    writeAll slots (write :: writes) = writeAll (slots.set write.1 write.2) writes := rfl

/-- A loop that writes for some of what it goes over. -/
theorem foldl_write {β : Type*} (write : β → Option (ℕ × α)) (entries : List β) :
    entries.foldl (fun slots entry ↦ (write entry).elim slots fun found ↦ slots.set found.1 found.2) slots =
      writeAll slots (entries.filterMap write) := by
  induction entries generalizing slots with
  | nil => rfl
  | cons entry entries ih =>
    rw [List.foldl_cons, ih]
    cases hwrite : write entry with
    | none => rw [List.filterMap_cons_none hwrite, Option.elim_none]
    | some found => rw [List.filterMap_cons_some hwrite, Option.elim_some, writeAll_cons]

theorem lastTo_cons (write : ℕ × α) : lastTo place (write :: writes) =
    (lastTo place writes).or (if write.1 = place then some write.2 else none) := by
  unfold lastTo
  rw [List.reverse_cons, List.find?_append]
  cases writes.reverse.find? fun write ↦ write.1 = place with
  | none => by_cases h : write.1 = place <;> simp [h]
  | some found => rfl

/-- A place has what was written to it last, or what it had. -/
theorem getElem?_writeAll :
    (writeAll slots writes)[place]? = slots[place]?.map fun before ↦ (lastTo place writes).getD before := by
  induction writes generalizing slots with
  | nil => simp [writeAll, lastTo]
  | cons write writes ih =>
    rw [writeAll_cons, ih, lastTo_cons, List.getElem?_set]
    by_cases h : write.1 = place
    · obtain rfl := h
      by_cases hlt : write.1 < slots.length
      · cases lastTo write.1 writes <;> simp [hlt]
      · simp [hlt]
    · cases lastTo place writes <;> simp [h]

section Weight

variable {M : Type*} [AddCommMonoid M] {weight : α → M}

theorem sum_set_of_weightless {before : α} (hbefore : slots[place]? = some before)
    (hweightless : weight before = 0) (value : α) :
    ((slots.set place value).map weight).sum = (slots.map weight).sum + weight value := by
  induction slots generalizing place with
  | nil => simp at hbefore
  | cons first slots ih =>
    cases place with
    | zero =>
      obtain rfl : first = before := by simpa using hbefore
      simp [hweightless, add_comm]
    | succ place =>
      have hrest : slots[place]? = some before := by simpa using hbefore
      simp only [List.set_cons_succ, List.map_cons, List.sum_cons, ih hrest, add_assoc]

/-- What is written to different places that had nothing is all there. -/
theorem sum_writeAll (hdistinct : (writes.map Prod.fst).Nodup)
    (hfree : ∀ write ∈ writes, ∃ before, slots[write.1]? = some before ∧ weight before = 0) :
    ((writeAll slots writes).map weight).sum =
      (slots.map weight).sum + (writes.map fun write ↦ weight write.2).sum := by
  induction writes generalizing slots with
  | nil => simp [writeAll]
  | cons write writes ih =>
    obtain ⟨hnew, hrest⟩ := List.nodup_cons.mp hdistinct
    obtain ⟨before, hbefore, hweightless⟩ := hfree write List.mem_cons_self
    rw [writeAll_cons, ih hrest, sum_set_of_weightless hbefore hweightless, List.map_cons, List.sum_cons,
      add_assoc]
    intro later hlater
    obtain ⟨free, hget, hzero⟩ := hfree later (List.mem_cons_of_mem _ hlater)
    have hother : write.1 ≠ later.1 := fun hsame ↦ hnew (hsame ▸ List.mem_map_of_mem hlater)
    exact ⟨free, by rw [List.getElem?_set_ne hother, hget], hzero⟩

end Weight

/-! ## Pairs side by side -/

/-- The two halves of every pair, one after the other. -/
def flat (pairs : List (α × α)) : List α := pairs.flatMap fun pair ↦ [pair.1, pair.2]

@[simp]
theorem flat_cons (pair : α × α) (pairs : List (α × α)) : flat (pair :: pairs) = pair.1 :: pair.2 :: flat pairs :=
  rfl

/-- A pair is written half by half. -/
theorem flat_set (pairs : List (α × α)) (place : ℕ) (pair : α × α) :
    flat (pairs.set place pair) = ((flat pairs).set (place * 2) pair.1).set (place * 2 + 1) pair.2 := by
  induction pairs generalizing place with
  | nil => rfl
  | cons first pairs ih =>
    cases place with
    | zero => rfl
    | succ place =>
      rw [List.set_cons_succ, flat_cons, ih, flat_cons, Nat.succ_mul]
      rfl

end OsrsMap.Writes
