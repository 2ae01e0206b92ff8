import Mathlib.Data.Finset.Card
import Mathlib.Logic.Function.Basic

/-!
# Reference-counted locks, shared by key

A table gives out one lock for each key. Who asks takes a handle of the lock of its key, waits for
the lock, works under it, takes the handle out of the table when nobody else has one, and releases
the lock. Locks are numbered in the order they are made.

At most one of those who work has the lock of a key. A handle that is in the table is with somebody
who is still to take it out, as long as nobody releases a lock without taking the handle out.
-/

namespace OsrsMap.SharedLock

variable {κ ι : Type*}

inductive Stage where
  | waiting
  | working
  /-- The lock is held, and the handle is taken out or left to others. -/
  | leaving
deriving DecidableEq, Repr

structure Holder (κ : Type*) where
  key : κ
  lock : ℕ
  stage : Stage

structure Table (κ ι : Type*) where
  handle : κ → Option ℕ
  holder : ι → Option (Holder κ)
  count : ℕ → ℕ
  guarded : ℕ → Bool
  next : ℕ

namespace Table

section Steps

variable [DecidableEq κ] [DecidableEq ι]

def take (table : Table κ ι) (id : ι) (key : κ) : Table κ ι :=
  match table.handle key with
  | some lock =>
    { table with
      holder := Function.update table.holder id (some { key, lock, stage := .waiting })
      count := Function.update table.count lock (table.count lock + 1) }
  | none =>
    { table with
      handle := Function.update table.handle key (some table.next)
      holder := Function.update table.holder id (some { key, lock := table.next, stage := .waiting })
      count := Function.update table.count table.next 2
      next := table.next + 1 }

def acquire (table : Table κ ι) (id : ι) (holder : Holder κ) : Table κ ι :=
  { table with
    holder := Function.update table.holder id (some { holder with stage := .working })
    guarded := Function.update table.guarded holder.lock true }

/-- Who has the last handle but the table's takes that one out. -/
def leave (table : Table κ ι) (id : ι) (holder : Holder κ) : Table κ ι :=
  let left := { table with
    holder := Function.update table.holder id (some { holder with stage := .leaving }) }
  if table.count holder.lock ≤ 2 then
    match table.handle holder.key with
    | some removed =>
      { left with
        handle := Function.update table.handle holder.key none
        count := Function.update table.count removed (table.count removed - 1) }
    | none => left
  else left

def release (table : Table κ ι) (id : ι) (holder : Holder κ) : Table κ ι :=
  { table with
    holder := Function.update table.holder id none
    count := Function.update table.count holder.lock (table.count holder.lock - 1)
    guarded := Function.update table.guarded holder.lock false }

end Steps

def Holds (table : Table κ ι) (lock : ℕ) (id : ι) : Prop :=
  ∃ holder, table.holder id = some holder ∧ holder.lock = lock

/-- The count is that of the holders, and one for the table. -/
def Counted (table : Table κ ι) (lock : ℕ) : Prop :=
  ∃ holders : Finset ι, (∀ id, id ∈ holders ↔ table.Holds lock id) ∧
    table.count lock = holders.card + 1

/-- A lock is of one key, whoever works has its guard alone, and as long as it is in the table it is
counted. -/
structure Sound (table : Table κ ι) : Prop where
  fresh : ∀ key lock, table.handle key = some lock → lock < table.next
  known : ∀ id holder, table.holder id = some holder → holder.lock < table.next
  owned : ∀ key key' lock, table.handle key = some lock → table.handle key' = some lock → key = key'
  owner : ∀ id holder key, table.holder id = some holder → table.handle key = some holder.lock →
    holder.key = key
  mapped : ∀ id holder, table.holder id = some holder → holder.stage ≠ .leaving →
    table.handle holder.key = some holder.lock
  guarded : ∀ id holder, table.holder id = some holder → holder.stage ≠ .waiting →
    table.guarded holder.lock = true
  alone : ∀ id id' holder holder', table.holder id = some holder → table.holder id' = some holder' →
    holder.stage ≠ .waiting → holder'.stage ≠ .waiting → holder.lock = holder'.lock → id = id'
  counted : ∀ key lock, table.handle key = some lock → table.Counted lock

/-- Every handle in the table is with somebody who is still to take it out. -/
def Kept (table : Table κ ι) : Prop :=
  ∀ key lock, table.handle key = some lock →
    ∃ id holder, table.holder id = some holder ∧ holder.lock = lock ∧ holder.stage ≠ .leaving

/-! ## Counting -/

variable {table after : Table κ ι} {id : ι} {holder : Holder κ} {key : κ} {lock : ℕ}

theorem Counted.congr (h : Counted table lock) (hholds : ∀ id, after.Holds lock id ↔ table.Holds lock id)
    (hcount : after.count lock = table.count lock) : Counted after lock := by
  obtain ⟨holders, hmem, hcard⟩ := h
  exact ⟨holders, fun id ↦ (hmem id).trans (hholds id).symm, hcount.trans hcard⟩

theorem Counted.insert [DecidableEq ι] (h : Counted table lock) (hnew : ¬ table.Holds lock id)
    (hholds : ∀ id', after.Holds lock id' ↔ id' = id ∨ table.Holds lock id')
    (hcount : after.count lock = table.count lock + 1) : Counted after lock := by
  obtain ⟨holders, hmem, hcard⟩ := h
  refine ⟨Insert.insert id holders, fun id' ↦ ?_, ?_⟩
  · rw [Finset.mem_insert, hmem, hholds]
  · rw [Finset.card_insert_of_notMem (mt (hmem id).mp hnew), hcount, hcard]

theorem Counted.erase [DecidableEq ι] (h : Counted table lock) (hold : table.Holds lock id)
    (hholds : ∀ id', after.Holds lock id' ↔ id' ≠ id ∧ table.Holds lock id')
    (hcount : after.count lock = table.count lock - 1) : Counted after lock := by
  obtain ⟨holders, hmem, hcard⟩ := h
  have hid : id ∈ holders := (hmem id).mpr hold
  refine ⟨holders.erase id, fun id' ↦ ?_, ?_⟩
  · rw [Finset.mem_erase, hmem, hholds]
  · have hpos : 0 < holders.card := Finset.card_pos.mpr ⟨id, hid⟩
    rw [Finset.card_erase_of_mem hid, hcount, hcard]
    omega

/-- A count of two is the table's and one holder's. -/
theorem Counted.only (h : Counted table lock) (hle : table.count lock ≤ 2) (hid : table.Holds lock id)
    {id' : ι} (hid' : table.Holds lock id') : id' = id := by
  obtain ⟨holders, hmem, hcard⟩ := h
  have hone : holders.card ≤ 1 := by omega
  exact Finset.card_le_one.mp hone id' ((hmem id').mpr hid') id ((hmem id).mpr hid)

theorem Counted.exists_other (h : Counted table lock) (hlt : 2 < table.count lock) (id : ι) :
    ∃ other ≠ id, table.Holds lock other := by
  obtain ⟨holders, hmem, hcard⟩ := h
  have htwo : 1 < holders.card := by omega
  obtain ⟨other, hother, hne⟩ := Finset.exists_mem_ne htwo id
  exact ⟨other, hne, (hmem other).mp hother⟩

/-- What one of those who ask may do; when it releases the lock it works under, `short` holds. -/
inductive Step [DecidableEq κ] [DecidableEq ι] (short : Prop) (table : Table κ ι) (id : ι) :
    Table κ ι → Prop
  | same : Step short table id table
  | take (key : κ) (hid : table.holder id = none) : Step short table id (table.take id key)
  | acquire (holder : Holder κ) (hid : table.holder id = some holder)
    (hwaiting : holder.stage = .waiting) (hfree : table.guarded holder.lock = false) :
    Step short table id (table.acquire id holder)
  | leave (holder : Holder κ) (hid : table.holder id = some holder)
    (hworking : holder.stage = .working) : Step short table id (table.leave id holder)
  | release (holder : Holder κ) (hid : table.holder id = some holder)
    (hheld : holder.stage ≠ .waiting) (hshort : holder.stage = .working → short) :
    Step short table id (table.release id holder)

/-- At most one works for a key. -/
theorem Sound.one (h : Sound table) {id' : ι} {holder' : Holder κ} (hid : table.holder id = some holder)
    (hid' : table.holder id' = some holder') (hworking : holder.stage = .working)
    (hworking' : holder'.stage = .working) (hkey : holder.key = holder'.key) : id = id' := by
  have hlock := h.mapped id holder hid (by simp [hworking])
  have hlock' := h.mapped id' holder' hid' (by simp [hworking'])
  apply h.alone id id' holder holder' hid hid' (by simp [hworking]) (by simp [hworking'])
  exact Option.some.inj (hlock.symm.trans ((congrArg table.handle hkey).trans hlock'))

/-- Whoever else has a handle of a lock that is held waits for it. -/
theorem Sound.other_waits (h : Sound table) {other : ι} (hid : table.holder id = some holder)
    (hheld : holder.stage ≠ .waiting) (hne : other ≠ id) (hother : table.Holds holder.lock other) :
    ∃ waiting, table.holder other = some waiting ∧ waiting.lock = holder.lock ∧
      waiting.stage = .waiting := by
  obtain ⟨waiting, hholder, hlock⟩ := hother
  refine ⟨waiting, hholder, hlock, by_contra fun hstage ↦ hne ?_⟩
  exact h.alone other id waiting holder hholder hid hstage hheld hlock

/-! ## What each step keeps -/

variable [DecidableEq ι]

theorem Sound.take [DecidableEq κ] (h : Sound table) (hid : table.holder id = none) : Sound (table.take id key) := by
  unfold Table.take
  cases hkey : table.handle key with
  | some lock =>
    constructor
    case counted =>
      intro key' lock' hkey'
      have hcounted := h.counted key' lock' hkey'
      by_cases hlock : lock' = lock
      · apply @Counted.insert _ _ table _ id _ _ hcounted <;> grind [Holds]
      · refine hcounted.congr ?_ ?_ <;> grind [Holds]
    all_goals grind [Function.update_apply, Sound]
  | none =>
    constructor
    case counted =>
      intro key' lock' hkey'
      by_cases hlock : lock' = table.next
      · refine ⟨{id}, ?_, ?_⟩ <;> grind [Holds, Sound]
      · refine (h.counted key' lock' ?_).congr ?_ ?_ <;> grind [Holds, Sound]
    all_goals grind [Function.update_apply, Sound]

theorem Sound.acquire (h : Sound table) (hid : table.holder id = some holder)
    (hwaiting : holder.stage = .waiting) (hfree : table.guarded holder.lock = false) :
    Sound (table.acquire id holder) := by
  unfold Table.acquire
  constructor
  case counted =>
    intro key' lock' hkey'
    refine (h.counted key' lock' hkey').congr ?_ rfl
    grind [Holds]
  all_goals grind [Function.update_apply, Sound]

theorem Sound.leave [DecidableEq κ] (h : Sound table) (hid : table.holder id = some holder)
    (hworking : holder.stage = .working) : Sound (table.leave id holder) := by
  unfold Table.leave
  have hkey : table.handle holder.key = some holder.lock := h.mapped id holder hid (by simp [hworking])
  have hcounted := h.counted _ _ hkey
  split
  · next hlast =>
    have honly (id' : ι) := @Counted.only _ _ table id _ hcounted hlast ⟨holder, hid, rfl⟩ id'
    simp only [hkey]
    constructor
    case counted =>
      intro key' lock' hkey'
      refine (h.counted key' lock' ?_).congr ?_ ?_ <;> grind [Holds, Sound]
    case mapped =>
      intro id' holder' hid' hstage'
      have hne : id' ≠ id := by
        rintro rfl
        dsimp only at hid'
        rw [Function.update_self] at hid'
        exact hstage' (Option.some.inj hid' ▸ rfl)
      have hbefore : table.holder id' = some holder' := (Function.update_of_ne hne _ _).symm.trans hid'
      have hmapped := h.mapped id' holder' hbefore hstage'
      have hkeys : holder'.key ≠ holder.key := by
        intro hsame
        rw [hsame, hkey] at hmapped
        exact hne (honly id' ⟨holder', hbefore, (Option.some.inj hmapped).symm⟩)
      exact (Function.update_of_ne hkeys _ _).trans hmapped
    all_goals grind [Function.update_apply, Sound, Holds]
  · constructor
    case counted =>
      intro key' lock' hkey'
      refine (h.counted key' lock' hkey').congr ?_ rfl
      grind [Holds]
    all_goals grind [Function.update_apply, Sound]

theorem Sound.release (h : Sound table) (hid : table.holder id = some holder)
    (hheld : holder.stage ≠ .waiting) : Sound (table.release id holder) := by
  unfold Table.release
  constructor
  case counted =>
    intro key' lock' hkey'
    have hcounted := h.counted key' lock' hkey'
    by_cases hlock : lock' = holder.lock
    · apply @Counted.erase _ _ table _ id _ _ hcounted <;> grind [Holds]
    · refine hcounted.congr ?_ ?_ <;> grind [Holds]
  all_goals grind [Function.update_apply, Sound]

theorem Sound.step [DecidableEq κ] (h : Sound table) {short : Prop}
    (hstep : Step short table id after) : Sound after := by
  cases hstep with
  | same => exact h
  | take key hid => exact h.take hid
  | acquire holder hid hwaiting hfree => exact h.acquire hid hwaiting hfree
  | leave holder hid hworking => exact h.leave hid hworking
  | release holder hid hheld hshort => exact h.release hid hheld

/-! ## Handles that are kept -/

theorem Kept.take [DecidableEq κ] (h : Kept table) (hid : table.holder id = none) : Kept (table.take id key) := by
  unfold Table.take
  cases hkey : table.handle key with
  | some lock =>
    intro key' lock' hkey'
    obtain ⟨id', holder', hid', hlock'⟩ := h key' lock' hkey'
    exact ⟨id', holder', by grind [Function.update_apply], hlock'⟩
  | none =>
    intro key' lock' hkey'
    dsimp only at hkey'
    by_cases hsame : key' = key
    · refine ⟨id, _, Function.update_self .., ?_, by simp⟩
      exact Option.some.inj (by rwa [hsame, Function.update_self] at hkey')
    · rw [Function.update_of_ne hsame] at hkey'
      obtain ⟨id', holder', hid', hlock'⟩ := h key' lock' hkey'
      exact ⟨id', holder', by grind [Function.update_apply], hlock'⟩

theorem Kept.acquire (h : Kept table) (hid : table.holder id = some holder) :
    Kept (table.acquire id holder) := by
  intro key' lock' hkey'
  obtain ⟨id', holder', hid', hlock', hstage'⟩ := h key' lock' hkey'
  by_cases hsame : id' = id
  · obtain rfl := Option.some.inj (hid.symm.trans (hsame ▸ hid'))
    exact ⟨id, _, Function.update_self .., hlock', by simp⟩
  · exact ⟨id', holder', (Function.update_of_ne hsame _ _).trans hid', hlock', hstage'⟩

/-- The handle of one who waits stays with it, whatever becomes of another. -/
theorem Kept.of_waits (h : Kept table) (hid : table.holder id = some holder)
    {other : ι} {waiting : Holder κ} (hne : other ≠ id) (hother : table.holder other = some waiting)
    (hlock : waiting.lock = holder.lock) (hstage : waiting.stage = .waiting)
    (hhandle : ∀ key lock, after.handle key = some lock → table.handle key = some lock)
    (hholder : ∀ id' ≠ id, after.holder id' = table.holder id') : Kept after := by
  intro key' lock' hkey'
  obtain ⟨id', holder', hid', hlock', hstage'⟩ := h key' lock' (hhandle key' lock' hkey')
  by_cases hsame : id' = id
  · obtain rfl := Option.some.inj (hid.symm.trans (hsame ▸ hid'))
    exact ⟨other, waiting, (hholder other hne).trans hother, hlock.trans hlock', by simp [hstage]⟩
  · exact ⟨id', holder', (hholder id' hsame).trans hid', hlock', hstage'⟩

theorem Kept.leave [DecidableEq κ] (h : Kept table) (hsound : Sound table) (hid : table.holder id = some holder)
    (hworking : holder.stage = .working) : Kept (table.leave id holder) := by
  have hkey : table.handle holder.key = some holder.lock :=
    hsound.mapped id holder hid (by simp [hworking])
  unfold Table.leave
  split
  · simp only [hkey]
    intro key' lock' hkey'
    dsimp only at hkey'
    by_cases hsame : key' = holder.key
    · rw [hsame, Function.update_self] at hkey'
      exact absurd hkey' (by simp)
    · rw [Function.update_of_ne hsame] at hkey'
      obtain ⟨id', holder', hid', hlock', hstage'⟩ := h key' lock' hkey'
      have hne : id' ≠ id := by
        rintro rfl
        obtain rfl := Option.some.inj (hid.symm.trans hid')
        exact hsame (hsound.owned key' holder.key _ (hlock' ▸ hkey') hkey)
      exact ⟨id', holder', (Function.update_of_ne hne _ _).trans hid', hlock', hstage'⟩
  · next hmore =>
    obtain ⟨other, hne, hother⟩ := (hsound.counted _ _ hkey).exists_other (not_le.mp hmore) id
    obtain ⟨waiting, hwaiting, hlock, hstage⟩ :=
      hsound.other_waits hid (by simp [hworking]) hne hother
    apply h.of_waits hid hne hwaiting hlock hstage
    · exact fun _ _ hkey' ↦ hkey'
    · exact fun id' hid' ↦ Function.update_of_ne hid' _ _

/-- A lock is released by one who is leaving, or while others have a handle of it. -/
theorem Kept.release (h : Kept table) (hsound : Sound table) (hid : table.holder id = some holder)
    (hheld : holder.stage ≠ .waiting) (hmore : holder.stage = .working → 2 < table.count holder.lock) :
    Kept (table.release id holder) := by
  cases hstage : holder.stage with
  | waiting => exact absurd hstage hheld
  | working =>
    have hkey := hsound.mapped id holder hid (by simp [hstage])
    obtain ⟨other, hne, hother⟩ := (hsound.counted _ _ hkey).exists_other (hmore hstage) id
    obtain ⟨waiting, hwaiting, hlock, hwaits⟩ := hsound.other_waits hid hheld hne hother
    apply h.of_waits hid hne hwaiting hlock hwaits
    · exact fun _ _ hkey' ↦ hkey'
    · exact fun id' hid' ↦ Function.update_of_ne hid' _ _
  | leaving =>
    intro key' lock' hkey'
    obtain ⟨id', holder', hid', hlock', hstage'⟩ := h key' lock' hkey'
    have hne : id' ≠ id := by
      rintro rfl
      obtain rfl := Option.some.inj (hid.symm.trans hid')
      exact hstage' hstage
    exact ⟨id', holder', (Function.update_of_ne hne _ _).trans hid', hlock', hstage'⟩

theorem Kept.step [DecidableEq κ] (h : Kept table) (hsound : Sound table) {short : Prop}
    (hmore : short → ∀ holder, table.holder id = some holder → 2 < table.count holder.lock)
    (hstep : Step short table id after) : Kept after := by
  cases hstep with
  | same => exact h
  | take key hid => exact h.take hid
  | acquire holder hid hwaiting hfree => exact h.acquire hid
  | leave holder hid hworking => exact h.leave hsound hid hworking
  | release holder hid hheld hshort =>
    exact h.release hsound hid hheld fun hworking ↦ hmore (hshort hworking) holder hid

end Table

end OsrsMap.SharedLock
