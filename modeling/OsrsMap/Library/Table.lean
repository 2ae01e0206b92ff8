import Mathlib.Data.List.Pairwise
import Mathlib.Tactic.TypeStar

/-!
# Tables with unique keys

A table is a list of rows, each with the values of its unique columns (a column that is NULL gives
none). No two rows share one: a statement that would make two rows share one is refused.
-/

namespace OsrsMap

/-- Rows of which no two share a key. -/
structure Table (ρ κ : Type*) (keys : ρ → List κ) where
  rows : List ρ
  unique : rows.Pairwise fun a b ↦ ∀ k ∈ keys a, k ∉ keys b

namespace Table

variable {ρ κ : Type*} {keys : ρ → List κ}

def empty : Table ρ κ keys := ⟨[], .nil⟩

instance : Membership ρ (Table ρ κ keys) := ⟨fun table row ↦ row ∈ table.rows⟩

theorem mem_def {row : ρ} {table : Table ρ κ keys} : row ∈ table ↔ row ∈ table.rows := Iff.rfl

/-- `SELECT ... LIMIT 1`, in the order of the rows. -/
def find (table : Table ρ κ keys) (p : ρ → Bool) : Option ρ := table.rows.find? p

/-- `DELETE ... WHERE`. -/
def delete (table : Table ρ κ keys) (p : ρ → Bool) : Table ρ κ keys where
  rows := table.rows.filter fun row ↦ !p row
  unique := table.unique.filter _

section Statements

variable [DecidableEq κ]

/-- The rows as a table, unless two share a key. -/
def ofRows (rows : List ρ) : Option (Table ρ κ keys) :=
  if unique : rows.Pairwise fun a b ↦ ∀ k ∈ keys a, k ∉ keys b then some ⟨rows, unique⟩ else none

/-- `UPDATE ... SET ... WHERE`. -/
def update (table : Table ρ κ keys) (p : ρ → Bool) (f : ρ → ρ) : Option (Table ρ κ keys) :=
  ofRows (table.rows.map fun row ↦ if p row then f row else row)

/-- `INSERT INTO`. -/
def insert (table : Table ρ κ keys) (row : ρ) : Option (Table ρ κ keys) :=
  ofRows (table.rows ++ [row])

variable {table table' : Table ρ κ keys} {p : ρ → Bool} {f : ρ → ρ} {row : ρ}

theorem rows_of_ofRows {rows : List ρ} (h : ofRows rows = some table) : table.rows = rows := by
  unfold ofRows at h
  split at h
  · exact (Option.some.inj h) ▸ rfl
  · exact absurd h (by simp)

theorem mem_update (h : table.update p f = some table') :
    row ∈ table' ↔ ∃ before ∈ table, (if p before then f before else before) = row := by
  rw [mem_def, rows_of_ofRows h, List.mem_map]
  rfl

theorem mem_insert {new : ρ} (h : table.insert new = some table') :
    row ∈ table' ↔ row ∈ table ∨ row = new := by
  rw [mem_def, rows_of_ofRows h, List.mem_append, List.mem_singleton]
  rfl

end Statements

@[simp]
theorem not_mem_empty {row : ρ} : row ∉ (empty : Table ρ κ keys) := List.not_mem_nil

variable {table : Table ρ κ keys} {p : ρ → Bool} {f : ρ → ρ} {row : ρ}

@[simp]
theorem mem_delete : row ∈ table.delete p ↔ row ∈ table ∧ p row = false := by
  simp [mem_def, delete]

/-- A key is of one row. -/
theorem eq_of_key {a b : ρ} {k : κ} (ha : a ∈ table) (hb : b ∈ table) (hka : k ∈ keys a)
    (hkb : k ∈ keys b) : a = b := by
  obtain ⟨i, hi, rfl⟩ := List.getElem_of_mem ha
  obtain ⟨j, hj, rfl⟩ := List.getElem_of_mem hb
  have hunique := List.pairwise_iff_getElem.mp table.unique
  obtain hlt | rfl | hgt := Nat.lt_trichotomy i j
  · exact absurd hkb (hunique i j hi hj hlt k hka)
  · rfl
  · exact absurd hka (hunique j i hj hi hgt k hkb)

theorem mem_of_find {p : ρ → Bool} (h : table.find p = some row) : row ∈ table ∧ p row = true :=
  ⟨List.mem_of_find?_eq_some h, List.find?_some h⟩

theorem not_of_find_none {p : ρ → Bool} (h : table.find p = none) (hrow : row ∈ table) :
    p row = false := by
  simpa using List.find?_eq_none.mp h row hrow

/-- Rows that are looked for by a key are found. -/
theorem find_of_key {p : ρ → Bool} {k : κ} (hp : ∀ other, p other = true ↔ k ∈ keys other)
    (hrow : row ∈ table) (hk : k ∈ keys row) : table.find p = some row := by
  cases hfind : table.find p with
  | none => exact absurd ((hp row).mpr hk) (by simp [not_of_find_none hfind hrow])
  | some other =>
    obtain ⟨hother, hpOther⟩ := mem_of_find hfind
    rw [eq_of_key hother hrow ((hp other).mp hpOther) hk]

/-! ## Statements that are not refused -/

variable [DecidableEq κ]

/-- An update that adds no key. -/
theorem exists_update_of_subset (h : ∀ row, p row = true → ∀ k ∈ keys (f row), k ∈ keys row) :
    ∃ table', table.update p f = some table' := by
  have hsubset (row : ρ) : ∀ k ∈ keys (if p row then f row else row), k ∈ keys row := by
    cases hp : p row with
    | true => simpa [hp] using h row hp
    | false => simp
  have hunique : (table.rows.map fun row ↦ if p row then f row else row).Pairwise
      fun a b ↦ ∀ k ∈ keys a, k ∉ keys b := by
    refine List.pairwise_map.mpr (table.unique.imp fun {a b} hab k hka hkb ↦ ?_)
    exact hab k (hsubset a k hka) (hsubset b k hkb)
  exact ⟨⟨_, hunique⟩, dif_pos hunique⟩

/-- An update of the row with a key, when no other row has the keys it gets. -/
theorem exists_update_of_key {k : κ} (hp : ∀ row, p row = true → k ∈ keys row)
    (h : ∀ row ∈ table, p row = true → ∀ j ∈ keys (f row),
      ∀ other ∈ table, p other = false → j ∉ keys other) :
    ∃ table', table.update p f = some table' := by
  have hunique : (table.rows.map fun row ↦ if p row then f row else row).Pairwise
      fun a b ↦ ∀ k ∈ keys a, k ∉ keys b := by
    refine List.pairwise_map.mpr (table.unique.imp_of_mem fun {a b} ha hb hab j hja hjb ↦ ?_)
    cases hpa : p a <;> cases hpb : p b <;> simp only [hpa, hpb, if_true] at hja hjb
    · exact hab j hja hjb
    · exact h b hb hpb j hjb a ha hpa hja
    · exact h a ha hpa j hja b hb hpb hjb
    · exact hab k (hp a hpa) (hp b hpb)
  exact ⟨⟨_, hunique⟩, dif_pos hunique⟩

theorem exists_insert {new : ρ} (h : ∀ k ∈ keys new, ∀ row ∈ table, k ∉ keys row) :
    ∃ table', table.insert new = some table' := by
  have hunique : (table.rows ++ [new]).Pairwise fun a b ↦ ∀ k ∈ keys a, k ∉ keys b := by
    refine List.pairwise_append.mpr ⟨table.unique, List.pairwise_singleton _ _, ?_⟩
    intro row hrow other hother k hk hk'
    rw [List.mem_singleton.mp hother] at hk'
    exact h k hk' row hrow hk
  exact ⟨⟨_, hunique⟩, dif_pos hunique⟩

/-! ## Changing rows without their keys -/

section Map

variable {g : ρ → ρ} (hg : ∀ row, keys (g row) = keys row)
include hg

omit [DecidableEq κ] in
theorem pairwise_map {rows : List ρ} :
    ((rows.map g).Pairwise fun a b ↦ ∀ k ∈ keys a, k ∉ keys b) ↔
      rows.Pairwise fun a b ↦ ∀ k ∈ keys a, k ∉ keys b := by
  rw [List.pairwise_map]
  simp only [hg]

variable (table) in
/-- The table with each row replaced by one of its keys. -/
def map : Table ρ κ keys where
  rows := table.rows.map g
  unique := (pairwise_map hg).mpr table.unique

omit [DecidableEq κ] in
theorem find_map (hp : ∀ row, p (g row) = p row) : (table.map hg).find p = (table.find p).map g := by
  unfold find map
  rw [List.find?_map]
  simp only [Function.comp_def, hp]

theorem ofRows_map (rows : List ρ) :
    (ofRows (rows.map g) : Option (Table ρ κ keys)) = (ofRows rows).map fun table ↦ table.map hg := by
  unfold ofRows
  by_cases h : rows.Pairwise fun a b ↦ ∀ k ∈ keys a, k ∉ keys b
  · rw [dif_pos h, dif_pos ((pairwise_map hg).mpr h)]
    rfl
  · rw [dif_neg h, dif_neg (mt (pairwise_map hg).mp h)]
    rfl

theorem update_map (hp : ∀ row, p (g row) = p row) (hf : ∀ row, f (g row) = g (f row)) :
    (table.map hg).update p f = (table.update p f).map fun table ↦ table.map hg := by
  unfold update
  rw [← ofRows_map hg, map, List.map_map, List.map_map]
  congr 2
  funext row
  simp only [Function.comp_apply, hp, hf]
  exact (apply_ite g _ _ _).symm

/-- An update that only changes what the replacement drops. -/
theorem map_of_update {table' : Table ρ κ keys} (h : table.update p f = some table')
    (hf : ∀ row, g (f row) = g row) : table'.map hg = table.map hg := by
  have hrows : table'.rows.map g = table.rows.map g := by
    rw [rows_of_ofRows h, List.map_map]
    apply List.map_congr_left
    intro row _
    rw [Function.comp_apply, apply_ite g, hf, ite_self]
  unfold map
  congr 1

theorem insert_map {new : ρ} (hnew : g new = new) :
    (table.map hg).insert new = (table.insert new).map fun table ↦ table.map hg := by
  unfold insert
  rw [← ofRows_map hg, List.map_append, List.map_singleton, hnew]
  rfl

end Map

end Table

end OsrsMap
