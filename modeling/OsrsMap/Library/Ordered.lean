import Mathlib.Data.List.Nodup

/-!
# Maps in the order of insertion

A map that keeps its entries in the order in which their keys were first set: setting a key that is there
changes its value in place, a new key goes to the end. Reading such a map does not depend on the order;
its first key does.
-/

namespace OsrsMap

/-- A map whose keys are in the order in which they were set first. -/
structure OrderedMap (κ α : Type*) where
  entries : List (κ × α)
  nodup : (entries.map Prod.fst).Nodup

namespace OrderedMap

variable {κ α : Type*} {map : OrderedMap κ α} {key other : κ} {value : α}

/-- The keys, in their order. -/
def keys (map : OrderedMap κ α) : List κ := map.entries.map Prod.fst

def empty : OrderedMap κ α where
  entries := []
  nodup := .nil

/-- Removes the keys that the predicate does not keep. -/
def retain (map : OrderedMap κ α) (keep : κ → Bool) : OrderedMap κ α where
  entries := map.entries.filter fun entry ↦ keep entry.1
  nodup := (List.filter_sublist.map Prod.fst).nodup map.nodup

@[simp]
theorem keys_retain (keep : κ → Bool) : (map.retain keep).keys = map.keys.filter keep := by
  rw [keys, keys, List.filter_map]
  rfl

variable [DecidableEq κ]

/-- The value of a key. -/
def get (map : OrderedMap κ α) (key : κ) : Option α :=
  (map.entries.find? fun entry ↦ entry.1 = key).map Prod.snd

/-- Removes a key. -/
def delete (map : OrderedMap κ α) (key : κ) : OrderedMap κ α := map.retain (· ≠ key)

theorem map_fst_replace (entries : List (κ × α)) :
    (entries.map fun entry ↦ if entry.1 = key then (key, value) else entry).map Prod.fst =
      entries.map Prod.fst := by
  rw [List.map_map]
  apply List.map_congr_left
  intro entry _
  dsimp only [Function.comp_apply]
  split_ifs with h
  · exact h.symm
  · rfl

/-- Sets a key: in place when it is there, at the end otherwise. -/
def set (map : OrderedMap κ α) (key : κ) (value : α) : OrderedMap κ α :=
  if h : key ∈ map.keys then
    { entries := map.entries.map fun entry ↦ if entry.1 = key then (key, value) else entry
      nodup := by
        rw [map_fst_replace]
        exact map.nodup }
  else
    { entries := map.entries ++ [(key, value)]
      nodup := by
        rw [List.map_append, List.map_singleton, ← List.concat_eq_append]
        exact map.nodup.concat h }

@[simp]
theorem get_empty : (empty : OrderedMap κ α).get key = none := rfl

theorem get_eq_none : map.get key = none ↔ key ∉ map.keys := by
  rw [get, Option.map_eq_none_iff, List.find?_eq_none, keys, List.mem_map]
  constructor
  · rintro h ⟨entry, hentry, rfl⟩
    simpa using h entry hentry
  · intro h entry hentry hkey
    exact h ⟨entry, hentry, by simpa using hkey⟩

theorem mem_keys : key ∈ map.keys ↔ ∃ value, map.get key = some value := by
  rw [← not_iff_not, ← get_eq_none, not_exists, Option.eq_none_iff_forall_ne_some]

theorem mem_keys_of_get (h : map.get key = some value) : key ∈ map.keys := mem_keys.mpr ⟨value, h⟩

theorem get_retain (keep : κ → Bool) :
    (map.retain keep).get key = if keep key then map.get key else none := by
  unfold get retain
  dsimp only
  rw [List.find?_filter]
  split_ifs with h
  · congr 2
    funext entry
    by_cases hentry : entry.1 = key
    · simp [hentry, h]
    · simp [hentry]
  · rw [Option.map_eq_none_iff, List.find?_eq_none]
    intro entry _
    by_cases hentry : entry.1 = key
    · simp [hentry, h]
    · simp [hentry]

theorem get_delete : (map.delete key).get other = if other = key then none else map.get other := by
  rw [delete, get_retain]
  by_cases h : other = key <;> simp [h]

theorem get_set : (map.set key value).get other = if other = key then some value else map.get other := by
  unfold set
  split_ifs with hmem hother hother
  · obtain rfl := hother
    obtain ⟨old, hold⟩ := mem_keys.mp hmem
    unfold get at hold ⊢
    obtain ⟨entry, hentry, -⟩ := Option.map_eq_some_iff.mp hold
    have hkey : entry.1 = other := by simpa using List.find?_some hentry
    rw [List.find?_map]
    have hsame : ((fun entry : κ × α ↦ decide (entry.1 = other)) ∘
        fun entry ↦ if entry.1 = other then (other, value) else entry) = fun entry ↦ decide (entry.1 = other) := by
      funext entry
      by_cases h : entry.1 = other <;> simp [h]
    rw [hsame, hentry]
    simp [hkey]
  · unfold get
    rw [List.find?_map]
    have hsame : ((fun entry : κ × α ↦ decide (entry.1 = other)) ∘
        fun entry ↦ if entry.1 = key then (key, value) else entry) = fun entry ↦ decide (entry.1 = other) := by
      funext entry
      by_cases h : entry.1 = key
      · simp [h, Ne.symm hother]
      · simp [h]
    rw [hsame, Option.map_map]
    apply Option.map_congr
    intro entry hentry
    have hkey : entry.1 = other := by simpa using List.find?_some hentry
    simp [hkey, hother]
  · obtain rfl := hother
    have hnone : map.entries.find? (fun entry ↦ decide (entry.1 = other)) = none := by
      simpa [get] using get_eq_none.mpr hmem
    simp [get, hnone]
  · have hlast : ¬ key = other := fun h ↦ hother h.symm
    simp [get, hlast]

end OrderedMap

end OsrsMap
