import Mathlib.Data.List.AList

/-!
# Loops over the entries of a map

`AList.alter` gives one key what a function makes of its entry. A loop that alters the key of each
of its items does to every key what the items with this key do, one after the other, and nothing
else: the rules below read such loops key by key.
-/

namespace OsrsMap.Keyed

variable {κ α ε : Type*} [DecidableEq κ]

/-- A map from keys to entries. -/
abbrev Map (κ α : Type*) := AList fun _ : κ ↦ α

/-- Sets the entry of a key to what the function makes of it, or removes the key. -/
def alter (map : Map κ α) (key : κ) (f : Option α → Option α) : Map κ α :=
  match f (map.lookup key) with
  | none => map.erase key
  | some entry => map.insert key entry

/-- Alters the key of every item, in their order. -/
def alterEach (key : ε → κ) (f : ε → Option α → Option α) (items : List ε) (map : Map κ α) :
    Map κ α :=
  items.foldl (fun map item ↦ alter map (key item) (f item)) map

/-- Alters every entry. -/
def alterAll (f : κ → α → Option α) (map : Map κ α) : Map κ α :=
  alterEach id (fun name entry ↦ entry.bind (f name)) map.keys map

variable {map : Map κ α} {k key : κ} {f : ε → Option α → Option α} {items : List ε}

theorem lookup_alter (f : Option α → Option α) :
    (alter map key f).lookup k = if k = key then f (map.lookup k) else map.lookup k := by
  unfold alter
  split
  · next hnone =>
    by_cases hk : k = key
    · rw [if_pos hk, hk, AList.lookup_erase, hnone]
    · rw [if_neg hk, AList.lookup_erase_ne hk]
  · next entry hsome =>
    by_cases hk : k = key
    · rw [if_pos hk, hk, AList.lookup_insert, hsome]
    · rw [if_neg hk, AList.lookup_insert_ne hk]

/-- What a loop does to one key. -/
theorem lookup_alterEach (keyOf : ε → κ) : (alterEach keyOf f items map).lookup k =
    (items.filter fun item ↦ keyOf item = k).foldl (fun entry item ↦ f item entry)
      (map.lookup k) := by
  induction items generalizing map with
  | nil => rfl
  | cons item items ih =>
    rw [alterEach, List.foldl_cons]
    refine ih.trans ?_
    rw [lookup_alter]
    by_cases hk : keyOf item = k
    · rw [if_pos hk.symm, List.filter_cons_of_pos (by simpa using hk), List.foldl_cons]
    · rw [if_neg (Ne.symm hk), List.filter_cons_of_neg (by simpa using hk)]

/-- A key that no item has keeps its entry. -/
theorem lookup_alterEach_of_notMem {keyOf : ε → κ} (h : ∀ item ∈ items, keyOf item ≠ k) :
    (alterEach keyOf f items map).lookup k = map.lookup k := by
  rw [lookup_alterEach, List.filter_eq_nil_iff.mpr fun item hitem ↦ by simpa using h item hitem]
  rfl

/-- A key that one item has gets what this item makes of its entry. -/
theorem lookup_alterEach_of_nodup (keyOf : ε → κ) {item : ε} (hnodup : (items.map keyOf).Nodup)
    (hitem : item ∈ items) :
    (alterEach keyOf f items map).lookup (keyOf item) = f item (map.lookup (keyOf item)) := by
  have honly : (items.filter fun other ↦ keyOf other = keyOf item) = [item] := by
    induction items with
    | nil => exact absurd hitem List.not_mem_nil
    | cons first items ih =>
      obtain ⟨hfirst, hrest⟩ := List.nodup_cons.mp hnodup
      obtain rfl | hitem := List.mem_cons.mp hitem
      · rw [List.filter_cons_of_pos (by simp), List.filter_eq_nil_iff.mpr]
        intro other hother
        simp only [decide_eq_true_eq]
        exact fun hsame ↦ hfirst (hsame ▸ List.mem_map_of_mem hother)
      · rw [List.filter_cons_of_neg, ih hrest hitem]
        simp only [decide_eq_true_eq]
        exact fun hsame ↦ hfirst (hsame ▸ List.mem_map_of_mem hitem)
  rw [lookup_alterEach, honly, List.foldl_cons, List.foldl_nil]

/-- What `alterAll` does to one key. -/
@[simp]
theorem lookup_alterAll (f : κ → α → Option α) :
    (alterAll f map).lookup k = (map.lookup k).bind (f k) := by
  by_cases hk : k ∈ map.keys
  · exact lookup_alterEach_of_nodup id (by simpa using map.keys_nodup) hk
  · have hnone : map.lookup k = none := AList.lookup_eq_none.mpr fun h ↦ hk (AList.mem_keys.mp h)
    have hother : ∀ item ∈ map.keys, id item ≠ k := fun item hitem hsame ↦ hk (hsame ▸ hitem)
    rw [hnone, Option.bind_none, alterAll, lookup_alterEach_of_notMem hother, hnone]

end OsrsMap.Keyed
