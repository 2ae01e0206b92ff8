import Mathlib.Data.List.Nodup
import Mathlib.Data.List.Perm.Subperm
import Mathlib.Order.Lattice

/-!
# Lists that keep their newest

A list with more items than a limit drops the oldest of them; of items as old as each other those drop
first that came first. What is kept is at least as new as what is dropped, and an item is kept where
fewer items than the limit are newer, or as new and behind it.
-/

namespace OsrsMap.Capped

variable {α ι τ : Type*} [LinearOrder τ] [DecidableEq ι] (age : α → τ) (key : α → ι)

def oldestFirst (items : List α) : List α := items.mergeSort fun a b ↦ age a ≤ age b

/-- Drops the oldest beyond the limit. -/
def cap (limit : ℕ) (items : List α) : List α :=
  if limit < items.length then
    items.filter fun item ↦
      key item ∉ ((oldestFirst age items).take (items.length - limit)).map key
  else items

/-- Everyone in a line has fewer than the limit that are newer, or as new and behind it. -/
def Fits (limit : ℕ) (all : List τ) : List τ → Prop
  | [] => True
  | time :: behind => all.countP (time < ·) + behind.countP (· = time) < limit ∧ Fits limit all behind

instance decidableFits (limit : ℕ) (all : List τ) : (line : List τ) → Decidable (Fits limit all line)
  | [] => inferInstanceAs (Decidable True)
  | _ :: behind =>
    have := decidableFits limit all behind
    inferInstanceAs (Decidable (_ ∧ Fits limit all behind))

variable {age : α → τ} {key : α → ι} {limit : ℕ} {items : List α} {x y : α}

/-! ## Oldest first -/

theorem oldestFirst_perm (age : α → τ) (items : List α) : (oldestFirst age items).Perm items :=
  List.mergeSort_perm _ _

theorem pairwise_oldestFirst (age : α → τ) (items : List α) :
    (oldestFirst age items).Pairwise fun a b ↦ age a ≤ age b := by
  have htrans (a b c : α) (hab : decide (age a ≤ age b) = true) (hbc : decide (age b ≤ age c) = true) :
      decide (age a ≤ age c) = true :=
    decide_eq_true ((of_decide_eq_true hab).trans (of_decide_eq_true hbc))
  have htotal (a b : α) : (decide (age a ≤ age b) || decide (age b ≤ age a)) = true := by
    simpa using le_total (age a) (age b)
  exact (List.pairwise_mergeSort htrans htotal items).imp of_decide_eq_true

/-- Items as old as each other stay in their order. -/
theorem pair_sublist_oldestFirst (h : [x, y].Sublist items) (hage : age x ≤ age y) :
    [x, y].Sublist (oldestFirst age items) := by
  apply List.pair_sublist_mergeSort
  · intro a b c hab hbc
    exact decide_eq_true ((of_decide_eq_true hab).trans (of_decide_eq_true hbc))
  · intro a b
    simpa using le_total (age a) (age b)
  · exact decide_eq_true hage
  · exact h

/-! ## What is kept -/

theorem cap_sublist (age : α → τ) (key : α → ι) (limit : ℕ) (items : List α) :
    (cap age key limit items).Sublist items := by
  unfold cap
  split
  · exact List.filter_sublist
  · exact List.Sublist.refl items

/-- What is kept of too many items is the end of them in order of age. -/
theorem mem_cap_iff (h : (items.map key).Nodup) (hmany : limit < items.length) :
    x ∈ cap age key limit items ↔ x ∈ (oldestFirst age items).drop (items.length - limit) := by
  have hperm := oldestFirst_perm age items
  have hsplit := List.take_append_drop (items.length - limit) (oldestFirst age items)
  have hkeys : ((oldestFirst age items).map key).Nodup := (hperm.map key).nodup_iff.mpr h
  rw [← hsplit, List.map_append] at hkeys
  have hdisjoint := (List.nodup_append.mp hkeys).2.2
  unfold cap
  rw [if_pos hmany, List.mem_filter, decide_eq_true_iff, ← hperm.mem_iff]
  constructor
  · rintro ⟨hmem, hgone⟩
    rw [← hsplit, List.mem_append] at hmem
    exact hmem.resolve_left fun htake ↦ hgone (List.mem_map_of_mem htake)
  · intro hdrop
    refine ⟨List.mem_of_mem_drop hdrop, fun hgone ↦ ?_⟩
    exact hdisjoint _ hgone _ (List.mem_map_of_mem hdrop) rfl

theorem length_cap (h : (items.map key).Nodup) :
    (cap age key limit items).length = min limit items.length := by
  by_cases hmany : limit < items.length
  · have hnodup : items.Nodup := List.Nodup.of_map key h
    have hsorted : (oldestFirst age items).Nodup := (oldestFirst_perm age items).nodup_iff.mpr hnodup
    have hperm : (cap age key limit items).Perm
        ((oldestFirst age items).drop (items.length - limit)) := by
      rw [List.perm_ext_iff_of_nodup (hnodup.sublist (cap_sublist age key limit items)) (hsorted.sublist (List.drop_sublist _ _))]
      exact fun item ↦ mem_cap_iff h hmany
    rw [hperm.length_eq, List.length_drop, (oldestFirst_perm age items).length_eq]
    omega
  · rw [cap, if_neg hmany, min_eq_right (Nat.not_lt.mp hmany)]

/-- What is dropped is dropped for the limit. -/
theorem lt_of_notMem_cap (hx : x ∈ items) (hdropped : x ∉ cap age key limit items) :
    limit < items.length := by
  by_contra hfew
  rw [cap, if_neg hfew] at hdropped
  exact hdropped hx

theorem length_cap_of_notMem (h : (items.map key).Nodup) (hx : x ∈ items)
    (hdropped : x ∉ cap age key limit items) : (cap age key limit items).length = limit := by
  rw [length_cap h, min_eq_left (lt_of_notMem_cap hx hdropped).le]

theorem mem_take_of_notMem_cap (h : (items.map key).Nodup) (hx : x ∈ items)
    (hdropped : x ∉ cap age key limit items) :
    x ∈ (oldestFirst age items).take (items.length - limit) := by
  have hsorted : x ∈ oldestFirst age items := (oldestFirst_perm age items).mem_iff.mpr hx
  rw [← List.take_append_drop (items.length - limit) (oldestFirst age items), List.mem_append] at hsorted
  apply hsorted.resolve_right
  exact fun hdrop ↦ hdropped ((mem_cap_iff h (lt_of_notMem_cap hx hdropped)).mpr hdrop)

/-- What is dropped is no newer than what is kept. -/
theorem age_le_of_notMem_cap (h : (items.map key).Nodup) (hx : x ∈ items)
    (hdropped : x ∉ cap age key limit items) (hy : y ∈ cap age key limit items) : age x ≤ age y := by
  have hgone := mem_take_of_notMem_cap h hx hdropped
  have hkept := (mem_cap_iff h (lt_of_notMem_cap hx hdropped)).mp hy
  have hpairs := pairwise_oldestFirst age items
  rw [← List.take_append_drop (items.length - limit) (oldestFirst age items)] at hpairs
  exact (List.pairwise_append.mp hpairs).2.2 x hgone y hkept

/-- Nothing as old is dropped for what comes before it. -/
theorem age_lt_of_sublist (h : (items.map key).Nodup) (hpair : [y, x].Sublist items)
    (hdropped : x ∉ cap age key limit items) (hy : y ∈ cap age key limit items) : age x < age y := by
  by_contra hold
  have hx : x ∈ items := hpair.subset (by simp)
  have hgone := mem_take_of_notMem_cap h hx hdropped
  have hkept := (mem_cap_iff h (lt_of_notMem_cap hx hdropped)).mp hy
  have hnodup : (oldestFirst age items).Nodup := (oldestFirst_perm age items).nodup_iff.mpr (List.Nodup.of_map key h)
  have hsorted := pair_sublist_oldestFirst hpair (not_lt.mp hold)
  rw [← List.take_append_drop (items.length - limit) (oldestFirst age items)] at hsorted hnodup
  have hdisjoint := (List.nodup_append.mp hnodup).2.2
  obtain ⟨first, second, hsplit, hfirst, hsecond⟩ := List.sublist_append_iff.mp hsorted
  cases first with
  | nil =>
    rw [List.nil_append] at hsplit
    subst hsplit
    exact hdisjoint x hgone x (hsecond.subset (by simp)) rfl
  | cons head tail =>
    obtain ⟨rfl, -⟩ := List.cons.inj hsplit
    exact hdisjoint y (hfirst.subset List.mem_cons_self) y hkept rfl

/-- Where the items with a property are newer than all others, only they are kept if and only if there are no
others, or as many as the limit have it. -/
theorem forall_cap_iff {p : α → Prop} [DecidablePred p] (h : (items.map key).Nodup)
    (hnewer : ∀ x ∈ items, ∀ y ∈ items, ¬ p x → p y → age x < age y) :
    (∀ x ∈ cap age key limit items, p x) ↔ (∀ x ∈ items, p x) ∨ limit ≤ items.countP p := by
  have hsub : cap age key limit items ⊆ items := (cap_sublist age key limit items).subset
  have hnodup : (cap age key limit items).Nodup := h.of_map.sublist (cap_sublist age key limit items)
  rw [List.countP_eq_length_filter]
  constructor
  · intro hkept
    by_contra hneither
    obtain ⟨hother, hfew⟩ := not_or.mp hneither
    push Not at hother
    obtain ⟨x, hx, hnot⟩ := hother
    -- An item without it was dropped, so that what is kept is as much as the limit.
    have hlength := length_cap_of_notMem h hx fun hmem ↦ hnot (hkept x hmem)
    have hcount := (hnodup.subperm fun y hy ↦ List.mem_filter.mpr ⟨hsub hy, decide_eq_true (hkept y hy)⟩).length_le
    omega
  · rintro (hall | hmany) x hx
    · exact hall x (hsub hx)
    · by_contra hnot
      have hfilter : items.filter p ⊆ cap age key limit items := by
        intro y hy
        obtain ⟨hmem, hp⟩ := List.mem_filter.mp hy
        by_contra hdropped
        have hlt := hnewer x (hsub hx) y hmem hnot (of_decide_eq_true hp)
        exact hlt.not_ge (age_le_of_notMem_cap h hmem hdropped hx)
      -- All items that have it are kept, and this one too: one too many.
      have hnew : x ∉ items.filter p := fun hmem ↦ hnot (of_decide_eq_true (List.mem_filter.mp hmem).2)
      have hcount := ((List.nodup_cons.mpr ⟨hnew, h.of_map.filter _⟩).subperm
        (List.cons_subset.mpr ⟨hx, hfilter⟩)).length_le
      rw [length_cap h, List.length_cons] at hcount
      omega

/-! ## Who fits -/

variable (age) in
/-- What goes before an item: what is newer, or as new and behind it. -/
def ahead (x : α) (front behind : List α) : List α :=
  (front.filter fun y ↦ age x < age y) ++ behind.filter fun y ↦ age x ≤ age y

theorem countP_le_eq (time : τ) (times : List τ) :
    times.countP (time ≤ ·) = times.countP (time < ·) + times.countP (· = time) := by
  induction times with
  | nil => rfl
  | cons other times ih =>
    rw [List.countP_cons, List.countP_cons, List.countP_cons, ih]
    obtain hlt | rfl | hgt := lt_trichotomy time other
    · simp [hlt, hlt.le, hlt.ne']
      omega
    · simp [Nat.add_assoc]
    · simp [hgt.not_gt, hgt.not_ge, hgt.ne]

theorem length_ahead (front behind : List α) : (ahead age x front behind).length =
    ((front ++ x :: behind).map age).countP (age x < ·) + (behind.map age).countP (· = age x) := by
  have hbehind : (behind.filter fun y ↦ age x ≤ age y).length = (behind.map age).countP (age x ≤ ·) := by
    rw [List.countP_map, List.countP_eq_length_filter]
    rfl
  have hfront : (front.filter fun y ↦ age x < age y).length = (front.map age).countP (age x < ·) := by
    rw [List.countP_map, List.countP_eq_length_filter]
    rfl
  rw [ahead, List.length_append, hfront, hbehind, countP_le_eq, List.map_append, List.map_cons,
    List.countP_append, List.countP_cons, if_neg (by simp), Nat.add_zero, Nat.add_assoc]

section Ahead

variable {front behind : List α}

omit [DecidableEq ι] in
theorem nodup_cons_ahead (h : ((front ++ x :: behind).map key).Nodup) :
    (x :: ahead age x front behind).Nodup := by
  have hnodup : (front ++ x :: behind).Nodup := h.of_map
  exact List.nodup_middle.mp
    (hnodup.sublist (List.filter_sublist.append (List.filter_sublist.cons_cons x)))

/-- For an item that is dropped only such are kept as go before it. -/
theorem cap_subset_ahead (h : ((front ++ x :: behind).map key).Nodup)
    (hdropped : x ∉ cap age key limit (front ++ x :: behind)) :
    cap age key limit (front ++ x :: behind) ⊆ ahead age x front behind := by
  intro y hy
  have hx : x ∈ front ++ x :: behind := List.mem_append_right _ List.mem_cons_self
  obtain hfront | hrest := List.mem_append.mp ((cap_sublist age key limit _).subset hy)
  · have hpair : [y, x].Sublist (front ++ x :: behind) :=
      (List.singleton_sublist.mpr hfront).append (List.Sublist.cons_cons x (List.nil_sublist _))
    have hnewer := age_lt_of_sublist h hpair hdropped hy
    exact List.mem_append_left _ (List.mem_filter.mpr ⟨hfront, decide_eq_true hnewer⟩)
  · obtain rfl | hbehind := List.mem_cons.mp hrest
    · exact absurd hy hdropped
    · have hasNew := age_le_of_notMem_cap h hx hdropped hy
      exact List.mem_append_right _ (List.mem_filter.mpr ⟨hbehind, decide_eq_true hasNew⟩)

/-- All that go before an item that is kept are kept with it. -/
theorem ahead_subset_cap (h : ((front ++ x :: behind).map key).Nodup)
    (hx : x ∈ cap age key limit (front ++ x :: behind)) :
    ahead age x front behind ⊆ cap age key limit (front ++ x :: behind) := by
  intro y hy
  by_contra hdropped
  obtain hy | hy := List.mem_append.mp hy
  · obtain ⟨hfront, hnewer⟩ := List.mem_filter.mp hy
    have hle := age_le_of_notMem_cap h (List.mem_append_left _ hfront) hdropped hx
    exact hle.not_gt (of_decide_eq_true hnewer)
  · obtain ⟨hbehind, hasNew⟩ := List.mem_filter.mp hy
    have hpair : [x, y].Sublist (front ++ x :: behind) :=
      (List.Sublist.cons_cons x (List.singleton_sublist.mpr hbehind)).trans
        (List.sublist_append_right _ _)
    have hlt := age_lt_of_sublist h hpair hdropped hx
    exact hlt.not_ge (of_decide_eq_true hasNew)

/-- An item is kept if and only if fewer than the limit go before it. -/
theorem mem_cap_iff_count (h : ((front ++ x :: behind).map key).Nodup) :
    x ∈ cap age key limit (front ++ x :: behind) ↔
      ((front ++ x :: behind).map age).countP (age x < ·) + (behind.map age).countP (· = age x) <
        limit := by
  rw [← length_ahead]
  constructor
  · intro hx
    have hall := List.cons_subset.mpr ⟨hx, ahead_subset_cap h hx⟩
    calc (ahead age x front behind).length + 1 = (x :: ahead age x front behind).length := rfl
      _ ≤ (cap age key limit (front ++ x :: behind)).length :=
        ((nodup_cons_ahead h).subperm hall).length_le
      _ = min limit (front ++ x :: behind).length := length_cap h
      _ ≤ limit := min_le_left _ _
  · intro hcount
    by_contra hdropped
    have hx : x ∈ front ++ x :: behind := List.mem_append_right _ List.mem_cons_self
    have hkept : (cap age key limit (front ++ x :: behind)).Nodup :=
      h.of_map.sublist (cap_sublist age key limit _)
    apply hcount.not_ge
    calc limit = (cap age key limit (front ++ x :: behind)).length :=
        (length_cap_of_notMem h hx hdropped).symm
      _ ≤ (ahead age x front behind).length := (hkept.subperm (cap_subset_ahead h hdropped)).length_le

end Ahead

/-- A line fits if and only if all of it is kept. -/
theorem fits_iff {front line : List α} (h : ((front ++ line).map key).Nodup) :
    Fits limit ((front ++ line).map age) (line.map age) ↔
      ∀ x ∈ line, x ∈ cap age key limit (front ++ line) := by
  induction line generalizing front with
  | nil => simp [Fits]
  | cons first behind ih =>
    have hrest := @ih (front ++ [first]) (by rwa [← List.append_cons])
    rw [← List.append_cons] at hrest
    rw [List.map_cons, Fits, hrest, List.forall_mem_cons]
    exact and_congr_left fun _ ↦ (mem_cap_iff_count h).symm

/-! ## What is beaten stays beaten -/

variable (age limit) in
/-- There are as many as the limit, all at least as new. -/
def Beaten (kept : List α) (time : τ) : Prop := limit ≤ kept.length ∧ ∀ y ∈ kept, time ≤ age y

theorem beaten_of_notMem_cap (h : (items.map key).Nodup) (hx : x ∈ items)
    (hdropped : x ∉ cap age key limit items) : Beaten age limit (cap age key limit items) (age x) :=
  ⟨(length_cap_of_notMem h hx hdropped).ge, fun _ hy ↦ age_le_of_notMem_cap h hx hdropped hy⟩

theorem Beaten.cap {kept : List α} {time : τ} (hbeaten : Beaten age limit kept time)
    (hkept : kept.Nodup) (hsub : kept ⊆ items) (h : (items.map key).Nodup) :
    Beaten age limit (cap age key limit items) time := by
  have hmany : limit ≤ items.length :=
    hbeaten.1.trans (hkept.subperm hsub).length_le
  have hlength : (Capped.cap age key limit items).length = limit := by
    rw [length_cap h, min_eq_left hmany]
  refine ⟨hlength.ge, fun y hy ↦ ?_⟩
  by_contra hold
  -- An older one that is kept would be one too many: all that beat it are kept with it.
  have hall : kept ⊆ Capped.cap age key limit items := by
    intro x hx
    by_contra hdropped
    exact hold ((hbeaten.2 x hx).trans (age_le_of_notMem_cap h (hsub hx) hdropped hy))
  have hnew : y ∉ kept := fun hmem ↦ hold (hbeaten.2 y hmem)
  have htoo : (y :: kept).Subperm (Capped.cap age key limit items) :=
    (List.nodup_cons.mpr ⟨hnew, hkept⟩).subperm (List.cons_subset.mpr ⟨hy, hall⟩)
  have hcount := htoo.length_le
  rw [hlength, List.length_cons] at hcount
  have := hbeaten.1
  omega

end OsrsMap.Capped
