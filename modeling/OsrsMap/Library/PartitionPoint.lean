import Mathlib.Data.List.Basic
import Mathlib.Order.Nat
import Mathlib.Tactic.TypeStar

/-!
# Binary search in a partitioned list

`partitionPoint` looks for the length of the part of a list in which a predicate holds, by halving.
On a list whose first part has the predicate and whose rest has not, it finds exactly that length;
on any other list it still answers a place in the list. `bisect` is the search by two bounds.
-/

namespace OsrsMap

variable {α : Type*} (p : α → Bool) (list : List α)

/-- Whether the predicate holds at an index of the list. -/
def holdsAt (index : ℕ) : Bool := list[index]?.any p

/-- Halves the window of `size` elements from `base` on until one element is left. -/
def narrow (base size : ℕ) : ℕ :=
  if size ≤ 1 then base
  else if holdsAt p list (base + size / 2) then narrow (base + size / 2) (size - size / 2)
  else narrow base (size - size / 2)
termination_by size

def partitionPoint : ℕ :=
  if list.isEmpty then 0
  else
    let base := narrow p list 0 list.length
    if holdsAt p list base then base + 1 else base

variable {p list}

/-- The window never leaves the list, and the point looked for never leaves the window. -/
theorem narrow_spec {base size : ℕ} (hsize : 0 < size) (hwindow : base + size ≤ list.length) :
    narrow p list base size < list.length ∧
      ∀ point, (∀ index < list.length, holdsAt p list index = true ↔ index < point) →
        (base = 0 ∨ base < point) → point ≤ base + size →
        (narrow p list base size = 0 ∨ narrow p list base size < point) ∧
          point ≤ narrow p list base size + 1 := by
  induction base, size using narrow.induct p list with
  | case1 base size hone =>
    obtain rfl : size = 1 := by omega
    rw [narrow, if_pos hone]
    exact ⟨hwindow, fun point _ hbase hpoint ↦ ⟨hbase, hpoint⟩⟩
  | case2 base size hmany hholds ih =>
    rw [narrow, if_neg hmany, if_pos hholds]
    obtain ⟨hlt, hspec⟩ := ih (by omega) (by omega)
    refine ⟨hlt, fun point hpartitioned _ hpoint ↦ ?_⟩
    have hmiddle := (hpartitioned (base + size / 2) (by omega)).mp hholds
    exact hspec point hpartitioned (.inr hmiddle) (by omega)
  | case3 base size hmany hholds ih =>
    rw [narrow, if_neg hmany, if_neg hholds]
    obtain ⟨hlt, hspec⟩ := ih (by omega) (by omega)
    refine ⟨hlt, fun point hpartitioned hbase hpoint ↦ ?_⟩
    have hmiddle := mt (hpartitioned (base + size / 2) (by omega)).mpr hholds
    exact hspec point hpartitioned hbase (by omega)

theorem partitionPoint_eq {point : ℕ} (hpoint : point ≤ list.length)
    (hpartitioned : ∀ index < list.length, holdsAt p list index = true ↔ index < point) :
    partitionPoint p list = point := by
  unfold partitionPoint
  split
  · next hempty =>
    rw [List.isEmpty_iff.mp hempty, List.length_nil] at hpoint
    omega
  · next hne =>
    have hlength : 0 < list.length := by simpa [List.length_pos_iff] using hne
    obtain ⟨hlt, hspec⟩ := narrow_spec (p := p) hlength (Nat.zero_add list.length).le
    obtain ⟨hlow, hhigh⟩ := hspec point hpartitioned (.inl rfl) (by omega)
    have hfound := hpartitioned _ hlt
    dsimp only
    split
    · next hholds => have := hfound.mp hholds; omega
    · next hholds => have := mt hfound.mpr hholds; omega

/-- What lies behind the partition point is what does not have the predicate, when nothing that has
it comes after something that has not. -/
theorem drop_partitionPoint (h : list.Pairwise fun x y ↦ p y = true → p x = true) :
    list.drop (partitionPoint p list) = list.filter fun x ↦ !p x := by
  have hsplit : ∃ front back, list = front ++ back ∧ (∀ x ∈ front, p x = true) ∧
      ∀ x ∈ back, p x = false := by
    induction list with
    | nil => exact ⟨[], [], rfl, by simp, by simp⟩
    | cons head tail ih =>
      obtain ⟨hhead, htail⟩ := List.pairwise_cons.mp h
      cases hp : p head with
      | true =>
        obtain ⟨front, back, rfl, hfront, hback⟩ := ih htail
        exact ⟨head :: front, back, rfl, by simpa [hp] using hfront, hback⟩
      | false =>
        refine ⟨[], head :: tail, rfl, by simp, ?_⟩
        intro x hx
        obtain rfl | hx := List.mem_cons.mp hx
        · exact hp
        · exact Bool.eq_false_iff.mpr fun hpx ↦ by simp [hhead x hx hpx] at hp
  obtain ⟨front, back, rfl, hfront, hback⟩ := hsplit
  have hpoint : partitionPoint p (front ++ back) = front.length := by
    refine partitionPoint_eq (by simp) fun index hindex ↦ ?_
    unfold holdsAt
    by_cases hlt : index < front.length
    · simp [List.getElem?_append_left hlt, hfront, hlt]
    · have hback' : index - front.length < back.length := by
        rw [List.length_append] at hindex
        omega
      simp [List.getElem?_append_right (Nat.not_lt.mp hlt), List.getElem?_eq_getElem hback', hback,
        hlt]
  rw [hpoint, List.drop_left, List.filter_append,
    List.filter_eq_nil_iff.mpr (fun x hx ↦ by simp [hfront x hx]),
    List.filter_eq_self.mpr (fun x hx ↦ by simp [hback x hx]), List.nil_append]

/-! ## Search by two bounds -/

/-- `while (low < high)`: halves the window until it is empty. -/
def bisect (p : ℕ → Bool) (low high : ℕ) : ℕ :=
  if low < high then
    if p ((low + high) / 2) then bisect p ((low + high) / 2 + 1) high
    else bisect p low ((low + high) / 2)
  else low
termination_by high - low

/-- Nothing in the window behind the answer has the predicate, and all before it has. -/
theorem bisect_spec {p : ℕ → Bool} (h : ∀ i j, i ≤ j → p j = true → p i = true) (low high : ℕ) :
    (∀ i, low ≤ i → i < bisect p low high → p i = true) ∧
      ∀ i, bisect p low high ≤ i → i < high → p i = false := by
  induction low, high using bisect.induct p with
  | case1 low high hlt hholds ih =>
    rw [bisect, if_pos hlt, if_pos hholds]
    refine ⟨fun i _ hi ↦ ?_, ih.2⟩
    by_cases hmiddle : i ≤ (low + high) / 2
    · exact h i _ hmiddle hholds
    · exact ih.1 i (by omega) hi
  | case2 low high hlt hfails ih =>
    rw [bisect, if_pos hlt, if_neg hfails]
    refine ⟨ih.1, fun i hi _ ↦ ?_⟩
    by_cases hmiddle : (low + high) / 2 ≤ i
    · exact Bool.eq_false_iff.mpr fun hholds ↦ hfails (h _ i hmiddle hholds)
    · exact ih.2 i hi (by omega)
  | case3 low high hempty =>
    rw [bisect, if_neg hempty]
    exact ⟨fun i hlow hi ↦ absurd hi (by omega), fun i hi hhigh ↦ absurd hhigh (by omega)⟩

/-- `while (low < high)`: halves the window until one place is left. -/
def bisectLast (p : ℕ → Bool) (low high : ℕ) : ℕ :=
  if low < high then
    if p ((low + high + 1) / 2) then bisectLast p ((low + high + 1) / 2) high
    else bisectLast p low ((low + high + 1) / 2 - 1)
  else low
termination_by high - low

/-- The answer is a place of the window that has the predicate, whatever the places behind it have. -/
theorem bisectLast_holds {p : ℕ → Bool} {low high : ℕ} (hlow : p low = true) (hle : low ≤ high) :
    p (bisectLast p low high) = true ∧ bisectLast p low high ≤ high := by
  induction low, high using bisectLast.induct p with
  | case1 low high hlt hholds ih =>
    rw [bisectLast, if_pos hlt, if_pos hholds]
    exact ih hholds (by omega)
  | case2 low high hlt hfails ih =>
    rw [bisectLast, if_pos hlt, if_neg hfails]
    obtain ⟨hfound, hwithin⟩ := ih hlow (by omega)
    exact ⟨hfound, by omega⟩
  | case3 low high hempty =>
    rw [bisectLast, if_neg hempty]
    exact ⟨hlow, hle⟩

theorem bisectLast_behind {p : ℕ → Bool} (h : ∀ i j, i ≤ j → p j = true → p i = true) {low high : ℕ} :
    ∀ i, bisectLast p low high < i → i ≤ high → p i = false := by
  induction low, high using bisectLast.induct p with
  | case1 low high hlt hholds ih =>
    rw [bisectLast, if_pos hlt, if_pos hholds]
    exact ih
  | case2 low high hlt hfails ih =>
    rw [bisectLast, if_pos hlt, if_neg hfails]
    intro i hi hhigh
    by_cases hmiddle : i ≤ (low + high + 1) / 2 - 1
    · exact ih i hi hmiddle
    · exact Bool.eq_false_iff.mpr fun hholds ↦ hfails (h _ i (by omega) hholds)
  | case3 low high hempty =>
    rw [bisectLast, if_neg hempty]
    exact fun i hi hhigh ↦ absurd hhigh (by omega)

/-- The answer is the last place of the window that has the predicate, where the first one has it. -/
theorem bisectLast_spec {p : ℕ → Bool} (h : ∀ i j, i ≤ j → p j = true → p i = true) {low high : ℕ}
    (hlow : p low = true) (hle : low ≤ high) :
    p (bisectLast p low high) = true ∧ bisectLast p low high ≤ high ∧
      ∀ i, bisectLast p low high < i → i ≤ high → p i = false := by
  obtain ⟨hfound, hwithin⟩ := bisectLast_holds hlow hle
  exact ⟨hfound, hwithin, bisectLast_behind h⟩

/-- The first part of a partitioned list is what has the predicate. -/
theorem takeWhile_eq_filter (h : list.Pairwise fun x y ↦ p y = true → p x = true) :
    list.takeWhile p = list.filter p := by
  induction list with
  | nil => rfl
  | cons x rest ih =>
    obtain ⟨hx, hrest⟩ := List.pairwise_cons.mp h
    by_cases hpx : p x = true
    · rw [List.takeWhile_cons_of_pos hpx, List.filter_cons_of_pos hpx, ih hrest]
    · rw [List.takeWhile_cons_of_neg hpx, List.filter_cons_of_neg hpx, eq_comm, List.filter_eq_nil_iff]
      exact fun y hy hpy ↦ hpx (hx y hy hpy)

/-- The rest of a partitioned list is what has not the predicate. -/
theorem dropWhile_eq_filter (h : list.Pairwise fun x y ↦ p y = true → p x = true) :
    list.dropWhile p = list.filter fun x ↦ !p x := by
  induction list with
  | nil => rfl
  | cons x rest ih =>
    obtain ⟨hx, hrest⟩ := List.pairwise_cons.mp h
    by_cases hpx : p x = true
    · rw [List.dropWhile_cons_of_pos hpx, List.filter_cons_of_neg (by simp [hpx]), ih hrest]
    · rw [List.dropWhile_cons_of_neg hpx, List.filter_cons_of_pos (by simp [hpx]), eq_comm]
      apply congrArg (List.cons x)
      apply List.filter_eq_self.mpr
      exact fun y hy ↦ by simpa using fun hpy ↦ hpx (hx y hy hpy)

/-- What has a weaker predicate is what has the stronger one and, behind it, the rest of it. -/
theorem filter_eq_append {q : α → Bool} (h : list.Pairwise fun x y ↦ p y = true → p x = true)
    (himp : ∀ x ∈ list, p x = true → q x = true) :
    list.filter q = list.filter p ++ (list.filter fun x ↦ !p x).filter q := by
  have hfront : (list.filter p).filter q = list.filter p := by
    apply List.filter_eq_self.mpr
    intro x hx
    obtain ⟨hmem, hpx⟩ := List.mem_filter.mp hx
    exact himp x hmem hpx
  calc list.filter q = (list.takeWhile p ++ list.dropWhile p).filter q := by
        rw [List.takeWhile_append_dropWhile]
    _ = (list.filter p).filter q ++ (list.filter fun x ↦ !p x).filter q := by
        rw [List.filter_append, takeWhile_eq_filter h, dropWhile_eq_filter h]
    _ = list.filter p ++ (list.filter fun x ↦ !p x).filter q := by rw [hfront]

theorem holdsAt_of_le (h : list.Pairwise fun x y ↦ p y = true → p x = true) {i j : ℕ} (hij : i ≤ j)
    (hholds : holdsAt p list j = true) : holdsAt p list i = true := by
  obtain ⟨y, hy, hp⟩ := (Option.any_eq_true p _).mp hholds
  obtain ⟨hj, rfl⟩ := List.getElem?_eq_some_iff.mp hy
  have hi : i < list.length := hij.trans_lt hj
  apply (Option.any_eq_true p _).mpr
  refine ⟨list[i], List.getElem?_eq_getElem hi, ?_⟩
  obtain hlt | rfl := hij.lt_or_eq
  · exact List.pairwise_iff_getElem.mp h i j hi hj hlt hp
  · exact hp

/-- In a list whose first part has the predicate the search finds the first element that has not. -/
theorem getElem?_bisect (h : list.Pairwise fun x y ↦ p y = true → p x = true) :
    list[bisect (holdsAt p list) 0 list.length]? = list.find? fun x ↦ !p x := by
  obtain ⟨hbefore, hbehind⟩ :=
    bisect_spec (p := holdsAt p list) (fun _ _ hij ↦ holdsAt_of_le h hij) 0 list.length
  have hholds (i : ℕ) (hi : i < list.length) : holdsAt p list i = p list[i] := by
    rw [holdsAt, List.getElem?_eq_getElem hi, Option.any_some]
  by_cases hfound : bisect (holdsAt p list) 0 list.length < list.length
  · rw [List.getElem?_eq_getElem hfound, eq_comm, List.find?_eq_some_iff_getElem]
    have hfails := hbehind _ le_rfl hfound
    rw [hholds _ hfound] at hfails
    refine ⟨by rw [hfails]; rfl, _, hfound, rfl, fun j hj ↦ ?_⟩
    have hfirst := hbefore j (Nat.zero_le j) hj
    rw [hholds j (hj.trans hfound)] at hfirst
    rw [hfirst]
    rfl
  · rw [List.getElem?_eq_none (Nat.not_lt.mp hfound), eq_comm, List.find?_eq_none]
    intro x hx
    obtain ⟨i, hi, rfl⟩ := List.mem_iff_getElem.mp hx
    have hall := hbefore i (Nat.zero_le i) (hi.trans_le (Nat.not_lt.mp hfound))
    rw [hholds i hi] at hall
    simp [hall]

/-- What is found first comes before all that could be found. -/
theorem exists_find?_of_pairwise {R : α → α → Prop} (h : list.Pairwise R) (hrefl : ∀ x, R x x) {x : α}
    (hx : x ∈ list) (hp : p x = true) : ∃ first, list.find? p = some first ∧ R first x := by
  cases hfound : list.find? p with
  | none => exact absurd hp (List.find?_eq_none.mp hfound x hx)
  | some first =>
    obtain ⟨-, before, behind, rfl, hbefore⟩ := List.find?_eq_some_iff_append.mp hfound
    refine ⟨first, rfl, ?_⟩
    obtain hx | hx := List.mem_append.mp hx
    · exact absurd hp (by simpa using hbefore x hx)
    · obtain rfl | hx := List.mem_cons.mp hx
      · exact hrefl x
      · exact (List.pairwise_cons.mp (List.pairwise_append.mp h).2.1).1 x hx

end OsrsMap
