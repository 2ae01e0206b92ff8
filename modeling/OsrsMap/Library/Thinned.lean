import Mathlib.Data.List.Chain
import Mathlib.Data.List.Infix
import Mathlib.Tactic.TypeStar

/-!
# Thinned lists

A list is thinned when its oldest part was dropped and, of the rest, what was between two elements
that were left one after the other is covered by them: `gap a between b`. The newest element is
always left, so a thinned list is given without it, next to it.
-/

namespace OsrsMap

variable {α β : Type*}

/-- `kept` followed by `last` is what is left of `all` followed by `last`. -/
inductive ThinnedTo (gap : α → List α → α → Prop) : List α → List α → α → Prop
  | first (dropped : List α) (last : α) : ThinnedTo gap [] dropped last
  | next {kept all : List α} {a : α} (between : List α) (b : α) (before : ThinnedTo gap kept all a)
    (covered : gap a between b) : ThinnedTo gap (kept ++ [a]) (all ++ a :: between) b

namespace ThinnedTo

variable {gap gap' : α → List α → α → Prop} {kept all : List α} {a b : α}

theorem sublist (h : ThinnedTo gap kept all b) : kept.Sublist all := by
  induction h with
  | first dropped last => exact List.nil_sublist dropped
  | @next kept all a between b before covered ih =>
    exact ih.append (List.singleton_sublist.mpr List.mem_cons_self)

theorem mono (hgap : ∀ a between b, gap a between b → gap' a between b)
    (h : ThinnedTo gap kept all b) : ThinnedTo gap' kept all b := by
  induction h with
  | first dropped last => exact .first dropped last
  | next between b before covered ih => exact .next between b ih (hgap _ _ _ covered)

/-- The newest element may be replaced by one that the last gap does not tell from it. -/
theorem replace_last {b' : α} (h : ThinnedTo gap kept all b)
    (hgap : ∀ a between, gap a between b → gap a between b') : ThinnedTo gap kept all b' := by
  cases h with
  | first => exact .first all b'
  | next between _ before covered => exact .next between b' before (hgap _ _ covered)

/-- Dropping the oldest of what is left leaves a thinned list. -/
theorem of_suffix {kept' : List α} (h : ThinnedTo gap kept all b) (hsuffix : kept' <:+ kept) :
    ThinnedTo gap kept' all b := by
  induction h generalizing kept' with
  | first dropped last =>
    rw [List.suffix_nil.mp hsuffix]
    exact .first dropped last
  | next between b before covered ih =>
    obtain rfl | ⟨front, rfl, hfront⟩ := List.suffix_concat_iff.mp hsuffix
    · exact .first _ b
    · exact .next between b (ih hfront) covered

/-- Every two elements of a list that are kept one after the other cover what is between them. -/
def GapsCovered (gap : α → List α → α → Prop) (item : β → α) (keep : β → Bool)
    (list : List β) : Prop :=
  ∀ before x between y after, list = before ++ x :: between ++ y :: after →
    keep x = true → keep y = true → (∀ z ∈ between, keep z = false) →
    gap (item x) (between.map item) (item y)

theorem gapsCovered_tail {item : β → α} {keep : β → Bool} (front : List β) {back : List β}
    (h : GapsCovered gap item keep (front ++ back)) : GapsCovered gap item keep back := by
  rintro before x between y after rfl
  exact h (front ++ before) x between y after (by simp)

/-- A thinned list stays one when more is added of which the gaps are covered. -/
theorem extend {item : β → α} {keep : β → Bool} {x y : β} {rest : List β}
    (h : ThinnedTo gap kept all (item x)) (hx : keep x = true) (hy : keep y = true)
    (between : List β) (hbetween : ∀ z ∈ between, keep z = false)
    (hgaps : GapsCovered gap item keep (x :: between ++ rest ++ [y])) :
    ThinnedTo gap (kept ++ item x :: (rest.filter keep).map item)
      (all ++ item x :: (between ++ rest).map item) (item y) := by
  induction rest generalizing kept all x between hx with
  | nil =>
    have hcovered := hgaps [] x between y [] (by simp) hx hy hbetween
    simpa using h.next (between.map item) (item y) hcovered
  | cons z rest ih =>
    cases hz : keep z with
    | true =>
      have hcovered := hgaps [] x between z (rest ++ [y]) (by simp) hx hz hbetween
      have hnext := ih (h.next (between.map item) (item z) hcovered) hz [] (by simp)
        (gapsCovered_tail (x :: between) (by simpa using hgaps))
      simpa [hz] using hnext
    | false =>
      have hpending : ∀ z' ∈ between ++ [z], keep z' = false := by
        intro z' hz'
        obtain hz' | hz' := List.mem_append.mp hz'
        · exact hbetween z' hz'
        · rw [List.mem_singleton.mp hz', hz]
      have hnext := ih h hx (between ++ [z]) hpending (by simpa using hgaps)
      simpa [hz] using hnext

end ThinnedTo

/-- `kept` is what is left of `all`: its newest element, and a thinned list before it. -/
def Thinned (gap : α → List α → α → Prop) (kept all : List α) : Prop :=
  ∃ kept' all' newest, kept = kept' ++ [newest] ∧ all = all' ++ [newest] ∧
    ThinnedTo gap kept' all' newest

namespace Thinned

variable {gap : α → List α → α → Prop} {kept all : List α}

theorem sublist (h : Thinned gap kept all) : kept.Sublist all := by
  obtain ⟨kept, all, newest, rfl, rfl, h⟩ := h
  exact h.sublist.append (List.Sublist.refl [newest])

theorem of_suffix {kept' : List α} (h : Thinned gap kept all) (hsuffix : kept' <:+ kept)
    (hne : kept' ≠ []) : Thinned gap kept' all := by
  obtain ⟨kept, all, newest, rfl, rfl, h⟩ := h
  obtain rfl | ⟨front, rfl, hfront⟩ := List.suffix_concat_iff.mp hsuffix
  · exact absurd rfl hne
  · exact ⟨front, all, newest, rfl, rfl, h.of_suffix hfront⟩

/-- A list whose ends are kept and whose gaps are covered, after what was thinned before. -/
theorem of_gapsCovered {item : β → α} {keep : β → Bool} {front : List β} {x y : β} {list : List β}
    (h : ThinnedTo gap kept all (item x)) (hhead : list.head? = some x)
    (hlast : list = front ++ [y]) (hx : keep x = true) (hy : keep y = true)
    (hgaps : ThinnedTo.GapsCovered gap item keep list) :
    Thinned gap (kept ++ (list.filter keep).map item) (all ++ list.map item) := by
  subst hlast
  cases front with
  | nil =>
    obtain rfl : y = x := by simpa using hhead
    exact ⟨kept, all, item y, by simp [hy], by simp, h⟩
  | cons x' rest =>
    obtain rfl : x' = x := by simpa using hhead
    have hextended := h.extend hx hy [] (by simp) (by simpa using hgaps)
    exact ⟨_, _, item y, by simp [hx, hy], by simp, hextended⟩

theorem mono {gap' : α → List α → α → Prop} (hgap : ∀ a between b, gap a between b → gap' a between b)
    (h : Thinned gap kept all) : Thinned gap' kept all := by
  obtain ⟨kept, all, newest, hkept, hall, h⟩ := h
  exact ⟨kept, all, newest, hkept, hall, h.mono hgap⟩

end Thinned

/-! ## Where the elements that are left were -/

theorem isChain_and {R S : α → α → Prop} {list : List α} (hR : list.IsChain R)
    (hS : list.IsChain S) : list.IsChain fun a b ↦ R a b ∧ S a b :=
  List.isChain_iff_getElem.mpr fun i hi ↦ ⟨hR.getElem i hi, hS.getElem i hi⟩

/-- One way `kept` lies in `all`: what was dropped before it, and after each element that was left
what was left out up to the next one. -/
structure Alignment (gap : α → List α → α → Prop) (kept all : List α) where
  dropped : List α
  segments : List (α × List α)
  kept_eq : segments.map Prod.fst = kept
  all_eq : dropped ++ segments.flatMap (fun segment ↦ segment.1 :: segment.2) = all
  covered : segments.IsChain fun segment next ↦ gap segment.1 segment.2 next.1
  newest : ∀ segment ∈ segments.getLast?, segment.2 = []

namespace Alignment

variable {gap : α → List α → α → Prop} {kept all : List α}

/-- What of the whole list is not dropped. -/
def visible (alignment : Alignment gap kept all) : List α :=
  alignment.segments.flatMap fun segment ↦ segment.1 :: segment.2

/-- Two segments one after the other give two elements that were left one after the other. -/
theorem step (alignment : Alignment gap kept all) {i : ℕ}
    (h : i + 1 < alignment.segments.length) :
    (kept.zip kept.tail)[i]? =
      some (alignment.segments[i].1, alignment.segments[i + 1].1) := by
  obtain ⟨dropped, segments, rfl, -, -, -⟩ := alignment
  dsimp only at h ⊢
  exact List.getElem?_zip_eq_some.mpr ⟨by simp [show i < segments.length by omega], by simp [h]⟩

theorem mem_tail (alignment : Alignment gap kept all) {i : ℕ}
    (h : i + 1 < alignment.segments.length) : alignment.segments[i + 1].1 ∈ all.tail := by
  obtain ⟨dropped, segments, -, rfl, -, -⟩ := alignment
  cases segments with
  | nil => simp at h
  | cons segment segments =>
    have hi : i < segments.length := by simpa using h
    have hmem : segments[i].1 ∈ segments.flatMap fun segment ↦ segment.1 :: segment.2 :=
      List.mem_flatMap.mpr ⟨segments[i], List.getElem_mem _, by simp⟩
    cases dropped <;> simp [hmem]

/-- What holds of every two neighbours of the whole list holds all the way from one element that
was left to the next one. -/
theorem isChain_steps {R : α → α → Prop} (alignment : Alignment gap kept all) (h : all.IsChain R) :
    alignment.segments.IsChain fun segment next ↦
      (segment.1 :: segment.2 ++ [next.1]).IsChain R := by
  have hvisible : (alignment.segments.flatMap fun segment ↦ segment.1 :: segment.2).IsChain R :=
    h.suffix ⟨alignment.dropped, alignment.all_eq⟩
  generalize alignment.segments = segments at hvisible ⊢
  induction segments with
  | nil => exact List.isChain_nil
  | cons segment segments ih =>
    rw [List.flatMap_cons] at hvisible
    cases segments with
    | nil => exact List.isChain_singleton _
    | cons next segments =>
      refine List.isChain_cons_cons.mpr ⟨?_, ih hvisible.right_of_append⟩
      refine List.IsChain.prefix hvisible ?_
      exact ⟨next.2 ++ segments.flatMap fun segment ↦ segment.1 :: segment.2, by simp⟩

/-- When as many are left as there were, nothing was left out. -/
theorem eq_nil_of_length (alignment : Alignment gap kept all) (h : kept.length = all.length)
    {segment : α × List α} (hsegment : segment ∈ alignment.segments) : segment.2 = [] := by
  have hmore (list : List (α × List α)) :
      list.length ≤ (list.flatMap fun segment ↦ segment.1 :: segment.2).length := by
    induction list with
    | nil => simp
    | cons head tail ih =>
      simp only [List.flatMap_cons, List.length_append, List.length_cons] at ih ⊢
      omega
  have hkept := congrArg List.length alignment.kept_eq
  have hall := congrArg List.length alignment.all_eq
  obtain ⟨before, after, hsegments⟩ := List.append_of_mem hsegment
  have hbefore := hmore before
  have hafter := hmore after
  simp only [hsegments, List.length_map, List.length_append, List.flatMap_append, List.flatMap_cons,
    List.length_cons] at hkept hall
  exact List.eq_nil_of_length_eq_zero (by omega)

/-- Every list is aligned with itself. -/
def refl (list : List α) (h : ∀ a b, gap a [] b) : Alignment gap list list where
  dropped := []
  segments := list.map (·, [])
  kept_eq := by simp [Function.comp_def]
  all_eq := by simp [List.flatMap_map]
  covered := by
    rw [List.isChain_map]
    exact List.isChain_iff_getElem.mpr fun i _ ↦ h _ _
  newest := by
    intro segment hsegment
    obtain ⟨a, -, rfl⟩ := List.mem_map.mp (List.mem_of_getLast? hsegment)
    rfl

end Alignment

theorem ThinnedTo.segments {gap : α → List α → α → Prop} {kept all : List α} {last : α}
    (h : ThinnedTo gap kept all last) : ∃ (dropped : List α) (segments : List (α × List α)),
      segments.map Prod.fst = kept ∧
      dropped ++ segments.flatMap (fun segment ↦ segment.1 :: segment.2) = all ∧
      (segments ++ [(last, [])]).IsChain
        (fun segment next : α × List α ↦ gap segment.1 segment.2 next.1) := by
  induction h with
  | first dropped last => exact ⟨dropped, [], rfl, by simp, by simp⟩
  | @next kept all a between b before covered ih =>
    obtain ⟨dropped, segments, rfl, rfl, hchain⟩ := ih
    refine ⟨dropped, segments ++ [(a, between)], by simp, by simp, ?_⟩
    rw [List.isChain_append] at hchain ⊢
    refine ⟨?_, List.isChain_singleton _, by simpa using covered⟩
    rw [List.isChain_append]
    exact ⟨hchain.1, List.isChain_singleton _, by simpa using hchain.2.2⟩

theorem Thinned.alignment {gap : α → List α → α → Prop} {kept all : List α}
    (h : Thinned gap kept all) : Nonempty (Alignment gap kept all) := by
  obtain ⟨kept, all, newest, rfl, rfl, h⟩ := h
  obtain ⟨dropped, segments, rfl, rfl, hchain⟩ := h.segments
  exact ⟨{ dropped, segments := segments ++ [(newest, [])], kept_eq := by simp
           all_eq := by simp, covered := hchain, newest := by simp }⟩

end OsrsMap
