import Mathlib.Data.List.Basic
import Mathlib.Tactic.TypeStar

/-!
# Lists handed out in pages

A server hands out a list in pages: the first one, and then the one at the cursor that the page before it
named, until a page names none. It may be another server after every request, and take as many pages for the
list as it likes, also empty ones without end.
-/

namespace OsrsMap.Pages

/-- Answers a request for the page at a cursor, the first one without, with items and where to go on. -/
abbrev Server (σ κ α ε : Type*) := σ → Option κ → Except ε (List α × Option κ) × σ

variable {σ κ α ε : Type*} (server : Server σ κ α ε) (good good' : List α → κ → Prop)

/-- What is left to read from a cursor on begins with the next page, and the rest of it is left at the cursor
that the page names. Every page with a cursor is a good one. -/
def HandsOut (left : σ → Option κ → List α → Prop) : Prop :=
  ∀ state cursor list, left state cursor list →
    ∃ page next after, server state cursor = (.ok (page, next), after) ∧
      match next with
      | none => list = page
      | some next => good page next ∧ ∃ rest, list = page ++ rest ∧ left after (some next) rest

/-- The pages from a cursor on, one after the other, are the list. -/
def Serves (state : σ) (cursor : Option κ) (list : List α) : Prop :=
  ∃ left, HandsOut server good left ∧ left state cursor list

variable {server good good'} {state : σ} {cursor : Option κ} {list : List α}

/-- The next page is the whole list, or the beginning of it. -/
theorem Serves.next (h : Serves server good state cursor list) :
    (∃ after, server state cursor = (.ok (list, none), after)) ∨
      ∃ page next after rest, server state cursor = (.ok (page, some next), after) ∧ good page next ∧
        list = page ++ rest ∧ Serves server good after (some next) rest := by
  obtain ⟨left, hleft, hlist⟩ := h
  obtain ⟨page, next, after, hserver, hnext⟩ := hleft state cursor list hlist
  cases next with
  | none =>
    obtain rfl : list = page := hnext
    exact .inl ⟨after, hserver⟩
  | some next =>
    obtain ⟨hgood, rest, hsplit, hrest⟩ := hnext
    exact .inr ⟨page, next, after, rest, hserver, hgood, hsplit, left, hleft, hrest⟩

theorem Serves.mono (himp : ∀ page next, good page next → good' page next)
    (h : Serves server good state cursor list) : Serves server good' state cursor list := by
  obtain ⟨left, hleft, hlist⟩ := h
  refine ⟨left, fun state cursor list hlist ↦ ?_, hlist⟩
  obtain ⟨page, next, after, hserver, hnext⟩ := hleft state cursor list hlist
  refine ⟨page, next, after, hserver, ?_⟩
  cases next with
  | none => exact hnext
  | some next => exact hnext.imp_left (himp page next)

/-- A server whose cursors say where in the list a page of a size begins. -/
def cutting (size : ℕ) (positionOf : κ → ℕ) (cursorAt : ℕ → κ) (list : List α) : Server Unit κ α ε :=
  fun _ cursor ↦
    let start := cursor.elim 0 positionOf
    let next := if start + size < list.length then some (cursorAt (start + size)) else none
    (.ok ((list.drop start).take size, next), ())

theorem serves_cutting {size : ℕ} {positionOf : κ → ℕ} {cursorAt : ℕ → κ}
    (hcursor : ∀ position, positionOf (cursorAt position) = position) (list : List α) :
    Serves (cutting (ε := ε) size positionOf cursorAt list)
      (fun page next ↦ page.length = size ∧ ∃ position, next = cursorAt position) () none list := by
  refine ⟨fun _ cursor left ↦ left = list.drop (cursor.elim 0 positionOf), ?_, rfl⟩
  rintro _ cursor _ rfl
  unfold cutting
  dsimp only
  generalize cursor.elim 0 positionOf = start
  by_cases hmore : start + size < list.length
  · refine ⟨_, _, (), rfl, ?_⟩
    rw [if_pos hmore]
    dsimp only [Option.elim_some]
    refine ⟨⟨?_, start + size, rfl⟩, list.drop (start + size), ?_, by rw [hcursor]⟩
    · rw [List.length_take, List.length_drop]
      omega
    · rw [← List.drop_drop, List.take_append_drop]
  · refine ⟨_, _, (), rfl, ?_⟩
    rw [if_neg hmore]
    dsimp only
    rw [List.take_of_length_le]
    rw [List.length_drop]
    omega

end OsrsMap.Pages
