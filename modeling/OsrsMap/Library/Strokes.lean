import Mathlib.Data.List.Chain
import Mathlib.Tactic.TypeStar

/-!
# Lines drawn a stroke at a time

A pen draws segments one after the other. As long as the key stays the same it goes on with the path
it has begun; else it puts that one down as a stroke and begins another. The strokes have the segments
that were drawn, in their order, each in a stroke with its key.
-/

namespace OsrsMap.Strokes

/-- A path of places, with the key it was put down with. -/
structure Stroke (κ P : Type*) where
  key : κ
  start : P
  points : List P
deriving DecidableEq, Repr

/-- What was put down, and the path that is open. -/
structure Pen (κ P : Type*) where
  flushed : List (Stroke κ P)
  current : Option (Stroke κ P)

variable {κ P : Type*}

namespace Stroke

variable (stroke : Stroke κ P)

/-- Where the path has got to. -/
def last : P := stroke.points.getLastD stroke.start

def segments : List (P × P) := (stroke.start :: stroke.points).zip stroke.points

def lineTo (stop : P) : Stroke κ P := { stroke with points := stroke.points ++ [stop] }

@[simp]
theorem last_lineTo (stop : P) : (stroke.lineTo stop).last = stop := by
  simp [last, lineTo]

theorem segments_lineTo (stop : P) :
    (stroke.lineTo stop).segments = stroke.segments ++ [(stroke.last, stop)] := by
  obtain ⟨key, start, points⟩ := stroke
  unfold segments lineTo last
  dsimp only
  induction points generalizing start with
  | nil => rfl
  | cons point points ih =>
    rw [List.getLastD_cons, List.cons_append, List.zip_cons_cons, List.zip_cons_cons, ih]
    rfl

end Stroke

namespace Pen

variable {pen : Pen κ P} {keyAt : P → κ} {key : κ} {start stop : P} {line : List (P × P)}

def flush (pen : Pen κ P) : Pen κ P where
  flushed := pen.flushed ++ pen.current.toList
  current := none

/-- The strokes when the pen is put down. -/
def strokes (pen : Pen κ P) : List (Stroke κ P) := pen.flushed ++ pen.current.toList

def segments (pen : Pen κ P) : List (P × P) := pen.strokes.flatMap Stroke.segments

/-- The pen is where a segment begins, if it has a path open. -/
def At (pen : Pen κ P) (place : P) : Prop := ∀ stroke ∈ pen.current, stroke.last = place

/-- Every segment is in a stroke with the key of where it begins. -/
def Keyed (keyAt : P → κ) (pen : Pen κ P) : Prop :=
  ∀ stroke ∈ pen.strokes, ∀ segment ∈ stroke.segments, keyAt segment.1 = stroke.key

section Draw

variable [DecidableEq κ]

/-- Draws a segment: with the path that is open when the key is the same. -/
def lineTo (pen : Pen κ P) (key : κ) (start stop : P) : Pen κ P :=
  match pen.current with
  | some stroke =>
    if key = stroke.key then { pen with current := some (stroke.lineTo stop) }
    else { pen.flush with current := some { key, start, points := [stop] } }
  | none => { pen with current := some { key, start, points := [stop] } }

/-- Draws segments, each with the key of where it begins. -/
def draw (pen : Pen κ P) (keyAt : P → κ) (line : List (P × P)) : Pen κ P :=
  line.foldl (fun pen segment ↦ pen.lineTo (keyAt segment.1) segment.1 segment.2) pen

/-- A line goes on with the open path or begins one behind it. -/
theorem strokes_lineTo (pen : Pen κ P) (key : κ) (start stop : P) : (∃ stroke, pen.current = some stroke ∧ key = stroke.key ∧
      (pen.lineTo key start stop).strokes = pen.flushed ++ [stroke.lineTo stop]) ∨
    (pen.lineTo key start stop).strokes = pen.strokes ++ [{ key, start, points := [stop] }] := by
  unfold lineTo strokes flush
  cases pen.current with
  | none => exact .inr (by simp)
  | some stroke =>
    dsimp only
    split
    · next hkey => exact .inl ⟨stroke, rfl, hkey, rfl⟩
    · exact .inr rfl

theorem at_lineTo (pen : Pen κ P) : (pen.lineTo key start stop).At stop := by
  unfold lineTo
  intro stroke hstroke
  split at hstroke
  · split at hstroke
    · obtain rfl := Option.some.inj hstroke
      exact Stroke.last_lineTo _ stop
    · obtain rfl := Option.some.inj hstroke
      rfl
  · obtain rfl := Option.some.inj hstroke
    rfl

theorem segments_lineTo (h : pen.At start) :
    (pen.lineTo key start stop).segments = pen.segments ++ [(start, stop)] := by
  unfold Pen.segments
  obtain ⟨stroke, hcurrent, -, hstrokes⟩ | hstrokes :=
    strokes_lineTo pen key start stop
  · have hlast : stroke.last = start := h stroke hcurrent
    rw [hstrokes, List.flatMap_append, List.flatMap_singleton, Stroke.segments_lineTo, hlast,
      ← List.append_assoc]
    unfold strokes
    rw [hcurrent, List.flatMap_append, Option.toList_some, List.flatMap_singleton]
  · rw [hstrokes, List.flatMap_append, List.flatMap_singleton]
    rfl

theorem Keyed.lineTo (h : pen.Keyed keyAt) (hat : pen.At start) :
    (pen.lineTo (keyAt start) start stop).Keyed keyAt := by
  intro stroke hstroke segment hsegment
  obtain ⟨path, hcurrent, hkey, hstrokes⟩ | hstrokes :=
    strokes_lineTo pen (keyAt start) start stop
  · rw [hstrokes] at hstroke
    obtain hstroke | hstroke := List.mem_append.mp hstroke
    · exact h stroke (List.mem_append_left _ hstroke) segment hsegment
    · rw [List.mem_singleton] at hstroke
      subst hstroke
      rw [Stroke.segments_lineTo] at hsegment
      obtain hsegment | hsegment := List.mem_append.mp hsegment
      · exact h path (List.mem_append_right _ (by simp [hcurrent])) segment hsegment
      · rw [List.mem_singleton] at hsegment
        subst hsegment
        exact (congrArg keyAt (hat path hcurrent)).trans hkey
  · rw [hstrokes] at hstroke
    obtain hstroke | hstroke := List.mem_append.mp hstroke
    · exact h stroke hstroke segment hsegment
    · rw [List.mem_singleton] at hstroke
      subst hstroke
      rw [Stroke.segments, List.zip_cons_cons, List.zip_nil_right, List.mem_singleton] at hsegment
      subst hsegment
      rfl

/-- What is drawn of a line is what was drawn before and all of its segments, with their keys. -/
theorem draw_spec (hline : line.IsChain fun a b ↦ a.2 = b.1)
    (hat : ∀ first ∈ line.head?, pen.At first.1) (hkeyed : pen.Keyed keyAt) :
    (pen.draw keyAt line).segments = pen.segments ++ line ∧
      (pen.draw keyAt line).Keyed keyAt := by
  induction line generalizing pen with
  | nil => exact ⟨(List.append_nil _).symm, hkeyed⟩
  | cons segment line ih =>
    have hstart : pen.At segment.1 := hat segment rfl
    have hnext : ∀ first ∈ line.head?,
        (pen.lineTo (keyAt segment.1) segment.1 segment.2).At first.1 := by
      intro first hfirst
      obtain ⟨rest, rfl⟩ := List.head?_eq_some_iff.mp hfirst
      rw [← (List.isChain_cons_cons.mp hline).1]
      exact at_lineTo pen
    obtain ⟨hsegments, hkeyed'⟩ := ih hline.tail hnext (hkeyed.lineTo hstart)
    refine ⟨?_, hkeyed'⟩
    rw [draw, List.foldl_cons]
    refine hsegments.trans ?_
    rw [segments_lineTo hstart, List.append_assoc]
    rfl

end Draw

theorem flushed_flush : pen.flush.flushed = pen.strokes := rfl

end Pen

end OsrsMap.Strokes
