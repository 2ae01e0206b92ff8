import Mathlib.Data.List.Basic
import Mathlib.Algebra.Order.BigOperators.Group.List
import Mathlib.Algebra.Order.Ring.Nat
import Mathlib.Tactic.TypeStar

/-!
# Worklists

A loop over a stack of tasks: the last task put there is taken first, does something to a state
and may put smaller tasks in its place. Such a loop ends, and since it is a stack, it does with a
task and everything that comes of it exactly what a recursive call would do before it goes on.
-/

namespace OsrsMap

/-- What the loop does with one task, the tasks it puts on the stack (the next one first), and a
size that the tasks put there stay below together. -/
structure Worklist (τ σ : Type*) where
  expand : τ → σ → List τ × σ
  size : τ → ℕ
  shrinks : ∀ task state, ((expand task state).1.map size).sum < size task

namespace Worklist

variable {τ σ : Type*} (work : Worklist τ σ)

/-- The loop: runs until the stack is empty. -/
def drain : List τ → σ → σ
  | [], state => state
  | task :: tasks, state =>
    drain ((work.expand task state).1 ++ tasks) (work.expand task state).2
termination_by tasks => (tasks.map work.size).sum
decreasing_by
  have := work.shrinks task state
  simp only [List.map_append, List.sum_append, List.map_cons, List.sum_cons]
  omega

@[simp]
theorem drain_nil (state : σ) : work.drain [] state = state := by
  rw [drain]

theorem drain_cons (task : τ) (tasks : List τ) (state : σ) :
    work.drain (task :: tasks) state =
      work.drain ((work.expand task state).1 ++ tasks) (work.expand task state).2 := by
  rw [drain]

theorem drain_append (first second : List τ) (state : σ) :
    work.drain (first ++ second) state = work.drain second (work.drain first state) := by
  induction first, state using drain.induct work with
  | case1 state => simp
  | case2 task tasks state ih =>
    rw [List.cons_append, drain_cons, drain_cons, ← List.append_assoc, ih]

/-- The loop as a recursion: a task is done with all that comes of it before the next one. -/
theorem drain_singleton (task : τ) (state : σ) :
    work.drain [task] state = work.drain (work.expand task state).1 (work.expand task state).2 := by
  rw [drain_cons, List.append_nil]

/-- What every task keeps, the loop keeps. -/
theorem drain_keeps (T : τ → Prop) (P : σ → Prop) {tasks : List τ} {state : σ}
    (h : ∀ task state, T task → P state →
      (∀ next ∈ (work.expand task state).1, T next) ∧ P (work.expand task state).2)
    (htasks : ∀ task ∈ tasks, T task) (hstate : P state) : P (work.drain tasks state) := by
  induction tasks, state using drain.induct work with
  | case1 state => rwa [drain_nil]
  | case2 task tasks state ih =>
    obtain ⟨hnext, hafter⟩ := h task state (htasks task List.mem_cons_self) hstate
    rw [drain_cons]
    apply ih _ hafter
    intro next hmem
    obtain hmem | hmem := List.mem_append.mp hmem
    · exact hnext next hmem
    · exact htasks next (List.mem_cons_of_mem _ hmem)

/-- Two loops in step: what one does with a task, the other does with the task it stands for. -/
theorem drain_map {τ' σ' : Type*} (work' : Worklist τ' σ') (stands : τ' → τ) (view : σ → σ')
    {T : τ' → Prop}
    (h : ∀ task state, T task →
      (∀ next ∈ (work'.expand task (view state)).1, T next) ∧
      (work.expand (stands task) state).1 = (work'.expand task (view state)).1.map stands ∧
      view (work.expand (stands task) state).2 = (work'.expand task (view state)).2)
    {tasks : List τ'} {state : σ} (htasks : ∀ task ∈ tasks, T task) :
    view (work.drain (tasks.map stands) state) = work'.drain tasks (view state) := by
  generalize hview : view state = seen
  induction tasks, seen using drain.induct work' generalizing state with
  | case1 seen => rw [List.map_nil, drain_nil, drain_nil, hview]
  | case2 task tasks seen ih =>
    obtain ⟨hnext, hexpand, hafter⟩ := h task state (htasks task List.mem_cons_self)
    rw [hview] at hnext hexpand hafter
    rw [List.map_cons, drain_cons, drain_cons, hexpand, ← List.map_append]
    apply ih _ hafter
    intro next hmem
    obtain hmem | hmem := List.mem_append.mp hmem
    · exact hnext next hmem
    · exact htasks next (List.mem_cons_of_mem _ hmem)

/-- The induction over what comes of a task. -/
theorem induct {P : τ → Prop}
    (h : ∀ task, (∀ smaller, work.size smaller < work.size task → P smaller) → P task)
    (task : τ) : P task := by
  induction hsize : work.size task using Nat.strong_induction_on generalizing task with
  | _ size ih =>
    subst hsize
    exact h task fun smaller hsmaller ↦ ih _ hsmaller smaller rfl

theorem size_lt_of_mem {task smaller : τ} {state : σ}
    (h : smaller ∈ (work.expand task state).1) : work.size smaller < work.size task :=
  lt_of_le_of_lt (List.single_le_sum (fun _ _ ↦ Nat.zero_le _) _
    (List.mem_map_of_mem h)) (work.shrinks task state)

end Worklist

end OsrsMap
