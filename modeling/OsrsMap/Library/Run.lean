import Mathlib.Data.List.Infix
import Mathlib.Data.Nat.Find
import Mathlib.Tactic.TypeStar

/-!
# Runs of a step function

A run applies a list of events to a state, one after the other. `Always` says that a property
holds in every state a run goes through, `Along` that every event meets a condition in the state
it is taken in. The rules carry what one step preserves to whole runs, also when a step keeps
the property only under such a condition. Runs that stop and what is observed of a run have rules of
their own.
-/

namespace OsrsMap.Run

variable {σ ε : Type*} (step : σ → ε → σ)

/-- Every event of the run meets `good` in the state it is taken in. -/
def Along (good : σ → ε → Prop) : σ → List ε → Prop
  | _, [] => True
  | state, event :: events => good state event ∧ Along good (step state event) events

/-- The property holds in every state the run goes through, the first and the last included. -/
def Always (P : σ → Prop) (state : σ) (events : List ε) : Prop :=
  ∀ before, before <+: events → P (before.foldl step state)

variable {step} {good good' : σ → ε → Prop} {P Q : σ → Prop}

instance decidableAlong [∀ state event, Decidable (good state event)] :
    (state : σ) → (events : List ε) → Decidable (Along step good state events)
  | _, [] => inferInstanceAs (Decidable True)
  | state, event :: events =>
    have := decidableAlong (step state event) events
    inferInstanceAs (Decidable (good state event ∧ Along step good (step state event) events))

@[simp]
theorem along_nil (state : σ) : Along step good state [] := trivial

@[simp]
theorem along_cons (state : σ) (event : ε) (events : List ε) :
    Along step good state (event :: events) ↔
      good state event ∧ Along step good (step state event) events := Iff.rfl

theorem along_append (state : σ) (first second : List ε) :
    Along step good state (first ++ second) ↔
      Along step good state first ∧ Along step good (first.foldl step state) second := by
  induction first generalizing state with
  | nil => simp
  | cons event first ih => simp [ih, and_assoc]

theorem Along.mono (himp : ∀ state event, good state event → good' state event) {state : σ}
    {events : List ε} (h : Along step good state events) : Along step good' state events := by
  induction events generalizing state with
  | nil => trivial
  | cons event events ih => exact ⟨himp _ _ h.1, ih h.2⟩

theorem along_true (state : σ) (events : List ε) : Along step (fun _ _ ↦ True) state events := by
  induction events generalizing state with
  | nil => trivial
  | cons event events ih => exact ⟨trivial, ih _⟩

theorem along_of_forall_mem {state : σ} {events : List ε} {allowed : ε → Prop}
    (h : ∀ event ∈ events, allowed event) : Along step (fun _ event ↦ allowed event) state events := by
  induction events generalizing state with
  | nil => trivial
  | cons event events ih =>
    exact ⟨h event List.mem_cons_self, ih fun later hlater ↦ h later (List.mem_cons_of_mem _ hlater)⟩

theorem along_and {state : σ} {events : List ε} (h : Along step good state events)
    (h' : Along step good' state events) :
    Along step (fun state event ↦ good state event ∧ good' state event) state events := by
  induction events generalizing state with
  | nil => trivial
  | cons event events ih => exact ⟨⟨h.1, h'.1⟩, ih h.2 h'.2⟩

@[simp]
theorem always_nil (state : σ) : Always step P state [] ↔ P state := by
  simp [Always, List.prefix_nil]

theorem always_cons (state : σ) (event : ε) (events : List ε) :
    Always step P state (event :: events) ↔
      P state ∧ Always step P (step state event) events := by
  constructor
  · intro h
    refine ⟨h [] (List.nil_prefix), fun before hbefore ↦ ?_⟩
    exact h (event :: before) (List.cons_prefix_cons.mpr ⟨rfl, hbefore⟩)
  · rintro ⟨hstart, hrest⟩ before hbefore
    cases before with
    | nil => exact hstart
    | cons first before =>
      obtain ⟨rfl, htail⟩ := List.cons_prefix_cons.mp hbefore
      exact hrest before htail

theorem Always.start {state : σ} {events : List ε} (h : Always step P state events) : P state :=
  h [] List.nil_prefix

theorem Always.final {state : σ} {events : List ε} (h : Always step P state events) :
    P (events.foldl step state) := h events (List.prefix_refl events)

theorem Always.mono (himp : ∀ state, P state → Q state) {state : σ} {events : List ε}
    (h : Always step P state events) : Always step Q state events :=
  fun before hbefore ↦ himp _ (h before hbefore)

/-- The invariant rule: what every step that meets its condition preserves holds all along. -/
theorem always_of_along (hstep : ∀ state event, P state → good state event → P (step state event))
    {state : σ} {events : List ε} (hstart : P state) (h : Along step good state events) :
    Always step P state events := by
  induction events generalizing state with
  | nil => simpa using hstart
  | cons event events ih =>
    rw [always_cons]
    exact ⟨hstart, ih (hstep state event hstart h.1) h.2⟩

/-- What holds all along may be used for the events. -/
theorem Always.along (himp : ∀ state event, P state → good state event → good' state event)
    {state : σ} {events : List ε} (hP : Always step P state events)
    (h : Along step good state events) : Along step good' state events := by
  induction events generalizing state with
  | nil => trivial
  | cons event events ih =>
    obtain ⟨hstart, hrest⟩ := (always_cons state event events).mp hP
    exact ⟨himp state event hstart h.1, ih hrest h.2⟩

/-- When a step keeps the property exactly under a condition, a run that starts with the property
keeps it exactly when all of its steps meet the condition. The condition may be exact only for the
events that are allowed, in states with an invariant that is kept as long as the property is. -/
theorem always_iff_along_of_kept {Inv : σ → Prop}
    (hinv : ∀ state event, Inv state → good state event → P (step state event) → Inv (step state event))
    (hstep : ∀ state event, Inv state → good state event → (P (step state event) ↔ good' state event))
    {state : σ} {events : List ε} (hstart : Inv state) (hP : P state)
    (h : Along step good state events) :
    Always step P state events ↔ Along step good' state events := by
  induction events generalizing state with
  | nil => simpa using hP
  | cons event events ih =>
    rw [always_cons, along_cons, and_iff_right hP, ← hstep state event hstart h.1]
    constructor
    · intro hrest
      exact ⟨hrest.start, (ih (hinv state event hstart h.1 hrest.start) hrest.start h.2).mp hrest⟩
    · rintro ⟨hnext, hrest⟩
      exact (ih (hinv state event hstart h.1 hnext) hnext h.2).mpr hrest

/-- The same with an invariant that every step keeps. -/
theorem always_iff_along_of_allowed {Inv : σ → Prop} (hinv : ∀ state event, Inv state → Inv (step state event))
    (hstep : ∀ state event, Inv state → P state → good state event →
      (P (step state event) ↔ good' state event))
    {state : σ} {events : List ε} (hstart : Inv state) (hP : P state)
    (h : Along step good state events) :
    Always step P state events ↔ Along step good' state events :=
  @always_iff_along_of_kept _ _ step good good' P (fun state ↦ Inv state ∧ P state)
    (fun state event hstate _ hnext ↦ ⟨hinv state event hstate.1, hnext⟩)
    (fun state event hstate ↦ hstep state event hstate.1 hstate.2) state events ⟨hstart, hP⟩ hP h

/-- The same without an invariant. -/
theorem always_iff_along
    (hstep : ∀ state event, P state → good state event → (P (step state event) ↔ good' state event))
    {state : σ} {events : List ε} (hstart : P state) (h : Along step good state events) :
    Always step P state events ↔ Along step good' state events :=
  @always_iff_along_of_allowed _ _ step good good' P (fun _ ↦ True) (fun _ _ _ ↦ trivial)
    (fun state event _ ↦ hstep state event) state events trivial hstart h

/-- The same where all events are allowed. -/
theorem always_iff_along_of_invariant {Inv : σ → Prop}
    (hinv : ∀ state event, Inv state → Inv (step state event))
    (hstep : ∀ state event, Inv state → P state → (P (step state event) ↔ good state event))
    {state : σ} {events : List ε} (hstart : Inv state) (hP : P state) :
    Always step P state events ↔ Along step good state events :=
  always_iff_along_of_allowed hinv (fun state event hstate hholds _ ↦ hstep state event hstate hholds)
    hstart hP (along_true state events)

/-- What no step repairs holds in the end exactly if it held all along. -/
theorem final_iff_always (hback : ∀ state event, P (step state event) → P state) {state : σ}
    (events : List ε) : P (events.foldl step state) ↔ Always step P state events := by
  induction events generalizing state with
  | nil => simp
  | cons event events ih =>
    rw [always_cons, List.foldl_cons, ih]
    exact ⟨fun h ↦ ⟨hback state event h.start, h⟩, fun h ↦ h.2⟩

/-- What every step keeps once it holds, holds in every later state of a run. -/
theorem foldl_of_step (hstep : ∀ state event, P state → P (step state event)) {state : σ}
    (events : List ε) (h : P state) : P (events.foldl step state) := by
  induction events generalizing state with
  | nil => exact h
  | cons event events ih => exact ih (hstep state event h)

/-- Two step functions that keep a relation between their states keep it through the same events. -/
theorem foldl_related {τ : Type*} {step' : τ → ε → τ} {R : σ → τ → Prop} {allowed : ε → Prop}
    (hstep : ∀ state state' event, R state state' → allowed event → R (step state event) (step' state' event))
    {state : σ} {state' : τ} {events : List ε} (hstart : R state state')
    (hallowed : ∀ event ∈ events, allowed event) : R (events.foldl step state) (events.foldl step' state') := by
  induction events generalizing state state' with
  | nil => exact hstart
  | cons event events ih =>
    exact ih (hstep state state' event hstart (hallowed event List.mem_cons_self))
      fun later hlater ↦ hallowed later (List.mem_cons_of_mem _ hlater)

/-! ## Runs that stop -/

/-- A run that goes on only while a rank falls has stopped after as many events as the rank. -/
theorem stopped_of_rank {running : σ → Prop} {rank : σ → ℕ} {allowed : ε → Prop}
    (hinv : ∀ state event, P state → allowed event → P (step state event))
    (hrank : ∀ state event, P state → allowed event → running (step state event) →
      running state ∧ rank (step state event) < rank state)
    {state : σ} {events : List ε} (hstart : P state) (hallowed : ∀ event ∈ events, allowed event)
    (hlength : rank state < events.length) : ¬ running (events.foldl step state) := by
  -- As long as the run goes on, every event has taken at least one from the rank.
  have hfall (events : List ε) (state : σ) (hstart : P state)
      (hallowed : ∀ event ∈ events, allowed event) (hruns : running (events.foldl step state)) :
      running state ∧ rank (events.foldl step state) + events.length ≤ rank state := by
    induction events generalizing state with
    | nil => exact ⟨hruns, le_rfl⟩
    | cons event events ih =>
      have hevent := hallowed event List.mem_cons_self
      obtain ⟨hnext, hrest⟩ := ih (step state event) (hinv state event hstart hevent)
        (fun later hlater ↦ hallowed later (List.mem_cons_of_mem _ hlater)) hruns
      obtain ⟨hstate, hlt⟩ := hrank state event hstart hevent hnext
      rw [List.foldl_cons, List.length_cons]
      exact ⟨hstate, by omega⟩
  intro hruns
  have := (hfall events state hstart hallowed hruns).2
  omega

/-! ## What is observed of a run -/

section Observed

variable {β : Type*} (step) (observe : σ → σ → Option β)

/-- What is observed between a state and the next, along a run. -/
def observed : σ → List ε → List β
  | _, [] => []
  | state, event :: events =>
    (observe state (step state event)).toList ++ observed (step state event) events

variable {step observe} {allowed : ε → Prop}

/-- When every step observes the first of what is to come and leaves the rest, a run observes all
that its last state does not leave. -/
theorem observed_append_remaining {remaining : σ → List β}
    (hinv : ∀ state event, P state → allowed event → P (step state event))
    (hstep : ∀ state event, P state → allowed event →
      (observe state (step state event)).toList ++ remaining (step state event) = remaining state)
    {state : σ} {events : List ε} (hstart : P state) (hallowed : ∀ event ∈ events, allowed event) :
    observed step observe state events ++ remaining (events.foldl step state) = remaining state := by
  induction events generalizing state with
  | nil => rfl
  | cons event events ih =>
    have hevent := hallowed event List.mem_cons_self
    rw [observed, List.foldl_cons, List.append_assoc, ih (hinv state event hstart hevent)
      fun later hlater ↦ hallowed later (List.mem_cons_of_mem _ hlater)]
    exact hstep state event hstart hevent

/-- What is observed lies in the order of a position that never goes back and passes over each
observation. -/
theorem pairwise_observed {α : Type*} [Preorder α] {position : σ → α} {place : β → α}
    (hinv : ∀ state event, P state → allowed event → P (step state event))
    (hstep : ∀ state event, P state → allowed event → position state ≤ position (step state event) ∧
      ∀ seen ∈ observe state (step state event),
        position state < place seen ∧ place seen ≤ position (step state event))
    {state : σ} {events : List ε} (hstart : P state) (hallowed : ∀ event ∈ events, allowed event) :
    (∀ seen ∈ observed step observe state events, position state < place seen) ∧
      (observed step observe state events).Pairwise fun a b ↦ place a < place b := by
  induction events generalizing state with
  | nil => exact ⟨fun _ hseen ↦ absurd hseen List.not_mem_nil, .nil⟩
  | cons event events ih =>
    have hevent := hallowed event List.mem_cons_self
    obtain ⟨hforth, hseen⟩ := hstep state event hstart hevent
    obtain ⟨hlater, hsorted⟩ := ih (hinv state event hstart hevent)
      fun later hlater ↦ hallowed later (List.mem_cons_of_mem _ hlater)
    rw [observed]
    constructor
    · intro seen hmem
      obtain hmem | hmem := List.mem_append.mp hmem
      · exact (hseen seen (Option.mem_toList.mp hmem)).1
      · exact hforth.trans_lt (hlater seen hmem)
    · apply List.pairwise_append.mpr
      refine ⟨?_, hsorted, fun first hfirst second hsecond ↦ ?_⟩
      · cases observe state (step state event) <;> simp
      · exact (hseen first (Option.mem_toList.mp hfirst)).2.trans_lt (hlater second hsecond)

end Observed

/-! ## Runs that go on -/

section Trace

variable (step) in
/-- The state before each event of a run that does not end. -/
def trace (state : σ) (events : ℕ → ε) : ℕ → σ
  | 0 => state
  | n + 1 => step (trace state events n) (events n)

variable {state : σ} {events : ℕ → ε}

theorem trace_succ (n : ℕ) :
    trace step state events (n + 1) = step (trace step state events n) (events n) := rfl

/-- What every step up to the first event of a kind preserves holds when it comes. -/
theorem trace_until {awaited : ε → Prop} [DecidablePred awaited] {n : ℕ}
    (hsome : ∃ m ≥ n, awaited (events m)) (hstart : P (trace step state events n))
    (hstep : ∀ m, n ≤ m → ¬ awaited (events m) → P (trace step state events m) →
      P (trace step state events (m + 1))) :
    ∃ m ≥ n, awaited (events m) ∧ P (trace step state events m) := by
  have hfirst := Nat.find_spec hsome
  refine ⟨Nat.find hsome, hfirst.1, hfirst.2, ?_⟩
  have hwait (k : ℕ) (hk : n + k ≤ Nat.find hsome) : P (trace step state events (n + k)) := by
    induction k with
    | zero => exact hstart
    | succ k ih =>
      apply hstep (n + k) (Nat.le_add_right n k)
      · intro hearly
        exact Nat.find_min hsome (by omega) ⟨Nat.le_add_right n k, hearly⟩
      · exact ih (by omega)
  obtain ⟨k, hk⟩ := Nat.exists_eq_add_of_le hfirst.1
  rw [hk]
  exact hwait k hk.ge

end Trace

end OsrsMap.Run
