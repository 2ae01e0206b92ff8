import Mathlib.Init

/-!
# Programs of atomic operations

A program that works on a shared state does so one atomic operation at a time, and may be refused
one, which ends it. Run alone it is a function of the state. Run next to others, the state may have
changed by steps of theirs before each of its operations: what is left of it is safe when its
operations keep the invariant whatever the others did in between.
-/

namespace OsrsMap

/-- What to do next: nothing more, or an operation and what comes after its answer. -/
inductive Program (Op : Type) (Answer : Op → Type) (α : Type) where
  | done (result : α)
  | call (op : Op) (next : Answer op → Program Op Answer α)

namespace Program

variable {Op : Type} {Answer : Op → Type} {α β σ : Type}

def bind : Program Op Answer α → (α → Program Op Answer β) → Program Op Answer β
  | done result, f => f result
  | call op next, f => call op fun answer ↦ (next answer).bind f

/-- A single operation. -/
def lift (op : Op) : Program Op Answer (Answer op) := call op done

instance : Monad (Program Op Answer) where
  pure := done
  bind := bind

@[simp]
theorem pure_eq (result : α) : (pure result : Program Op Answer α) = done result := rfl

@[simp]
theorem done_bind (result : α) (f : α → Program Op Answer β) : (done result >>= f) = f result := rfl

@[simp]
theorem call_bind (op : Op) (next : Answer op → Program Op Answer α)
    (f : α → Program Op Answer β) :
    (call op next >>= f) = call op fun answer ↦ next answer >>= f := rfl

/-! ## Running alone -/

variable (exec : (op : Op) → σ → Option (Answer op × σ))

/-- Runs a program with nothing in between; there is no result when an operation was refused. -/
def run : Program Op Answer α → σ → Option α × σ
  | done result, state => (some result, state)
  | call op next, state =>
    match exec op state with
    | some (answer, state) => (next answer).run state
    | none => (none, state)

@[simp]
theorem run_done (result : α) (state : σ) :
    (done result : Program Op Answer α).run exec state = (some result, state) := rfl

theorem run_call {op : Op} {state state' : σ} {answer : Answer op}
    (h : exec op state = some (answer, state')) (next : Answer op → Program Op Answer α) :
    (call op next).run exec state = (next answer).run exec state' := by
  rw [run, h]

theorem run_bind (program : Program Op Answer α) (f : α → Program Op Answer β) (state : σ) :
    (program >>= f).run exec state =
      match program.run exec state with
      | (some result, state) => (f result).run exec state
      | (none, state) => (none, state) := by
  induction program generalizing state with
  | done result => rfl
  | call op next ih =>
    rw [call_bind, run, run]
    cases exec op state with
    | none => rfl
    | some answered => exact ih answered.1 answered.2

/-- Run alone, the program ends in a state with `inv`, also when it is refused an operation, and with
`post` when it is through. -/
def Ends (inv : σ → Prop) (post : α → σ → Prop) (program : Program Op Answer α) (state : σ) : Prop :=
  inv (program.run exec state).2 ∧
    ∀ result ∈ (program.run exec state).1, post result (program.run exec state).2

section Ends

variable {exec} {inv : σ → Prop} {post : α → σ → Prop} {post' : β → σ → Prop} {state : σ}

theorem ends_done {result : α} (hinv : inv state) (hpost : post result state) :
    (done result : Program Op Answer α).Ends exec inv post state := by
  refine ⟨hinv, fun other hother ↦ ?_⟩
  obtain rfl := Option.some.inj hother
  exact hpost

theorem ends_call {op : Op} {next : Answer op → Program Op Answer α} (hinv : inv state)
    (h : ∀ answer after, exec op state = some (answer, after) →
      (next answer).Ends exec inv post after) : (call op next).Ends exec inv post state := by
  unfold Ends
  rw [run]
  cases hexec : exec op state with
  | none => exact ⟨hinv, fun result hresult ↦ absurd hresult (by simp)⟩
  | some answered => exact h answered.1 answered.2 hexec

theorem Ends.bind {program : Program Op Answer α} {f : α → Program Op Answer β}
    (h : program.Ends exec inv post state)
    (hf : ∀ result state, inv state → post result state → (f result).Ends exec inv post' state) :
    (program >>= f).Ends exec inv post' state := by
  obtain ⟨hinv, hpost⟩ := h
  unfold Ends
  rw [run_bind]
  generalize program.run exec state = ran at hinv hpost
  obtain ⟨result, after⟩ := ran
  cases result with
  | none => exact ⟨hinv, fun result hresult ↦ absurd hresult (by simp)⟩
  | some result => exact hf result after hinv (hpost result rfl)

end Ends

variable {exec} in
/-- What no operation depends on, no program depends on. -/
theorem run_map {g : σ → σ}
    (hg : ∀ op state, exec op (g state) = (exec op state).map fun done ↦ (done.1, g done.2))
    (program : Program Op Answer α) (state : σ) :
    program.run exec (g state) = ((program.run exec state).1, g (program.run exec state).2) := by
  induction program generalizing state with
  | done result => rfl
  | call op next ih =>
    rw [run, run, hg]
    cases exec op state with
    | none => rfl
    | some answered => exact ih answered.1 answered.2

/-! ## The operations of a program -/

/-- The program does no operations but these, whatever they answer. -/
def Only (p : Op → Prop) : Program Op Answer α → Prop
  | done _ => True
  | call op next => p op ∧ ∀ answer, Only p (next answer)

@[simp]
theorem only_done {p : Op → Prop} (result : α) : (done result : Program Op Answer α).Only p :=
  trivial

@[simp]
theorem only_call {p : Op → Prop} {op : Op} {next : Answer op → Program Op Answer α} :
    (call op next).Only p ↔ p op ∧ ∀ answer, (next answer).Only p := Iff.rfl

theorem Only.bind {p : Op → Prop} {program : Program Op Answer α} {f : α → Program Op Answer β}
    (h : program.Only p) (hf : ∀ result, (f result).Only p) : (program >>= f).Only p := by
  induction program with
  | done result => exact hf result
  | call op next ih => exact ⟨h.1, fun answer ↦ ih answer (h.2 answer)⟩

/-! ## Running next to others -/

section Safe

variable (others : σ → σ → Prop) (allowed lost : Op → σ → Prop) (inv : σ → Prop)

/-- Whatever the others do before each operation, `lost` holds where it may be refused, the invariant
is kept by every operation that is allowed where it is done, and `post` holds when the program is
through. -/
def Safe (post : α → σ → Prop) : Program Op Answer α → σ → Prop
  | done result, state => ∀ state', others state state' → inv state' → post result state'
  | call op next, state => ∀ state', others state state' → inv state' →
      lost op state' ∧ (allowed op state' → ∀ answer after, exec op state' = some (answer, after) →
        inv after ∧ Safe post (next answer) after)

variable {exec others allowed lost inv}

/-- A program is through when `post` holds and keeps holding. -/
theorem safe_done {post : α → σ → Prop} {result : α} {state : σ}
    (hstable : ∀ state', others state state' → inv state' → post result state') :
    (done result).Safe exec others allowed lost inv post state := hstable

/-- An operation is safe when what is known before it keeps holding. -/
theorem safe_call {post : α → σ → Prop} {op : Op} {next : Answer op → Program Op Answer α} {state : σ}
    {K : σ → Prop} (hknown : ∀ state', others state state' → inv state' → K state')
    (h : ∀ state', inv state' → K state' →
      lost op state' ∧ (allowed op state' → ∀ answer after, exec op state' = some (answer, after) →
        inv after ∧ (next answer).Safe exec others allowed lost inv post after)) :
    (call op next).Safe exec others allowed lost inv post state :=
  fun state' hothers hinv ↦ h state' hinv (hknown state' hothers hinv)

/-- Steps of the others leave a program safe. -/
theorem Safe.later (htrans : ∀ {a b c}, others a b → others b c → others a c)
    {post : α → σ → Prop} {program : Program Op Answer α} {state state' : σ}
    (h : program.Safe exec others allowed lost inv post state) (hothers : others state state') :
    program.Safe exec others allowed lost inv post state' := by
  cases program with
  | done result => exact fun after hafter hinv ↦ h after (htrans hothers hafter) hinv
  | call op next => exact fun after hafter hinv ↦ h after (htrans hothers hafter) hinv

theorem Safe.mono {post post' : α → σ → Prop} (himp : ∀ result state, post result state → post' result state)
    {program : Program Op Answer α} {state : σ}
    (h : program.Safe exec others allowed lost inv post state) :
    program.Safe exec others allowed lost inv post' state := by
  induction program generalizing state with
  | done result => exact fun state' hothers hinv ↦ himp result state' (h state' hothers hinv)
  | call op next ih =>
    intro state' hothers hinv
    obtain ⟨hlost, hstep⟩ := h state' hothers hinv
    refine ⟨hlost, fun hallowed answer after hexec ↦ ?_⟩
    obtain ⟨hafter, hsafe⟩ := hstep hallowed answer after hexec
    exact ⟨hafter, ih answer hsafe⟩

theorem Safe.bind {post : α → σ → Prop} {post' : β → σ → Prop} {program : Program Op Answer α}
    {f : α → Program Op Answer β} {state : σ} (hrefl : ∀ state, others state state)
    (h : program.Safe exec others allowed lost inv post state)
    (hf : ∀ result state, inv state → post result state →
      (f result).Safe exec others allowed lost inv post' state) (hinv : inv state) :
    (program >>= f).Safe exec others allowed lost inv post' state := by
  induction program generalizing state with
  | done result => exact hf result state hinv (h state (hrefl state) hinv)
  | call op next ih =>
    intro state' hothers hinv
    obtain ⟨hlost, hstep⟩ := h state' hothers hinv
    refine ⟨hlost, fun hallowed answer after hexec ↦ ?_⟩
    obtain ⟨hafter, hsafe⟩ := hstep hallowed answer after hexec
    exact ⟨hafter, ih answer hsafe hafter⟩

/-- A fact that the others and all operations of a program keep holds when it is through. -/
theorem Only.safe {p : Op → Prop} {program : Program Op Answer α} (h : program.Only p)
    {known : σ → Prop} {state : σ} (hstart : known state)
    (hothers : ∀ {state state'}, known state → others state state' → known state')
    (hlost : ∀ {op state}, p op → known state → lost op state)
    (hstep : ∀ {op state answer after}, p op → inv state → known state → allowed op state →
      exec op state = some (answer, after) → inv after ∧ known after) :
    program.Safe exec others allowed lost inv (fun _ ↦ known) state := by
  induction program generalizing state with
  | done result => exact fun state' hstate' _ ↦ hothers hstart hstate'
  | call op next ih =>
    intro state' hstate' hinv
    have hknown := hothers hstart hstate'
    refine ⟨hlost h.1 hknown, fun hallowed answer after hexec ↦ ?_⟩
    obtain ⟨hafter, hknown'⟩ := hstep h.1 hinv hknown hallowed hexec
    exact ⟨hafter, ih answer (h.2 answer) hknown'⟩

end Safe

end Program

end OsrsMap
