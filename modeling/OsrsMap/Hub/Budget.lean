import OsrsMap.Library.Run
import Mathlib.Data.List.TakeWhile
import Mathlib.Data.Nat.Notation

/-!
# The request budget

`HubClient::acquire` and `block_for` (`server/src/hub/client.rs`): a queue of the times requests were
granted at, of which the last minute counts, shared by the sync and by interactive requests, which
are refused earlier. Times are nanoseconds. A subtraction that the source would panic on is checked.
-/

namespace OsrsMap.Hub

/-- `BUDGET_WINDOW`. -/
def budgetWindow : ℕ := 60 * 1000000000

inductive Priority where
  | sync
  | interactive
deriving DecidableEq, Repr

structure Budget where
  sent : List ℕ
  blockedUntil : Option ℕ
deriving DecidableEq, Repr

/-- Requests per minute kept free for the sync loop: a quarter of the budget, at least 10, but never
more than half. -/
def interactiveReserve (budgetPerMin : ℕ) : ℕ := min (max (budgetPerMin / 4) 10) (budgetPerMin / 2)

/-- A subtraction of unsigned numbers, or of an `Instant` from one that is not earlier. -/
def checkedSub (a b : ℕ) : Option ℕ := if b ≤ a then some (a - b) else none

def limit (budgetPerMin : ℕ) : Priority → Option ℕ
  | .sync => some budgetPerMin
  | .interactive => checkedSub budgetPerMin (interactiveReserve budgetPerMin)

/-- The requests that still count: `duration_since` saturates. -/
def trim (now : ℕ) (sent : List ℕ) : List ℕ :=
  sent.dropWhile fun time ↦ decide (budgetWindow ≤ now - time)

/-- How long until the oldest request no longer counts. -/
def waitFor (now : ℕ) (sent : List ℕ) : ℕ :=
  match sent.head? with
  | none => budgetWindow
  | some oldest => budgetWindow - (now - oldest)

/-- `acquire` when no block is in force. -/
def acquireSlot (budgetPerMin : ℕ) (priority : Priority) (now : ℕ) (sent : List ℕ) :
    Option (Except ℕ Unit × Budget) :=
  let sent := trim now sent
  (limit budgetPerMin priority).map fun limit ↦
    if limit ≤ sent.length then (.error (waitFor now sent), { sent, blockedUntil := none })
    else (.ok (), { sent := sent ++ [now], blockedUntil := none })

/-- Reserves a request slot, or says how long to wait; none when a subtraction would underflow. -/
def acquire (budgetPerMin : ℕ) (priority : Priority) (now : ℕ) (budget : Budget) :
    Option (Except ℕ Unit × Budget) :=
  match budget.blockedUntil with
  | some blocked =>
    if now < blocked then (checkedSub blocked now).map fun wait ↦ (.error wait, budget)
    else acquireSlot budgetPerMin priority now budget.sent
  | none => acquireSlot budgetPerMin priority now budget.sent

def blockFor (duration now : ℕ) (budget : Budget) : Budget :=
  if budget.blockedUntil.all (· < now + duration) then
    { budget with blockedUntil := some (now + duration) }
  else budget

/-! ## Runs -/

structure Grant where
  time : ℕ
  priority : Priority
deriving DecidableEq, Repr

/-- The client. Not of the code: what was granted, oldest first, the ends of the blocks asked for,
and whether a subtraction underflowed. -/
structure Client where
  budget : Budget
  clock : ℕ
  granted : List Grant
  blocks : List ℕ
  underflow : Bool

/-- A call, some time after the one before. -/
inductive Call where
  | acquire (priority : Priority) (elapsed : ℕ)
  | blockFor (duration elapsed : ℕ)

namespace Client

def new : Client where
  budget := { sent := [], blockedUntil := none }
  clock := 0
  granted := []
  blocks := []
  underflow := false

def step (budgetPerMin : ℕ) (client : Client) : Call → Client
  | .acquire priority elapsed =>
    let now := client.clock + elapsed
    match Hub.acquire budgetPerMin priority now client.budget with
    | none => { client with clock := now, underflow := true }
    | some (.ok (), budget) =>
      { client with budget, clock := now, granted := client.granted ++ [{ time := now, priority }] }
    | some (.error _, budget) => { client with budget, clock := now }
  | .blockFor duration elapsed =>
    let now := client.clock + elapsed
    { client with
      budget := Hub.blockFor duration now client.budget
      clock := now
      blocks := client.blocks ++ [now + duration] }

/-- The grants of the last minute. -/
def recent (now : ℕ) (granted : List Grant) : List Grant :=
  granted.filter fun grant ↦ now < grant.time + budgetWindow

def ofPriority (priority : Priority) (granted : List Grant) : List Grant :=
  granted.filter fun grant ↦ grant.priority = priority

/-- A block was asked for that is not over. -/
def Blocked (client : Client) (now : ℕ) : Prop := ∃ blocked ∈ client.blocks, now < blocked

/-- No window shorter than a minute has more grants than the budget; a request of the sync that is
refused while no block is in force has its reserve in the last minute; nothing is granted while one
is; and no subtraction has underflowed. -/
structure WithinBudget (budgetPerMin : ℕ) (client : Client) : Prop where
  windows : ∀ first last, last < first + budgetWindow →
    (client.granted.filter fun grant ↦ first ≤ grant.time ∧ grant.time ≤ last).length ≤ budgetPerMin
  refusedSync : ∀ now, client.clock ≤ now → ¬ client.Blocked now → ∀ wait budget,
    Hub.acquire budgetPerMin .sync now client.budget = some (.error wait, budget) →
      interactiveReserve budgetPerMin ≤ (ofPriority .sync (recent now client.granted)).length
  blocked : ∀ now, client.clock ≤ now → client.Blocked now → ∀ priority budget,
    Hub.acquire budgetPerMin priority now client.budget ≠ some (.ok (), budget)
  noUnderflow : client.underflow = false

end Client

/-! ## The queue -/

variable {budgetPerMin now : ℕ} {budget : Budget} {priority : Priority}

theorem interactiveReserve_le : interactiveReserve budgetPerMin ≤ budgetPerMin := by
  unfold interactiveReserve
  omega

theorem exists_limit (budgetPerMin : ℕ) (priority : Priority) :
    ∃ most, limit budgetPerMin priority = some most ∧ most ≤ budgetPerMin := by
  cases priority with
  | sync => exact ⟨budgetPerMin, rfl, le_rfl⟩
  | interactive => exact ⟨_, if_pos interactiveReserve_le, Nat.sub_le _ _⟩

/-- What is dropped from the front of a queue in order is all that does not count. -/
theorem trim_eq_filter {sent : List ℕ} (hsorted : sent.Pairwise (· ≤ ·)) (hpast : ∀ time ∈ sent, time ≤ now) :
    trim now sent = sent.filter fun time ↦ now < time + budgetWindow := by
  induction sent with
  | nil => rfl
  | cons time sent ih =>
    obtain ⟨hfirst, hrest⟩ := List.pairwise_cons.mp hsorted
    have htime := hpast time List.mem_cons_self
    by_cases hcounts : now < time + budgetWindow
    · have hnot : ¬ budgetWindow ≤ now - time := by omega
      have hall : ∀ later ∈ time :: sent, decide (now < later + budgetWindow) = true := by
        intro later hlater
        obtain rfl | hlater := List.mem_cons.mp hlater
        · exact decide_eq_true hcounts
        · have := hfirst later hlater
          exact decide_eq_true (by omega)
      rw [List.filter_eq_self.mpr hall, trim, List.dropWhile_cons_of_neg (by simpa using hnot)]
    · have hold : budgetWindow ≤ now - time := by omega
      rw [trim, List.dropWhile_cons_of_pos (by simpa using hold),
        List.filter_cons_of_neg (by simpa using hcounts)]
      exact ih hrest fun later hlater ↦ hpast later (List.mem_cons_of_mem _ hlater)

namespace Client

variable {client : Client} {granted : List Grant} {since : ℕ}

/-- What counts now counted before. -/
theorem recent_recent (h : since ≤ now) : recent now (recent since granted) = recent now granted := by
  unfold recent
  rw [List.filter_filter]
  apply List.filter_congr
  intro grant _
  by_cases hcounts : now < grant.time + budgetWindow
  · have hbefore : since < grant.time + budgetWindow := by omega
    simp [hcounts, hbefore]
  · simp [hcounts]

theorem map_time_recent (granted : List Grant) : (recent now granted).map Grant.time =
    (granted.map Grant.time).filter fun time ↦ now < time + budgetWindow := by
  rw [List.filter_map]
  rfl

/-- The queue holds the grants that counted when it was last trimmed. -/
structure Tracks (budgetPerMin : ℕ) (client : Client) (since : ℕ) : Prop where
  past : since ≤ client.clock
  sent : client.budget.sent = (recent since client.granted).map Grant.time
  interactive : (ofPriority .interactive (recent since client.granted)).length ≤
    budgetPerMin - interactiveReserve budgetPerMin

/-- The history of a client, with the blocks that are kept. -/
structure Sound (budgetPerMin : ℕ) (client : Client) : Prop where
  tracks : ∃ since, Tracks budgetPerMin client since
  past : ∀ grant ∈ client.granted, grant.time ≤ client.clock
  sorted : (client.granted.map Grant.time).Pairwise (· ≤ ·)
  windows : ∀ first last, last < first + budgetWindow →
    (client.granted.filter fun grant ↦ first ≤ grant.time ∧ grant.time ≤ last).length ≤ budgetPerMin
  blocks : ∀ blocked ∈ client.blocks, blocked ≤ client.clock ∨
    ∃ kept, client.budget.blockedUntil = some kept ∧ blocked ≤ kept
  asked : ∀ kept ∈ client.budget.blockedUntil, kept ∈ client.blocks
  noUnderflow : client.underflow = false

/-- The trimmed queue is the grants of the last minute. -/
theorem Sound.trim_sent (h : Sound budgetPerMin client) (hnow : client.clock ≤ now) :
    trim now client.budget.sent = (recent now client.granted).map Grant.time := by
  obtain ⟨since, htracks⟩ := h.tracks
  have hsublist : ((recent since client.granted).map Grant.time).Sublist
      (client.granted.map Grant.time) := List.filter_sublist.map _
  have hpast : ∀ time ∈ client.budget.sent, time ≤ now := by
    intro time htime
    rw [htracks.sent] at htime
    obtain ⟨grant, hgrant, rfl⟩ := List.mem_map.mp (hsublist.subset htime)
    exact (h.past grant hgrant).trans hnow
  rw [trim_eq_filter (htracks.sent ▸ h.sorted.sublist hsublist) hpast, htracks.sent,
    ← map_time_recent, recent_recent (htracks.past.trans hnow)]

theorem Sound.interactive (h : Sound budgetPerMin client) (hnow : client.clock ≤ now) :
    (ofPriority .interactive (recent now client.granted)).length ≤
      budgetPerMin - interactiveReserve budgetPerMin := by
  obtain ⟨since, htracks⟩ := h.tracks
  rw [← recent_recent (htracks.past.trans hnow)]
  exact (List.filter_sublist.filter _).length_le.trans htracks.interactive

/-- What `acquire` does: it is refused by a block, or by the limit, or it is granted. -/
inductive Acquired (budgetPerMin : ℕ) (priority : Priority) (now : ℕ) (client : Client) :
    Except ℕ Unit × Budget → Prop where
  | blocked {wait kept : ℕ} (kept_eq : client.budget.blockedUntil = some kept) (later : now < kept) :
      Acquired budgetPerMin priority now client (.error wait, client.budget)
  | refused {wait most : ℕ} (free : ∀ kept ∈ client.budget.blockedUntil, kept ≤ now)
      (most_eq : limit budgetPerMin priority = some most)
      (full : most ≤ (recent now client.granted).length) :
      Acquired budgetPerMin priority now client (.error wait,
        { sent := (recent now client.granted).map Grant.time, blockedUntil := none })
  | granted {most : ℕ} (free : ∀ kept ∈ client.budget.blockedUntil, kept ≤ now)
      (most_eq : limit budgetPerMin priority = some most)
      (room : (recent now client.granted).length < most) :
      Acquired budgetPerMin priority now client (.ok (),
        { sent := (recent now client.granted).map Grant.time ++ [now], blockedUntil := none })

theorem Sound.acquired (h : Sound budgetPerMin client) (hnow : client.clock ≤ now)
    (priority : Priority) : ∃ result, Hub.acquire budgetPerMin priority now client.budget = some result ∧
      Acquired budgetPerMin priority now client result := by
  obtain ⟨most, hmost, -⟩ := exists_limit budgetPerMin priority
  have hslot (hfree : ∀ kept ∈ client.budget.blockedUntil, kept ≤ now) :
      ∃ result, acquireSlot budgetPerMin priority now client.budget.sent = some result ∧
        Acquired budgetPerMin priority now client result := by
    unfold acquireSlot
    rw [h.trim_sent hnow, hmost]
    by_cases hfull : most ≤ (recent now client.granted).length
    · refine ⟨_, congrArg some (if_pos (by simpa using hfull)), .refused hfree hmost hfull⟩
    · refine ⟨_, congrArg some (if_neg (by simpa using hfull)),
        .granted hfree hmost (not_le.mp hfull)⟩
  unfold Hub.acquire
  cases hblocked : client.budget.blockedUntil with
  | none => exact hslot fun kept hkept ↦ absurd hkept (by simp [hblocked])
  | some kept =>
    by_cases hlater : now < kept
    · refine ⟨(.error (kept - now), client.budget), ?_, .blocked hblocked hlater⟩
      simp only [if_pos hlater, checkedSub, if_pos hlater.le, Option.map_some]
    · simp only [if_neg hlater]
      refine hslot fun other hother ↦ ?_
      obtain rfl := Option.some.inj (hblocked.symm.trans hother)
      exact not_lt.mp hlater

/-- A block in force is the one that is kept, or ends before it. -/
theorem Sound.blocked_iff (h : Sound budgetPerMin client) (hnow : client.clock ≤ now)
    (hblocked : client.Blocked now) :
    ∃ kept, client.budget.blockedUntil = some kept ∧ now < kept := by
  obtain ⟨blocked, hmem, hlater⟩ := hblocked
  obtain hover | ⟨kept, hkept, hle⟩ := h.blocks blocked hmem
  · omega
  · exact ⟨kept, hkept, by omega⟩

theorem length_ofPriority (granted : List Grant) :
    (ofPriority .sync granted).length + (ofPriority .interactive granted).length = granted.length := by
  induction granted with
  | nil => rfl
  | cons grant granted ih =>
    obtain ⟨time, priority⟩ := grant
    cases priority <;> simp_all [ofPriority] <;> omega

/-! ## The history -/

theorem sound_new : Sound budgetPerMin new where
  tracks := ⟨0, le_rfl, rfl, Nat.zero_le _⟩
  past _ hgrant := absurd hgrant List.not_mem_nil
  sorted := List.Pairwise.nil
  windows _ _ _ := Nat.zero_le _
  blocks _ hblocked := absurd hblocked List.not_mem_nil
  asked _ hkept := absurd hkept (by simp [new])
  noUnderflow := rfl

/-- A call that grants nothing. -/
theorem Sound.refused (h : Sound budgetPerMin client) (hnow : client.clock ≤ now) {budget : Budget}
    (hfree : ∀ kept ∈ client.budget.blockedUntil, kept ≤ now)
    (hbudget : budget = { sent := (recent now client.granted).map Grant.time, blockedUntil := none }) :
    Sound budgetPerMin { client with budget, clock := now } where
  tracks := ⟨now, le_rfl, by rw [hbudget], h.interactive hnow⟩
  past grant hgrant := (h.past grant hgrant).trans hnow
  sorted := h.sorted
  windows := h.windows
  blocks blocked hblocked := by
    left
    obtain hover | ⟨kept, hkept, hle⟩ := h.blocks blocked hblocked
    · exact hover.trans hnow
    · exact hle.trans (hfree kept hkept)
  asked kept hkept := absurd hkept (by simp [hbudget])
  noUnderflow := h.noUnderflow

theorem recent_grant (granted : List Grant) (now : ℕ) (priority : Priority) :
    recent now (granted ++ [{ time := now, priority }]) = recent now granted ++ [{ time := now, priority }] := by
  have hcounts : now < now + budgetWindow := by
    unfold budgetWindow
    omega
  simp [recent, hcounts]

/-- A page that is granted a request found fewer requests of either priority than its own limit. -/
theorem interactive_grant {most : ℕ} (hmost : limit budgetPerMin priority = some most)
    (hroom : (recent now granted).length < most)
    (hbefore : (ofPriority .interactive (recent now granted)).length ≤
      budgetPerMin - interactiveReserve budgetPerMin) :
    (ofPriority .interactive (recent now (granted ++ [{ time := now, priority }]))).length ≤
      budgetPerMin - interactiveReserve budgetPerMin := by
  rw [recent_grant]
  cases priority with
  | sync => simpa [ofPriority] using hbefore
  | interactive =>
    have hlimit : most = budgetPerMin - interactiveReserve budgetPerMin := by
      have hsome : limit budgetPerMin .interactive =
          some (budgetPerMin - interactiveReserve budgetPerMin) := if_pos interactiveReserve_le
      exact Option.some.inj (hmost.symm.trans hsome)
    have hcount : (ofPriority .interactive (recent now granted)).length ≤ (recent now granted).length :=
      List.length_filter_le _ _
    have hone : ofPriority .interactive (recent now granted ++ [{ time := now, priority := .interactive }]) =
        ofPriority .interactive (recent now granted) ++ [{ time := now, priority := .interactive }] := by
      simp [ofPriority]
    rw [hone, List.length_append, List.length_singleton]
    omega

/-- A minute that a grant falls into ends with it, so all of it still counts now. -/
theorem window_grant {most first last : ℕ} (hmost : limit budgetPerMin priority = some most)
    (hroom : (recent now granted).length < most) (hwindow : last < first + budgetWindow)
    (hbefore : (granted.filter fun grant ↦ first ≤ grant.time ∧ grant.time ≤ last).length ≤ budgetPerMin) :
    ((granted ++ [{ time := now, priority }] : List Grant).filter fun grant ↦
      first ≤ grant.time ∧ grant.time ≤ last).length ≤ budgetPerMin := by
  rw [List.filter_append, List.length_append]
  by_cases hin : first ≤ now ∧ now ≤ last
  · have hsub : (granted.filter fun grant ↦ first ≤ grant.time ∧ grant.time ≤ last).length ≤
        (recent now granted).length := by
      apply List.Sublist.length_le
      apply List.monotone_filter_right
      intro grant hgrant
      simp only [decide_eq_true_eq] at hgrant ⊢
      omega
    obtain ⟨most', hmost', hle⟩ := exists_limit budgetPerMin priority
    obtain rfl := Option.some.inj (hmost.symm.trans hmost')
    have hone : ([{ time := now, priority }] : List Grant).filter
        (fun grant ↦ first ≤ grant.time ∧ grant.time ≤ last) = [{ time := now, priority }] :=
      List.filter_cons_of_pos (by simpa using hin)
    rw [hone, List.length_singleton]
    omega
  · have hnone : ([{ time := now, priority }] : List Grant).filter
        (fun grant ↦ first ≤ grant.time ∧ grant.time ≤ last) = [] :=
      List.filter_cons_of_neg (by simpa using hin)
    rw [hnone, List.length_nil]
    exact hbefore

/-- A request that is granted. -/
theorem Sound.grant (h : Sound budgetPerMin client) (hnow : client.clock ≤ now) {budget : Budget}
    {most : ℕ} (hfree : ∀ kept ∈ client.budget.blockedUntil, kept ≤ now)
    (hmost : limit budgetPerMin priority = some most)
    (hroom : (recent now client.granted).length < most)
    (hbudget : budget =
      { sent := (recent now client.granted).map Grant.time ++ [now], blockedUntil := none }) :
    Sound budgetPerMin
      { client with budget, clock := now, granted := client.granted ++ [{ time := now, priority }] } where
  tracks := by
    refine ⟨now, le_rfl, ?_, interactive_grant hmost hroom (h.interactive hnow)⟩
    rw [hbudget, recent_grant, List.map_append]
    rfl
  past grant hgrant := by
    obtain hgrant | hnew := List.mem_append.mp hgrant
    · exact (h.past grant hgrant).trans hnow
    · rw [List.mem_singleton.mp hnew]
  sorted := by
    rw [List.map_append]
    refine List.pairwise_append.mpr ⟨h.sorted, List.pairwise_singleton _ _, fun time htime later hlater ↦ ?_⟩
    obtain ⟨grant, hgrant, rfl⟩ := List.mem_map.mp htime
    rw [List.map_singleton, List.mem_singleton] at hlater
    rw [hlater]
    exact (h.past grant hgrant).trans hnow
  windows first last hwindow := window_grant hmost hroom hwindow (h.windows first last hwindow)
  blocks blocked hblocked := by
    left
    obtain hover | ⟨kept, hkept, hle⟩ := h.blocks blocked hblocked
    · exact hover.trans hnow
    · exact hle.trans (hfree kept hkept)
  asked kept hkept := absurd hkept (by simp [hbudget])
  noUnderflow := h.noUnderflow

theorem Sound.blockFor (h : Sound budgetPerMin client) (duration elapsed : ℕ) :
    Sound budgetPerMin (client.step budgetPerMin (.blockFor duration elapsed)) := by
  have hnow : client.clock ≤ client.clock + elapsed := Nat.le_add_right _ _
  have hsent : (Hub.blockFor duration (client.clock + elapsed) client.budget).sent =
      client.budget.sent := by
    unfold Hub.blockFor
    split <;> rfl
  obtain ⟨since, htracks⟩ := h.tracks
  refine ⟨⟨since, htracks.past.trans hnow, hsent.trans htracks.sent, htracks.interactive⟩,
    fun grant hgrant ↦ (h.past grant hgrant).trans hnow, h.sorted, h.windows,
    fun blocked hblocked ↦ ?_, fun kept hkept ↦ ?_, h.noUnderflow⟩
  swap
  · change kept ∈ (Hub.blockFor duration (client.clock + elapsed) client.budget).blockedUntil at hkept
    unfold Hub.blockFor at hkept
    split at hkept
    · exact List.mem_append_right _ (by simpa [eq_comm] using hkept)
    · exact List.mem_append_left _ (h.asked kept hkept)
  change blocked ≤ client.clock + elapsed ∨ ∃ kept,
    (Hub.blockFor duration (client.clock + elapsed) client.budget).blockedUntil = some kept ∧ blocked ≤ kept
  have hmost : blocked ≤ client.clock + elapsed + duration ∨
      blocked ≤ client.clock ∨ ∃ kept, client.budget.blockedUntil = some kept ∧ blocked ≤ kept := by
    obtain hbefore | hnew := List.mem_append.mp hblocked
    · exact .inr (h.blocks blocked hbefore)
    · exact .inl (List.mem_singleton.mp hnew).le
  unfold Hub.blockFor
  cases hkept : client.budget.blockedUntil with
  | none =>
    right
    refine ⟨client.clock + elapsed + duration, by simp, ?_⟩
    obtain hle | hover | ⟨kept, hsome, -⟩ := hmost
    · exact hle
    · omega
    · exact absurd hsome (by simp [hkept])
  | some kept =>
    right
    by_cases hearlier : kept < client.clock + elapsed + duration
    · refine ⟨client.clock + elapsed + duration, by simp [hearlier], ?_⟩
      obtain hle | hover | ⟨other, hsome, hle⟩ := hmost
      · exact hle
      · omega
      · obtain rfl := Option.some.inj (hkept.symm.trans hsome)
        omega
    · refine ⟨kept, by simp [hearlier, hkept], ?_⟩
      obtain hle | hover | ⟨other, hsome, hle⟩ := hmost
      · omega
      · omega
      · obtain rfl := Option.some.inj (hkept.symm.trans hsome)
        exact hle

theorem Sound.step (h : Sound budgetPerMin client) (call : Call) :
    Sound budgetPerMin (client.step budgetPerMin call) := by
  cases call with
  | blockFor duration elapsed => exact h.blockFor duration elapsed
  | acquire priority elapsed =>
    have hnow : client.clock ≤ client.clock + elapsed := Nat.le_add_right _ _
    obtain ⟨result, hacquire, hacquired⟩ := h.acquired hnow priority
    unfold Client.step
    simp only [hacquire]
    cases hacquired with
    | blocked kept_eq later =>
      obtain ⟨since, htracks⟩ := h.tracks
      exact
        { tracks := ⟨since, htracks.past.trans hnow, htracks.sent, htracks.interactive⟩
          past := fun grant hgrant ↦ (h.past grant hgrant).trans hnow
          sorted := h.sorted
          windows := h.windows
          blocks := fun blocked hblocked ↦ (h.blocks blocked hblocked).imp (·.trans hnow) id
          asked := h.asked
          noUnderflow := h.noUnderflow }
    | refused free most_eq full => exact h.refused hnow free rfl
    | granted free most_eq room => exact h.grant hnow free most_eq room rfl

/-- What is refused to the sync leaves at least its reserve to it. -/
theorem Sound.withinBudget (h : Sound budgetPerMin client) : WithinBudget budgetPerMin client where
  windows := h.windows
  refusedSync now hnow hfree wait budget hrefused := by
    obtain ⟨result, hacquire, hacquired⟩ := h.acquired hnow .sync
    obtain rfl := Option.some.inj (hrefused.symm.trans hacquire)
    cases hacquired with
    | blocked kept_eq later => exact absurd ⟨_, h.asked _ kept_eq, later⟩ hfree
    | refused free most_eq full =>
      obtain rfl := Option.some.inj most_eq
      have hparts := length_ofPriority (recent now client.granted)
      have hinteractive := h.interactive hnow
      have hreserve := @interactiveReserve_le budgetPerMin
      omega
  blocked now hnow hblocked priority budget hgranted := by
    obtain ⟨kept, hkept, hlater⟩ := h.blocked_iff hnow hblocked
    obtain ⟨result, hacquire, hacquired⟩ := h.acquired hnow priority
    obtain rfl := Option.some.inj (hgranted.symm.trans hacquire)
    cases hacquired with
    | granted free most_eq room => exact absurd (free kept hkept) (not_le.mpr hlater)
  noUnderflow := h.noUnderflow

/-- Whatever is called and when, the client keeps within its budget. -/
theorem requests_withinBudget (budgetPerMin : ℕ) (calls : List Call) :
    Run.Always (step budgetPerMin) (WithinBudget budgetPerMin) new calls := by
  have hsound : Run.Always (step budgetPerMin) (Sound budgetPerMin) new calls :=
    Run.always_of_along (fun _ call h _ ↦ h.step call) sound_new (Run.along_true _ _)
  exact hsound.mono fun _ h ↦ h.withinBudget

end Client

end OsrsMap.Hub
