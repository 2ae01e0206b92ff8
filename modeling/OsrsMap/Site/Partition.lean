import OsrsMap.Site.TrailModel
import Mathlib.Data.List.Chain

/-!
# The runs and jumps of a trail

`buildTrailModel` (`site/src/canvas-map/trail-model.js`) lays a trail out in runs and jumps: every
step is one jump or lies in one run, and the runs meet where sailing starts or stops and are a jump
apart otherwise.
-/

namespace OsrsMap.Site

/-- A step that is drawn as a line. -/
def connectedAt (kinds : List Kind) (index : ℕ) : Bool := kinds[index]?.any Kind.connected

/-- The steps from one point to another are one line, sailed or not. -/
structure Run.Covers (kinds : List Kind) (run : Run) (start stop : ℕ) : Prop where
  i0 : run.i0 = start
  i1 : run.i1 = stop
  le : start ≤ stop
  steps : ∀ i, start ≤ i → i < stop → connectedAt kinds i = true ∧ sails kinds i = run.sail

/-- A trail of runs and jumps from a point to the last one: the next run ends with the trail, where
sailing starts or stops, or at a jump. -/
inductive Laid (kinds : List Kind) (last : ℕ) : ℕ → List Run → List Jump → Prop
  | ends {start : ℕ} {run : Run} (hrun : run.Covers kinds start last) : Laid kinds last start [run] []
  | turns {start mid : ℕ} {run : Run} {runs : List Run} {jumps : List Jump}
    (hrun : run.Covers kinds start mid) (hstart : start < mid) (hmid : mid < last)
    (hconnected : connectedAt kinds mid = true) (hturns : sails kinds mid ≠ run.sail)
    (hrest : Laid kinds last mid runs jumps) : Laid kinds last start (run :: runs) jumps
  | jumps {start stop : ℕ} {run : Run} {kind : Kind} {runs : List Run} {jumps : List Jump}
    (hrun : run.Covers kinds start stop) (hstop : stop < last) (hkind : kinds[stop]? = some kind)
    (hjump : kind.connected = false) (hrest : Laid kinds last (stop + 1) runs jumps) :
    Laid kinds last start (run :: runs) (⟨stop, kind⟩ :: jumps)

/-- Sailing starts or stops at a point. -/
def SailingTurns (kinds : List Kind) (index : ℕ) : Prop :=
  0 < index ∧ connectedAt kinds (index - 1) = true ∧ connectedAt kinds index = true ∧
    sails kinds (index - 1) ≠ sails kinds index

/-- Runs and jumps that make up a trail. -/
structure Partitioned (kinds : List Kind) (count : ℕ) (runs : List Run) (jumps : List Jump) :
    Prop where
  steps : ∀ i, i + 1 < count → jumps.countP (fun jump ↦ jump.fromIndex = i) +
    runs.countP (fun run ↦ run.i0 ≤ i ∧ i < run.i1) = 1
  walked : ∀ run ∈ runs, ∀ i, run.i0 ≤ i → i < run.i1 →
    ∃ kind, kinds[i]? = some kind ∧ kind.connected = true ∧ (kind = .sail ↔ run.sail = true)
  jumped : ∀ jump ∈ jumps, jump.fromIndex + 1 < count ∧
    kinds[jump.fromIndex]? = some jump.kind ∧ jump.kind.connected = false
  bounds : ∀ run ∈ runs, run.i0 ≤ run.i1 ∧ run.i1 < count
  points : ∀ i < count, ∃ run ∈ runs, run.i0 ≤ i ∧ i ≤ run.i1
  runsInOrder : runs.Pairwise fun a b ↦ a.i1 ≤ b.i0
  jumpsInOrder : jumps.Pairwise fun a b ↦ a.fromIndex < b.fromIndex
  joined : runs.IsChain fun a b ↦ (a.i1 = b.i0 ↔ SailingTurns kinds a.i1) ∧
    (a.i1 ≠ b.i0 → b.i0 = a.i1 + 1 ∧ jumps.countP (fun jump ↦ jump.fromIndex = a.i1) = 1)

variable {kinds : List Kind} {last start stop : ℕ} {run : Run} {runs : List Run} {jumps : List Jump}

/-! ## What is laid out -/

theorem connectedAt_iff {i : ℕ} :
    connectedAt kinds i = true ↔ ∃ kind, kinds[i]? = some kind ∧ kind.connected = true := by
  unfold connectedAt
  cases kinds[i]? <;> simp

theorem Run.Covers.walked (h : run.Covers kinds start stop) {i : ℕ} (hstart : run.i0 ≤ i)
    (hstop : i < run.i1) :
    ∃ kind, kinds[i]? = some kind ∧ kind.connected = true ∧ (kind = .sail ↔ run.sail = true) := by
  obtain ⟨hconnected, hsail⟩ := h.steps i (h.i0 ▸ hstart) (h.i1 ▸ hstop)
  obtain ⟨kind, hkind, hconnected⟩ := connectedAt_iff.mp hconnected
  refine ⟨kind, hkind, hconnected, ?_⟩
  rw [← hsail, sails, hkind]
  simp

namespace Laid

theorem le (h : Laid kinds last start runs jumps) : start ≤ last := by
  cases h with
  | ends hrun => exact hrun.le
  | turns hrun _ hmid _ _ _ => exact hrun.le.trans hmid.le
  | jumps hrun hstop _ _ _ => exact hrun.le.trans hstop.le

theorem bounds (h : Laid kinds last start runs jumps) :
    ∀ run ∈ runs, start ≤ run.i0 ∧ run.i0 ≤ run.i1 ∧ run.i1 ≤ last := by
  induction h with
  | ends hrun =>
    intro run hmem
    obtain rfl := List.mem_singleton.mp hmem
    rw [hrun.i0, hrun.i1]
    exact ⟨le_rfl, hrun.le, le_rfl⟩
  | turns hrun _ hmid _ _ _ ih =>
    intro run hmem
    obtain rfl | hmem := List.mem_cons.mp hmem
    · rw [hrun.i0, hrun.i1]
      exact ⟨le_rfl, hrun.le, hmid.le⟩
    · obtain ⟨hstart, hle⟩ := ih run hmem
      exact ⟨hrun.le.trans hstart, hle⟩
  | jumps hrun hstop _ _ _ ih =>
    intro run hmem
    obtain rfl | hmem := List.mem_cons.mp hmem
    · rw [hrun.i0, hrun.i1]
      exact ⟨le_rfl, hrun.le, hstop.le⟩
    · obtain ⟨hstart, hle⟩ := ih run hmem
      exact ⟨hrun.le.trans (Nat.le_of_succ_le hstart), hle⟩

theorem jumped (h : Laid kinds last start runs jumps) :
    ∀ jump ∈ jumps, start ≤ jump.fromIndex ∧ jump.fromIndex < last ∧
      kinds[jump.fromIndex]? = some jump.kind ∧ jump.kind.connected = false := by
  induction h with
  | ends => simp
  | turns hrun _ _ _ _ _ ih =>
    intro jump hmem
    obtain ⟨hstart, hjump⟩ := ih jump hmem
    exact ⟨hrun.le.trans hstart, hjump⟩
  | jumps hrun hstop hkind hjump _ ih =>
    intro jump hmem
    obtain rfl | hmem := List.mem_cons.mp hmem
    · exact ⟨hrun.le, hstop, hkind, hjump⟩
    · obtain ⟨hstart, hjump⟩ := ih jump hmem
      exact ⟨hrun.le.trans (Nat.le_of_succ_le hstart), hjump⟩

theorem walked (h : Laid kinds last start runs jumps) :
    ∀ run ∈ runs, ∀ i, run.i0 ≤ i → i < run.i1 →
      ∃ kind, kinds[i]? = some kind ∧ kind.connected = true ∧ (kind = .sail ↔ run.sail = true) := by
  induction h with
  | ends hrun => simpa using fun i ↦ hrun.walked
  | turns hrun _ _ _ _ _ ih => simpa using ⟨fun i ↦ hrun.walked, ih⟩
  | jumps hrun _ _ _ _ ih => simpa using ⟨fun i ↦ hrun.walked, ih⟩

theorem runsInOrder (h : Laid kinds last start runs jumps) :
    runs.Pairwise fun a b ↦ a.i1 ≤ b.i0 := by
  induction h with
  | ends => exact List.pairwise_singleton _ _
  | turns hrun _ _ _ _ hrest ih =>
    refine List.pairwise_cons.mpr ⟨fun next hnext ↦ ?_, ih⟩
    rw [hrun.i1]
    exact (hrest.bounds next hnext).1
  | jumps hrun _ _ _ hrest ih =>
    refine List.pairwise_cons.mpr ⟨fun next hnext ↦ ?_, ih⟩
    rw [hrun.i1]
    exact Nat.le_of_succ_le (hrest.bounds next hnext).1

theorem jumpsInOrder (h : Laid kinds last start runs jumps) :
    jumps.Pairwise fun a b ↦ a.fromIndex < b.fromIndex := by
  induction h with
  | ends => exact .nil
  | turns _ _ _ _ _ _ ih => exact ih
  | jumps _ _ _ _ hrest ih =>
    exact List.pairwise_cons.mpr ⟨fun next hnext ↦ (hrest.jumped next hnext).1, ih⟩

theorem nothing_before (h : Laid kinds last start runs jumps) {i : ℕ} (hi : i < start) :
    jumps.countP (fun jump ↦ jump.fromIndex = i) = 0 ∧
      runs.countP (fun run ↦ run.i0 ≤ i ∧ i < run.i1) = 0 := by
  rw [List.countP_eq_zero, List.countP_eq_zero]
  constructor
  · intro jump hjump
    have hstart := (h.jumped jump hjump).1
    simpa using (hi.trans_le hstart).ne'
  · intro run hrun
    have hstart := (h.bounds run hrun).1
    simpa using fun hle ↦ absurd (hstart.trans hle) (not_le.mpr hi)

/-- Every step is a jump's or lies in a run, and only once. -/
theorem steps (h : Laid kinds last start runs jumps) {i : ℕ} (hstart : start ≤ i) (hlast : i < last) :
    jumps.countP (fun jump ↦ jump.fromIndex = i) +
      runs.countP (fun run ↦ run.i0 ≤ i ∧ i < run.i1) = 1 := by
  induction h with
  | ends hrun => simp [hrun.i0, hrun.i1, hstart, hlast]
  | @turns start mid run runs jumps hrun _ _ _ _ hrest ih =>
    rw [List.countP_cons, hrun.i0, hrun.i1]
    obtain hlt | hle := lt_or_ge i mid
    · obtain ⟨hjumps, hruns⟩ := hrest.nothing_before hlt
      rw [hjumps, hruns, if_pos (decide_eq_true ⟨hstart, hlt⟩)]
    · rw [if_neg (by simpa using fun _ ↦ hle), add_zero]
      exact ih hle
  | @jumps start stop run kind runs jumps hrun _ _ _ hrest ih =>
    rw [List.countP_cons, List.countP_cons, hrun.i0, hrun.i1]
    dsimp only
    obtain hlt | rfl | hgt := lt_trichotomy i stop
    · obtain ⟨hjumps, hruns⟩ := hrest.nothing_before (hlt.trans (Nat.lt_succ_self stop))
      rw [hjumps, hruns, if_neg (by simpa using hlt.ne'), if_pos (decide_eq_true ⟨hstart, hlt⟩)]
    · obtain ⟨hjumps, hruns⟩ := hrest.nothing_before (Nat.lt_succ_self i)
      rw [hjumps, hruns, if_pos (decide_eq_true rfl), if_neg (by simp)]
    · rw [if_neg (by simpa using hgt.ne), if_neg (by simpa using fun _ ↦ hgt.le), add_zero,
        add_zero]
      exact ih hgt

theorem head (h : Laid kinds last start runs jumps) :
    ∃ first rest, runs = first :: rest ∧ first.i0 = start := by
  cases h with
  | ends hrun => exact ⟨_, _, rfl, hrun.i0⟩
  | turns hrun _ _ _ _ _ => exact ⟨_, _, rfl, hrun.i0⟩
  | jumps hrun _ _ _ _ => exact ⟨_, _, rfl, hrun.i0⟩

/-- Runs meet where sailing turns, and are a step apart that is not connected otherwise. -/
theorem joined (h : Laid kinds last start runs jumps) :
    runs.IsChain fun a b ↦ (a.i1 = b.i0 ↔ SailingTurns kinds a.i1) ∧
      (a.i1 ≠ b.i0 → b.i0 = a.i1 + 1 ∧ a.i1 < last ∧ connectedAt kinds a.i1 = false) := by
  induction h with
  | ends => exact List.isChain_singleton _
  | @turns start mid run runs jumps hrun hstart _ hconnected hturns hrest ih =>
    obtain ⟨first, rest, rfl, hfirst⟩ := hrest.head
    refine List.isChain_cons_cons.mpr ⟨⟨?_, ?_⟩, ih⟩
    · obtain ⟨hbefore, hsail⟩ := hrun.steps (mid - 1) (by omega) (by omega)
      rw [hrun.i1, hfirst]
      exact ⟨fun _ ↦ ⟨by omega, hbefore, hconnected, hsail ▸ hturns.symm⟩, fun _ ↦ rfl⟩
    · rw [hrun.i1, hfirst]
      exact fun hne ↦ absurd rfl hne
  | @jumps start stop run kind runs jumps hrun hstop hkind hjump hrest ih =>
    obtain ⟨first, rest, rfl, hfirst⟩ := hrest.head
    have hnot : connectedAt kinds stop = false := by
      rw [connectedAt, hkind]
      exact hjump
    refine List.isChain_cons_cons.mpr ⟨⟨?_, fun _ ↦ ?_⟩, ih⟩
    · rw [hrun.i1, hfirst]
      refine ⟨fun heq ↦ absurd heq (by omega), fun hturns ↦ ?_⟩
      exact absurd (hnot.symm.trans hturns.2.2.1) Bool.false_ne_true
    · rw [hrun.i1, hfirst]
      exact ⟨rfl, hstop, hnot⟩

theorem points (h : Laid kinds last start runs jumps) {i : ℕ} (hstart : start ≤ i) (hlast : i ≤ last) :
    ∃ run ∈ runs, run.i0 ≤ i ∧ i ≤ run.i1 := by
  induction h with
  | ends hrun => exact ⟨_, List.mem_singleton_self _, hrun.i0 ▸ hstart, hrun.i1 ▸ hlast⟩
  | @turns start mid run runs jumps hrun _ _ _ _ _ ih =>
    obtain hle | hlt := le_or_gt i mid
    · exact ⟨run, List.mem_cons_self, hrun.i0 ▸ hstart, hrun.i1 ▸ hle⟩
    · obtain ⟨next, hnext, hwithin⟩ := ih hlt.le
      exact ⟨next, List.mem_cons_of_mem _ hnext, hwithin⟩
  | @jumps start stop run kind runs jumps hrun _ _ _ _ ih =>
    obtain hle | hlt := le_or_gt i stop
    · exact ⟨run, List.mem_cons_self, hrun.i0 ▸ hstart, hrun.i1 ▸ hle⟩
    · obtain ⟨next, hnext, hwithin⟩ := ih hlt
      exact ⟨next, List.mem_cons_of_mem _ hnext, hwithin⟩

end Laid

/-- What is laid out from the first point on makes up the trail. -/
theorem partitioned_of_laid (h : Laid kinds last 0 runs jumps) :
    Partitioned kinds (last + 1) runs jumps where
  steps i hi := h.steps (Nat.zero_le i) (Nat.lt_of_succ_lt_succ hi)
  walked := h.walked
  jumped jump hjump := by
    obtain ⟨-, hlast, hkind⟩ := h.jumped jump hjump
    exact ⟨Nat.succ_lt_succ hlast, hkind⟩
  bounds run hrun := by
    obtain ⟨-, hle, hlast⟩ := h.bounds run hrun
    exact ⟨hle, Nat.lt_succ_of_le hlast⟩
  points i hi := h.points (Nat.zero_le i) (Nat.le_of_lt_succ hi)
  runsInOrder := h.runsInOrder
  jumpsInOrder := h.jumpsInOrder
  joined := by
    refine h.joined.imp fun {a b} hjoined ↦ ⟨hjoined.1, fun hne ↦ ?_⟩
    obtain ⟨hnext, hlast, hnot⟩ := hjoined.2 hne
    have hnone : runs.countP (fun run ↦ run.i0 ≤ a.i1 ∧ a.i1 < run.i1) = 0 := by
      rw [List.countP_eq_zero]
      intro run hrun hwithin
      obtain ⟨hstart, hstop⟩ := of_decide_eq_true hwithin
      obtain ⟨kind, hkind, hconnected, -⟩ := h.walked run hrun a.i1 hstart hstop
      exact Bool.false_ne_true (hnot.symm.trans (connectedAt_iff.mpr ⟨kind, hkind, hconnected⟩))
    have hsteps := h.steps (Nat.zero_le _) hlast
    rw [hnone] at hsteps
    exact ⟨hnext, hsteps⟩

/-! ## The loops -/

/-- The runs of a chain from one point to another. -/
inductive Chained (kinds : List Kind) (stop : ℕ) : ℕ → List Run → Prop
  | ends {start : ℕ} {run : Run} (hrun : run.Covers kinds start stop) : Chained kinds stop start [run]
  | turns {start mid : ℕ} {run : Run} {runs : List Run} (hrun : run.Covers kinds start mid)
    (hstart : start < mid) (hmid : mid < stop) (hconnected : connectedAt kinds mid = true)
    (hturns : sails kinds mid ≠ run.sail) (hrest : Chained kinds stop mid runs) : Chained kinds stop start (run :: runs)

/-- The body of the loop of `splitChain`. -/
def chainStep (kinds : List Kind) (stop : ℕ) (state : ℕ × List Run) (j : ℕ) : ℕ × List Run :=
  if j = stop ∨ sails kinds j ≠ sails kinds state.1 then
    (j, state.2 ++ [{ i0 := state.1, i1 := j, sail := sails kinds state.1 }])
  else state

theorem chained_foldl (done : List Run) {next count : ℕ} (hcount : next + count = stop)
    (hnext : start < next)
    (hsteps : ∀ i, start ≤ i → i < next → sails kinds i = sails kinds start)
    (hconnected : ∀ i, start ≤ i → i < stop → connectedAt kinds i = true) :
    ∃ runs, ((List.range' next (count + 1)).foldl (chainStep kinds stop) (start, done)).2 =
      done ++ runs ∧ Chained kinds stop start runs := by
  induction count generalizing start next done with
  | zero =>
    obtain rfl : next = stop := hcount
    refine ⟨[⟨start, next, sails kinds start⟩], ?_, .ends ⟨rfl, rfl, hnext.le, fun i hi hin ↦ ?_⟩⟩
    · rw [List.range'_one, List.foldl_cons, List.foldl_nil, chainStep, if_pos (.inl rfl)]
    · exact ⟨hconnected i hi hin, hsteps i hi hin⟩
  | succ count ih =>
    rw [List.range'_succ, List.foldl_cons]
    by_cases hturns : sails kinds next = sails kinds start
    · rw [chainStep, if_neg (by
        rw [not_or, not_not]
        exact ⟨by omega, hturns⟩)]
      have hsame : ∀ i, start ≤ i → i < next + 1 → sails kinds i = sails kinds start := by
        intro i hi hin
        obtain rfl | hlt := Nat.eq_or_lt_of_le (Nat.le_of_lt_succ hin)
        · exact hturns
        · exact hsteps i hi hlt
      exact ih done (by omega) (by omega) hsame hconnected
    · rw [chainStep, if_pos (.inr hturns)]
      have hmid : next < stop := by omega
      obtain ⟨runs, hruns, hchained⟩ := ih
        (done ++ [{ i0 := start, i1 := next, sail := sails kinds start }])
        (show next + 1 + count = stop by omega) (Nat.lt_succ_self next)
        (fun i hi hin ↦ congrArg _ (by omega)) (fun i hi ↦ hconnected i (hnext.le.trans hi))
      have hrun : Run.Covers kinds ⟨start, next, sails kinds start⟩ start next :=
        ⟨rfl, rfl, hnext.le, fun i hi hin ↦ ⟨hconnected i hi (hin.trans hmid), hsteps i hi hin⟩⟩
      refine ⟨_, ?_, .turns hrun hnext hmid (hconnected next hnext.le hmid) hturns hchained⟩
      rw [hruns, List.append_assoc]
      rfl

theorem chained_splitChain (hstart : start < stop)
    (hconnected : ∀ i, start ≤ i → i < stop → connectedAt kinds i = true) :
    Chained kinds stop start (splitChain kinds start stop) := by
  obtain ⟨runs, hruns, hchained⟩ := chained_foldl []
    (show start + 1 + (stop - (start + 1)) = stop by omega) (Nat.lt_succ_self start)
    (fun i hi hin ↦ congrArg _ (by omega)) hconnected
  rw [show stop - (start + 1) + 1 = stop - start by omega] at hruns
  have hsplit : splitChain kinds start stop = runs := hruns
  rwa [hsplit]

/-- The chain that the trail ends with. -/
theorem Chained.laid_ends (h : Chained kinds last start runs) : Laid kinds last start runs [] := by
  induction h with
  | ends hrun => exact .ends hrun
  | turns hrun hstart hmid hconnected hturns _ ih =>
    exact .turns hrun hstart hmid hconnected hturns ih

/-- A chain with a jump after it. -/
theorem Chained.laid_jumps {kind : Kind} {chain : List Run} (h : Chained kinds stop start chain)
    (hstop : stop < last) (hkind : kinds[stop]? = some kind) (hjump : kind.connected = false)
    (hrest : Laid kinds last (stop + 1) runs jumps) :
    Laid kinds last start (chain ++ runs) (⟨stop, kind⟩ :: jumps) := by
  induction h with
  | ends hrun => exact .jumps hrun hstop hkind hjump hrest
  | turns hrun hstart hmid hconnected hturns _ ih =>
    exact .turns hrun hstart (hmid.trans hstop) hconnected hturns ih

/-- What the loop adds where a chain ends. -/
def chainRuns (kinds : List Kind) (start stop : ℕ) : List Run :=
  if stop = start ∨ kinds[start]? = none then [{ i0 := start, i1 := stop, sail := false }]
  else splitChain kinds start stop

theorem chained_chainRuns (hstart : start ≤ stop) (hstop : stop ≤ kinds.length)
    (hconnected : ∀ i, start ≤ i → i < stop → connectedAt kinds i = true) :
    Chained kinds stop start (chainRuns kinds start stop) := by
  unfold chainRuns
  obtain rfl | hlt := hstart.eq_or_lt
  · rw [if_pos (.inl rfl)]
    exact .ends ⟨rfl, rfl, le_rfl, fun i hi hin ↦ absurd hin (not_lt.mpr hi)⟩
  · rw [if_neg (by simp only [List.getElem?_eq_none_iff]; omega)]
    exact chained_splitChain hlt hconnected

theorem splitAt_ends {split : Split} : splitAt (last + 1) kinds split last =
    { start := last + 1, runs := split.runs ++ chainRuns kinds split.start last
      jumps := split.jumps } := by
  unfold splitAt
  rw [if_pos (.inl rfl), if_neg (lt_irrefl _), List.append_nil]
  rfl

theorem splitAt_jumps {split : Split} {next : ℕ} {kind : Kind} (hnext : next < last)
    (hkind : kinds[next]? = some kind) (hjump : kind.connected = false) :
    splitAt (last + 1) kinds split next =
      { start := next + 1, runs := split.runs ++ chainRuns kinds split.start next
        jumps := split.jumps ++ [⟨next, kind⟩] } := by
  unfold splitAt
  dsimp only
  rw [hkind, if_pos (.inr (by simpa using hjump)), if_pos (Nat.succ_lt_succ hnext)]
  rfl

theorem splitAt_connected {split : Split} {next : ℕ} {kind : Kind} (hnext : next < last)
    (hkind : kinds[next]? = some kind) (hconnected : kind.connected = true) :
    splitAt (last + 1) kinds split next = split := by
  unfold splitAt
  dsimp only
  rw [hkind, if_neg]
  simpa [hconnected] using hnext.ne

/-- The loop of `buildTrailModel` from any point it has come to. -/
theorem laid_foldl (split : Split) {next count : ℕ} (hkinds : kinds.length = last)
    (hcount : next + count = last) (hstart : split.start ≤ next)
    (hconnected : ∀ i, split.start ≤ i → i < next → connectedAt kinds i = true) :
    ∃ runs jumps,
      ((List.range' next (count + 1)).foldl (splitAt (last + 1) kinds) split).runs =
        split.runs ++ runs ∧
      ((List.range' next (count + 1)).foldl (splitAt (last + 1) kinds) split).jumps =
        split.jumps ++ jumps ∧ Laid kinds last split.start runs jumps := by
  induction count generalizing next split with
  | zero =>
    have hchained := chained_chainRuns hstart (by omega) hconnected
    obtain rfl : next = last := hcount
    refine ⟨chainRuns kinds split.start next, [], ?_, ?_, hchained.laid_ends⟩
    · rw [List.range'_one, List.foldl_cons, List.foldl_nil, splitAt_ends]
    · rw [List.range'_one, List.foldl_cons, List.foldl_nil, splitAt_ends, List.append_nil]
  | succ count ih =>
    have hnext : next < last := by omega
    obtain ⟨kind, hkind⟩ : ∃ kind, kinds[next]? = some kind :=
      ⟨_, List.getElem?_eq_getElem (hkinds ▸ hnext)⟩
    rw [List.range'_succ, List.foldl_cons]
    cases hjump : kind.connected with
    | true =>
      have hmore : ∀ i, split.start ≤ i → i < next + 1 → connectedAt kinds i = true := by
        intro i hi hin
        obtain rfl | hlt := Nat.eq_or_lt_of_le (Nat.le_of_lt_succ hin)
        · exact connectedAt_iff.mpr ⟨kind, hkind, hjump⟩
        · exact hconnected i hi hlt
      rw [splitAt_connected hnext hkind hjump]
      exact ih split (by omega) (by omega) hmore
    | false =>
      rw [splitAt_jumps hnext hkind hjump]
      have hchained := chained_chainRuns hstart (by omega) hconnected
      have hnone : ∀ i, next + 1 ≤ i → i < next + 1 → connectedAt kinds i = true :=
        fun i hi hin ↦ absurd hin (not_lt.mpr hi)
      obtain ⟨runs, jumps, hruns, hjumps, hlaid⟩ := ih
        ⟨next + 1, split.runs ++ chainRuns kinds split.start next, split.jumps ++ [⟨next, kind⟩]⟩
        (show next + 1 + count = last by omega) le_rfl hnone
      refine ⟨_, _, ?_, ?_, hchained.laid_jumps hnext hkind hjump hlaid⟩
      · rw [hruns, List.append_assoc]
      · rw [hjumps, List.append_assoc]
        rfl

/-- The loop partitions any steps of a trail. -/
theorem partitioned_foldl {count : ℕ} (hkinds : kinds.length = count - 1) :
    Partitioned kinds count ((List.range count).foldl (splitAt count kinds) ⟨0, [], []⟩).runs
      ((List.range count).foldl (splitAt count kinds) ⟨0, [], []⟩).jumps := by
  cases count with
  | zero => exact ⟨by simp, by simp, by simp, by simp, by simp, .nil, .nil, .nil⟩
  | succ last =>
    have hlength : kinds.length = last := hkinds
    obtain ⟨runs, jumps, hruns, hjumps, hlaid⟩ := laid_foldl ⟨0, [], []⟩ hlength
      (show 0 + last = last from Nat.zero_add _) le_rfl
      (fun i _ hi ↦ absurd hi (Nat.not_lt_zero i))
    rw [List.range_eq_range', hruns, hjumps, List.nil_append, List.nil_append]
    exact partitioned_of_laid hlaid

/-- Every trail is partitioned into runs and jumps. -/
theorem partitioned_buildTrailModel (points : List SitePoint) (step : ℤ) :
    Partitioned (kindsOf points (max gapSeconds step)) points.length
      (buildTrailModel points step).runs (buildTrailModel points step).jumps := by
  have hkinds : (kindsOf points (max gapSeconds step)).length = points.length - 1 := by
    simp [kindsOf]
  exact partitioned_foldl hkinds

end OsrsMap.Site
