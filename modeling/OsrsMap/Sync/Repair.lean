import OsrsMap.Sync.Bare

/-!
# After a chunk that failed

A run in which chunks fail, next to the same run in which they are stored. The sync does the same in
both, as it reads no data column; it notes what it sends as sent, so that what failed is made good
only where it is sent again.
-/

namespace OsrsMap.Sync

open Overlay

/-- What happens instead when no chunk fails. -/
def MirrorEvent.unfailed : MirrorEvent → MirrorEvent
  | fail i => store i
  | event => event

/-- A run, and the same run in which no chunk fails. -/
structure Twin where
  actual : Mirror
  ideal : Mirror

namespace Twin

def step (twin : Twin) (event : MirrorEvent) : Twin where
  actual := twin.actual.step event
  ideal := twin.ideal.step event.unfailed

def boot (members : Members) (clock : ℤ) : Twin where
  actual := Mirror.boot members clock
  ideal := Mirror.boot members clock

end Twin

/-! ## The two runs differ in data columns only -/

def Mirror.bare (mirror : Mirror) : Mirror := { mirror with world := mirror.world.bare }

/-- What an event does besides the data columns. -/
def Mirror.bareStep (mirror : Mirror) : MirrorEvent → Mirror
  | .store i | .fail i => mirror.dropChunk i
  | event => mirror.step event

theorem bareStep_unfailed (mirror : Mirror) (event : MirrorEvent) :
    mirror.bareStep event.unfailed = mirror.bareStep event := by
  cases event <;> rfl

section Bare

variable {mirror : Mirror}

theorem bare_dropChunk (mirror : Mirror) (i : ℕ) : (mirror.dropChunk i).bare = mirror.bare.dropChunk i := by
  unfold Mirror.dropChunk
  dsimp only [Mirror.bare]
  split <;> rfl

theorem bare_step (mirror : Mirror) (event : MirrorEvent) :
    (mirror.step event).bare = mirror.bare.bareStep event := by
  cases event with
  | turn report =>
    dsimp only [Mirror.step, Mirror.bareStep, Mirror.bare]
    rw [processAccount_bare]
  | left reports =>
    dsimp only [Mirror.step, Mirror.bareStep, Mirror.bare]
    rw [finishFull_bare]
  | elapse now => rfl
  | receive =>
    change mirror.receive.bare = mirror.bare.receive
    unfold Mirror.receive
    rw [show mirror.bare.queued = mirror.queued from rfl, show mirror.bare.stage = mirror.stage from rfl]
    split
    · split_ifs <;> rfl
    · rfl
  | flush =>
    dsimp only [Mirror.step, Mirror.bareStep]
    unfold Mirror.flush
    dsimp only [Mirror.bare]
    split <;> rfl
  | store i =>
    obtain ⟨members, hstore, heq⟩ := mirror.storeChunk_eq (mirror.chunkAt i)
    dsimp only [Mirror.step, Mirror.bareStep]
    rw [bare_dropChunk, heq]
    congr 1
    dsimp only [Mirror.bare, World.bare]
    rw [storeChunk_bare hstore]
  | fail i => exact bare_dropChunk mirror i

end Bare

/-! ## What is behind -/

namespace Twin

variable {twin : Twin} {event : MirrorEvent} {report : HubReport} {name : String} {part : Section}

/-- A column of a member is behind when it does not come to what it would had no chunk failed. -/
def Behind (twin : Twin) (name : String) (part : Section) : Prop :=
  twin.actual.awaited name part ≠ twin.ideal.awaited name part

/-- The turn of a member sends every section of it whose column is behind: it changed since it was last
sent, and has a value. -/
def Repairs (name : String) (twin : Twin) (event : MirrorEvent) : Prop :=
  ∀ report ∈ event.account, fold report.name = fold name → ∀ part, twin.Behind name part →
    changed (twin.actual.world.lastSent report.id)
        (report.fromAccount (twin.actual.world.lastSent report.id)) part = true ∧
      (report.fromAccount (twin.actual.world.lastSent report.id) part).isSome = true

instance (twin : Twin) (name : String) (part : Section) : Decidable (twin.Behind name part) :=
  inferInstanceAs (Decidable (twin.actual.awaited name part ≠ twin.ideal.awaited name part))

instance (name : String) (twin : Twin) (event : MirrorEvent) : Decidable (twin.Repairs name event) :=
  decidable_of_iff (∀ report ∈ event.account, fold report.name = fold name → ∀ part ∈ sections,
      twin.Behind name part →
        changed (twin.actual.world.lastSent report.id)
            (report.fromAccount (twin.actual.world.lastSent report.id)) part = true ∧
          (report.fromAccount (twin.actual.world.lastSent report.id) part).isSome = true)
    ⟨fun h report hreport hname part ↦ h report hreport hname part (mem_sections part),
      fun h report hreport hname part _ ↦ h report hreport hname part⟩

/-- The member is neither renamed nor hidden in this step. -/
def Spares (name : String) (twin : Twin) (event : MirrorEvent) : Prop :=
  event.Spares name twin.actual.world

instance (name : String) (twin : Twin) (event : MirrorEvent) : Decidable (twin.Spares name event) :=
  inferInstanceAs (Decidable (event.Spares name twin.actual.world))

/-- Both runs are sound for a member, and differ in data columns only. -/
structure Alike (twin : Twin) (name : String) : Prop where
  actual : twin.actual.Sound name
  ideal : twin.ideal.Sound name
  bare : twin.actual.bare = twin.ideal.bare

theorem Alike.world_bare (h : twin.Alike name) : twin.actual.world.bare = twin.ideal.world.bare :=
  congrArg Mirror.world h.bare

theorem Alike.lastSent (h : twin.Alike name) (id : String) :
    twin.ideal.world.lastSent id = twin.actual.world.lastSent id := by
  have hsame := congrArg (fun world : World ↦ world.lastSent id) h.world_bare
  exact hsame.symm

theorem Alike.spares (h : twin.Alike name) (hspares : twin.Spares name event) :
    event.unfailed.Spares name twin.ideal.world := by
  have hevent : event.unfailed.Spares name twin.actual.world := by
    cases event <;> exact hspares
  rw [← spares_bare, ← h.world_bare, spares_bare]
  exact hevent

theorem Alike.step (h : twin.Alike name) (hspares : twin.Spares name event) :
    (twin.step event).Alike name where
  actual := h.actual.step hspares
  ideal := h.ideal.step (h.spares hspares)
  bare := by
    dsimp only [Twin.step]
    rw [bare_step, bare_step, bareStep_unfailed, h.bare]

theorem alike_boot (members : Members) (clock : ℤ) (name : String) : (boot members clock).Alike name where
  actual := Mirror.sound_boot members clock name
  ideal := Mirror.sound_boot members clock name
  bare := rfl

/-- What the columns of a member come to is what it would be had no chunk failed. -/
def Agrees (twin : Twin) (name : String) : Prop :=
  twin.actual.awaited name = twin.ideal.awaited name

/-! ## Steps without failures -/

theorem unfailed_of_succeeds (h : event.succeeds) : event.unfailed = event := by
  cases event with
  | fail i => exact h.elim
  | _ => rfl

theorem Alike.agrees_step_other (h : twin.Alike name) (hfine : event.succeeds)
    (hother : event.account = none) : (twin.step event).Agrees name ↔ twin.Agrees name := by
  unfold Agrees
  dsimp only [Twin.step]
  rw [unfailed_of_succeeds hfine, h.actual.awaited_step hfine hother,
    h.ideal.awaited_step hfine hother]

/-- What the turn of a member sends comes over both, so that they agree afterwards exactly where it is
sent or they agreed before. -/
theorem Alike.agrees_step_turn (h : twin.Alike name) (hspares : twin.Spares name event)
    (hevent : event.account = some report) :
    (twin.step event).Agrees name ↔
      if fold report.name = fold name then twin.Repairs name event else twin.Agrees name := by
  have hideal : (twin.step event).ideal = twin.ideal.step event := by
    obtain ⟨rfl, -⟩ := MirrorEvent.eq_turn hevent
    rfl
  have hspares' : event.Spares name twin.ideal.world := by
    have hunfailed := h.spares hspares
    obtain ⟨rfl, -⟩ := MirrorEvent.eq_turn hevent
    exact hunfailed
  unfold Agrees
  rw [hideal, show (twin.step event).actual.awaited name = _ from h.actual.awaited_turn hspares hevent,
    h.ideal.awaited_turn hspares' hevent, h.lastSent]
  by_cases hname : fold report.name = fold name
  · rw [if_pos hname, if_pos hname, if_pos hname, overlay_eq_overlay_iff]
    simp only [isSome_diff, Repairs, hevent, Option.mem_some_iff, forall_eq', hname, true_imp_iff]
    rfl
  · rw [if_neg hname, if_neg hname, if_neg hname]

/-! ## Runs without failures -/

/-- The turns of a member. -/
def turnsOf (name : String) (events : List MirrorEvent) : List HubReport :=
  (events.filterMap MirrorEvent.account).filter fun report ↦ fold report.name = fold name

theorem turnsOf_cons_none {events : List MirrorEvent} (hevent : event.account = none) :
    turnsOf name (event :: events) = turnsOf name events := by
  rw [turnsOf, List.filterMap_cons_none hevent]
  rfl

theorem turnsOf_cons_some {events : List MirrorEvent} (hevent : event.account = some report) :
    turnsOf name (event :: events) =
      if fold report.name = fold name then report :: turnsOf name events else turnsOf name events := by
  rw [turnsOf, List.filterMap_cons_some hevent, List.filter_cons]
  simp only [decide_eq_true_eq]
  rfl

/-- A turn that repairs makes the runs agree, and nothing in a run without failures undoes it. -/
theorem agrees_of_repairs {events : List MirrorEvent} (h : twin.Alike name)
    (hspares : Run.Along step (Spares name) twin events) (hfine : ∀ event ∈ events, event.succeeds)
    (hrepairs : Run.Along step (Repairs name) twin events)
    (hturn : twin.Agrees name ∨ turnsOf name events ≠ []) : (events.foldl step twin).Agrees name := by
  induction events generalizing twin with
  | nil => exact hturn.resolve_right fun hne ↦ hne rfl
  | cons event events ih =>
    apply ih (h.step hspares.1) hspares.2 (fun later hlater ↦ hfine later (List.mem_cons_of_mem _ hlater))
      hrepairs.2
    cases hevent : event.account with
    | none =>
      rw [h.agrees_step_other (hfine event List.mem_cons_self) hevent,
        ← turnsOf_cons_none hevent]
      exact hturn
    | some report =>
      rw [h.agrees_step_turn hspares.1 hevent]
      rw [turnsOf_cons_some hevent] at hturn
      split_ifs with hname
      · exact .inl hrepairs.1
      · rwa [if_neg hname] at hturn

/-- Where a member has no turn, the runs agree on it afterwards exactly when they did before. -/
theorem agrees_iff_of_no_turn {events : List MirrorEvent} (h : twin.Alike name)
    (hspares : Run.Along step (Spares name) twin events) (hfine : ∀ event ∈ events, event.succeeds)
    (hnone : turnsOf name events = []) :
    ((events.foldl step twin).Agrees name ↔ twin.Agrees name) ∧
      Run.Along step (Repairs name) twin events := by
  induction events generalizing twin with
  | nil => exact ⟨Iff.rfl, trivial⟩
  | cons event events ih =>
    have hlater : ∀ later ∈ events, later.succeeds :=
      fun later hlater ↦ hfine later (List.mem_cons_of_mem _ hlater)
    cases hevent : event.account with
    | none =>
      rw [turnsOf_cons_none hevent] at hnone
      obtain ⟨hagrees, hrest⟩ := ih (h.step hspares.1) hspares.2 hlater hnone
      refine ⟨hagrees.trans (h.agrees_step_other (hfine event List.mem_cons_self) hevent), ?_, hrest⟩
      exact fun report hreport ↦ absurd (hevent.symm.trans hreport) (by simp)
    | some report =>
      rw [turnsOf_cons_some hevent] at hnone
      split_ifs at hnone with hname
      obtain ⟨hagrees, hrest⟩ := ih (h.step hspares.1) hspares.2 hlater hnone
      have hstep := h.agrees_step_turn hspares.1 hevent
      rw [if_neg hname] at hstep
      refine ⟨hagrees.trans hstep, ?_, hrest⟩
      intro other hother hsame
      rw [hevent, Option.mem_some_iff] at hother
      exact absurd (hother ▸ hsame) hname

/-- The runs agree on a member that has one turn only when that turn repairs. -/
theorem repairs_of_agrees {events : List MirrorEvent} (h : twin.Alike name)
    (hspares : Run.Along step (Spares name) twin events) (hfine : ∀ event ∈ events, event.succeeds)
    (honce : (turnsOf name events).length ≤ 1) (hagrees : (events.foldl step twin).Agrees name) :
    Run.Along step (Repairs name) twin events := by
  induction events generalizing twin with
  | nil => trivial
  | cons event events ih =>
    have hlater : ∀ later ∈ events, later.succeeds :=
      fun later hlater ↦ hfine later (List.mem_cons_of_mem _ hlater)
    cases hevent : event.account with
    | none =>
      rw [turnsOf_cons_none hevent] at honce
      refine ⟨?_, ih (h.step hspares.1) hspares.2 hlater honce hagrees⟩
      exact fun report hreport ↦ absurd (hevent.symm.trans hreport) (by simp)
    | some report =>
      rw [turnsOf_cons_some hevent] at honce
      by_cases hname : fold report.name = fold name
      · -- No turn of the member is left, so this one has to repair.
        rw [if_pos hname, List.length_cons] at honce
        have hnone : turnsOf name events = [] := List.length_eq_zero_iff.mp (by omega)
        obtain ⟨hsame, hrest⟩ := agrees_iff_of_no_turn (h.step hspares.1) hspares.2 hlater hnone
        have hstep := (h.agrees_step_turn hspares.1 hevent).mp (hsame.mp hagrees)
        rw [if_pos hname] at hstep
        exact ⟨hstep, hrest⟩
      · rw [if_neg hname] at honce
        refine ⟨?_, ih (h.step hspares.1) hspares.2 hlater honce hagrees⟩
        intro other hother hsame
        rw [hevent, Option.mem_some_iff] at hother
        exact absurd (hother ▸ hsame) hname

end Twin

/-! ## A further full snapshot -/

/-- Whether an event is the sync's. -/
def MirrorEvent.ofSync : MirrorEvent → Bool
  | turn _ | left _ => true
  | _ => false

/-- What happens in a full snapshot and after it: its accounts have a turn each, it is through, and
the batcher works on all the while with no chunk failing. -/
structure FullSnapshot (reports : List HubReport) (events : List MirrorEvent) : Prop where
  sync : events.filter MirrorEvent.ofSync = reports.map MirrorEvent.turn ++ [MirrorEvent.left reports]
  succeeds : ∀ event ∈ events, event.succeeds

namespace Twin

variable {twin : Twin} {reports : List HubReport} {events : List MirrorEvent} {name : String}

theorem turnsOf_fullSnapshot (h : FullSnapshot reports events) :
    turnsOf name events = (reports.filter fun report ↦ validName report.name).filter
      fun report ↦ fold report.name = fold name := by
  have hsync : events.filterMap MirrorEvent.account =
      (events.filter MirrorEvent.ofSync).filterMap MirrorEvent.account := by
    rw [List.filterMap_filter]
    congr 1
    funext event
    cases event <;> rfl
  have hturns : (reports.map MirrorEvent.turn).filterMap MirrorEvent.account =
      reports.filter fun report ↦ validName report.name := by
    rw [List.filterMap_map, ← List.filterMap_eq_filter]
    rfl
  rw [turnsOf, hsync, h.sync, List.filterMap_append, hturns]
  simp [MirrorEvent.account]

/-- The columns of a member hold what they would had no chunk failed. -/
def Restored (twin : Twin) (name : String) : Prop :=
  twin.actual.world.members.valuesOf name = twin.ideal.world.members.valuesOf name

theorem Alike.restored_iff (h : twin.Alike name) (hdrained : twin.actual.Drained) :
    twin.Restored name ↔ twin.Agrees name := by
  have hpending : twin.actual.pending = twin.ideal.pending := by
    have hsame := congrArg Mirror.pending h.bare
    exact hsame
  have hactual : twin.actual.pending = [] := hdrained
  unfold Agrees Mirror.awaited
  rw [← hpending, hactual]
  exact Iff.rfl

/-- After any run in which a member is neither renamed nor hidden, a further full snapshot that stores
everything makes its columns what they would be had no chunk failed when its turn sends every section
whose column is behind, and, names being distinct in the snapshot, only then. -/
theorem restored_iff_repairs (members : Members) (clock : ℤ) {before after : List MirrorEvent}
    {reports : List HubReport} {report : HubReport} (hfull : FullSnapshot reports after)
    (hreport : report ∈ reports) (hvalid : validName report.name = true)
    (hspares : Run.Along step (Spares report.name) (boot members clock) (before ++ after))
    (hdrained : ((before ++ after).foldl step (boot members clock)).actual.Drained) :
    (Run.Along step (Repairs report.name) (before.foldl step (boot members clock)) after →
        ((before ++ after).foldl step (boot members clock)).Restored report.name) ∧
      ((reports.map fun report ↦ fold report.name).Nodup →
        ((before ++ after).foldl step (boot members clock)).Restored report.name →
          Run.Along step (Repairs report.name) (before.foldl step (boot members clock)) after) := by
  have halike : Run.Always step (fun twin ↦ twin.Alike report.name) (boot members clock)
      (before ++ after) :=
    Run.always_of_along (fun twin event h ↦ h.step) (alike_boot members clock report.name) hspares
  have hbefore := halike _ (List.prefix_append before after)
  have hrest := ((Run.along_append _ before after).mp hspares).2
  rw [halike.final.restored_iff hdrained, List.foldl_append]
  have hturns : turnsOf report.name after =
      (reports.filter fun known ↦ validName known.name).filter
        fun known ↦ fold known.name = fold report.name :=
    turnsOf_fullSnapshot hfull
  constructor
  · intro hrepairs
    apply agrees_of_repairs hbefore hrest hfull.succeeds hrepairs
    right
    rw [hturns]
    apply List.ne_nil_of_mem (a := report)
    simp [hreport, hvalid]
  · intro hdistinct
    apply repairs_of_agrees hbefore hrest hfull.succeeds
    have hsublist : List.Sublist (turnsOf report.name after)
        (reports.filter fun other ↦ fold other.name = fold report.name) := by
      rw [hturns]
      exact List.filter_sublist.filter _
    have hcount := List.nodup_iff_count_le_one.mp hdistinct (fold report.name)
    rw [List.count, List.countP_map, List.countP_eq_length_filter] at hcount
    exact hsublist.length_le.trans hcount

/-- Alpha's hit points are stored, and the chunk with the next ones fails. -/
def failing : List MirrorEvent :=
  [.turn (plainReport "1" "Alpha" ["activity"] 50), .receive, .flush, .store 0,
    .turn (plainReport "1" "Alpha" ["activity"] 60), .receive, .flush, .fail 0]

/-- They have changed again by the next full snapshot. -/
def changedAgain : List MirrorEvent :=
  [.turn (plainReport "1" "Alpha" ["activity"] 70), .left [plainReport "1" "Alpha" ["activity"] 70],
    .receive, .flush, .store 0]

theorem restored_changedAgain :
    ((failing ++ changedAgain).foldl step (boot Table.empty 0)).Restored "Alpha" := by
  have hfull : FullSnapshot [plainReport "1" "Alpha" ["activity"] 70] changedAgain :=
    ⟨rfl, by decide⟩
  exact (restored_iff_repairs Table.empty 0 hfull List.mem_cons_self (by decide) (by decide +kernel)
    (by decide +kernel)).1 (by decide +kernel)

/-- Alpha's hit points are stored, then no longer shared, and the chunk that says so fails. -/
def withdrawalLost : List MirrorEvent :=
  [.turn (plainReport "1" "Alpha" ["activity"] 50), .receive, .flush, .store 0,
    .turn (plainReport "1" "Alpha" [] 50), .left [plainReport "1" "Alpha" [] 50],
    .receive, .flush, .fail 0]

/-- Nothing has changed by the next full snapshot, so that nothing is sent. -/
def nothingNew : List MirrorEvent :=
  [.turn (plainReport "1" "Alpha" [] 50), .left [plainReport "1" "Alpha" [] 50]]

/-- What is no longer shared stays on the map. -/
theorem not_restored_withdrawalLost : ¬ ∀ (members : Members) (clock : ℤ)
    (before after : List MirrorEvent)
    (reports : List HubReport), FullSnapshot reports after →
      ((before ++ after).foldl step (boot members clock)).actual.Drained →
        ∀ report ∈ reports, validName report.name = true →
          Run.Along step (Spares report.name) (boot members clock) (before ++ after) →
            ((before ++ after).foldl step (boot members clock)).Restored report.name := by
  intro h
  have hfull : FullSnapshot [plainReport "1" "Alpha" [] 50] nothingNew := ⟨rfl, by decide⟩
  have hrestored := h Table.empty 0 withdrawalLost nothingNew _ hfull (by decide +kernel) _
    List.mem_cons_self (by decide) (by decide +kernel)
  exact absurd (congrFun hrestored .stats) (by decide +kernel)

end Twin

end OsrsMap.Sync
