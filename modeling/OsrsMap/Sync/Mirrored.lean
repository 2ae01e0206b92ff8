import OsrsMap.Sync.Mirror

/-!
# The mirror and every snapshot in full

What the data columns would be had every snapshot been laid over them in full, next to what the sync
and the batcher make of them by sending what changed, in batches.
-/

namespace OsrsMap.Sync

open Overlay

/-! ## Every snapshot in full -/

/-- A snapshot's account, with what was sent for it before. -/
structure Taken where
  report : HubReport
  previous : Option MemberSections

def Taken.sections (taken : Taken) : MemberSections := taken.report.fromAccount taken.previous

/-- The accounts of all snapshots in order, over the members at the start; `previous` is what an
account had in the one before, for as long as it is visible. -/
structure Applied where
  start : Members
  previous : String → Option MemberSections
  taken : List Taken

namespace Applied

def step (applied : Applied) : MirrorEvent → Applied
  | .turn report =>
    if validName report.name then
      { applied with
        previous := Function.update applied.previous report.id
          (some (report.fromAccount (applied.previous report.id)))
        taken := applied.taken ++ [{ report, previous := applied.previous report.id }] }
    else applied
  | .left reports =>
    { applied with
      previous := fun id ↦ if id ∈ reports.map (·.id) then applied.previous id else none }
  | _ => applied

/-- The snapshots of a member. -/
def takenOf (applied : Applied) (name : String) : List Taken :=
  applied.taken.filter fun taken ↦ fold name = fold taken.report.name

/-- The columns of a member: the sections of all its snapshots in order, each laid over those before. -/
def columns (applied : Applied) (name : String) : MemberSections :=
  stack (applied.start.valuesOf name) ((applied.takenOf name).map Taken.sections)

end Applied

/-- The mirror, and what it is a mirror of. -/
structure Mirrored where
  mirror : Mirror
  applied : Applied

namespace Mirrored

def step (state : Mirrored) (event : MirrorEvent) : Mirrored where
  mirror := state.mirror.step event
  applied := state.applied.step event

/-- The server starts over a members table. -/
def boot (members : Members) (clock : ℤ) : Mirrored where
  mirror := Mirror.boot members clock
  applied := { start := members, previous := fun _ ↦ none, taken := [] }

end Mirrored

/-! ## Steps of the columns in full -/

section Applied

variable {applied : Applied} {event : MirrorEvent} {report : HubReport}

theorem Applied.step_turn (h : event.account = some report) : applied.step event =
    { applied with
      previous := Function.update applied.previous report.id
        (some (report.fromAccount (applied.previous report.id)))
      taken := applied.taken ++ [{ report, previous := applied.previous report.id }] } := by
  obtain ⟨rfl, hvalid⟩ := MirrorEvent.eq_turn h
  exact if_pos hvalid

theorem Applied.columns_step_turn (h : event.account = some report) (name : String) :
    (applied.step event).columns name =
      if fold name = fold report.name then
        overlay (report.fromAccount (applied.previous report.id)) (applied.columns name)
      else applied.columns name := by
  rw [step_turn h]
  unfold columns takenOf
  dsimp only
  rw [List.filter_append, List.map_append, stack_append]
  split_ifs with hname <;> simp [hname, Taken.sections, stack]

/-- Only a turn adds a snapshot. -/
theorem Applied.taken_step (h : event.account = none) :
    (applied.step event).start = applied.start ∧ (applied.step event).taken = applied.taken := by
  cases event with
  | turn report =>
    have hvalid : ¬ validName report.name = true := by
      simpa [MirrorEvent.account] using h
    have hsame : applied.step (.turn report) = applied := if_neg hvalid
    rw [hsame]
    exact ⟨rfl, rfl⟩
  | _ => exact ⟨rfl, rfl⟩

theorem Applied.columns_step (h : event.account = none) (name : String) :
    (applied.step event).columns name = applied.columns name := by
  have hsame : (applied.step event).start = applied.start ∧ (applied.step event).taken = applied.taken :=
    taken_step h
  obtain ⟨hstart, htaken⟩ := hsame
  rw [columns, columns, takenOf, takenOf, hstart, htaken]

end Applied

/-! ## What holds all along -/

namespace Mirrored

variable {state : Mirrored} {event : MirrorEvent} {report : HubReport}

/-- The batcher is sound, what the sync knows as sent is what the account had in the snapshot before,
and every member has a row. -/
structure Sound (state : Mirrored) : Prop where
  mirror : ∀ name, state.mirror.Sound name
  lastSent : ∀ id, state.applied.previous id = state.mirror.world.lastSent id
  present : ∀ taken ∈ state.applied.taken, HasRow state.mirror.world.members taken.report.name

/-- An account that has its turn is neither renamed nor hidden. -/
def PlainTurn (state : Mirrored) (event : MirrorEvent) : Prop :=
  ∀ report ∈ event.account, Plain state.mirror.world report.account

instance (state : Mirrored) (event : MirrorEvent) : Decidable (state.PlainTurn event) :=
  inferInstanceAs (Decidable (∀ report ∈ event.account, Plain state.mirror.world report.account))

theorem PlainTurn.spares (h : state.PlainTurn event) (name : String) :
    event.Spares name state.mirror.world := by
  cases event with
  | turn report => exact fun hvalid ↦ .inr (h report (if_pos hvalid))
  | _ => trivial

theorem Sound.turned (h : state.Sound) (hplain : state.PlainTurn event)
    (hreport : event.account = some report) :
    Mirror.Turned state.mirror report (state.step event).mirror := by
  have haccount := hplain report hreport
  obtain ⟨rfl, hvalid⟩ := MirrorEvent.eq_turn hreport
  exact (h.mirror report.name).turn hvalid haccount

theorem Sound.step_turn (h : state.Sound) (hplain : state.PlainTurn event)
    (hreport : event.account = some report) : (state.step event).Sound := by
  have happlied : (state.step event).applied = _ := Applied.step_turn hreport
  have hturned := h.turned hplain hreport
  obtain ⟨presence, hknown⟩ := hturned.known
  refine ⟨fun name ↦ hturned.sound (h.mirror name), fun id ↦ ?_, fun taken htaken ↦ ?_⟩
  · rw [happlied, World.lastSent, hknown]
    dsimp only
    by_cases hid : id = report.id
    · rw [hid, Function.update_self, Function.update_self, h.lastSent]
      rfl
    · rw [Function.update_of_ne hid, Function.update_of_ne hid]
      exact h.lastSent id
  · rw [happlied] at htaken
    obtain htaken | htaken := List.mem_append.mp htaken
    · exact hturned.columns.hasRow (h.present taken htaken)
    · rw [List.mem_singleton.mp htaken]
      exact hturned.hasRow

/-- A step other than a turn leaves names and bindings, and what is known, or that of the visible
accounts. -/
structure Leaves (state after : Mirrored) : Prop where
  lastSent : ∀ id, after.applied.previous id = after.mirror.world.lastSent id
  known : ∀ id, ∀ known ∈ after.mirror.world.known id, known ∈ state.mirror.world.known id
  hasRow : ∀ name, HasRow state.mirror.world.members name → HasRow after.mirror.world.members name
  owns : ∀ id name, Owns after.mirror.world.members id name → Owns state.mirror.world.members id name

theorem Leaves.of_world {after : Mirrored} (h : state.Sound) (happlied : after.applied = state.applied)
    (hworld : after.mirror.world = state.mirror.world) : Leaves state after := by
  obtain ⟨mirror, applied⟩ := after
  dsimp only at happlied hworld
  refine ⟨fun id ↦ ?_, fun id known hknown ↦ ?_, fun name hrow ↦ ?_, fun id name howns ↦ ?_⟩
  · dsimp only
    rw [happlied, hworld]
    exact h.lastSent id
  all_goals
    dsimp only at *
    rw [hworld] at *
    assumption

theorem Sound.leaves (h : state.Sound) (hother : event.account = none) :
    Leaves state (state.step event) := by
  cases event with
  | turn report =>
    have hvalid : validName report.name = false := by
      simpa [MirrorEvent.account] using hother
    have happlied : state.applied.step (.turn report) = state.applied := if_neg (by simp [hvalid])
    exact .of_world h happlied (congrArg Mirror.world (Mirror.step_turn_of_invalid hvalid))
  | left reports =>
    have hsame := sameData_finishFull state.mirror.world (reports.map HubReport.account)
    refine ⟨fun id ↦ ?_, fun id known hknown ↦ (known_finishFull.mp hknown).2,
      fun name ↦ hsame.keepsColumns.hasRow, fun id name ↦ hsame.owns_iff.mp⟩
    dsimp only [step, Mirror.step, Applied.step]
    rw [Mirror.lastSent_finishFull, h.lastSent, List.map_map]
    rfl
  | elapse now => exact ⟨h.lastSent, fun _ _ ↦ id, fun _ ↦ id, fun _ _ ↦ id⟩
  | receive => exact .of_world h rfl state.mirror.world_receive
  | flush => exact .of_world h rfl state.mirror.world_flush
  | store i =>
    obtain ⟨members, hstore, hstored⟩ := state.mirror.world_store i
    have hworld : (state.step (.store i)).mirror.world = { state.mirror.world with members } := hstored
    refine ⟨fun id ↦ ?_, fun id known hknown ↦ ?_, fun name hrow ↦ ?_, fun id name howns ↦ ?_⟩
    · rw [hworld]
      exact h.lastSent id
    · rwa [hworld] at hknown
    · rw [hworld]
      exact Mirror.hasRow_storeChunk hstore hrow
    · rw [hworld] at howns
      exact (Mirror.owns_storeChunk hstore).mp howns
  | fail i => exact .of_world h rfl (state.mirror.world_dropChunk i)

theorem Sound.step (h : state.Sound) (hplain : state.PlainTurn event) : (state.step event).Sound := by
  cases hevent : event.account with
  | some report => exact h.step_turn hplain hevent
  | none =>
    have hleaves := h.leaves hevent
    refine ⟨fun name ↦ (h.mirror name).step (hplain.spares name), hleaves.lastSent, fun taken htaken ↦ ?_⟩
    dsimp only [Mirrored.step] at htaken
    rw [(Applied.taken_step hevent).2] at htaken
    exact hleaves.hasRow _ (h.present taken htaken)

/-! ## Without failures -/

/-- An account that has its turn, and that the sync knows, still has its row. -/
def StillOwns (state : Mirrored) (event : MirrorEvent) : Prop :=
  ∀ report ∈ event.account, Sync.StillOwns state.mirror.world report.account

instance (state : Mirrored) (event : MirrorEvent) : Decidable (state.StillOwns event) :=
  inferInstanceAs (Decidable (∀ report ∈ event.account,
    Sync.StillOwns state.mirror.world report.account))

/-- An account that has its row finds there what was sent for it. -/
def SentHeld (state : Mirrored) : Prop :=
  ∀ id, ∀ known ∈ state.mirror.world.known id, Owns state.mirror.world.members id known.memberName →
    Held known.sent (state.applied.columns known.memberName)

/-- What was sent comes to what the snapshots come to in full. -/
def Agrees (state : Mirrored) (name : String) : Prop :=
  state.mirror.awaited name = state.applied.columns name

theorem SentHeld.step (h : state.SentHeld) (hsound : state.Sound) (hplain : state.PlainTurn event)
    (hstill : state.StillOwns event) : (state.step event).SentHeld := by
  intro id known hknown howns
  cases hevent : event.account with
  | none =>
    have hleaves := hsound.leaves hevent
    rw [show (state.step event).applied.columns known.memberName =
      state.applied.columns known.memberName from Applied.columns_step hevent _]
    exact h id known (hleaves.known id known hknown) (hleaves.owns id _ howns)
  | some report =>
    have hcolumns : (state.step event).applied.columns known.memberName = _ :=
      Applied.columns_step_turn hevent known.memberName
    have hturned := hsound.turned hplain hevent
    obtain ⟨presence, hafter⟩ := hturned.known
    rw [hcolumns]
    have hknown' := hknown
    rw [hafter] at hknown'
    by_cases hid : id = report.id
    · rw [hid, Function.update_self, Option.mem_some_iff] at hknown'
      rw [← hknown', if_pos rfl, hsound.lastSent]
      exact held_overlay _ _
    · -- The row of the account that had its turn is its own, so it is not this one's.
      have hname : fold known.memberName ≠ fold report.name := by
        intro hname
        exact hid (howns.unique (hturned.owns (hstill report hevent)) hname)
      rw [Function.update_of_ne hid] at hknown'
      rw [if_neg hname]
      exact h id known hknown' (hturned.others id hid _ howns)

/-- What the turn of an account makes of the columns, and what it makes of them in full. -/
theorem Sound.awaited_step_turn (h : state.Sound) (hplain : state.PlainTurn event)
    (hevent : event.account = some report) (name : String) :
    (state.step event).mirror.awaited name =
        (if fold name = fold report.name then
          overlay (diff (state.mirror.world.lastSent report.id)
            (report.fromAccount (state.mirror.world.lastSent report.id))) (state.mirror.awaited name)
        else state.mirror.awaited name) ∧
      (state.step event).applied.columns name =
        if fold name = fold report.name then
          overlay (report.fromAccount (state.mirror.world.lastSent report.id))
            (state.applied.columns name)
        else state.applied.columns name := by
  have hcolumns : (state.step event).applied.columns name = _ :=
    Applied.columns_step_turn hevent name
  rw [h.lastSent] at hcolumns
  exact ⟨(h.turned hplain hevent).awaited name, hcolumns⟩

theorem columns_congr {applied : Applied} {name other : String} (h : fold name = fold other) :
    applied.columns name = applied.columns other := by
  unfold Applied.columns Applied.takenOf Members.valuesOf MemberRow.named
  simp only [h]

theorem SentHeld.held_lastSent (h : state.SentHeld) (hplain : state.PlainTurn event)
    (hstill : state.StillOwns event) (hevent : event.account = some report) :
    Held (state.mirror.world.lastSent report.id) (state.applied.columns report.name) := by
  have howns := hstill report hevent
  have haccount := hplain report hevent
  cases hknown : state.mirror.world.known report.id with
  | none =>
    rw [World.lastSent, hknown]
    exact held_none _
  | some known =>
    have hname : known.memberName = report.name := by
      apply haccount.named
      simp [World.currentName, HubReport.account, hknown]
    rw [World.lastSent, hknown, ← hname]
    exact h report.id known hknown (howns known hknown)

theorem agrees_step (hsound : state.Sound) (hheld : state.SentHeld)
    (hagrees : ∀ name, state.Agrees name) (hplain : state.PlainTurn event)
    (hstill : state.StillOwns event) (hfine : event.succeeds) (name : String) :
    (state.step event).Agrees name := by
  unfold Agrees
  cases hevent : event.account with
  | none =>
    calc (state.step event).mirror.awaited name
        = state.mirror.awaited name := (hsound.mirror name).awaited_step hfine hevent
      _ = state.applied.columns name := hagrees name
      _ = (state.step event).applied.columns name := (Applied.columns_step hevent name).symm
  | some report =>
    obtain ⟨hawaited, hcolumns⟩ := hsound.awaited_step_turn hplain hevent name
    rw [hawaited, hcolumns]
    split_ifs with hname
    · rw [hagrees name]
      apply overlay_diff
      rw [columns_congr hname]
      exact hheld.held_lastSent hplain hstill hevent
    · exact hagrees name

/-! ## Stamps -/

/-- A step stamps what it stores. -/
def StampsChanges (state : Mirrored) (event : MirrorEvent) : Prop :=
  Stamps state.mirror.world.clock state.mirror.world.members (state.step event).mirror.world.members

theorem Sound.stampsChanges (h : state.Sound) (hplain : state.PlainTurn event) :
    state.StampsChanges event := by
  have hsame := (KeepsColumns.refl state.mirror.world.members).stamps state.mirror.world.clock
  unfold StampsChanges
  cases event with
  | turn report =>
    cases hvalid : validName report.name with
    | true => exact (h.turned hplain (if_pos hvalid)).columns.stamps _
    | false =>
      rw [show (state.step (.turn report)).mirror = state.mirror from
        Mirror.step_turn_of_invalid hvalid]
      exact hsame
  | left reports => exact (keepsColumns_finishFull state.mirror.world _).stamps _
  | elapse now => exact hsame
  | receive =>
    rw [show (state.step .receive).mirror.world = _ from state.mirror.world_receive]
    exact hsame
  | flush =>
    rw [show (state.step .flush).mirror.world = _ from state.mirror.world_flush]
    exact hsame
  | store i =>
    obtain ⟨members, hstore, hworld⟩ := state.mirror.world_store i
    rw [show (state.step (.store i)).mirror.world = _ from hworld]
    exact stamps_storeChunk hstore
  | fail i =>
    rw [show (state.step (.fail i)).mirror.world = _ from state.mirror.world_dropChunk i]
    exact hsame

/-! ## Runs -/

section Runs

variable {members : Members} {clock : ℤ} {events : List MirrorEvent}

theorem sound_boot (members : Members) (clock : ℤ) : (boot members clock).Sound where
  mirror := Mirror.sound_boot members clock
  lastSent _ := rfl
  present _ htaken := absurd htaken List.not_mem_nil

theorem sentHeld_boot (members : Members) (clock : ℤ) : (boot members clock).SentHeld :=
  fun _ _ hknown ↦ absurd hknown (by simp [boot, Mirror.boot, World.start])

theorem agrees_boot (members : Members) (clock : ℤ) (name : String) : (boot members clock).Agrees name :=
  rfl

/-- Every member has its row, its columns are the sections of all its snapshots in order laid over
what they were, and a section whose category the last of them does not share is empty. -/
structure Mirrors (state : Mirrored) : Prop where
  present : ∀ taken ∈ state.applied.taken, HasRow state.mirror.world.members taken.report.name
  columns : ∀ row ∈ state.mirror.world.members, row.values = state.applied.columns row.memberName
  withdrawn : ∀ row ∈ state.mirror.world.members,
    ∀ taken ∈ (state.applied.takenOf row.memberName).getLast?, ∀ part, ∀ category ∈ categoryOf part,
      taken.report.shares category = false → row.values part = some (.array [])

/-- What the latest snapshot of a member has is in the column in full. -/
theorem columns_of_last {applied : Applied} {name : String} {taken : Taken} {part : Section}
    {value : Payload} (hlast : taken ∈ (applied.takenOf name).getLast?)
    (hvalue : taken.sections part = some value) : applied.columns name part = some value := by
  obtain ⟨before, hsplit⟩ := List.getLast?_eq_some_iff.mp hlast
  rw [Applied.columns, hsplit, List.map_append, List.map_singleton, stack_concat, overlay_apply, hvalue,
    Option.some_or]

theorem mirrors_of_agrees (h : state.Sound) (hagrees : ∀ name, state.Agrees name)
    (hdrained : state.mirror.Drained) : state.Mirrors := by
  have hcolumns : ∀ row ∈ state.mirror.world.members,
      row.values = state.applied.columns row.memberName := by
    intro row hrow
    calc row.values
        = state.mirror.world.members.valuesOf row.memberName := (valuesOf_of_mem hrow rfl).symm
      _ = state.mirror.awaited row.memberName := by
          rw [Mirror.awaited, show state.mirror.pending = [] from hdrained]
          rfl
      _ = state.applied.columns row.memberName := hagrees row.memberName
  refine ⟨h.present, hcolumns, fun row hrow taken htaken part category hcategory hshares ↦ ?_⟩
  rw [hcolumns row hrow]
  exact columns_of_last htaken (HubReport.fromAccount_withdrawn hcategory hshares taken.previous)

/-- In every run of accounts that are neither renamed nor hidden and of which none has a turn under
a row that another account has taken over, and in which no chunk fails, the data columns are what
every snapshot in full makes of them once everything that was sent is stored. -/
theorem mirrors_of_drained (members : Members) (clock : ℤ) (events : List MirrorEvent)
    (hplain : Run.Along step PlainTurn (boot members clock) events)
    (hstill : Run.Along step StillOwns (boot members clock) events)
    (hfine : ∀ event ∈ events, event.succeeds) :
    ((events.foldl step (boot members clock)).mirror.Drained →
        (events.foldl step (boot members clock)).Mirrors) ∧
      Run.Along step StampsChanges (boot members clock) events := by
  have hgood := Run.along_and (Run.along_and hplain hstill) (Run.along_of_forall_mem hfine)
  have hrun : Run.Always step (fun state ↦ state.Sound ∧ state.SentHeld ∧ ∀ name, state.Agrees name)
      (boot members clock) events := by
    refine Run.always_of_along (fun state event hstate hevent ↦ ?_)
      ⟨sound_boot members clock, sentHeld_boot members clock, agrees_boot members clock⟩ hgood
    obtain ⟨hsound, hheld, hagrees⟩ := hstate
    obtain ⟨⟨hplain, hstill⟩, hfine⟩ := hevent
    exact ⟨hsound.step hplain, hheld.step hsound hplain hstill,
      agrees_step hsound hheld hagrees hplain hstill hfine⟩
  constructor
  · intro hdrained
    obtain ⟨hsound, -, hagrees⟩ := hrun.final
    exact mirrors_of_agrees hsound hagrees hdrained
  · exact hrun.along (fun state event hstate ↦ hstate.1.stampsChanges) hplain

theorem Mirrors.valuesOf {name : String} (h : state.Mirrors)
    (hrow : HasRow state.mirror.world.members name) :
    state.mirror.world.members.valuesOf name = state.applied.columns name := by
  obtain ⟨row, hmem, rfl⟩ := hrow
  rw [valuesOf_of_mem hmem rfl, h.columns row hmem]

/-- Alpha's hit points are stored, then no longer shared. -/
def withdrawing : List MirrorEvent :=
  [.turn (plainReport "1" "Alpha" ["activity"] 50), .receive, .flush, .store 0,
    .turn (plainReport "1" "Alpha" [] 60), .left [plainReport "1" "Alpha" [] 60], .receive, .flush, .store 0]

theorem mirrors_withdrawing :
    (withdrawing.foldl step (boot Table.empty 0)).mirror.Drained ∧
      (withdrawing.foldl step (boot Table.empty 0)).Mirrors ∧
      Run.Along step StampsChanges (boot Table.empty 0) withdrawing := by
  have hdrained : (withdrawing.foldl step (boot Table.empty 0)).mirror.Drained := by decide +kernel
  have hboth := mirrors_of_drained Table.empty 0 withdrawing (by decide +kernel) (by decide +kernel)
    (by decide)
  exact ⟨hdrained, hboth.1 hdrained, hboth.2⟩

/-- A full snapshot of one account, and two that are not full: of another account of its name, which
takes its row over, and of the first one again, with nothing new. -/
def takingOver : List MirrorEvent :=
  [.turn (plainReport "1" "Bob" ["activity"] 50), .left [plainReport "1" "Bob" ["activity"] 50],
    .turn (plainReport "2" "Bob" ["activity"] 60), .turn (plainReport "1" "Bob" ["activity"] 50),
    .receive, .receive, .flush, .store 0]

/-- The row keeps what the account that took it over had. -/
theorem not_mirrors_takingOver : ¬ ∀ (members : Members) (clock : ℤ) (events : List MirrorEvent),
    Run.Along step PlainTurn (boot members clock) events → (∀ event ∈ events, event.succeeds) →
      ((events.foldl step (boot members clock)).mirror.Drained →
          (events.foldl step (boot members clock)).Mirrors) ∧
        Run.Along step StampsChanges (boot members clock) events := by
  intro h
  have hmirrors := (h Table.empty 0 takingOver (by decide +kernel) (by decide)).1 (by decide +kernel)
  have hrow : HasRow (takingOver.foldl step (boot Table.empty 0)).mirror.world.members "Bob" := by
    decide +kernel
  have hsame := congrFun (hmirrors.valuesOf hrow) .stats
  exact absurd hsame (by decide +kernel)

end Runs

end Mirrored

end OsrsMap.Sync
