import OsrsMap.Sync.Turn
import Mathlib.Data.List.Nodup

/-!
# Whose row a known account has

After a snapshot every account that the sync knows should have one row, under the name the hub last
gave it. Accounts are processed one by one, against rows that other accounts of the same snapshot
are about to leave or to rename: whether that goes well is a matter of the order they are listed in.
-/

namespace OsrsMap.Sync

/-- A snapshot of names the map can store, no two of them the same. -/
structure NamedSnapshot extends Snapshot where
  valid : ∀ account ∈ accounts, validName account.name = true
  names_nodup : (accounts.map fun account ↦ fold account.name).Nodup

/-- The sync, and what the hub last called every account. -/
structure SyncState where
  world : World
  latest : String → Option String

namespace SyncState

def start : SyncState where
  world := World.start
  latest _ := none

def step (state : SyncState) (snapshot : NamedSnapshot) : SyncState where
  world := state.world.take snapshot.toSnapshot
  latest id := ((snapshot.accounts.find? fun account ↦ account.id = id).map (·.name)).or
    (state.latest id)

/-- Every known account has exactly one row, of the name it is known by and last had on the hub;
no two have the same name. -/
structure NamesAgree (state : SyncState) : Prop where
  one : ∀ id known, state.world.known id = some known →
    ∃! row, row ∈ state.world.members ∧ row.hubAccountId = some id
  same : ∀ id known row, state.world.known id = some known → row ∈ state.world.members →
    row.hubAccountId = some id →
      row.memberName = known.memberName ∧ state.latest id = some row.memberName
  distinct : ∀ id id' known known', state.world.known id = some known →
    state.world.known id' = some known' →
      fold known.memberName = fold known'.memberName → id = id'

/-- A row may be taken when it is nobody's, or that of an account whose turn is still to come or
that the sync does not know after the snapshot. -/
def MayTake (snapshot : NamedSnapshot) (turn : Turn) (row : MemberRow) : Prop :=
  ∀ id ∈ row.hubAccountId, id ∉ turn.done.map (·.id) ∧
    (snapshot.full = true ∨ id ∈ snapshot.accounts.map (·.id) ∨ (turn.world.known id).isNone)

instance (snapshot : NamedSnapshot) (turn : Turn) (row : MemberRow) :
    Decidable (MayTake snapshot turn row) :=
  inferInstanceAs (Decidable (∀ id ∈ row.hubAccountId, _ ∧ (_ ∨ _ ∨ _)))

/-- The turn of an account goes well: it has a row or moves onto one, it may take the rows it takes,
and the row it moves onto has its name to the letter. -/
def GoesWell (snapshot : NamedSnapshot) (turn : Turn) (account : HubAccount) : Prop :=
  turn.world.Settles account ∧ (∀ row ∈ turn.world.taken account, MayTake snapshot turn row) ∧
    ∀ row ∈ turn.world.movesTo account, row.memberName = account.name

instance (snapshot : NamedSnapshot) (turn : Turn) (account : HubAccount) :
    Decidable (GoesWell snapshot turn account) :=
  inferInstanceAs (Decidable (_ ∧ (∀ row ∈ turn.world.taken account, MayTake snapshot turn row) ∧
    ∀ row ∈ turn.world.movesTo account, row.memberName = account.name))

/-- Every turn of the snapshot goes well. -/
def AllGoWell (state : SyncState) (snapshot : NamedSnapshot) : Prop :=
  Run.Along Turn.next (GoesWell snapshot) (snapshot.start state.world) snapshot.accounts

instance (state : SyncState) (snapshot : NamedSnapshot) : Decidable (AllGoWell state snapshot) :=
  inferInstanceAs (Decidable (Run.Along _ _ _ _))

/-- Every known account has its row, under the name the hub last gave it. -/
def Settled (state : SyncState) : Prop :=
  ∀ id known, state.world.known id = some known →
    Holds state.world.members.entries id known.memberName ∧
      state.latest id = some known.memberName

variable {state : SyncState} {snapshot : NamedSnapshot}

theorem namesAgree_of_settled (hsound : Sound state.world) (h : state.Settled) :
    state.NamesAgree := by
  refine ⟨fun id known hknown ↦ ?_, fun id known row hknown hrow hid ↦ ?_,
    fun id id' known known' hknown hknown' hname ↦ ?_⟩
  · obtain ⟨⟨_, ⟨row, hrow, rfl⟩, hid, -⟩, -⟩ := h id known hknown
    exact ⟨row, ⟨hrow, hid⟩, fun other hother ↦ Members.eq_of_account hother.1 hrow hother.2 hid⟩
  · have hname := hsound.names id known hknown row.memberName ⟨row.entry, mem_entries hrow, hid, rfl⟩
    exact ⟨hname, by rw [hname, (h id known hknown).2]⟩
  · obtain ⟨⟨entry, hentry, hid, hentryname⟩, -⟩ := h id known hknown
    obtain ⟨⟨entry', hentry', hid', hentryname'⟩, -⟩ := h id' known' hknown'
    have hsame := entry_eq_of_name hentry hentry' (by rw [hentryname, hentryname', hname])
    rw [← hsame, hid] at hid'
    exact Option.some.inj hid'

/-- In the middle of a snapshot: who had a turn has its row, and who has none coming up still has
the row it had. -/
structure Midway (state : SyncState) (snapshot : NamedSnapshot) (turn : Turn) : Prop where
  sound : Sound turn.world
  done : ∀ account ∈ turn.done, Holds turn.world.members.entries account.id account.name ∧
    ∃ known, turn.world.known account.id = some known ∧ known.memberName = account.name
  rest : snapshot.full = false → ∀ id ∉ snapshot.accounts.map (·.id),
    ∀ known, turn.world.known id = some known →
      Holds turn.world.members.entries id known.memberName ∧
        state.latest id = some known.memberName

theorem midway_start (hsound : Sound state.world) (h : state.Settled) :
    Midway state snapshot (snapshot.start state.world) where
  sound := ⟨hsound.noneHidden, hsound.shown, hsound.names⟩
  done := by simp [Snapshot.start]
  rest _ id _ known hknown := h id known hknown

theorem Midway.next {turn : Turn} {account : HubAccount} (h : Midway state snapshot turn)
    (hsplit : snapshot.accounts = turn.done ++ turn.rest) (hhead : turn.rest.head? = some account)
    (hwell : GoesWell snapshot turn account) : Midway state snapshot (turn.next account) := by
  obtain ⟨rest, hrest⟩ := List.head?_eq_some_iff.mp hhead
  rw [hrest] at hsplit
  have haccount : account ∈ snapshot.accounts := by simp [hsplit]
  have hnew := Snapshot.fresh hsplit
  obtain ⟨hsettles, htaken, hmoves⟩ := hwell
  have heffect := h.sound.effect_named (snapshot.valid account haccount) hsettles.renamesOwn hmoves
  refine ⟨heffect.sound h.sound, fun other hother ↦ ⟨?_, ?_⟩, fun hpart id hid known hknown ↦ ?_⟩
  · exact heffect.holds_next hnew hsettles (fun row hrow id hid ↦ (htaken row hrow id hid).1) hother
      fun hdone ↦ (h.done other hdone).1
  · obtain hdone | hself := List.mem_append.mp hother
    · have hmem : other.id ∈ turn.done.map (·.id) := List.mem_map_of_mem hdone
      obtain ⟨-, known, hknown, hname⟩ := h.done other hdone
      exact ⟨known, (heffect.known_other fun heq ↦ hnew (heq ▸ hmem)).trans hknown, hname⟩
    · rw [List.mem_singleton.mp hself]
      exact heffect.known_self
  · have hne : id ≠ account.id := fun heq ↦ hid (heq ▸ List.mem_map_of_mem haccount)
    have hbefore : turn.world.known id = some known := (heffect.known_other hne).symm.trans hknown
    obtain ⟨hholds, hlatest⟩ := h.rest hpart id hid known hbefore
    refine ⟨(heffect.rows.others _ hne _).mpr ⟨hholds, fun row hrow hbound ↦ ?_⟩, hlatest⟩
    obtain hfull | hlisted | hunknown := (htaken row hrow id hbound).2
    · simp [hpart] at hfull
    · exact hid hlisted
    · simp [hbefore] at hunknown

theorem latest_step {account : HubAccount} (h : account ∈ snapshot.accounts) :
    (state.step snapshot).latest account.id = some account.name := by
  have hsome : (snapshot.accounts.find? fun other ↦ other.id = account.id).isSome :=
    List.find?_isSome.mpr ⟨account, h, by simp⟩
  obtain ⟨found, hfind⟩ := Option.isSome_iff_exists.mp hsome
  have hid := List.find?_some hfind
  simp only [decide_eq_true_eq] at hid
  obtain rfl : found = account :=
    List.inj_on_of_nodup_map snapshot.ids_nodup (List.mem_of_find?_eq_some hfind) h hid
  simp [step, hfind]

theorem latest_step_of_not_mem {id : String} (h : id ∉ snapshot.accounts.map (·.id)) :
    (state.step snapshot).latest id = state.latest id := by
  have hfind : snapshot.accounts.find? (fun account ↦ account.id = id) = none :=
    List.find?_eq_none.mpr fun account haccount heq ↦
      h (List.mem_map.mpr ⟨account, haccount, of_decide_eq_true heq⟩)
  simp [step, hfind]

/-- A snapshot all of whose turns go well leaves every known account with its row. -/
theorem settled_step (hsound : Sound state.world) (h : state.Settled)
    (hwell : state.AllGoWell snapshot) :
    Sound (state.step snapshot).world ∧ (state.step snapshot).Settled := by
  have hmidway := turns_of_along (midway_start hsound h)
    (fun _ _ hturn hsplit hhead hgood ↦ hturn.next hsplit hhead hgood) hwell
  generalize hworld : snapshot.toSnapshot.turned state.world = world at hmidway
  have hlisted {id : String} {known : KnownAccount} (hid : id ∈ snapshot.accounts.map (·.id))
      (hknown : world.known id = some known) : Holds world.members.entries id known.memberName ∧
        (state.step snapshot).latest id = some known.memberName := by
    obtain ⟨account, haccount, rfl⟩ := List.mem_map.mp hid
    obtain ⟨hholds, known', hknown', hname⟩ := hmidway.done account haccount
    obtain rfl : known' = known := Option.some.inj (hknown'.symm.trans hknown)
    exact ⟨hname ▸ hholds, by rw [latest_step haccount, hname]⟩
  cases hfull : snapshot.full with
  | true =>
    have hstep : (state.step snapshot).world = world.finishFull snapshot.accounts := by
      simp [step, World.take_eq, hfull, hworld]
    refine ⟨hstep ▸ hmidway.sound.finishFull _, fun id known hknown ↦ ?_⟩
    rw [hstep] at hknown ⊢
    obtain ⟨hid, hknown⟩ := known_finishFull.mp hknown
    rw [holds_finishFull]
    exact hlisted hid hknown
  | false =>
    have hstep : (state.step snapshot).world = world := by
      simp [step, World.take_eq, hfull, hworld]
    refine ⟨hstep ▸ hmidway.sound, fun id known hknown ↦ ?_⟩
    rw [hstep] at hknown ⊢
    by_cases hid : id ∈ snapshot.accounts.map (·.id)
    · exact hlisted hid hknown
    · rw [latest_step_of_not_mem hid]
      exact hmidway.rest hfull id hid known hknown

/-- In a run of snapshots all of whose turns go well, every known account has its row and its name
after each of them. -/
theorem namesAgree_of_allGoWell (snapshots : List NamedSnapshot)
    (h : Run.Along step AllGoWell start snapshots) :
    Run.Always step NamesAgree start snapshots := by
  have hstart : Sound start.world ∧ start.Settled :=
    ⟨sound_start, by simp [Settled, start, World.start]⟩
  have hsettled := Run.always_of_along (P := fun state : SyncState ↦ Sound state.world ∧ state.Settled)
    (fun state snapshot hstate hwell ↦ settled_step hstate.1 hstate.2 hwell) hstart h
  exact hsettled.mono fun _ hstate ↦ namesAgree_of_settled hstate.1 hstate.2

/-! ## Two renames in one snapshot -/

/-- Two accounts, as the first snapshot has them. -/
def alphaAndBravo : NamedSnapshot where
  accounts := [plainAccount "a" "Alpha", plainAccount "b" "Bravo"]
  full := true
  clock := 0
  ids_nodup := by decide
  valid := by decide +kernel
  names_nodup := by decide +kernel

/-- The second one was renamed, and the first one has its old name now. -/
def bravoAndCharlie : NamedSnapshot where
  accounts := [plainAccount "a" "Bravo", plainAccount "b" "Charlie"]
  full := true
  clock := 10 * 1000
  ids_nodup := by decide
  valid := by decide +kernel
  names_nodup := by decide +kernel

/-- The same in an incremental answer that lists the second one first. -/
def charlieAndBravo : NamedSnapshot where
  accounts := [plainAccount "b" "Charlie", plainAccount "a" "Bravo"]
  full := false
  clock := 10 * 1000
  ids_nodup := by decide
  valid := by decide +kernel
  names_nodup := by decide +kernel

theorem namesAgree_charlieAndBravo :
    Run.Always step NamesAgree start [alphaAndBravo, charlieAndBravo] :=
  namesAgree_of_allGoWell _ (by decide +kernel)

/-- Renamed in the other order, the first account ends with the row of the second, and under its
name. -/
theorem namesAgree_fails_bravoAndCharlie :
    ¬ Run.Always step NamesAgree start [alphaAndBravo, bravoAndCharlie] := by
  intro h
  obtain ⟨known, hknown⟩ : ∃ known, ([alphaAndBravo, bravoAndCharlie].foldl step
      start).world.known "b" = some known := Option.isSome_iff_exists.mp (by decide +kernel)
  obtain ⟨row, ⟨hrow, hid⟩, -⟩ := h.final.one "b" known hknown
  have hnone : ∀ row ∈ ([alphaAndBravo, bravoAndCharlie].foldl step start).world.members.rows,
      row.hubAccountId ≠ some "b" := by decide +kernel
  exact hnone row hrow hid

end SyncState

end OsrsMap.Sync
