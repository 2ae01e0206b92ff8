import OsrsMap.Sync.Turn
import Mathlib.Data.List.Nodup

/-!
# The roster after a full snapshot

A full snapshot marks the rows whose accounts are gone, so the roster should be its accounts. A row
that an account leaves when it moves onto another one is bound to nobody: nothing marks it, and it
stays on the roster unless another account takes it.
-/

namespace OsrsMap.Sync

/-- A row with the name is taken in one of these turns. -/
def TakenLater (name : String) : World → List HubAccount → Prop
  | _, [] => False
  | world, account :: rest =>
    (validName account.name = true ∧ ∃ row ∈ world.taken account, fold row.memberName = fold name) ∨
      TakenLater name (world.processAccount account) rest

instance decidableTakenLater (name : String) :
    (world : World) → (accounts : List HubAccount) → Decidable (TakenLater name world accounts)
  | _, [] => inferInstanceAs (Decidable False)
  | world, account :: rest =>
    have := decidableTakenLater name (world.processAccount account) rest
    inferInstanceAs (Decidable
      ((_ ∧ ∃ row ∈ world.taken account, fold row.memberName = fold name) ∨ _))

/-- The sync, and the last snapshot it processed. -/
structure RosterState where
  world : World
  last : Option Snapshot

namespace RosterState

def start : RosterState where
  world := World.start
  last := none

def step (state : RosterState) (snapshot : Snapshot) : RosterState where
  world := state.world.take snapshot
  last := some snapshot

/-- The accounts of a snapshot whose name the map cannot store. -/
def invalid (snapshot : Snapshot) : List String :=
  (snapshot.accounts.filter fun account ↦ !validName account.name).map (·.id)

/-- After a full snapshot the roster is the names of its accounts that the map can store. -/
def RosterExact (state : RosterState) : Prop :=
  ∀ snapshot ∈ state.last, snapshot.full = true → ∀ name,
    name ∈ state.world.members.roster ↔
      ∃ account ∈ snapshot.accounts, validName account.name = true ∧ account.name = name

/-- A row that a full snapshot leaves or puts on the roster although no account with a valid name
has it. -/
def Stray (snapshot : Snapshot) (row : MemberRow) : Prop :=
  row.hubAccountId = none ∧ Members.onRoster row = true ∨
    ∃ id ∈ row.hubAccountId, id ∈ invalid snapshot

instance (snapshot : Snapshot) (row : MemberRow) : Decidable (Stray snapshot row) :=
  inferInstanceAs (Decidable (_ ∨ ∃ id ∈ row.hubAccountId, _))

/-- The turn of an account in a full snapshot goes well: it has a row or moves onto one, it takes
none from an account that had its turn, the row it moves onto has its name to the letter, and the
row it leaves on the roster is taken in a later turn. -/
def LeavesNoRow (turn : Turn) (account : HubAccount) : Prop :=
  turn.world.Settles account ∧
    (∀ row ∈ turn.world.taken account, ∀ id ∈ row.hubAccountId, id ∉ turn.done.map (·.id)) ∧
    (∀ row ∈ turn.world.movesTo account, row.memberName = account.name) ∧
    ∀ row ∈ turn.world.leaves account,
      (turn.world.takesOver account).isSome ∨ Members.onRoster row = true →
        TakenLater row.memberName (turn.world.processAccount account) turn.rest.tail

instance (turn : Turn) (account : HubAccount) : Decidable (LeavesNoRow turn account) :=
  inferInstanceAs (Decidable (turn.world.Settles account ∧
    (∀ row ∈ turn.world.taken account, ∀ id ∈ row.hubAccountId, id ∉ turn.done.map (·.id)) ∧
    (∀ row ∈ turn.world.movesTo account, row.memberName = account.name) ∧
    ∀ row ∈ turn.world.leaves account,
      (turn.world.takesOver account).isSome ∨ Members.onRoster row = true →
        TakenLater row.memberName (turn.world.processAccount account) turn.rest.tail))

/-- What a turn has to meet: in an incremental snapshot no more than that the account renames no row
of another's. -/
def TurnKeeps (snapshot : Snapshot) (turn : Turn) (account : HubAccount) : Prop :=
  validName account.name = true →
    turn.world.RenamesOwn account ∧ (snapshot.full = true → LeavesNoRow turn account)

instance (snapshot : Snapshot) (turn : Turn) (account : HubAccount) :
    Decidable (TurnKeeps snapshot turn account) :=
  inferInstanceAs (Decidable (_ → _ ∧ (_ → _)))

/-- Every turn does, and the rows that are astray when a full snapshot starts are taken in it. -/
def SnapshotKeeps (state : RosterState) (snapshot : Snapshot) : Prop :=
  (snapshot.full = true → ∀ row ∈ state.world.members.rows, Stray snapshot row →
      TakenLater row.memberName (snapshot.start state.world).world snapshot.accounts) ∧
    Run.Along Turn.next (TurnKeeps snapshot) (snapshot.start state.world) snapshot.accounts

instance (state : RosterState) (snapshot : Snapshot) : Decidable (SnapshotKeeps state snapshot) :=
  inferInstanceAs (Decidable ((_ → ∀ row ∈ state.world.members.rows, _ → _) ∧ Run.Along _ _ _ _))

variable {state : RosterState} {snapshot : Snapshot}

theorem mem_invalid {id : String} : id ∈ invalid snapshot ↔
    ∃ account ∈ snapshot.accounts, validName account.name = false ∧ account.id = id := by
  simp [invalid, and_assoc]

/-- In the middle of a full snapshot: who had a turn has its row, and the rows that are astray are
taken later. -/
structure Midway (snapshot : Snapshot) (turn : Turn) : Prop where
  sound : Sound turn.world
  done : ∀ account ∈ turn.done, validName account.name = true →
    Holds turn.world.members.entries account.id account.name
  strays : ∀ row ∈ turn.world.members, Stray snapshot row →
    TakenLater row.memberName turn.world turn.rest

theorem Midway.next {turn : Turn} {account : HubAccount} (h : Midway snapshot turn)
    (hfull : snapshot.full = true) (hsplit : snapshot.accounts = turn.done ++ turn.rest)
    (hhead : turn.rest.head? = some account) (hkeeps : TurnKeeps snapshot turn account) :
    Midway snapshot (turn.next account) := by
  obtain ⟨rest, hrest⟩ := List.head?_eq_some_iff.mp hhead
  have hnew := Snapshot.fresh (hrest ▸ hsplit)
  have htail : (turn.next account).rest = rest := by simp [Turn.next, hrest]
  cases hvalid : validName account.name with
  | false =>
    have hworld : (turn.next account).world = turn.world := processAccount_of_invalid hvalid
    refine ⟨hworld ▸ h.sound, fun other hother hother' ↦ ?_, fun row hrow hstray ↦ ?_⟩
    · rw [hworld]
      obtain hother | hother := List.mem_append.mp hother
      · exact h.done other hother hother'
      · rw [List.mem_singleton.mp hother, hvalid] at hother'
        exact absurd hother' (by simp)
    · rw [hworld] at hrow
      have htaken := h.strays row hrow hstray
      rw [hrest] at htaken
      obtain ⟨hvalid', -⟩ | hlater := htaken
      · rw [hvalid] at hvalid'
        exact absurd hvalid' (by simp)
      · rw [htail]
        exact hlater
  | true =>
    obtain ⟨hown, hleaves⟩ := hkeeps hvalid
    obtain ⟨hsettles, hfromDone, hmoves, hleft⟩ := hleaves hfull
    have heffect := h.sound.effect_named hvalid hown hmoves
    refine ⟨heffect.sound h.sound, fun other hother hother' ↦ ?_, fun row hrow hstray ↦ ?_⟩
    · exact heffect.holds_next hnew hsettles hfromDone hother fun hdone ↦ h.done other hdone hother'
    · rw [htail]
      -- A row that was astray before and is not taken in this turn is taken in a later one.
      have hlater (before : MemberRow) (hbefore : before ∈ turn.world.members)
          (hname : before.memberName = row.memberName) (hastray : Stray snapshot before)
          (hkept : ∀ other ∈ turn.world.taken account,
            fold other.memberName ≠ fold before.memberName) :
          TakenLater row.memberName (turn.world.processAccount account) rest := by
        have htaken := h.strays before hbefore hastray
        rw [hrest, hname] at htaken
        obtain ⟨-, other, hother, hfold⟩ | hlater := htaken
        · exact absurd hfold (hname ▸ hkept other hother)
        · exact hlater
      obtain ⟨hnone, hshown⟩ | ⟨id, hid, hinvalid⟩ := hstray
      · obtain ⟨⟨before, hbefore, hsame⟩, hkept⟩ | ⟨left, hmem, hname, hon⟩ :=
          heffect.rows.loose row.entry (mem_entries hrow) hnone
        · obtain ⟨hsame, hsame', hsame''⟩ : before.memberName = row.memberName ∧
              before.hubAccountId = row.hubAccountId ∧
              Members.onRoster before = Members.onRoster row := by
            simpa [MemberRow.entry] using hsame
          refine hlater before hbefore hsame (.inl ⟨hsame' ▸ hnone, hsame'' ▸ hshown⟩) ?_
          simpa [hsame] using hkept
        · have hastray := hleft left hmem (hon hshown)
          rw [hrest, List.tail_cons, hname] at hastray
          exact hastray
      · have hne : id ≠ account.id := by
          rintro rfl
          obtain ⟨other, hother, hother', hsame⟩ := mem_invalid.mp hinvalid
          have haccount : account ∈ snapshot.accounts := by simp [hsplit, hrest]
          rw [List.inj_on_of_nodup_map snapshot.ids_nodup hother haccount hsame, hvalid] at hother'
          exact absurd hother' (by simp)
        obtain ⟨⟨_, ⟨before, hbefore, rfl⟩, hbound, hname⟩, hkept⟩ :=
          (heffect.rows.others id hne _).mp ⟨row.entry, mem_entries hrow, hid, rfl⟩
        refine hlater before hbefore hname (.inr ⟨id, hbound, hinvalid⟩) fun other hother hfold ↦ ?_
        have hsame := Members.eq_of_name (World.mem_of_taken hother) hbefore hfold
        exact hkept other hother (hsame ▸ hbound)

/-- When all accounts had their turn, marking leaves the roster to them. -/
theorem mem_roster_finishFull {world : World}
    (h : Midway snapshot { done := snapshot.accounts, rest := [], world }) {name : String} :
    name ∈ (world.finishFull snapshot.accounts).members.roster ↔
      ∃ account ∈ snapshot.accounts, validName account.name = true ∧ account.name = name := by
  rw [Members.mem_roster]
  constructor
  · rintro ⟨_, hrow, hon, rfl⟩
    obtain ⟨before, hbefore, rfl⟩ := (finishFull_members snapshot.accounts).mp hrow
    have hnotStray : ¬ Stray snapshot before := h.strays before hbefore
    have hshown := h.sound.noneHidden before hbefore
    rw [Members.onRoster, Members.markRow_hidden, hshown, Members.hubOrphanedAt_markRow] at hon
    rw [Members.markRow_memberName]
    cases hid : before.hubAccountId with
    | none =>
      refine absurd (.inl ⟨hid, ?_⟩) hnotStray
      simpa [Members.onRoster, hshown, hid] using hon
    | some id =>
      have hvisible : id ∈ snapshot.accounts.map (·.id) := by simpa [hid] using hon
      obtain ⟨account, haccount, rfl⟩ := List.mem_map.mp hvisible
      cases hvalid : validName account.name with
      | true =>
        refine ⟨account, haccount, hvalid, ?_⟩
        exact (h.done account haccount hvalid).unique ⟨before.entry, mem_entries hbefore, hid, rfl⟩
      | false =>
        exact absurd (.inr ⟨account.id, hid, mem_invalid.mpr ⟨account, haccount, hvalid, rfl⟩⟩)
          hnotStray
  · rintro ⟨account, haccount, hvalid, rfl⟩
    obtain ⟨_, ⟨before, hbefore, rfl⟩, hid, hname⟩ := h.done account haccount hvalid
    refine ⟨_, (finishFull_members snapshot.accounts).mpr ⟨before, hbefore, rfl⟩, ?_, ?_⟩
    · have hvisible : account.id ∈ snapshot.accounts.map (·.id) := List.mem_map_of_mem haccount
      have hid' : before.hubAccountId = some account.id := hid
      rw [Members.onRoster, Members.markRow_hidden, h.sound.noneHidden before hbefore,
        Members.hubOrphanedAt_markRow, hid']
      simpa using hvisible
    · rw [Members.markRow_memberName]
      exact hname

/-- What a snapshot has to meet is enough for its roster. -/
theorem rosterExact_step (hsound : Sound state.world) (h : state.SnapshotKeeps snapshot) :
    Sound (state.step snapshot).world ∧ (state.step snapshot).RosterExact := by
  obtain ⟨hstrays, hkeeps⟩ := h
  have hsound' : Sound (snapshot.start state.world).world :=
    ⟨hsound.noneHidden, hsound.shown, hsound.names⟩
  cases hfull : snapshot.full with
  | true =>
    have hmidway := turns_of_along (P := Midway snapshot)
      ⟨hsound', by simp [Snapshot.start], hstrays hfull⟩
      (fun _ _ hturn hsplit hhead hturnKeeps ↦ hturn.next hfull hsplit hhead hturnKeeps) hkeeps
    have hworld : (state.step snapshot).world =
        (snapshot.turned state.world).finishFull snapshot.accounts := by
      simp [step, World.take_eq, hfull]
    refine ⟨hworld ▸ hmidway.sound.finishFull _, ?_⟩
    rintro _ ⟨⟩ - name
    rw [hworld]
    exact mem_roster_finishFull hmidway
  | false =>
    have hturned := turns_of_along (P := fun turn ↦ Sound turn.world) hsound'
      (fun _ _ hturn _ _ hturnKeeps ↦ hturn.processAccount fun hvalid ↦ (hturnKeeps hvalid).1) hkeeps
    have hworld : (state.step snapshot).world = snapshot.turned state.world := by
      simp [step, World.take_eq, hfull]
    refine ⟨hworld ▸ hturned, ?_⟩
    rintro _ ⟨⟩ hfull'
    rw [hfull] at hfull'
    exact absurd hfull' (by simp)

/-- In a run of snapshots that all keep to it, the roster is exact after every full one. -/
theorem rosterExact_of_snapshotKeeps (snapshots : List Snapshot)
    (h : Run.Along step SnapshotKeeps start snapshots) :
    Run.Always step RosterExact start snapshots := by
  have hkept := Run.always_of_along
    (P := fun state : RosterState ↦ Sound state.world ∧ state.RosterExact)
    (fun state snapshot hstate hkeeps ↦ rosterExact_step hstate.1 hkeeps)
    ⟨sound_start, by simp [RosterExact, start]⟩ h
  exact hkept.mono fun _ hstate ↦ hstate.2

/-! ## A name that another account had -/

/-- A snapshot of accounts of which the hub shares only the names. -/
def plainSnapshot (full : Bool) (names : List (String × String))
    (h : (names.map Prod.fst).Nodup := by decide) : Snapshot where
  accounts := names.map fun (id, name) ↦ plainAccount id name
  full := full
  clock := 0
  ids_nodup := by simpa [Function.comp_def, plainAccount] using h

/-- The second account is renamed and the first gets its old name; then it leaves, and somebody new
gets the name it left with. -/
theorem rosterExact_passedOn : Run.Always step RosterExact start
    [plainSnapshot true [("a", "Alpha"), ("b", "Bravo")],
      plainSnapshot false [("b", "Charlie"), ("a", "Bravo")],
      plainSnapshot true [("a", "Bravo")],
      plainSnapshot true [("a", "Bravo"), ("c", "Charlie")]] :=
  rosterExact_of_snapshotKeeps _ (by decide +kernel)

/-- The second account leaves, and the first one is renamed to its name: the row under the name it
had stays on the roster. -/
theorem rosterExact_fails_left : ¬ Run.Always step RosterExact start
    [plainSnapshot true [("a", "Alpha"), ("b", "Bravo")], plainSnapshot true [("a", "Alpha")],
      plainSnapshot true [("a", "Bravo")]] := by
  intro h
  have hexact := h.final (plainSnapshot true [("a", "Bravo")]) rfl rfl "Alpha"
  have hlisted : ¬ ∃ account ∈ (plainSnapshot true [("a", "Bravo")]).accounts,
      validName account.name = true ∧ account.name = "Alpha" := by decide +kernel
  exact hlisted (hexact.mp (by decide +kernel))

end RosterState

end OsrsMap.Sync
