import OsrsMap.Sync.Account
import Mathlib.Data.Set.Image

/-!
# Processing an account alone

What of the members table decides who a member is and whether it is on the roster: its name, the
account it is bound to, and whether the map shows it. An account that is processed with nothing in
between, no member being hidden, first gets a row, then follows its name on the hub.
-/

namespace OsrsMap.Sync

/-- What decides who a member is. -/
structure Entry where
  name : String
  account : Option String
  shown : Bool
deriving DecidableEq, Repr

def MemberRow.entry (row : MemberRow) : Entry where
  name := row.memberName
  account := row.hubAccountId
  shown := Members.onRoster row

@[simp]
theorem entry_name (row : MemberRow) : row.entry.name = row.memberName := rfl

@[simp]
theorem entry_account (row : MemberRow) : row.entry.account = row.hubAccountId := rfl

def Members.entries (members : Members) : Set Entry := {entry | ∃ row ∈ members, row.entry = entry}

/-- What a binding makes of an entry. -/
def bindEntry (name id : String) (entry : Entry) : Entry :=
  if fold entry.name = fold name then { entry with account := some id, shown := true }
  else if entry.account = some id then { entry with account := none }
  else entry

/-- What a rename makes of an entry. -/
def renameEntry (original new : String) (entry : Entry) : Entry :=
  if fold entry.name = fold original then { entry with name := new } else entry

/-- No member is hidden. -/
def NoneHidden (members : Members) : Prop := ∀ row ∈ members, row.hidden = false

section Statements

variable {members members' : Members} {name id original new : String} {accountHash : Option String}
  {entry other : Entry}

theorem mem_entries {row : MemberRow} (h : row ∈ members) : row.entry ∈ members.entries :=
  ⟨row, h, rfl⟩

theorem entry_eq_of_name (hentry : entry ∈ members.entries) (hother : other ∈ members.entries)
    (h : fold entry.name = fold other.name) : entry = other := by
  obtain ⟨row, hrow, rfl⟩ := hentry
  obtain ⟨row', hrow', rfl⟩ := hother
  rw [Members.eq_of_name hrow hrow' h]

theorem entry_eq_of_account (hentry : entry ∈ members.entries) (hother : other ∈ members.entries)
    (h : entry.account = some id) (h' : other.account = some id) : entry = other := by
  obtain ⟨row, hrow, rfl⟩ := hentry
  obtain ⟨row', hrow', rfl⟩ := hother
  rw [Members.eq_of_account hrow hrow' h h']

/-- Entries after a statement that does something to every row. -/
theorem entries_eq_image {f : MemberRow → MemberRow} {g : Entry → Entry}
    (h : ∀ row, row ∈ members' ↔ ∃ before ∈ members, f before = row)
    (hentry : ∀ row ∈ members, (f row).entry = g row.entry) :
    members'.entries = g '' members.entries := by
  ext entry
  constructor
  · rintro ⟨row, hrow, rfl⟩
    obtain ⟨before, hbefore, rfl⟩ := (h row).mp hrow
    exact ⟨before.entry, ⟨before, hbefore, rfl⟩, (hentry before hbefore).symm⟩
  · rintro ⟨entry, ⟨row, hrow, rfl⟩, rfl⟩
    exact ⟨f row, (h _).mpr ⟨row, hrow, rfl⟩, hentry row hrow⟩

theorem entries_bindHubAccount (hnone : NoneHidden members)
    (h : members.bindHubAccount name id accountHash = some members') :
    members'.entries = bindEntry name id '' members.entries ∧ NoneHidden members' := by
  constructor
  · refine entries_eq_image (fun row ↦ Members.mem_bindHubAccount h) fun row hrow ↦ ?_
    have hshown := hnone row hrow
    unfold Members.bindRow bindEntry
    by_cases hname : fold row.memberName = fold name
    · simp [MemberRow.entry, MemberRow.named, Members.onRoster, hname, hshown]
    · by_cases hbound : row.hubAccountId = some id <;>
        simp [MemberRow.entry, MemberRow.named, MemberRow.boundTo, Members.onRoster, hname, hbound]
  · intro row hrow
    obtain ⟨before, hbefore, rfl⟩ := (Members.mem_bindHubAccount h).mp hrow
    have hshown := hnone before hbefore
    unfold Members.bindRow
    split_ifs <;> exact hshown

theorem entries_renameHubMember (hnone : NoneHidden members)
    (h : members.renameHubMember original new = some members') :
    members'.entries = renameEntry original new '' members.entries ∧ NoneHidden members' := by
  constructor
  · refine entries_eq_image (fun row ↦ Members.mem_renameHubMember h) fun row hrow ↦ ?_
    unfold renameEntry
    by_cases hname : fold row.memberName = fold original <;>
      simp [MemberRow.entry, MemberRow.named, Members.onRoster, hname]
  · intro row hrow
    obtain ⟨before, hbefore, rfl⟩ := (Members.mem_renameHubMember h).mp hrow
    have hshown := hnone before hbefore
    split_ifs <;> exact hshown

theorem entries_setHubPresence (hnone : NoneHidden members) {online : Bool} {lastSeen : Option ℤ}
    {now : ℤ} (h : members.setHubPresence name online lastSeen now = some members') :
    members'.entries = members.entries ∧ NoneHidden members' := by
  constructor
  · rw [entries_eq_image (g := id) (fun row ↦ Members.mem_setHubPresence h) fun row _ ↦ by
      split_ifs <;> rfl, Set.image_id]
  · intro row hrow
    obtain ⟨before, hbefore, rfl⟩ := (Members.mem_setHubPresence h).mp hrow
    have hshown := hnone before hbefore
    split_ifs <;> exact hshown

theorem entries_insert (hnone : NoneHidden members)
    (h : members.insert (newRow name) = some members') :
    members'.entries = insert ⟨name, none, true⟩ members.entries ∧ NoneHidden members' := by
  constructor
  · ext entry
    constructor
    · rintro ⟨row, hrow, rfl⟩
      obtain hrow | rfl := (Table.mem_insert h).mp hrow
      · exact .inr ⟨row, hrow, rfl⟩
      · exact .inl rfl
    · rintro (rfl | ⟨row, hrow, rfl⟩)
      · exact ⟨newRow name, (Table.mem_insert h).mpr (.inr rfl), rfl⟩
      · exact ⟨row, (Table.mem_insert h).mpr (.inl hrow), rfl⟩
  · intro row hrow
    obtain hrow | rfl := (Table.mem_insert h).mp hrow
    · exact hnone row hrow
    · rfl

end Statements

/-! ## The two stages -/

/-- No row is bound to the account. -/
def Unbound (members : Members) (id : String) : Prop := ∀ row ∈ members, row.hubAccountId ≠ some id

/-- How an account gets its row: the name it is known by then, and the entries. -/
inductive Resolved (world : World) (account : HubAccount) : String → Set Entry → Prop
  | known (known : KnownAccount) (hknown : world.known account.id = some known) :
    Resolved world account known.memberName world.members.entries
  | bound (row : MemberRow) (hknown : world.known account.id = none) (hrow : row ∈ world.members)
    (hid : row.hubAccountId = some account.id) :
    Resolved world account row.memberName world.members.entries
  | takenOver (row : MemberRow) (hknown : world.known account.id = none)
    (hfree : Unbound world.members account.id)
    (hfind : world.members.findRow account.accountHash account.name = some row) :
    Resolved world account row.memberName
      (bindEntry row.memberName account.id '' world.members.entries)
  | created (hknown : world.known account.id = none) (hfree : Unbound world.members account.id)
    (hfind : world.members.findRow account.accountHash account.name = none) :
    Resolved world account account.name
      (insert ⟨account.name, some account.id, true⟩ world.members.entries)

/-- How an account follows its name: the entries and the name it is known by before and after. -/
inductive Followed (account : HubAccount) (entries : Set Entry) : String → Set Entry → String → Prop
  | same : Followed account entries account.name entries account.name
  | moved {current : String} (entry : Entry) (hentry : entry ∈ entries)
    (hname : fold entry.name = fold account.name) (hother : fold entry.name ≠ fold current) :
    Followed account entries current (bindEntry entry.name account.id '' entries) entry.name
  | renamed {current : String} (hname : current ≠ account.name)
    (hfree : ∀ entry ∈ entries, fold entry.name = fold account.name →
      fold entry.name = fold current) :
    Followed account entries current (renameEntry current account.name '' entries) account.name

/-! ## Running alone -/

section Alone

variable {world : World} {account : HubAccount}

theorem unbound_of_find_none {members : Members} {id : String}
    (h : members.find (MemberRow.boundTo id) = none) : Unbound members id := by
  intro row hrow hid
  simpa [hid, MemberRow.boundTo] using Table.not_of_find_none h hrow

theorem fresh_of_findRow {members : Members} {accountHash : Option String} {name : String}
    (h : members.findRow accountHash name = none) :
    ∀ row ∈ members, fold row.memberName ≠ fold name := by
  intro row hrow hname
  have hnot := Table.not_of_find_none (Members.find_named_of_findRow h) hrow
  rw [Members.named_eq_true.mpr hname] at hnot
  exact Bool.false_ne_true hnot.symm

theorem exists_insert_newRow {members : Members} {name : String}
    (h : ∀ row ∈ members, fold row.memberName ≠ fold name) :
    ∃ added, members.insert (newRow name) = some added := by
  apply Table.exists_insert
  intro k hk row hrow hkey
  obtain rfl : k = .name (fold name) := by simpa [MemberRow.keys, newRow] using hk
  exact h row hrow (Members.named_eq_true.mp (Members.named_iff.mpr hkey))

/-- What finding a row for a new account comes to: the row's name, whether it is hidden, and the
members with it. -/
inductive Resolves (members : Members) (account : HubAccount) : String → Bool → Members → Prop
  | bound (row : MemberRow) (hbound : members.find (MemberRow.boundTo account.id) = some row) :
    Resolves members account row.memberName row.hidden members
  | takenOver (row : MemberRow) {after : Members}
    (hbound : members.find (MemberRow.boundTo account.id) = none)
    (hfound : members.findRow account.accountHash account.name = some row)
    (hbind : members.bindHubAccount row.memberName account.id account.accountHash = some after) :
    Resolves members account row.memberName row.hidden after
  | created {added after : Members}
    (hbound : members.find (MemberRow.boundTo account.id) = none)
    (hfound : members.findRow account.accountHash account.name = none)
    (hadd : members.insert (newRow account.name) = some added)
    (hbind : added.bindHubAccount account.name account.id account.accountHash = some after) :
    Resolves members account account.name false after

theorem resolves_resolveMember (world : World) (account : HubAccount) :
    ∃ members name hidden, (resolveMember account).run exec world =
        (some { memberName := name, hidden, sent := none, presence := none },
          { world with members }) ∧
      Resolves world.members account name hidden members := by
  unfold resolveMember
  have hget : exec (.getMemberByHubId account.id) world =
      some ((world.members.find (MemberRow.boundTo account.id)).map hubMemberRow, world) := rfl
  have hfind : exec (.findMemberForHubAccount account.accountHash account.name) world =
      some ((world.members.findRow account.accountHash account.name).map hubMemberRow, world) := rfl
  rw [run_perform hget]
  cases hbound : world.members.find (MemberRow.boundTo account.id) with
  | some row => exact ⟨world.members, row.memberName, row.hidden, rfl, .bound row hbound⟩
  | none =>
    dsimp only [Option.map_none]
    rw [run_perform hfind]
    cases hfound : world.members.findRow account.accountHash account.name with
    | some row =>
      obtain ⟨members, hbind⟩ := Members.exists_bindHubAccount world.members row.memberName
        account.id account.accountHash
      have hexec : exec (.bindHubAccount row.memberName account.id account.accountHash) world =
          some ((), { world with members }) := by
        rw [exec, hbind]
        rfl
      refine ⟨members, row.memberName, row.hidden, ?_, .takenOver row hbound hfound hbind⟩
      dsimp only [Option.map_some, hubMemberRow]
      rw [run_perform hexec]
      rfl
    | none =>
      obtain ⟨added, hadd⟩ := exists_insert_newRow (fresh_of_findRow hfound)
      obtain ⟨members, hbind⟩ := Members.exists_bindHubAccount added account.name account.id
        account.accountHash
      have hensure : exec (.ensureMemberExists account.name) world =
          some ((), { world with members := added }) := by
        rw [exec, Members.ensureMemberExists, Members.find_named_of_findRow hfound, hadd]
        rfl
      have hexec : exec (.bindHubAccount account.name account.id account.accountHash)
          { world with members := added } = some ((), { world with members }) := by
        rw [exec, hbind]
        rfl
      refine ⟨members, account.name, false, ?_, .created hbound hfound hadd hbind⟩
      dsimp only [Option.map_none]
      rw [run_perform hensure, run_perform hexec]
      rfl

/-- A new account gets a row: its own, one it takes over, or a new one. -/
theorem run_resolveMember (hnone : NoneHidden world.members)
    (hknown : world.known account.id = none) :
    ∃ members name, (resolveMember account).run exec world =
        (some { memberName := name, hidden := false, sent := none, presence := none },
          { world with members }) ∧
      Resolved world account name members.entries ∧ NoneHidden members := by
  obtain ⟨members, name, hidden, hrun, hresolves⟩ := resolves_resolveMember world account
  cases hresolves with
  | bound row hbound =>
    obtain ⟨hrow, hid⟩ := Table.mem_of_find hbound
    rw [hnone row hrow] at hrun
    exact ⟨_, _, hrun, .bound row hknown hrow (by simpa using hid), hnone⟩
  | takenOver row hbound hfound hbind =>
    obtain ⟨hentries, hnone'⟩ := entries_bindHubAccount hnone hbind
    rw [hnone row (Members.mem_of_findRow hfound)] at hrun
    refine ⟨_, _, hrun, ?_, hnone'⟩
    exact hentries ▸ .takenOver row hknown (unbound_of_find_none hbound) hfound
  | created hbound hfound hadd hbind =>
    have hfresh := fresh_of_findRow hfound
    have hfree := unbound_of_find_none hbound
    obtain ⟨hentries, hadded⟩ := entries_insert hnone hadd
    obtain ⟨hentries', hnone'⟩ := entries_bindHubAccount hadded hbind
    have hbound' : bindEntry account.name account.id ''
        insert ⟨account.name, none, true⟩ world.members.entries =
          insert ⟨account.name, some account.id, true⟩ world.members.entries := by
      rw [Set.image_insert_eq]
      have hsame : ∀ entry ∈ world.members.entries,
          bindEntry account.name account.id entry = entry := by
        rintro _ ⟨row, hrow, rfl⟩
        simp [bindEntry, hfresh row hrow, hfree row hrow]
      rw [Set.image_congr hsame, Set.image_id']
      simp [bindEntry]
    rw [hentries, hbound'] at hentries'
    exact ⟨_, _, hrun, hentries' ▸ .created hknown hfree hfound, hnone'⟩

/-- How following a rename goes: the account is bound to the row that has its new name, or its own row is
renamed. -/
theorem run_followRename_cases (world : World) (account : HubAccount) (current : String) :
    (∃ row ∈ world.members, ∃ members, fold row.memberName = fold account.name ∧
      fold row.memberName ≠ fold current ∧
      world.members.bindHubAccount row.memberName account.id account.accountHash = some members ∧
      (followRename account current).run exec world = (some row.memberName, { world with members })) ∨
    ∃ members, (∀ row ∈ world.members, fold row.memberName = fold account.name →
        fold row.memberName = fold current) ∧
      world.members.renameHubMember current account.name = some members ∧
      (followRename account current).run exec world = (some account.name, { world with members }) := by
  unfold followRename
  have hfind : exec (.findMemberForHubAccount none account.name) world =
      some ((world.members.find (MemberRow.named account.name)).map hubMemberRow, world) := rfl
  rw [run_perform hfind]
  cases htaken : ((world.members.find (MemberRow.named account.name)).map hubMemberRow).filter
      fun row ↦ fold row.memberName ≠ fold current with
  | some taken =>
    obtain ⟨hrow, hother⟩ := Option.filter_eq_some_iff.mp htaken
    obtain ⟨row, hfound, rfl⟩ := Option.map_eq_some_iff.mp hrow
    obtain ⟨hmem, hnamed⟩ := Table.mem_of_find hfound
    obtain ⟨members, hbind⟩ := Members.exists_bindHubAccount world.members row.memberName
      account.id account.accountHash
    have hexec : exec (.bindHubAccount row.memberName account.id account.accountHash) world =
        some ((), { world with members }) := by
      rw [exec, hbind]
      rfl
    refine .inl ⟨row, hmem, members, by simpa using hnamed, of_decide_eq_true hother, hbind, ?_⟩
    dsimp only [hubMemberRow]
    rw [run_perform hexec]
    rfl
  | none =>
    have hfree : ∀ row ∈ world.members, fold row.memberName = fold account.name →
        fold row.memberName = fold current := by
      intro row hrow hfold
      rw [Members.find_named_eq hrow hfold] at htaken
      simpa [Option.filter_eq_none_iff, hubMemberRow] using htaken
    obtain ⟨members, hrename⟩ : ∃ members,
        world.members.renameHubMember current account.name = some members := by
      refine Members.exists_renameHubMember fun row hrow hnamed ↦ ?_
      simpa using hfree row hrow (by simpa using hnamed)
    have hexec : exec (.renameHubMember current account.name) world =
        some ((), { world with members }) := by
      rw [exec, hrename]
      rfl
    refine .inr ⟨members, hfree, hrename, ?_⟩
    dsimp only
    rw [run_perform hexec]
    rfl

theorem run_followRename (hnone : NoneHidden world.members) {current : String}
    (hname : current ≠ account.name) :
    ∃ members name, (followRename account current).run exec world =
        (some name, { world with members }) ∧
      Followed account world.members.entries current members.entries name ∧ NoneHidden members := by
  obtain ⟨row, hrow, members, hnamed, hother, hbind, hrun⟩ | ⟨members, hfree, hrename, hrun⟩ :=
    run_followRename_cases world account current
  · obtain ⟨hentries, hnone'⟩ := entries_bindHubAccount hnone hbind
    refine ⟨members, row.memberName, hrun, ?_, hnone'⟩
    rw [hentries]
    exact .moved row.entry (mem_entries hrow) hnamed hother
  · obtain ⟨hentries, hnone'⟩ := entries_renameHubMember hnone hrename
    refine ⟨members, account.name, hrun, ?_, hnone'⟩
    rw [hentries]
    refine .renamed hname ?_
    rintro _ ⟨row, hrow, rfl⟩
    exact hfree row hrow

theorem run_knownAccount (hnone : NoneHidden world.members)
    (hshown : ∀ known, world.known account.id = some known → known.hidden = false) :
    ∃ world' known, (knownAccount account).run exec world = (some known, world') ∧
      Resolved world account known.memberName world'.members.entries ∧
      NoneHidden world'.members ∧ known.hidden = false ∧
      world'.known = Function.update world.known account.id (some known) := by
  unfold knownAccount
  have hget : exec (.getKnown account.id) world = some (world.known account.id, world) := rfl
  rw [run_perform hget]
  cases hknown : world.known account.id with
  | some known =>
    refine ⟨world, known, rfl, .known known hknown, hnone, hshown known hknown, ?_⟩
    rw [← hknown, Function.update_eq_self]
  | none =>
    obtain ⟨members, name, hrun, hresolved, hnone'⟩ := run_resolveMember hnone hknown
    dsimp only
    rw [Program.run_bind, hrun]
    exact ⟨_, _, rfl, hresolved, hnone', rfl, rfl⟩

theorem run_followName (world : World) (account : HubAccount) (hnone : NoneHidden world.members)
    {known : KnownAccount} (hknown : world.known account.id = some known) :
    ∃ world' known', (followName account known).run exec world = (some known', world') ∧
      Followed account world.members.entries known.memberName world'.members.entries
        known'.memberName ∧
      NoneHidden world'.members ∧ known'.hidden = known.hidden ∧
      world'.known = Function.update world.known account.id (some known') := by
  unfold followName
  by_cases hname : known.memberName = account.name
  · rw [if_pos hname]
    refine ⟨world, known, rfl, ?_, hnone, rfl, ?_⟩
    · rw [hname]
      exact .same
    · rw [← hknown, Function.update_eq_self]
  · rw [if_neg hname]
    obtain ⟨members, name, hrun, hfollowed, hnone'⟩ := run_followRename hnone hname
    rw [Program.run_bind, hrun]
    exact ⟨_, _, rfl, hfollowed, hnone', rfl, Function.update_idem ..⟩

theorem run_sendSections (world : World) (account : HubAccount) {known : KnownAccount}
    (hknown : world.known account.id = some known) :
    ∃ world' known', (sendSections account known).run exec world = (some known', world') ∧
      world'.members = world.members ∧ known'.memberName = known.memberName ∧
      known'.hidden = known.hidden ∧
      world'.known = Function.update world.known account.id (some known') := by
  unfold sendSections
  dsimp only
  split
  · refine ⟨world, known, rfl, rfl, rfl, rfl, ?_⟩
    rw [← hknown, Function.update_eq_self]
  · exact ⟨_, _, rfl, rfl, rfl, rfl, rfl⟩

theorem run_writePresence (world : World) (account : HubAccount) (hnone : NoneHidden world.members)
    {known : KnownAccount} (hknown : world.known account.id = some known) :
    ∃ world' known', (writePresence account known).run exec world = (some (), world') ∧
      world'.members.entries = world.members.entries ∧ NoneHidden world'.members ∧
      known'.memberName = known.memberName ∧ known'.hidden = known.hidden ∧
      world'.known = Function.update world.known account.id (some known') := by
  unfold writePresence
  have hnow : exec .now world = some (world.clock, world) := rfl
  dsimp only
  rw [run_perform hnow]
  split
  · obtain ⟨members, hset⟩ := Members.exists_setHubPresence world.members known.memberName
      (account.online.getD (account.locationStale = some false)) account.lastSeen world.clock
    obtain ⟨hentries, hnone'⟩ := entries_setHubPresence hnone hset
    have hexec : exec (.setHubPresence known.memberName
        (account.online.getD (account.locationStale = some false)) account.lastSeen) world =
        some ((), { world with members }) := by
      rw [exec, hset]
      rfl
    rw [run_perform hexec]
    exact ⟨_, { known with presence := some (_, world.clock) }, rfl, hentries, hnone', rfl, rfl, rfl⟩
  · refine ⟨world, known, rfl, rfl, hnone, rfl, rfl, ?_⟩
    rw [← hknown, Function.update_eq_self]

/-- What processing an account comes to when nobody is hidden: it gets its row, then it follows its
name, and that is what the sync knows of it. -/
structure Processed (world : World) (account : HubAccount) (world' : World) : Prop where
  stages : ∃ (name : String) (members : Members) (known : KnownAccount),
    Resolved world account name members.entries ∧
    Followed account members.entries name world'.members.entries known.memberName ∧
    known.hidden = false ∧ world'.known = Function.update world.known account.id (some known)
  noneHidden : NoneHidden world'.members

theorem processed (hvalid : validName account.name = true) (hnone : NoneHidden world.members)
    (hshown : ∀ known, world.known account.id = some known → known.hidden = false) :
    Processed world account (world.processAccount account) := by
  obtain ⟨world1, known1, hrun1, hresolved, hnone1, hshown1, hknown1⟩ := run_knownAccount hnone hshown
  have hat1 : world1.known account.id = some known1 := by rw [hknown1, Function.update_self]
  obtain ⟨world2, known2, hrun2, hfollowed, hnone2, hshown2, hknown2⟩ :=
    run_followName { world1 with
      directory := world1.directory.setSharesHiscores account.id
        (account.categories.contains "hiscores") } account hnone1 hat1
  have hat2 : world2.known account.id = some known2 := by rw [hknown2, Function.update_self]
  obtain ⟨world3, known3, hrun3, hmembers3, hname3, hhidden3, hknown3⟩ :=
    run_sendSections world2 account hat2
  have hat3 : world3.known account.id = some known3 := by rw [hknown3, Function.update_self]
  obtain ⟨world4, known4, hrun4, hentries4, hnone4, hname4, hhidden4, hknown4⟩ :=
    run_writePresence world3 account (hmembers3 ▸ hnone2) hat3
  have hrun : (processAccount account).run exec world = (some (), world4) := by
    unfold processAccount
    rw [hvalid]
    simp only [Bool.not_true, Bool.false_eq_true, if_false]
    rw [Program.run_bind, hrun1]
    dsimp only
    rw [hshown1, if_neg (by simp)]
    have hshares : exec (.setSharesHiscores account.id (account.categories.contains "hiscores"))
        world1 = some ((), { world1 with
          directory := world1.directory.setSharesHiscores account.id
            (account.categories.contains "hiscores") }) := rfl
    rw [run_perform hshares, Program.run_bind, hrun2]
    dsimp only
    rw [Program.run_bind, hrun3]
    exact hrun4
  have hworld : world.processAccount account = world4 := congrArg Prod.snd hrun
  rw [hworld]
  refine ⟨⟨_, world1.members, known4, hresolved, ?_, ?_, ?_⟩, hnone4⟩
  · rw [hname4, hname3, hentries4, hmembers3]
    exact hfollowed
  · rw [hhidden4, hhidden3, hshown2, hshown1]
  · rw [hknown4, hknown3, hknown2]
    dsimp only
    rw [hknown1]
    simp only [Function.update_idem]

end Alone

/-! ## Whose row it is -/

/-- The account has a row of that name. -/
def Holds (entries : Set Entry) (id name : String) : Prop :=
  ∃ entry ∈ entries, entry.account = some id ∧ entry.name = name

section Holds

variable {members : Members} {id other name original new : String}

theorem Holds.unique (h : Holds members.entries id name) (h' : Holds members.entries id new) :
    name = new := by
  obtain ⟨entry, hentry, hid, rfl⟩ := h
  obtain ⟨entry', hentry', hid', rfl⟩ := h'
  rw [entry_eq_of_account hentry hentry' hid hid']

theorem holds_bind_self {entry : Entry} (hentry : entry ∈ members.entries) :
    Holds (bindEntry entry.name id '' members.entries) id name ↔ name = entry.name := by
  constructor
  · rintro ⟨_, ⟨before, hbefore, rfl⟩, hid, rfl⟩
    by_cases hname : fold before.name = fold entry.name
    · rw [entry_eq_of_name hbefore hentry hname]
      simp [bindEntry]
    · by_cases hbound : before.account = some id <;> simp [bindEntry, hname, hbound] at hid
  · rintro rfl
    exact ⟨_, ⟨entry, hentry, rfl⟩, by simp [bindEntry], by simp [bindEntry]⟩

theorem holds_bind_other {entries : Set Entry} (hne : other ≠ id) :
    Holds (bindEntry new id '' entries) other name ↔
      Holds entries other name ∧ fold name ≠ fold new := by
  constructor
  · rintro ⟨_, ⟨before, hbefore, rfl⟩, hid, rfl⟩
    by_cases hname : fold before.name = fold new
    · simp [bindEntry, hname, Ne.symm hne] at hid
    · by_cases hbound : before.account = some id
      · simp [bindEntry, hname, hbound] at hid
      · rw [bindEntry, if_neg hname, if_neg hbound] at hid ⊢
        exact ⟨⟨before, hbefore, hid, rfl⟩, hname⟩
  · rintro ⟨⟨before, hbefore, hid, rfl⟩, hname⟩
    refine ⟨_, ⟨before, hbefore, rfl⟩, ?_⟩
    have hbound : before.account ≠ some id := fun h ↦ hne (Option.some.inj (hid.symm.trans h))
    rw [bindEntry, if_neg hname, if_neg hbound]
    exact ⟨hid, rfl⟩

theorem holds_rename_self (h : Holds members.entries id original) :
    Holds (renameEntry original new '' members.entries) id name ↔ name = new := by
  obtain ⟨entry, hentry, hid, rfl⟩ := h
  constructor
  · rintro ⟨_, ⟨before, hbefore, rfl⟩, hid', rfl⟩
    have hsame : before = entry := by
      have hbound : before.account = some id := by
        unfold renameEntry at hid'
        split_ifs at hid' <;> exact hid'
      exact entry_eq_of_account hbefore hentry hbound hid
    rw [hsame]
    simp [renameEntry]
  · rintro rfl
    exact ⟨_, ⟨entry, hentry, rfl⟩, by simp [renameEntry, hid], by simp [renameEntry]⟩

theorem holds_rename_other (h : Holds members.entries id original) (hne : other ≠ id) :
    Holds (renameEntry original new '' members.entries) other name ↔
      Holds members.entries other name := by
  obtain ⟨entry, hentry, hid, rfl⟩ := h
  have hkeep {before : Entry} (hbefore : before ∈ members.entries)
      (hother : before.account = some other) : renameEntry entry.name new before = before := by
    refine if_neg fun hname ↦ hne ?_
    rw [entry_eq_of_name hbefore hentry hname] at hother
    exact Option.some.inj (hother.symm.trans hid)
  constructor
  · rintro ⟨_, ⟨before, hbefore, rfl⟩, hother, rfl⟩
    have hbound : before.account = some other := by
      unfold renameEntry at hother
      split_ifs at hother <;> exact hother
    rw [hkeep hbefore hbound]
    exact ⟨before, hbefore, hbound, rfl⟩
  · rintro ⟨before, hbefore, hbound, rfl⟩
    exact ⟨_, ⟨before, hbefore, rfl⟩, by rw [hkeep hbefore hbound]; exact ⟨hbound, rfl⟩⟩

end Holds

end OsrsMap.Sync
