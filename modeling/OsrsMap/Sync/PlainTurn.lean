import OsrsMap.Library.Overlay
import OsrsMap.Sync.Turn

/-!
# The turn of an account that keeps its name

What processing an account comes to when it is neither renamed nor hidden: the rows keep their names
and data columns, a row of the account's name is there, and the sync has sent what changed of its
sections and knows them as sent.
-/

namespace OsrsMap.Sync

open Overlay

/-! ## Rows that keep their columns -/

/-- The rows after are the rows before, with their names and data columns, and new ones with other
names and nothing in them. -/
structure KeepsColumns (members members' : Members) : Prop where
  kept : ∀ row ∈ members, ∃ after ∈ members',
    after.memberName = row.memberName ∧ after.column = row.column
  origin : ∀ after ∈ members',
    (∃ row ∈ members, after.memberName = row.memberName ∧ after.column = row.column) ∨
      after.column = (newRow after.memberName).column ∧
        ∀ row ∈ members, fold row.memberName ≠ fold after.memberName

section KeepsColumns

variable {members members' members'' : Members} {id name : String}

theorem KeepsColumns.refl (members : Members) : KeepsColumns members members where
  kept row hrow := ⟨row, hrow, rfl, rfl⟩
  origin row hrow := .inl ⟨row, hrow, rfl, rfl⟩

theorem KeepsColumns.trans (h : KeepsColumns members members')
    (h' : KeepsColumns members' members'') : KeepsColumns members members'' where
  kept row hrow := by
    obtain ⟨mid, hmid, hname, hcolumn⟩ := h.kept row hrow
    obtain ⟨after, hafter, hname', hcolumn'⟩ := h'.kept mid hmid
    exact ⟨after, hafter, hname'.trans hname, hcolumn'.trans hcolumn⟩
  origin after hafter := by
    obtain ⟨mid, hmid, hname', hcolumn'⟩ | ⟨hnew, hfresh⟩ := h'.origin after hafter
    · obtain ⟨row, hrow, hname, hcolumn⟩ | ⟨hnew, hfresh⟩ := h.origin mid hmid
      · exact .inl ⟨row, hrow, hname'.trans hname, hcolumn'.trans hcolumn⟩
      · exact .inr ⟨hcolumn'.trans hnew, fun row hrow ↦ hname' ▸ hfresh row hrow⟩
    · refine .inr ⟨hnew, fun row hrow ↦ ?_⟩
      obtain ⟨mid, hmid, hname, -⟩ := h.kept row hrow
      exact hname ▸ hfresh mid hmid

/-- A statement that changes neither names nor columns. -/
theorem keepsColumns_of_map {f : MemberRow → MemberRow}
    (h : ∀ row, row ∈ members' ↔ ∃ before ∈ members, f before = row)
    (hname : ∀ row, (f row).memberName = row.memberName) (hcolumn : ∀ row, (f row).column = row.column) :
    KeepsColumns members members' where
  kept row hrow := ⟨f row, (h _).mpr ⟨row, hrow, rfl⟩, hname row, hcolumn row⟩
  origin after hafter := by
    obtain ⟨row, hrow, rfl⟩ := (h after).mp hafter
    exact .inl ⟨row, hrow, hname row, hcolumn row⟩

@[simp]
theorem memberName_bindRow {accountHash : Option String} (row : MemberRow) :
    (Members.bindRow name id accountHash row).memberName = row.memberName := by
  unfold Members.bindRow
  split_ifs <;> rfl

theorem keepsColumns_bindHubAccount {accountHash : Option String}
    (h : members.bindHubAccount name id accountHash = some members') :
    KeepsColumns members members' := by
  apply keepsColumns_of_map (fun row ↦ Members.mem_bindHubAccount h)
  · exact memberName_bindRow
  · intro row
    unfold Members.bindRow
    split_ifs <;> rfl

theorem keepsColumns_insert (hfresh : ∀ row ∈ members, fold row.memberName ≠ fold name)
    (h : members.insert (newRow name) = some members') : KeepsColumns members members' where
  kept row hrow := ⟨row, (Table.mem_insert h).mpr (.inl hrow), rfl, rfl⟩
  origin after hafter := by
    obtain hrow | rfl := (Table.mem_insert h).mp hafter
    · exact .inl ⟨after, hrow, rfl, rfl⟩
    · exact .inr ⟨rfl, hfresh⟩

end KeepsColumns

/-! ## The account's row -/

/-- There is a row of that name, letter for letter. -/
def HasRow (members : Members) (name : String) : Prop := ∃ row ∈ members, row.memberName = name

/-- The account has the row of that name. -/
def Owns (members : Members) (id name : String) : Prop :=
  ∃ row ∈ members, row.memberName = name ∧ row.hubAccountId = some id

instance (members : Members) (name : String) : Decidable (HasRow members name) :=
  inferInstanceAs (Decidable (∃ row ∈ members.rows, row.memberName = name))

instance (members : Members) (id name : String) : Decidable (Owns members id name) :=
  inferInstanceAs (Decidable (∃ row ∈ members.rows,
    row.memberName = name ∧ row.hubAccountId = some id))

theorem Owns.hasRow {members : Members} {id name : String} (h : Owns members id name) :
    HasRow members name := by
  obtain ⟨row, hrow, hname, -⟩ := h
  exact ⟨row, hrow, hname⟩

/-- The row of a name is one account's. -/
theorem Owns.unique {members : Members} {id id' name name' : String} (h : Owns members id name)
    (h' : Owns members id' name') (hname : fold name = fold name') : id = id' := by
  obtain ⟨row, hrow, rfl, hid⟩ := h
  obtain ⟨row', hrow', rfl, hid'⟩ := h'
  obtain rfl := Members.eq_of_name hrow hrow' hname
  exact Option.some.inj (hid.symm.trans hid')

theorem KeepsColumns.hasRow {members members' : Members} {name : String}
    (h : KeepsColumns members members') (hrow : HasRow members name) : HasRow members' name := by
  obtain ⟨row, hmem, hname⟩ := hrow
  obtain ⟨after, hafter, hsame, -⟩ := h.kept row hmem
  exact ⟨after, hafter, hsame.trans hname⟩

theorem owns_of_map {members members' : Members} {f : MemberRow → MemberRow} {id name : String}
    (h : ∀ row, row ∈ members' ↔ ∃ before ∈ members, f before = row)
    (hname : ∀ row, (f row).memberName = row.memberName)
    (hid : ∀ row, (f row).hubAccountId = row.hubAccountId) :
    Owns members' id name ↔ Owns members id name := by
  constructor
  · rintro ⟨row, hrow, hrowname, hbound⟩
    obtain ⟨before, hbefore, rfl⟩ := (h row).mp hrow
    exact ⟨before, hbefore, (hname before).symm.trans hrowname, (hid before).symm.trans hbound⟩
  · rintro ⟨row, hrow, hrowname, hbound⟩
    exact ⟨f row, (h _).mpr ⟨row, hrow, rfl⟩, (hname row).trans hrowname, (hid row).trans hbound⟩

/-- The rows keep their names, their bindings and their data columns. -/
structure SameData (members members' : Members) : Prop where
  kept : ∀ row ∈ members, ∃ after ∈ members', after.memberName = row.memberName ∧
    after.hubAccountId = row.hubAccountId ∧ after.column = row.column
  origin : ∀ after ∈ members', ∃ row ∈ members, after.memberName = row.memberName ∧
    after.hubAccountId = row.hubAccountId ∧ after.column = row.column

theorem SameData.refl (members : Members) : SameData members members where
  kept row hrow := ⟨row, hrow, rfl, rfl, rfl⟩
  origin row hrow := ⟨row, hrow, rfl, rfl, rfl⟩

theorem sameData_of_map {members members' : Members} {f : MemberRow → MemberRow}
    (h : ∀ row, row ∈ members' ↔ ∃ before ∈ members, f before = row)
    (hname : ∀ row, (f row).memberName = row.memberName)
    (hid : ∀ row, (f row).hubAccountId = row.hubAccountId)
    (hcolumn : ∀ row, (f row).column = row.column) : SameData members members' where
  kept row hrow := ⟨f row, (h _).mpr ⟨row, hrow, rfl⟩, hname row, hid row, hcolumn row⟩
  origin after hafter := by
    obtain ⟨row, hrow, rfl⟩ := (h after).mp hafter
    exact ⟨row, hrow, hname row, hid row, hcolumn row⟩

theorem SameData.keepsColumns {members members' : Members} (h : SameData members members') :
    KeepsColumns members members' where
  kept row hrow := by
    obtain ⟨after, hafter, hname, -, hcolumn⟩ := h.kept row hrow
    exact ⟨after, hafter, hname, hcolumn⟩
  origin after hafter := by
    obtain ⟨row, hrow, hname, -, hcolumn⟩ := h.origin after hafter
    exact .inl ⟨row, hrow, hname, hcolumn⟩

theorem SameData.owns_iff {members members' : Members} {id name : String} (h : SameData members members') :
    Owns members' id name ↔ Owns members id name := by
  constructor
  · rintro ⟨after, hafter, hname, hbound⟩
    obtain ⟨row, hrow, hsame, hid, -⟩ := h.origin after hafter
    exact ⟨row, hrow, hsame.symm.trans hname, hid.symm.trans hbound⟩
  · rintro ⟨row, hrow, hname, hbound⟩
    obtain ⟨after, hafter, hsame, hid, -⟩ := h.kept row hrow
    exact ⟨after, hafter, hsame.trans hname, hid.trans hbound⟩

theorem sameData_finishFull (world : World) (accounts : List HubAccount) :
    SameData world.members (world.finishFull accounts).members := by
  apply sameData_of_map fun row ↦ finishFull_members accounts
  · exact fun row ↦ Members.markRow_memberName
  · exact fun row ↦ Members.markRow_hubAccountId
  · intro row
    unfold Members.markRow
    split
    · rfl
    · split_ifs <;> rfl

theorem keepsColumns_finishFull (world : World) (accounts : List HubAccount) :
    KeepsColumns world.members (world.finishFull accounts).members :=
  (sameData_finishFull world accounts).keepsColumns

theorem owns_bindHubAccount {members members' : Members} {id name : String}
    {accountHash : Option String} (h : members.bindHubAccount name id accountHash = some members')
    (hrow : HasRow members name) : Owns members' id name := by
  obtain ⟨row, hmem, hname⟩ := hrow
  refine ⟨_, (Members.mem_bindHubAccount h).mpr ⟨row, hmem, rfl⟩, (memberName_bindRow row).trans hname, ?_⟩
  rw [Members.bindRow, if_pos (Members.named_eq_true.mpr (congrArg fold hname))]

/-- A binding gives no row to another account. -/
theorem owns_of_bindHubAccount {members members' : Members} {id other name exact : String}
    {accountHash : Option String} (h : members.bindHubAccount name id accountHash = some members')
    (hne : other ≠ id) (howns : Owns members' other exact) : Owns members other exact := by
  obtain ⟨_, hafter, hname, hother⟩ := howns
  obtain ⟨row, hrow, rfl⟩ := (Members.mem_bindHubAccount h).mp hafter
  refine ⟨row, hrow, (memberName_bindRow row).symm.trans hname, ?_⟩
  unfold Members.bindRow at hother
  split_ifs at hother
  · exact absurd (Option.some.inj hother).symm hne
  · exact hother

/-- An account that is neither renamed nor hidden. -/
structure Plain (world : World) (account : HubAccount) : Prop where
  named : ∀ name ∈ world.currentName account, name = account.name
  shown : world.known account.id = none → ∀ row ∈
    (world.members.find (MemberRow.boundTo account.id)).or
      (world.members.findRow account.accountHash account.name), row.hidden = false

/-- An account that the sync knows still has its row: no other account has taken it over. -/
def StillOwns (world : World) (account : HubAccount) : Prop :=
  ∀ known ∈ world.known account.id, Owns world.members account.id known.memberName

instance (world : World) (account : HubAccount) : Decidable (Plain world account) :=
  decidable_of_iff
    ((∀ name ∈ world.currentName account, name = account.name) ∧
      (world.known account.id = none → ∀ row ∈
        (world.members.find (MemberRow.boundTo account.id)).or
          (world.members.findRow account.accountHash account.name), row.hidden = false))
    ⟨fun h ↦ ⟨h.1, h.2⟩, fun h ↦ ⟨h.named, h.shown⟩⟩

instance (world : World) (account : HubAccount) : Decidable (StillOwns world account) :=
  inferInstanceAs (Decidable (∀ known ∈ world.known account.id,
    Owns world.members account.id known.memberName))

/-- What a turn does to the rows. -/
structure Settled (world : World) (account : HubAccount) (members : Members) : Prop where
  columns : KeepsColumns world.members members
  hasRow : HasRow members account.name
  owns : StillOwns world account → Owns members account.id account.name
  others : ∀ id ≠ account.id, ∀ name, Owns members id name → Owns world.members id name

section Turn

variable {before world : World} {account : HubAccount}

/-- A new account gets a row of its name. -/
theorem settled_resolveMember (hplain : Plain world account) (hknown : world.known account.id = none) :
    ∃ members, (resolveMember account).run exec world =
        (some { memberName := account.name, hidden := false, sent := none, presence := none },
          { world with members }) ∧
      Settled world account members := by
  obtain ⟨members, name, hidden, hrun, hresolves⟩ := resolves_resolveMember world account
  cases hresolves with
  | bound row hbound =>
    obtain ⟨hrow, hid⟩ := Table.mem_of_find hbound
    have hname : row.memberName = account.name := by
      apply hplain.named
      simp [World.currentName, hknown, hbound]
    have hshown : row.hidden = false := hplain.shown hknown row (by simp [hbound])
    rw [hname, hshown] at hrun
    have howns : Owns world.members account.id account.name :=
      ⟨row, hrow, hname, Members.boundTo_eq_true.mp hid⟩
    exact ⟨_, hrun, .refl _, howns.hasRow, fun _ ↦ howns, fun _ _ _ howns ↦ howns⟩
  | takenOver row hbound hfound hbind =>
    have hrow := Members.mem_of_findRow hfound
    have hname : row.memberName = account.name := by
      apply hplain.named
      simp [World.currentName, hknown, hbound, hfound]
    have hshown : row.hidden = false := hplain.shown hknown row (by simp [hbound, hfound])
    rw [hname, hshown] at hrun
    have howns : Owns members account.id account.name :=
      hname ▸ owns_bindHubAccount hbind ⟨row, hrow, rfl⟩
    exact ⟨_, hrun, keepsColumns_bindHubAccount hbind, howns.hasRow, fun _ ↦ howns,
      fun id hne name ↦ owns_of_bindHubAccount hbind hne⟩
  | created hbound hfound hadd hbind =>
    have howns : Owns members account.id account.name :=
      owns_bindHubAccount hbind ⟨newRow account.name, (Table.mem_insert hadd).mpr (.inr rfl), rfl⟩
    refine ⟨_, hrun, ?_, howns.hasRow, fun _ ↦ howns, fun id hne name hother ↦ ?_⟩
    · have hadded := keepsColumns_insert (fresh_of_findRow hfound) hadd
      exact hadded.trans (keepsColumns_bindHubAccount hbind)
    · obtain ⟨row, hrow, hname, hid⟩ := owns_of_bindHubAccount hbind hne hother
      obtain hrow | rfl := (Table.mem_insert hadd).mp hrow
      · exact ⟨row, hrow, hname, hid⟩
      · exact absurd hid (by simp [newRow])

/-- A statement that leaves names, columns and bindings alone. -/
theorem Settled.of_sameData {members members' : Members} (h : Settled world account members)
    (hsame : SameData members members') : Settled world account members' where
  columns := h.columns.trans hsame.keepsColumns
  hasRow := hsame.keepsColumns.hasRow h.hasRow
  owns howns := hsame.owns_iff.mpr (h.owns howns)
  others id hne name howns := h.others id hne name (hsame.owns_iff.mp howns)

/-! ## What is sent -/

/-- What was last sent of an account. -/
def World.lastSent (world : World) (id : String) : Option MemberSections :=
  (world.known id).bind KnownAccount.sent

/-- The update for an account of which `previous` was sent last, if there is one. -/
def updateFor (account : HubAccount) (previous : Option MemberSections) : List (String × MemberData) :=
  if sections.all fun part ↦ !changed previous (account.sections previous) part then []
  else [(account.id, { name := account.name, sections := diff previous (account.sections previous) })]

theorem mem_sections (part : Section) : part ∈ sections := by
  cases part <;> decide

theorem all_unchanged {previous : Option MemberSections} {current : MemberSections} :
    (sections.all fun part ↦ !changed previous current part) = true ↔
      ∀ part, changed previous current part = false := by
  simp [mem_sections]

theorem sent_of_unchanged {previous : Option MemberSections} {current : MemberSections}
    (h : ∀ part, changed previous current part = false) : previous = some current := by
  obtain ⟨sent, hsent, -⟩ := changed_eq_false.mp (h .stats)
  rw [hsent, Option.some.injEq]
  funext part
  obtain ⟨sent', hsent', hsame⟩ := changed_eq_false.mp (h part)
  rw [hsent, Option.some.injEq] at hsent'
  rw [hsent', hsame]

/-- An update puts over what is held what changed, when there is none as well. -/
theorem stack_updateFor (account : HubAccount) (previous : Option MemberSections)
    (base : MemberSections) :
    stack base ((updateFor account previous).map fun sent ↦ sent.2.sections) =
      overlay (diff previous (account.sections previous)) base := by
  unfold updateFor
  split_ifs with hsame
  · have hnone : diff previous (account.sections previous) = fun _ ↦ none :=
      funext (diff_eq_none (all_unchanged.mp hsame))
    rw [hnone, none_overlay]
    rfl
  · rfl

theorem run_sendSections_plain {known : KnownAccount} (hknown : world.known account.id = some known)
    (hname : known.memberName = account.name) :
    (sendSections account known).run exec world =
      (some { known with sent := some (account.sections known.sent) },
        { world with
          known := Function.update world.known account.id
            (some { known with sent := some (account.sections known.sent) })
          outbox := world.outbox ++ updateFor account known.sent }) := by
  unfold sendSections updateFor
  dsimp only
  by_cases hsame : ∀ part, changed known.sent (account.sections known.sent) part = false
  · have hsent := sent_of_unchanged hsame
    have hempty : (sections.filter
        (sectionChanged known.sent (account.sections known.sent))).isEmpty = true := by
      rw [List.isEmpty_iff, List.filter_eq_nil_iff]
      intro part _
      exact Bool.eq_false_iff.mp (hsame part)
    rw [if_pos hempty, if_pos (all_unchanged.mpr hsame), ← hsent, List.append_nil]
    simp only [Program.pure_eq, Program.run_done]
    rw [← hknown, Function.update_eq_self]
  · have hsome : ¬ (sections.filter
        (sectionChanged known.sent (account.sections known.sent))).isEmpty = true := by
      intro hempty
      rw [List.isEmpty_iff, List.filter_eq_nil_iff] at hempty
      exact hsame fun part ↦ Bool.eq_false_iff.mpr (hempty part (mem_sections part))
    have hparts : (fun part ↦ if part ∈ sections.filter
          (sectionChanged known.sent (account.sections known.sent)) then
          account.sections known.sent part else none) =
        diff known.sent (account.sections known.sent) := by
      funext part
      simp only [List.mem_filter, mem_sections, true_and]
      rfl
    have hsend (member : MemberData) : exec (.send account.id member) world =
        some ((), { world with outbox := world.outbox ++ [(account.id, member)] }) := rfl
    rw [if_neg hsome, if_neg (fun h ↦ hsame (all_unchanged.mp h)), hparts, hname,
      run_perform (hsend _)]
    rfl

/-- Writing the presence leaves the data alone. -/
theorem run_writePresence_sameData {known : KnownAccount} (hknown : world.known account.id = some known) :
    ∃ members presence, (writePresence account known).run exec world =
        (some (), { world with
          members
          known := Function.update world.known account.id (some { known with presence }) }) ∧
      SameData world.members members := by
  unfold writePresence
  have hnow : exec .now world = some (world.clock, world) := rfl
  dsimp only
  rw [run_perform hnow]
  split
  · obtain ⟨members, hset⟩ := Members.exists_setHubPresence world.members known.memberName
      (account.online.getD (account.locationStale = some false)) account.lastSeen world.clock
    have hexec : exec (.setHubPresence known.memberName
        (account.online.getD (account.locationStale = some false)) account.lastSeen) world =
        some ((), { world with members }) := by
      rw [exec, hset]
      rfl
    rw [run_perform hexec]
    refine ⟨members, some (_, world.clock), rfl, ?_⟩
    apply sameData_of_map fun row ↦ Members.mem_setHubPresence hset
    all_goals
      intro row
      split_ifs <;> rfl
  · refine ⟨world.members, known.presence, ?_, .refl _⟩
    rw [← hknown, Function.update_eq_self]
    rfl

/-! ## The turn -/

/-- An account that the sync knows is not hidden, and there is a row of its name. -/
structure Kept (world : World) (id : String) : Prop where
  shown : ∀ known ∈ world.known id, known.hidden = false
  hasRow : ∀ known ∈ world.known id, HasRow world.members known.memberName

theorem run_knownAccount_plain (hplain : Plain world account) (hkept : Kept world account.id) :
    ∃ members directory known, (knownAccount account).run exec world =
        (some known, { world with
          members
          directory
          known := Function.update world.known account.id (some known) }) ∧
      known.memberName = account.name ∧ known.hidden = false ∧
      known.sent = world.lastSent account.id ∧ Settled world account members := by
  unfold knownAccount
  have hget : exec (.getKnown account.id) world = some (world.known account.id, world) := rfl
  rw [run_perform hget]
  cases hknown : world.known account.id with
  | some known =>
    have hname : known.memberName = account.name := by
      apply hplain.named
      simp [World.currentName, hknown]
    refine ⟨world.members, world.directory, known, ?_, hname, hkept.shown known hknown, ?_, .refl _,
      hname ▸ hkept.hasRow known hknown, fun howns ↦ hname ▸ howns known hknown,
      fun _ _ _ howns ↦ howns⟩
    · have hsame : Function.update world.known account.id (some known) = world.known := by
        rw [← hknown, Function.update_eq_self]
      rw [hsame]
      rfl
    · rw [World.lastSent, hknown]
      rfl
  | none =>
    obtain ⟨members, hrun, hsettled⟩ := settled_resolveMember hplain hknown
    dsimp only
    rw [Program.run_bind, hrun]
    refine ⟨members, _, _, rfl, rfl, rfl, ?_, hsettled⟩
    rw [World.lastSent, hknown]
    rfl

/-- The turn of an account that is neither renamed nor hidden: what the sync knows of it is what was
sent now, and the update for it is in the channel. -/
theorem processAccount_plain (hvalid : validName account.name = true) (hplain : Plain world account)
    (hkept : Kept world account.id) :
    ∃ members directory presence, world.processAccount account =
        { world with
          members
          directory
          known := Function.update world.known account.id
            (some { memberName := account.name
                    hidden := false
                    sent := some (account.sections (world.lastSent account.id))
                    presence })
          outbox := world.outbox ++ updateFor account (world.lastSent account.id) } ∧
      Settled world account members := by
  obtain ⟨members, directory, known, hrun, hname, hshown, hsent, hsettled⟩ :=
    run_knownAccount_plain hplain hkept
  have hshares (world : World) : exec (.setSharesHiscores account.id
      (account.categories.contains "hiscores")) world = some ((), { world with
        directory := world.directory.setSharesHiscores account.id
          (account.categories.contains "hiscores") }) := rfl
  have hfollow : followName account known = pure known := by
    rw [followName, if_pos hname]
  have hvisible : ¬ known.hidden = true := by
    rw [hshown]
    exact Bool.false_ne_true
  -- The world in which the presence is written.
  let sending : World :=
    { world with
      members
      directory := directory.setSharesHiscores account.id (account.categories.contains "hiscores")
      known := Function.update world.known account.id
        (some { known with sent := some (account.sections known.sent) })
      outbox := world.outbox ++ updateFor account known.sent }
  have hself : sending.known account.id =
      some { known with sent := some (account.sections known.sent) } := Function.update_self ..
  obtain ⟨members', presence, hwrite, hsame⟩ := run_writePresence_sameData hself
  refine ⟨members', sending.directory, presence, ?_, hsettled.of_sameData hsame⟩
  have hprogram : (Sync.processAccount account).run exec world =
      (writePresence account { known with sent := some (account.sections known.sent) }).run exec
        sending := by
    unfold Sync.processAccount
    rw [hvalid]
    simp only [Bool.not_true, Bool.false_eq_true, if_false]
    rw [Program.run_bind, hrun]
    dsimp only
    rw [if_neg hvisible, run_perform (hshares _), hfollow, Program.pure_eq, Program.done_bind,
      Program.run_bind, run_sendSections_plain (Function.update_self ..) hname]
    dsimp only
    rw [Function.update_idem]
  unfold World.processAccount
  rw [hprogram, hwrite, ← hsent, ← hname, ← hshown]
  dsimp only [sending]
  rw [Function.update_idem]

end Turn

end OsrsMap.Sync
