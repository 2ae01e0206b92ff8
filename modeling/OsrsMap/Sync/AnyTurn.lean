import OsrsMap.Sync.PlainTurn

/-!
# The turn of any account

What processing an account comes to whatever it is called and whether it is hidden: of a hidden one
nothing is sent; of a shown one the sync has sent what changed, and everything when it was renamed or
not known. Rows of other accounts keep their names and data columns.
-/

namespace OsrsMap.Sync

open Overlay

namespace World

variable (world : World) (account : HubAccount)

/-- Whether an account is found hidden when it has its turn. -/
def hides : Bool :=
  match world.known account.id with
  | some known => known.hidden
  | none =>
    ((world.members.find (MemberRow.boundTo account.id)).or
      (world.members.findRow account.accountHash account.name)).any (·.hidden)

/-- What an account's sections are compared with in its turn: what was sent of it, unless it is new to
the sync or renamed. -/
def remembered : Option MemberSections :=
  (world.known account.id).bind fun known ↦
    if known.memberName = account.name then known.sent else none

end World

/-- The account, by the name its row has. -/
abbrev HubAccount.under (account : HubAccount) (name : String) : HubAccount := { account with name }

/-- What the turn of an account leaves: rows of others keep what they have, and no row has a name that
no row had before but the account's own, when no other row has that already. -/
structure LeavesOthers (world : World) (account : HubAccount) (members : Members) : Prop where
  others : ∀ row ∈ members, ∀ id ≠ account.id, row.hubAccountId = some id →
    ∃ before ∈ world.members, before.hubAccountId = some id ∧
      row.memberName = before.memberName ∧ row.column = before.column
  named : ∀ row ∈ members, HasRow world.members row.memberName ∨
    row.memberName = account.name ∧ world.movesTo account = none

section LeavesOthers

variable {world : World} {account : HubAccount} {members members' : Members} {name : String}

theorem LeavesOthers.refl (world : World) (account : HubAccount) :
    LeavesOthers world account world.members where
  others row hrow _ _ hid := ⟨row, hrow, hid, rfl, rfl⟩
  named row hrow := .inl ⟨row, hrow, rfl⟩

/-- What the statements of a turn make of rows: those of others keep what they have. -/
theorem LeavesOthers.map (h : LeavesOthers world account members) {f : MemberRow → MemberRow}
    (hmem : ∀ row, row ∈ members' ↔ ∃ before ∈ members, f before = row)
    (hothers : ∀ row ∈ members, ∀ id ≠ account.id, (f row).hubAccountId = some id →
      row.hubAccountId = some id ∧ (f row).memberName = row.memberName ∧ (f row).column = row.column)
    (hnamed : ∀ row ∈ members, (f row).memberName = row.memberName ∨
      (f row).memberName = account.name ∧ world.movesTo account = none) :
    LeavesOthers world account members' where
  others after hafter id hne hid := by
    obtain ⟨row, hrow, rfl⟩ := (hmem after).mp hafter
    obtain ⟨hbound, hname, hcolumn⟩ := hothers row hrow id hne hid
    obtain ⟨before, hbefore, hbeforeId, hsame, hkept⟩ := h.others row hrow id hne hbound
    exact ⟨before, hbefore, hbeforeId, hname.trans hsame, hcolumn.trans hkept⟩
  named after hafter := by
    obtain ⟨row, hrow, rfl⟩ := (hmem after).mp hafter
    obtain hname | hnew := hnamed row hrow
    · rw [hname]
      exact h.named row hrow
    · exact .inr hnew

theorem LeavesOthers.bindHubAccount (h : LeavesOthers world account members)
    {accountHash : Option String}
    (hbind : members.bindHubAccount name account.id accountHash = some members') :
    LeavesOthers world account members' := by
  apply h.map fun row ↦ Members.mem_bindHubAccount hbind
  · intro row _ id hne hid
    refine ⟨?_, memberName_bindRow row, ?_⟩
    · unfold Members.bindRow at hid
      split_ifs at hid
      · exact absurd (Option.some.inj hid).symm hne
      · exact hid
    · unfold Members.bindRow
      split_ifs <;> rfl
  · exact fun row _ ↦ .inl (memberName_bindRow row)

theorem LeavesOthers.insert (h : LeavesOthers world account members)
    (hmoves : world.movesTo account = none)
    (hadd : members.insert (newRow account.name) = some members') :
    LeavesOthers world account members' where
  others after hafter id hne hid := by
    obtain hrow | rfl := (Table.mem_insert hadd).mp hafter
    · exact h.others after hrow id hne hid
    · exact absurd hid (by simp [newRow])
  named after hafter := by
    obtain hrow | rfl := (Table.mem_insert hadd).mp hafter
    · exact h.named after hrow
    · exact .inr ⟨rfl, hmoves⟩

/-- A rename of the account's own row. -/
theorem LeavesOthers.renameHubMember (h : LeavesOthers world account members)
    (howns : Owns members account.id name) (hmoves : world.movesTo account = none)
    (hrename : members.renameHubMember name account.name = some members') :
    LeavesOthers world account members' := by
  obtain ⟨own, hown, hownName, hownId⟩ := howns
  apply h.map fun row ↦ Members.mem_renameHubMember hrename
  · intro row hrow id hne hid
    have hnot : ¬ row.named name = true := by
      intro hnamed
      have hsame : row = own := Members.eq_of_name hrow hown
        ((Members.named_eq_true.mp hnamed).trans (congrArg fold hownName.symm))
      rw [if_pos hnamed, hsame, hownId] at hid
      exact hne (Option.some.inj hid).symm
    rw [if_neg hnot] at hid ⊢
    exact ⟨hid, rfl, rfl⟩
  · intro row _
    split_ifs
    · exact .inr ⟨rfl, hmoves⟩
    · exact .inl rfl

theorem LeavesOthers.sameData (h : LeavesOthers world account members)
    (hsame : SameData members members') : LeavesOthers world account members' where
  others after hafter id hne hid := by
    obtain ⟨row, hrow, hname, hbound, hcolumn⟩ := hsame.origin after hafter
    obtain ⟨before, hbefore, hbeforeId, hbeforeName, hkept⟩ :=
      h.others row hrow id hne (hbound.symm.trans hid)
    exact ⟨before, hbefore, hbeforeId, hname.trans hbeforeName, hcolumn.trans hkept⟩
  named after hafter := by
    obtain ⟨row, hrow, hname, -⟩ := hsame.origin after hafter
    rw [hname]
    exact h.named row hrow

end LeavesOthers

/-! ## Its row is found -/

/-- What finding the row of an account comes to. -/
structure Found (world : World) (account : HubAccount) (known : KnownAccount) (members : Members) :
    Prop where
  leaves : LeavesOthers world account members
  hidden : known.hidden = world.hides account
  knew : ∀ before ∈ world.known account.id, known = before
  sent : known.sent = world.lastSent account.id
  current : world.currentName account = some known.memberName ∨
    world.currentName account = none ∧ known.memberName = account.name
  owns : (world.hides account = false → StillOwns world account) → world.hides account = false →
    Owns members account.id known.memberName
  names : ∀ name, HasRow world.members name → HasRow members name
  columns : KeepsColumns world.members members
  same : world.takesOver account = none → world.currentName account ≠ none → members = world.members
  fresh : world.currentName account ≠ none → ∀ name, HasRow members name → HasRow world.members name
  took : ∀ row ∈ world.takesOver account, Owns members account.id row.memberName

section Turn

variable {world : World} {account : HubAccount}

theorem found_known {known : KnownAccount} (hknown : world.known account.id = some known) :
    Found world account known world.members where
  leaves := .refl world account
  hidden := by rw [World.hides, hknown]
  knew before hbefore := Option.some.inj (hknown.symm.trans hbefore)
  sent := by rw [World.lastSent, hknown, Option.bind_some]
  current := .inl (by rw [World.currentName, hknown])
  owns hstill hshown := hstill hshown known hknown
  names _ hrow := hrow
  columns := .refl _
  same _ _ := rfl
  fresh _ _ hrow := hrow
  took := by simp [takesOver_of_known hknown]

theorem found_resolves {name : String} {hidden : Bool} {members : Members}
    (hknown : world.known account.id = none) (h : Resolves world.members account name hidden members) :
    Found world account { memberName := name, hidden, sent := none, presence := none } members := by
  have hsent : none = world.lastSent account.id := by rw [World.lastSent, hknown, Option.bind_none]
  have hknew (known : KnownAccount) : ∀ before ∈ world.known account.id, known = before := by
    simp [hknown]
  cases h with
  | bound row hbound =>
    obtain ⟨hrow, hid⟩ := Table.mem_of_find hbound
    have howns : Owns world.members account.id row.memberName :=
      ⟨row, hrow, rfl, Members.boundTo_eq_true.mp hid⟩
    refine ⟨.refl world account, ?_, hknew _, hsent, .inl ?_, fun _ _ ↦ howns, fun _ hrow ↦ hrow, .refl _,
      fun _ _ ↦ rfl, fun _ _ hrow ↦ hrow, ?_⟩
    · simp [World.hides, hknown, hbound]
    · simp [World.currentName, hknown, hbound]
    · simp [World.takesOver, hbound]
  | takenOver row hbound hfound hbind =>
    have hcolumns := keepsColumns_bindHubAccount hbind
    have htakes : world.takesOver account = some row := by
      simp [World.takesOver, hknown, hbound, hfound]
    have howns : Owns members account.id row.memberName :=
      owns_bindHubAccount hbind ⟨row, Members.mem_of_findRow hfound, rfl⟩
    refine ⟨(LeavesOthers.refl world account).bindHubAccount hbind, ?_, hknew _, hsent, .inl ?_,
      fun _ _ ↦ howns, fun _ ↦ hcolumns.hasRow, hcolumns, fun hnone ↦ ?_, fun _ name hrow ↦ ?_,
      fun taken htaken ↦ ?_⟩
    · simp [World.hides, hknown, hbound, hfound]
    · simp [World.currentName, hknown, hbound, hfound]
    · exact absurd (htakes.symm.trans hnone) (Option.some_ne_none row)
    · obtain ⟨after, hafter, hname⟩ := hrow
      obtain ⟨before, hbefore, rfl⟩ := (Members.mem_bindHubAccount hbind).mp hafter
      exact ⟨before, hbefore, (memberName_bindRow before).symm.trans hname⟩
    · obtain rfl := Option.some.inj (htakes.symm.trans htaken)
      exact howns
  | created hbound hfound hadd hbind =>
    have hcurrent : world.currentName account = none := by
      simp [World.currentName, hknown, hbound, hfound]
    have hmoves : world.movesTo account = none := by
      rw [World.movesTo, hcurrent, Option.bind_none]
    have hcolumns := (keepsColumns_insert (fresh_of_findRow hfound) hadd).trans
      (keepsColumns_bindHubAccount hbind)
    have howns : Owns members account.id account.name :=
      owns_bindHubAccount hbind ⟨newRow account.name, (Table.mem_insert hadd).mpr (.inr rfl), rfl⟩
    refine ⟨((LeavesOthers.refl world account).insert hmoves hadd).bindHubAccount hbind, ?_, hknew _, hsent,
      .inr ⟨hcurrent, rfl⟩, fun _ _ ↦ howns, fun _ ↦ hcolumns.hasRow, hcolumns,
      fun _ hsome ↦ absurd hcurrent hsome, fun hsome ↦ absurd hcurrent hsome, ?_⟩
    · simp [World.hides, hknown, hbound, hfound]
    · simp [World.takesOver, hfound]

theorem run_knownAccount_found (world : World) (account : HubAccount) :
    ∃ members directory known, (knownAccount account).run exec world =
        (some known, { world with
          members
          directory
          known := Function.update world.known account.id (some known) }) ∧
      Found world account known members := by
  unfold knownAccount
  have hget : exec (.getKnown account.id) world = some (world.known account.id, world) := rfl
  rw [run_perform hget]
  cases hknown : world.known account.id with
  | some known =>
    refine ⟨world.members, world.directory, known, ?_, found_known hknown⟩
    have hsame : Function.update world.known account.id (some known) = world.known := by
      rw [← hknown, Function.update_eq_self]
    rw [hsame]
    rfl
  | none =>
    obtain ⟨members, name, hidden, hrun, hresolves⟩ := resolves_resolveMember world account
    have hfound := found_resolves hknown hresolves
    dsimp only
    rw [Program.run_bind, hrun]
    -- The directory forgets a hidden member and learns of a shown one.
    cases hidden with
    | true => exact ⟨members, _, _, rfl, hfound⟩
    | false => exact ⟨members, _, _, rfl, hfound⟩

/-! ## It follows its name -/

/-- What following its name comes to for an account whose row was found. -/
structure Renamed (world : World) (account : HubAccount) (known : KnownAccount) (members : Members)
    (known' : KnownAccount) (members' : Members) : Prop where
  leaves : LeavesOthers world account members'
  owns : Owns members' account.id known'.memberName
  hidden : known'.hidden = known.hidden
  sent : known'.sent = if known.memberName = account.name then known.sent else none
  same : known.memberName = account.name → known'.memberName = account.name ∧ members' = members

theorem movesTo_of_found {known : KnownAccount} {members : Members}
    (h : Found world account known members) (hfree : ∀ row ∈ members,
      fold row.memberName = fold account.name → fold row.memberName = fold known.memberName) :
    world.movesTo account = none := by
  obtain hcurrent | ⟨hcurrent, -⟩ := h.current
  · rw [World.movesTo, hcurrent, Option.bind_some, Option.filter_eq_none_iff]
    intro row hfind
    obtain ⟨hrow, hnamed⟩ := Table.mem_of_find hfind
    obtain ⟨after, hafter, hname⟩ := h.names row.memberName ⟨row, hrow, rfl⟩
    have hsame := hfree after hafter (by rw [hname, Members.named_eq_true.mp hnamed])
    rw [hname] at hsame
    simp [hsame]
  · rw [World.movesTo, hcurrent, Option.bind_none]

theorem owns_renameHubMember {members members' : Members} {id current name : String}
    (howns : Owns members id current) (hrename : members.renameHubMember current name = some members') :
    Owns members' id name := by
  obtain ⟨own, hown, hownName, hownId⟩ := howns
  refine ⟨_, (Members.mem_renameHubMember hrename).mpr ⟨own, hown, rfl⟩, ?_⟩
  rw [if_pos (Members.named_eq_true.mpr (congrArg fold hownName))]
  exact ⟨rfl, hownId⟩

/-- An account that has a new name is bound to the row of that name, or its own row gets it. -/
theorem run_followRename_renamed {known : KnownAccount} {middle : World}
    (h : Found world account known middle.members)
    (howns : Owns middle.members account.id known.memberName) :
    ∃ members name, (followRename account known.memberName).run exec middle =
        (some name, { middle with members }) ∧
      LeavesOthers world account members ∧ Owns members account.id name := by
  obtain ⟨row, hrow, members, -, -, hbind, hrun⟩ | ⟨members, hfree, hrename, hrun⟩ :=
    run_followRename_cases middle account known.memberName
  · exact ⟨members, row.memberName, hrun, h.leaves.bindHubAccount hbind,
      owns_bindHubAccount hbind ⟨row, hrow, rfl⟩⟩
  · have hmoves : world.movesTo account = none := movesTo_of_found h hfree
    exact ⟨members, account.name, hrun, h.leaves.renameHubMember howns hmoves hrename,
      owns_renameHubMember howns hrename⟩

theorem run_followName_renamed {known : KnownAccount} {middle : World}
    (h : Found world account known middle.members)
    (howns : Owns middle.members account.id known.memberName)
    (hknown : middle.known account.id = some known) :
    ∃ members directory known', (followName account known).run exec middle =
        (some known', { middle with
          members
          directory
          known := Function.update middle.known account.id (some known') }) ∧
      Renamed world account known middle.members known' members := by
  unfold followName
  by_cases hname : known.memberName = account.name
  · rw [if_pos hname]
    refine ⟨middle.members, middle.directory, known, ?_, h.leaves, howns, rfl, ?_,
      fun _ ↦ ⟨hname, rfl⟩⟩
    · have hsame : Function.update middle.known account.id (some known) = middle.known := by
        rw [← hknown, Function.update_eq_self]
      rw [hsame]
      rfl
    · rw [if_pos hname]
  · obtain ⟨members, name, hrun, hleaves, howned⟩ := run_followRename_renamed h howns
    rw [if_neg hname, Program.run_bind, hrun]
    refine ⟨members, middle.directory.bind account.id name, { known with memberName := name, sent := none },
      ?_, hleaves, howned, rfl, ?_, fun hsame ↦ absurd hsame hname⟩
    · exact congrArg (fun known ↦ (_, { middle with
        members, directory := middle.directory.bind account.id name, known })) (Function.update_idem ..)
    · rw [if_neg hname]

/-! ## The turn -/

theorem run_sendSections_under {known : KnownAccount} (hknown : world.known account.id = some known) :
    (sendSections account known).run exec world =
      (some { known with sent := some (account.sections known.sent) },
        { world with
          known := Function.update world.known account.id
            (some { known with sent := some (account.sections known.sent) })
          outbox := world.outbox ++ updateFor (account.under known.memberName) known.sent }) :=
  @run_sendSections_plain world (account.under known.memberName) known hknown rfl

/-- What the turn of a hidden account does to the rows: it gets a row of a name that is there, unless it
has one, and nothing of what is known of it is lost. -/
structure Passed (world : World) (account : HubAccount) (known : KnownAccount) (members : Members) :
    Prop where
  leaves : LeavesOthers world account members
  names : ∀ name, HasRow members name → HasRow world.members name
  columns : KeepsColumns world.members members
  knew : ∀ sent ∈ known.sent, world.known account.id = some known
  took : ∀ row ∈ world.takesOver account, Owns members account.id row.memberName
  same : world.takesOver account = none → members = world.members

/-- The turn of an account that is hidden: nothing is sent. -/
theorem processAccount_hidden (hvalid : validName account.name = true)
    (hhidden : world.hides account = true) :
    ∃ members directory known, world.processAccount account =
        { world with
          members
          directory
          known := Function.update world.known account.id (some known) } ∧
      Passed world account known members := by
  obtain ⟨members, directory, known, hrun, hfound⟩ := run_knownAccount_found world account
  have hcurrent : world.currentName account ≠ none := by
    intro hcurrent
    unfold World.hides at hhidden
    unfold World.currentName at hcurrent
    cases hknown : world.known account.id with
    | some before => simp [hknown] at hcurrent
    | none =>
      rw [hknown] at hhidden hcurrent
      rw [Option.map_eq_none_iff.mp hcurrent] at hhidden
      exact Bool.false_ne_true hhidden
  refine ⟨members, directory, known, ?_, hfound.leaves, hfound.fresh hcurrent, hfound.columns,
    fun sent hsent ↦ ?_, hfound.took, fun htakes ↦ hfound.same htakes hcurrent⟩
  · unfold World.processAccount Sync.processAccount
    rw [hvalid]
    simp only [Bool.not_true, Bool.false_eq_true, if_false]
    rw [Program.run_bind, hrun]
    dsimp only
    rw [if_pos (hfound.hidden.trans hhidden)]
    rfl
  · rw [hfound.sent] at hsent
    obtain ⟨before, hbefore, -⟩ := Option.bind_eq_some_iff.mp hsent
    rw [hbefore, hfound.knew before hbefore]

/-- The one row of an account. -/
theorem find_or_of_owns {members : Members} {id name : String} (h : Owns members id name)
    (taken : Option MemberRow) :
    ∃ row ∈ (members.find (MemberRow.boundTo id)).or taken, row.memberName = name := by
  obtain ⟨row, hrow, hname, hid⟩ := h
  have hfind := Table.find_of_key (fun _ ↦ Members.boundTo_iff) hrow
    (Members.boundTo_iff.mp (Members.boundTo_eq_true.mpr hid))
  refine ⟨row, ?_, hname⟩
  rw [hfind]
  rfl

/-- An account has one row. -/
theorem Owns.name_eq {members : Members} {id name name' : String} (h : Owns members id name)
    (h' : Owns members id name') : name = name' := by
  obtain ⟨row, hrow, rfl, hid⟩ := h
  obtain ⟨row', hrow', rfl, hid'⟩ := h'
  rw [Members.eq_of_account hrow hrow' hid hid']

/-- The row of a hidden account is the one it had, or the one it took over. -/
theorem Passed.exists_row {known : KnownAccount} {members : Members} {name : String}
    (h : Passed world account known members) (howns : Owns members account.id name) :
    ∃ row ∈ (world.members.find (MemberRow.boundTo account.id)).or (world.takesOver account),
      row.memberName = name := by
  cases htakes : world.takesOver account with
  | none => exact find_or_of_owns (h.same htakes ▸ howns) none
  | some taken =>
    have hunbound : world.members.find (MemberRow.boundTo account.id) = none := by
      unfold World.takesOver at htakes
      split_ifs at htakes with hnew
      exact Option.isNone_iff_eq_none.mp hnew.2
    refine ⟨taken, ?_, (h.took taken htakes).name_eq howns⟩
    rw [hunbound]
    rfl

/-- The turn of a shown account up to its presence: it is known, follows its name, and what changed is sent. -/
theorem run_processAccount_sent {known known' : KnownAccount} {middle after : World}
    (hvalid : validName account.name = true)
    (hrun : (knownAccount account).run exec world = (some known, middle)) (hshown : known.hidden = false)
    (hfollow : (followName account known).run exec { middle with
        directory := middle.directory.setSharesHiscores account.id (account.categories.contains "hiscores") } =
      (some known', after))
    (hknown : after.known account.id = some known') :
    (Sync.processAccount account).run exec world =
      (writePresence account { known' with sent := some (account.sections known'.sent) }).run exec
        { after with
          known := Function.update after.known account.id
            (some { known' with sent := some (account.sections known'.sent) })
          outbox := after.outbox ++ updateFor (account.under known'.memberName) known'.sent } := by
  have hshares : exec (.setSharesHiscores account.id (account.categories.contains "hiscores")) middle =
      some ((), { middle with directory :=
        middle.directory.setSharesHiscores account.id (account.categories.contains "hiscores") }) := rfl
  unfold Sync.processAccount
  rw [hvalid]
  simp only [Bool.not_true, Bool.false_eq_true, if_false]
  rw [Program.run_bind, hrun]
  dsimp only
  rw [if_neg (by rw [hshown]; exact Bool.false_ne_true), run_perform hshares, Program.run_bind, hfollow]
  dsimp only
  rw [Program.run_bind, run_sendSections_under hknown]

/-- What is compared with the sections is what was sent of the account, unless it has a new name. -/
theorem Renamed.sent_eq {known known' : KnownAccount} {members members' : Members}
    (h : Renamed world account known members known' members') (hfound : Found world account known members) :
    known'.sent = world.remembered account := by
  rw [h.sent, World.remembered]
  cases hknown : world.known account.id with
  | some before =>
    rw [hfound.knew before hknown]
    rfl
  | none =>
    rw [hfound.sent, World.lastSent, hknown, Option.bind_none, ite_self]
    rfl

/-- The turn of an account that is shown and still has its row: what the sync knows of it is what was
sent now, and the update for it is in the channel. -/
theorem processAccount_shown (hvalid : validName account.name = true)
    (hshown : world.hides account = false) (hstill : StillOwns world account) :
    ∃ members directory presence name, world.processAccount account =
        { world with
          members
          directory
          known := Function.update world.known account.id
            (some { memberName := name
                    hidden := false
                    sent := some (account.sections (world.remembered account))
                    presence })
          outbox := world.outbox ++ updateFor (account.under name) (world.remembered account) } ∧
      LeavesOthers world account members ∧ Owns members account.id name ∧
      (world.remembered account ≠ none → name = account.name ∧ KeepsColumns world.members members) := by
  obtain ⟨members, directory, known, hrun, hfound⟩ := run_knownAccount_found world account
  -- The world in which the account follows its name.
  let middle : World :=
    { world with
      members
      directory := directory.setSharesHiscores account.id (account.categories.contains "hiscores")
      known := Function.update world.known account.id (some known) }
  have hfound' : Found world account known middle.members := hfound
  obtain ⟨members', directory', known', hfollow, hrenamed⟩ :=
    run_followName_renamed hfound' (hfound.owns (fun _ ↦ hstill) hshown) (Function.update_self ..)
  have hsent : known'.sent = world.remembered account := hrenamed.sent_eq hfound'
  have hhidden : known'.hidden = false := by rw [hrenamed.hidden, hfound.hidden, hshown]
  have hturn := run_processAccount_sent hvalid hrun (hfound.hidden.trans hshown) hfollow
    (Function.update_self ..)
  -- The world in which the presence is written.
  let sending : World :=
    { world with
      members := members'
      directory := directory'
      known := Function.update world.known account.id
        (some { known' with sent := some (account.sections known'.sent) })
      outbox := world.outbox ++ updateFor (account.under known'.memberName) known'.sent }
  have hself : sending.known account.id =
      some { known' with sent := some (account.sections known'.sent) } := Function.update_self ..
  obtain ⟨members'', presence, hwrite, hsame⟩ := @run_writePresence_sameData sending account _ hself
  refine ⟨members'', directory', presence, known'.memberName, ?_, hrenamed.leaves.sameData hsame,
    hsame.owns_iff.mpr hrenamed.owns, fun hsome ↦ ?_⟩
  · dsimp only [middle] at hturn
    rw [Function.update_idem, Function.update_idem] at hturn
    have hprogram : (Sync.processAccount account).run exec world =
        (writePresence account { known' with sent := some (account.sections known'.sent) }).run exec
          sending := hturn
    unfold World.processAccount
    rw [hprogram, hwrite, ← hsent, ← hhidden]
    dsimp only [sending]
    rw [Function.update_idem]
  · have hname : known.memberName = account.name := by
      by_contra hne
      rw [← hsent, hrenamed.sent, if_neg hne] at hsome
      exact hsome rfl
    obtain ⟨hname', hmembers⟩ := hrenamed.same hname
    refine ⟨hname', hfound.columns.trans ?_⟩
    have hkept : SameData members' members'' := hsame
    rw [show members' = members from hmembers] at hkept
    exact hkept.keepsColumns

end Turn

end OsrsMap.Sync
