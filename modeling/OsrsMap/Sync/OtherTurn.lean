import OsrsMap.Sync.PlainTurn

/-!
# The turn of another account

An account that neither has a member's name nor goes by it leaves the member alone, whatever becomes
of itself: the member's row keeps its name and its data columns, and nothing is sent under its name.
-/

namespace OsrsMap.Sync

/-! ## A row left alone -/

/-- The rows of a name are the same, with the same data. -/
def SameRows (name : String) (members members' : Members) : Prop :=
  ∀ row : MemberRow, fold row.memberName = fold name →
    ((∃ after ∈ members', after.memberName = row.memberName ∧ after.column = row.column) ↔
      ∃ before ∈ members, before.memberName = row.memberName ∧ before.column = row.column)

section SameRows

variable {members members' members'' : Members} {name id new : String}

theorem SameRows.refl (members : Members) : SameRows name members members := fun _ _ ↦ Iff.rfl

theorem SameRows.trans (h : SameRows name members members') (h' : SameRows name members' members'') :
    SameRows name members members'' :=
  fun row hname ↦ (h' row hname).trans (h row hname)

theorem SameRows.hasRow (h : SameRows name members members') {exact : String}
    (hname : fold exact = fold name) : HasRow members' exact ↔ HasRow members exact := by
  constructor
  · rintro ⟨row, hrow, rfl⟩
    obtain ⟨before, hbefore, hsame, -⟩ := (h row hname).mp ⟨row, hrow, rfl, rfl⟩
    exact ⟨before, hbefore, hsame⟩
  · rintro ⟨row, hrow, rfl⟩
    obtain ⟨after, hafter, hsame, -⟩ := (h row hname).mpr ⟨row, hrow, rfl, rfl⟩
    exact ⟨after, hafter, hsame⟩

/-- A statement that changes neither name nor data of the rows with the name, and gives no other row
the name. -/
theorem sameRows_of_map {f : MemberRow → MemberRow}
    (h : ∀ row, row ∈ members' ↔ ∃ before ∈ members, f before = row)
    (hkeep : ∀ row, fold row.memberName = fold name →
      (f row).memberName = row.memberName ∧ (f row).column = row.column)
    (hother : ∀ row, fold row.memberName ≠ fold name → fold (f row).memberName ≠ fold name) :
    SameRows name members members' := by
  intro row hname
  constructor
  · rintro ⟨_, hafter, hsame, hcolumn⟩
    obtain ⟨before, hbefore, rfl⟩ := (h _).mp hafter
    have hbeforeName : fold before.memberName = fold name := by
      by_contra hne
      exact hother before hne (by rw [hsame, hname])
    obtain ⟨hkeepName, hkeepColumn⟩ := hkeep before hbeforeName
    exact ⟨before, hbefore, hkeepName.symm.trans hsame, hkeepColumn.symm.trans hcolumn⟩
  · rintro ⟨before, hbefore, hsame, hcolumn⟩
    obtain ⟨hkeepName, hkeepColumn⟩ := hkeep before (by rw [hsame, hname])
    exact ⟨f before, (h _).mpr ⟨before, hbefore, rfl⟩, hkeepName.trans hsame, hkeepColumn.trans hcolumn⟩

theorem sameRows_bindHubAccount {original : String} {accountHash : Option String}
    (h : members.bindHubAccount original id accountHash = some members') :
    SameRows name members members' := by
  apply sameRows_of_map fun row ↦ Members.mem_bindHubAccount h
  · intro row _
    refine ⟨memberName_bindRow row, ?_⟩
    unfold Members.bindRow
    split_ifs <;> rfl
  · intro row hne
    rwa [memberName_bindRow]

theorem sameRows_setHubPresence {original : String} {online : Bool} {lastSeen : Option ℤ} {now : ℤ}
    (h : members.setHubPresence original online lastSeen now = some members') :
    SameRows name members members' := by
  apply sameRows_of_map fun row ↦ Members.mem_setHubPresence h
  · intro row _
    split_ifs <;> exact ⟨rfl, rfl⟩
  · intro row hne
    split_ifs <;> exact hne

theorem sameRows_renameHubMember {original : String} (hne : fold original ≠ fold name)
    (hnew : fold new ≠ fold name) (h : members.renameHubMember original new = some members') :
    SameRows name members members' := by
  apply sameRows_of_map fun row ↦ Members.mem_renameHubMember h
  · intro row hname
    have hnot : ¬ row.named original = true := by
      rw [Members.named_eq_true, hname]
      exact hne.symm
    rw [if_neg hnot]
    exact ⟨rfl, rfl⟩
  · intro row hrow
    split_ifs
    · exact hnew
    · exact hrow

theorem sameRows_insert (hne : fold new ≠ fold name)
    (h : members.insert (newRow new) = some members') : SameRows name members members' := by
  intro row hname
  constructor
  · rintro ⟨after, hafter, hsame, hcolumn⟩
    obtain hbefore | rfl := (Table.mem_insert h).mp hafter
    · exact ⟨after, hbefore, hsame, hcolumn⟩
    · exact absurd (by rw [← hname, ← hsame]; rfl) hne
  · rintro ⟨before, hbefore, hsame⟩
    exact ⟨before, (Table.mem_insert h).mpr (.inl hbefore), hsame⟩

theorem sameRows_ensureMemberExists (hne : fold new ≠ fold name)
    (h : members.ensureMemberExists new = some members') : SameRows name members members' := by
  unfold Members.ensureMemberExists at h
  split at h
  · rw [← Option.some.inj h]
    exact .refl members
  · exact sameRows_insert hne h

end SameRows

/-! ## What another account leaves -/

/-- A member is left alone: its row, and what is known and sent under its name. -/
structure Apart (name : String) (world world' : World) : Prop where
  rows : SameRows name world.members world'.members
  known : ∀ id, ∀ known ∈ world'.known id, fold known.memberName = fold name →
    known ∈ world.known id
  outbox : ∃ sent, world'.outbox = world.outbox ++ sent ∧
    ∀ update ∈ sent, fold name ≠ fold update.2.name

section Apart

variable {name : String} {before world : World} {account : HubAccount} {known : KnownAccount}

theorem Apart.refl (world : World) : Apart name world world where
  rows := .refl _
  known _ _ hknown _ := hknown
  outbox := ⟨[], by simp, by simp⟩

theorem Apart.of_rows {members : Members} (h : Apart name before world)
    (hrows : SameRows name world.members members) : Apart name before { world with members } where
  rows := h.rows.trans hrows
  known := h.known
  outbox := h.outbox

theorem Apart.of_directory (h : Apart name before world) (directory : HubDirectory) :
    Apart name before { world with directory } where
  rows := h.rows
  known := h.known
  outbox := h.outbox

theorem Apart.setKnown (h : Apart name before world) (hne : fold known.memberName ≠ fold name)
    (id : String) :
    Apart name before { world with known := Function.update world.known id (some known) } where
  rows := h.rows
  known other found hfound hname := by
    dsimp only at hfound
    by_cases hid : other = id
    · rw [hid, Function.update_self, Option.mem_some_iff] at hfound
      exact absurd hname (hfound ▸ hne)
    · rw [Function.update_of_ne hid] at hfound
      exact h.known other found hfound hname
  outbox := h.outbox

theorem Apart.send (h : Apart name before world) {member : MemberData}
    (hne : fold member.name ≠ fold name) (id : String) :
    Apart name before { world with outbox := world.outbox ++ [(id, member)] } where
  rows := h.rows
  known := h.known
  outbox := by
    obtain ⟨sent, hsent, hothers⟩ := h.outbox
    refine ⟨sent ++ [(id, member)], by rw [hsent, List.append_assoc], fun update hupdate ↦ ?_⟩
    obtain hupdate | hupdate := List.mem_append.mp hupdate
    · exact hothers update hupdate
    · rw [List.mem_singleton.mp hupdate]
      exact hne.symm

/-! ## Its programs -/

/-- An account that neither has the name nor goes by it. -/
def Foreign (name : String) (world : World) (account : HubAccount) : Prop :=
  fold account.name ≠ fold name ∧ ∀ current ∈ world.currentName account, fold current ≠ fold name

instance (name : String) (world : World) (account : HubAccount) :
    Decidable (Foreign name world account) :=
  inferInstanceAs (Decidable (fold account.name ≠ fold name ∧
    ∀ current ∈ world.currentName account, fold current ≠ fold name))

/-- An account that is not renamed has nothing to do with members of other names. -/
theorem Plain.foreign (h : Plain world account) (hname : fold account.name ≠ fold name) :
    Foreign name world account := by
  refine ⟨hname, fun current hcurrent ↦ ?_⟩
  rwa [h.named current hcurrent]

/-- Ends with the member left alone, the account being known by another name. -/
abbrev LeavesAlone (name : String) (before : World) (program : SyncProgram KnownAccount)
    (world : World) : Prop :=
  program.Ends exec (Apart name before) (fun known _ ↦ fold known.memberName ≠ fold name) world

section Ends

variable {α : Type} {inv : World → Prop} {post : α → World → Prop} {op : Op} {after : World}
  {next : Answer op → SyncProgram α}

/-- An operation that is not refused. -/
theorem ends_perform (answer : Answer op) (h : exec op world = some (answer, after))
    (hnext : (next answer).Ends exec inv post after) :
    (perform op >>= next).Ends exec inv post world := by
  unfold Program.Ends
  rw [run_perform h]
  exact hnext

/-- A statement, which the database may refuse. -/
theorem ends_statement {members : Option Members} (answered : Unit → Answer op)
    (hexec : exec op world = members.map fun members ↦ (answered (), { world with members }))
    (hinv : inv world)
    (hnext : ∀ after, members = some after →
      (next (answered ())).Ends exec inv post { world with members := after }) :
    (perform op >>= next).Ends exec inv post world := by
  rw [perform_bind]
  apply Program.ends_call hinv
  intro answer after hdone
  rw [hexec, Option.map_eq_some_iff] at hdone
  obtain ⟨rows, hrows, hsame⟩ := hdone
  obtain ⟨rfl, rfl⟩ := Prod.mk.inj hsame
  exact hnext rows hrows

end Ends

theorem leavesAlone_resolveMember (h : Foreign name world account)
    (hknown : world.known account.id = none) :
    LeavesAlone name world (resolveMember account) world := by
  obtain ⟨hname, hcurrent⟩ := h
  unfold resolveMember
  refine ends_perform (world.members.getMemberByHubId account.id) rfl ?_
  unfold Members.getMemberByHubId
  cases hbound : world.members.find (MemberRow.boundTo account.id) with
  | some row =>
    apply Program.ends_done (.refl world)
    apply hcurrent
    simp [World.currentName, hknown, hbound, hubMemberRow]
  | none =>
    refine ends_perform (world.members.findMemberForHubAccount account.accountHash account.name)
      rfl ?_
    unfold Members.findMemberForHubAccount
    cases hfound : world.members.findRow account.accountHash account.name with
    | some row =>
      have hrow : fold row.memberName ≠ fold name := by
        apply hcurrent
        simp [World.currentName, hknown, hbound, hfound]
      refine ends_statement id rfl (.refl world) fun members hbind ↦ ?_
      exact Program.ends_done ((Apart.refl world).of_rows (sameRows_bindHubAccount hbind)) hrow
    | none =>
      refine ends_statement id rfl (.refl world) fun added hadd ↦ ?_
      have hadded := (Apart.refl world).of_rows (sameRows_ensureMemberExists hname hadd)
      refine ends_statement id rfl hadded fun members hbind ↦ ?_
      exact Program.ends_done (hadded.of_rows (sameRows_bindHubAccount hbind)) hname

theorem leavesAlone_knownAccount (h : Foreign name world account) :
    LeavesAlone name world (knownAccount account) world := by
  unfold knownAccount
  refine ends_perform (world.known account.id) rfl ?_
  cases hknown : world.known account.id with
  | some known =>
    apply Program.ends_done (.refl world)
    apply h.2
    simp [World.currentName, hknown]
  | none =>
    refine (leavesAlone_resolveMember h hknown).bind fun known after hapart hname ↦ ?_
    refine ends_perform () rfl ?_
    dsimp only
    split_ifs
    all_goals
      refine ends_perform () rfl ?_
      refine ends_perform () rfl ?_
      refine Program.ends_done (Apart.setKnown ?_ hname account.id) hname
      exact (hapart.of_directory _).of_directory _

theorem leavesAlone_followName (hname : fold account.name ≠ fold name) (hapart : Apart name before world)
    (hknown : fold known.memberName ≠ fold name) :
    LeavesAlone name before (followName account known) world := by
  unfold followName
  split_ifs with hsame
  · exact Program.ends_done hapart hknown
  · have hfollow : (followRename account known.memberName).Ends exec (Apart name before)
        (fun current _ ↦ fold current ≠ fold name) world := by
      unfold followRename
      refine ends_perform (world.members.findMemberForHubAccount none account.name) rfl ?_
      split
      · next row htaken =>
        have hrow : fold row.memberName ≠ fold name := by
          obtain ⟨hfound, -⟩ := Option.filter_eq_some_iff.mp htaken
          obtain ⟨found, hfind, rfl⟩ := Option.map_eq_some_iff.mp hfound
          have hnamed := (Table.mem_of_find hfind).2
          dsimp only [hubMemberRow]
          rwa [Members.named_eq_true.mp hnamed]
        refine ends_statement id rfl hapart fun members hbind ↦ ?_
        exact Program.ends_done (hapart.of_rows (sameRows_bindHubAccount hbind)) hrow
      · refine ends_statement id rfl hapart fun members hrename ↦ ?_
        exact Program.ends_done (hapart.of_rows (sameRows_renameHubMember hknown hname hrename)) hname
    refine hfollow.bind fun current after hafter hcurrent ↦ ?_
    refine ends_perform () rfl ?_
    refine ends_perform () rfl ?_
    refine ends_perform () rfl ?_
    refine Program.ends_done (Apart.setKnown (Apart.of_directory (Apart.setKnown hafter ?_ _) _) ?_ _)
      hcurrent
    · exact hcurrent
    · exact hcurrent

theorem leavesAlone_sendSections (hapart : Apart name before world)
    (hknown : fold known.memberName ≠ fold name) :
    LeavesAlone name before (sendSections account known) world := by
  unfold sendSections
  dsimp only
  split_ifs
  · exact Program.ends_done hapart hknown
  · refine ends_perform () rfl ?_
    refine ends_perform () rfl ?_
    refine Program.ends_done (Apart.setKnown (Apart.send hapart ?_ account.id) ?_ account.id) hknown
    · exact hknown
    · exact hknown

theorem apart_writePresence (hapart : Apart name before world)
    (hknown : fold known.memberName ≠ fold name) :
    (writePresence account known).Ends exec (Apart name before) (fun _ _ ↦ True) world := by
  unfold writePresence
  refine ends_perform world.clock rfl ?_
  dsimp only
  split_ifs
  · refine ends_statement id rfl hapart fun members hset ↦ ?_
    refine ends_perform world.clock rfl ?_
    refine ends_perform () rfl ?_
    refine Program.ends_done (Apart.setKnown ?_ ?_ account.id) trivial
    · exact hapart.of_rows (sameRows_setHubPresence hset)
    · exact hknown
  · exact Program.ends_done hapart trivial

/-- The turn of an account that neither has a member's name nor goes by it leaves the member alone. -/
theorem apart_processAccount (h : Foreign name world account) :
    Apart name world (world.processAccount account) := by
  have hends : (Sync.processAccount account).Ends exec (Apart name world) (fun _ _ ↦ True) world := by
    unfold Sync.processAccount
    split_ifs
    · exact Program.ends_done (.refl world) trivial
    · refine (leavesAlone_knownAccount h).bind fun known first hfirst hknown ↦ ?_
      split_ifs
      · exact Program.ends_done hfirst trivial
      · refine ends_perform () rfl ?_
        have hshared := hfirst.of_directory
          (first.directory.setSharesHiscores account.id (account.categories.contains "hiscores"))
        refine (leavesAlone_followName h.1 hshared hknown).bind fun known second hsecond hknown ↦ ?_
        refine (leavesAlone_sendSections hsecond hknown).bind fun known third hthird hknown ↦ ?_
        exact apart_writePresence hthird hknown
  exact hends.1

end Apart

end OsrsMap.Sync
