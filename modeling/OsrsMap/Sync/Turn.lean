import OsrsMap.Library.Run
import OsrsMap.Sync.Entries

/-!
# The turn of an account

Which rows an account takes when it is processed, from others or from nobody, and what becomes of
everybody's rows then.
-/

namespace OsrsMap.Sync

/-! ## The rows an account takes -/

namespace World

variable (world : World) (account : HubAccount)

/-- The row an account that is new to the sync takes over. -/
def takesOver : Option MemberRow :=
  if (world.known account.id).isNone ∧ (world.members.find (MemberRow.boundTo account.id)).isNone then
    world.members.findRow account.accountHash account.name
  else none

/-- The name an account goes by before it follows a rename. -/
def currentName : Option String :=
  match world.known account.id with
  | some known => some known.memberName
  | none =>
    ((world.members.find (MemberRow.boundTo account.id)).or
      (world.members.findRow account.accountHash account.name)).map (·.memberName)

/-- The row with an account's name that it moves onto, being known by another one. -/
def movesTo : Option MemberRow :=
  (world.currentName account).bind fun current ↦
    (world.members.find (MemberRow.named account.name)).filter
      fun row ↦ fold row.memberName ≠ fold current

def taken : List MemberRow := (world.takesOver account).toList ++ (world.movesTo account).toList

theorem mem_of_taken {world : World} {account : HubAccount} {row : MemberRow}
    (h : row ∈ world.taken account) : row ∈ world.members := by
  rw [taken, List.mem_append, Option.mem_toList, Option.mem_toList] at h
  obtain htakes | hmoves := h
  · unfold takesOver at htakes
    split_ifs at htakes
    exact Members.mem_of_findRow htakes
  · obtain ⟨current, -, hfind⟩ := Option.bind_eq_some_iff.mp hmoves
    exact (Table.mem_of_find (Option.filter_eq_some_iff.mp hfind).1).1

/-- The row an account leaves by moving onto another one. -/
def leaves : Option MemberRow :=
  if (world.movesTo account).isSome then
    (world.takesOver account).or (world.members.find (MemberRow.boundTo account.id))
  else none

/-- An account whose row was taken has another one to move onto. -/
def Settles : Prop :=
  (world.known account.id).isSome →
    (world.members.find (MemberRow.boundTo account.id)).isNone → (world.movesTo account).isSome

instance : Decidable (world.Settles account) := inferInstanceAs (Decidable (_ → _ → _))

/-- An account whose row was taken does not rename the row that has its old name by now. -/
def RenamesOwn : Prop :=
  ∀ known ∈ world.known account.id,
    (world.members.find (MemberRow.boundTo account.id)).isNone →
      (world.movesTo account).isSome ∨ known.memberName = account.name ∨
        (world.members.find (MemberRow.named known.memberName)).isNone

instance : Decidable (world.RenamesOwn account) :=
  inferInstanceAs (Decidable (∀ known ∈ world.known account.id, _ → _ ∨ _ ∨ _))

theorem Settles.renamesOwn {world : World} {account : HubAccount} (h : world.Settles account) :
    world.RenamesOwn account := by
  intro known hknown hfree
  exact .inl (h (by simp [Option.mem_def.mp hknown]) hfree)

end World

section Effect

variable {world world' : World} {account : HubAccount}

/-- Whose row has a name, and which name its row has, is one question. -/
theorem holds_row {row : MemberRow} (hrow : row ∈ world.members) {id name : String}
    (h : Holds world.members.entries id name) :
    fold name ≠ fold row.memberName ↔ row.hubAccountId ≠ some id := by
  obtain ⟨entry, hentry, hid, rfl⟩ := h
  rw [not_iff_not]
  constructor
  · intro hname
    rw [entry_eq_of_name hentry (mem_entries hrow) hname] at hid
    exact hid
  · intro hbound
    rw [entry_eq_of_account hentry (mem_entries hrow) hid hbound]
    rfl

/-- What an account's row is before it follows its name. -/
structure AtRow (world : World) (account : HubAccount) (name : String) (entries : Set Entry) :
    Prop where
  current : world.currentName account = some name ∨
    world.currentName account = none ∧ name = account.name
  only : ∀ other, Holds entries account.id other → other = name
  self : (∀ known, world.known account.id = some known →
      (world.members.find (MemberRow.boundTo account.id)).isSome) → Holds entries account.id name
  others : ∀ id ≠ account.id, ∀ other, Holds entries id other ↔
    Holds world.members.entries id other ∧
      ∀ row ∈ world.takesOver account, row.hubAccountId ≠ some id
  loose : ∀ entry ∈ entries, entry.account = none → entry ∈ world.members.entries ∧
    ∀ row ∈ world.takesOver account, fold row.memberName ≠ fold entry.name
  bound : name ≠ account.name → ∀ entry ∈ entries, entry.account = some account.id →
    (∃ row ∈ world.takesOver account, row.entry.name = entry.name) ∨
      world.takesOver account = none ∧ entry ∈ world.members.entries
  names : name ≠ account.name → ∀ other, (∃ entry ∈ entries, entry.name = other) ↔
    ∃ row ∈ world.members, row.memberName = other

theorem takesOver_of_known {known : KnownAccount} (h : world.known account.id = some known) :
    world.takesOver account = none := by
  simp [World.takesOver, h]

theorem takesOver_of_bound {row : MemberRow} (hrow : row ∈ world.members)
    (h : row.hubAccountId = some account.id) : world.takesOver account = none := by
  have hfind := Table.find_of_key (fun _ ↦ Members.boundTo_iff) hrow
    (Members.boundTo_iff.mp (Members.boundTo_eq_true.mpr h))
  simp [World.takesOver, hfind]

theorem find_boundTo_none {members : Members} {id : String} (h : Unbound members id) :
    members.find (MemberRow.boundTo id) = none := by
  by_contra hsome
  obtain ⟨row, hrow⟩ := Option.ne_none_iff_exists'.mp hsome
  obtain ⟨hmem, hid⟩ := Table.mem_of_find hrow
  exact h row hmem (Members.boundTo_eq_true.mp hid)

theorem takesOver_of_unbound (hknown : world.known account.id = none)
    (h : Unbound world.members account.id) :
    world.takesOver account = world.members.findRow account.accountHash account.name := by
  simp [World.takesOver, hknown, find_boundTo_none h]

/-- An account the sync knows. -/
theorem atRow_known {known : KnownAccount} (hknown : world.known account.id = some known)
    (hname : ∀ other, Holds world.members.entries account.id other → other = known.memberName) :
    AtRow world account known.memberName world.members.entries where
  current := .inl (by simp [World.currentName, hknown])
  only := hname
  self hbound := by
    obtain ⟨row, hrow⟩ := Option.isSome_iff_exists.mp (hbound known hknown)
    obtain ⟨hmem, hid⟩ := Table.mem_of_find hrow
    have hholds : Holds world.members.entries account.id row.memberName :=
      ⟨row.entry, mem_entries hmem, Members.boundTo_eq_true.mp hid, rfl⟩
    rwa [← hname _ hholds]
  others := by simp [takesOver_of_known hknown]
  loose := by simp +contextual [takesOver_of_known hknown]
  bound _ _ hentry _ := .inr ⟨takesOver_of_known hknown, hentry⟩
  names _ _ := by simp [Members.entries]

/-- An account that is new to the sync and has a row. -/
theorem atRow_bound {row : MemberRow} (hknown : world.known account.id = none)
    (hrow : row ∈ world.members) (hid : row.hubAccountId = some account.id) :
    AtRow world account row.memberName world.members.entries := by
  have htakes := takesOver_of_bound hrow hid
  have hholds : Holds world.members.entries account.id row.memberName :=
    ⟨row.entry, mem_entries hrow, hid, rfl⟩
  have hfind := Table.find_of_key (fun _ ↦ Members.boundTo_iff) hrow
    (Members.boundTo_iff.mp (Members.boundTo_eq_true.mpr hid))
  constructor
  · exact .inl (by simp [World.currentName, hknown, hfind])
  · exact fun _ h ↦ h.unique hholds
  · exact fun _ ↦ hholds
  · simp [htakes]
  · simp +contextual [htakes]
  · exact fun _ _ hentry _ ↦ .inr ⟨htakes, hentry⟩
  · exact fun _ _ ↦ by simp [Members.entries]

/-- Whoever has no account after a row was bound had none before, and is not that row. -/
theorem loose_bindEntry {row : MemberRow} {id : String} (hfree : Unbound world.members id) {entry : Entry}
    (hentry : entry ∈ bindEntry row.memberName id '' world.members.entries)
    (hloose : entry.account = none) :
    entry ∈ world.members.entries ∧ fold row.memberName ≠ fold entry.name := by
  obtain ⟨_, ⟨before, hbefore, rfl⟩, rfl⟩ := hentry
  by_cases hsame : fold before.memberName = fold row.memberName
  · simp [bindEntry, hsame] at hloose
  · have hkeep : bindEntry row.memberName id before.entry = before.entry := by
      rw [bindEntry, if_neg (by simpa using hsame), if_neg (by simpa using hfree before hbefore)]
    rw [hkeep]
    exact ⟨mem_entries hbefore, Ne.symm hsame⟩

/-- An account that takes over a row. -/
theorem atRow_takenOver {row : MemberRow} (hknown : world.known account.id = none)
    (hfree : Unbound world.members account.id)
    (hfind : world.members.findRow account.accountHash account.name = some row) :
    AtRow world account row.memberName
      (bindEntry row.memberName account.id '' world.members.entries) := by
  have hrow := Members.mem_of_findRow hfind
  have htakes := takesOver_of_unbound hknown hfree
  rw [hfind] at htakes
  have hname (entry : Entry) : (bindEntry row.memberName account.id entry).name = entry.name := by
    unfold bindEntry
    split_ifs <;> rfl
  constructor
  · exact .inl (by simp [World.currentName, hknown, find_boundTo_none hfree, hfind])
  · exact fun _ h ↦ (holds_bind_self (mem_entries hrow)).mp h
  · exact fun _ ↦ (holds_bind_self (mem_entries hrow)).mpr rfl
  · intro id hne other
    rw [holds_bind_other hne, htakes]
    simp only [Option.mem_some_iff, forall_eq']
    exact and_congr_right fun h ↦ holds_row hrow h
  · intro entry hentry hloose
    rw [htakes]
    simp only [Option.mem_some_iff, forall_eq']
    exact loose_bindEntry hfree hentry hloose
  · intro _ entry hentry hid
    refine .inl ⟨row, htakes, ?_⟩
    exact ((holds_bind_self (mem_entries hrow)).mp ⟨entry, hentry, hid, rfl⟩).symm
  · intro _ other
    constructor
    · rintro ⟨_, ⟨before, ⟨row', hrow', rfl⟩, rfl⟩, rfl⟩
      exact ⟨row', hrow', (hname row'.entry).symm⟩
    · rintro ⟨row', hrow', rfl⟩
      exact ⟨_, ⟨row'.entry, mem_entries hrow', rfl⟩, hname row'.entry⟩

/-- An account that a row is made for. -/
theorem atRow_created (hknown : world.known account.id = none) (hfree : Unbound world.members account.id)
    (hfind : world.members.findRow account.accountHash account.name = none) :
    AtRow world account account.name
      (insert ⟨account.name, some account.id, true⟩ world.members.entries) := by
  have htakes := takesOver_of_unbound hknown hfree
  rw [hfind] at htakes
  constructor
  · exact .inr ⟨by simp [World.currentName, hknown, find_boundTo_none hfree, hfind], rfl⟩
  · rintro other ⟨entry, rfl | hentry, hid, rfl⟩
    · rfl
    · obtain ⟨row, hrow, rfl⟩ := hentry
      exact absurd hid (hfree row hrow)
  · exact fun _ ↦ ⟨_, .inl rfl, rfl, rfl⟩
  · intro id hne other
    rw [htakes]
    simp only [reduceCtorEq, Option.mem_def, false_imp_iff, implies_true, and_true]
    constructor
    · rintro ⟨entry, rfl | hentry, hid, rfl⟩
      · exact absurd (Option.some.inj hid).symm hne
      · exact ⟨entry, hentry, hid, rfl⟩
    · rintro ⟨entry, hentry, hid, rfl⟩
      exact ⟨entry, .inr hentry, hid, rfl⟩
  · rintro entry (rfl | hentry) hloose
    · simp at hloose
    · exact ⟨hentry, by simp [htakes]⟩
  · exact fun h ↦ absurd rfl h
  · exact fun h ↦ absurd rfl h

theorem atRow_of_resolved {name : String} {members : Members}
    (h : Resolved world account name members.entries)
    (hname : ∀ known, world.known account.id = some known →
      ∀ other, Holds world.members.entries account.id other → other = known.memberName) :
    AtRow world account name members.entries := by
  generalize members.entries = entries at h
  cases h with
  | known known hknown => exact atRow_known hknown (hname known hknown)
  | bound row hknown hrow hid => exact atRow_bound hknown hrow hid
  | takenOver row hknown hfree hfind => exact atRow_takenOver hknown hfree hfind
  | created hknown hfree hfind => exact atRow_created hknown hfree hfind

theorem AtRow.movesTo {name : String} {entries : Set Entry} (h : AtRow world account name entries)
    (hname : name ≠ account.name) :
    world.movesTo account = (world.members.find (MemberRow.named account.name)).filter
      fun row ↦ fold row.memberName ≠ fold name := by
  obtain hcurrent | ⟨-, heq⟩ := h.current
  · simp [World.movesTo, hcurrent]
  · exact absurd heq hname

/-- What becomes of everybody's rows in the turn of an account, which goes by `name` then. -/
structure RowsAfter (world : World) (account : HubAccount) (name : String) (entries : Set Entry) :
    Prop where
  only : ∀ other, Holds entries account.id other → other = name
  self : world.Settles account → Holds entries account.id name
  others : ∀ id ≠ account.id, ∀ other, Holds entries id other ↔
    Holds world.members.entries id other ∧
      ∀ row ∈ world.taken account, row.hubAccountId ≠ some id
  loose : ∀ entry ∈ entries, entry.account = none →
    entry ∈ world.members.entries ∧
        (∀ row ∈ world.taken account, fold row.memberName ≠ fold entry.name) ∨
      ∃ row ∈ world.leaves account, row.memberName = entry.name ∧
        (entry.shown = true → (world.takesOver account).isSome ∨ Members.onRoster row = true)
  name_eq : name = account.name ∨ ∃ row ∈ world.movesTo account, row.memberName = name

theorem taken_of_movesTo_none (h : world.movesTo account = none) :
    world.taken account = (world.takesOver account).toList := by
  simp [World.taken, h]

/-- An account that goes by its name already keeps its row. -/
theorem AtRow.rowsAfter_same {entries : Set Entry} (h : AtRow world account account.name entries) :
    RowsAfter world account account.name entries := by
  have hmoves : world.movesTo account = none := by
    obtain hcurrent | ⟨hcurrent, -⟩ := h.current
    · rw [World.movesTo, hcurrent, Option.bind_some, Option.filter_eq_none_iff]
      intro row hrow
      simpa using (Table.mem_of_find hrow).2
    · simp [World.movesTo, hcurrent]
  have htaken := taken_of_movesTo_none hmoves
  refine ⟨h.only, fun hsettles ↦ h.self fun known hknown ↦ ?_, fun id hne other ↦ ?_,
    fun entry hentry hloose ↦ .inl ?_, .inl rfl⟩
  · by_contra hfree
    have := hsettles (by simp [hknown]) (by simpa using hfree)
    simp [hmoves] at this
  · simpa [htaken] using h.others id hne other
  · simpa [htaken] using h.loose entry hentry hloose

/-- An account that moves onto another row leaves the one it had. -/
theorem AtRow.rowsAfter_moved {name : String} {members : Members} {entry : Entry}
    (h : AtRow world account name members.entries) (hentry : entry ∈ members.entries)
    (hname : fold entry.name = fold account.name) (hother : fold entry.name ≠ fold name) :
    RowsAfter world account entry.name (bindEntry entry.name account.id '' members.entries) := by
  have hne : name ≠ account.name := by
    rintro rfl
    exact hother hname
  obtain ⟨row, hrow, hrowname⟩ := (h.names hne entry.name).mp ⟨entry, hentry, rfl⟩
  have hmoves : world.movesTo account = some row := by
    rw [h.movesTo hne, Members.find_named_eq hrow (by rw [hrowname, hname])]
    simp [Option.filter, hrowname, hother]
  have htaken : world.taken account = (world.takesOver account).toList ++ [row] := by
    simp [World.taken, hmoves]
  refine ⟨fun other hholds ↦ (holds_bind_self hentry).mp hholds,
    fun _ ↦ (holds_bind_self hentry).mpr rfl, fun id hid other ↦ ?_, ?_, .inr ⟨row, hmoves, hrowname⟩⟩
  · rw [holds_bind_other hid, h.others id hid other, htaken, and_assoc]
    refine and_congr_right fun hholds ↦ ?_
    rw [← hrowname, holds_row hrow hholds]
    simp [or_imp, forall_and]
  · rintro _ ⟨before, hbefore, rfl⟩ hloose
    by_cases hsame : fold before.name = fold entry.name
    · simp [bindEntry, hsame] at hloose
    · by_cases hbound : before.account = some account.id
      · -- This is the row the account leaves.
        right
        have hafter : bindEntry entry.name account.id before = { before with account := none } := by
          rw [bindEntry, if_neg hsame, if_pos hbound]
        rw [hafter]
        obtain ⟨left, hleft, hleftname⟩ | ⟨hleft, left, hmem, rfl⟩ := h.bound hne before hbefore hbound
        · refine ⟨left, ?_, hleftname, fun _ ↦ .inl (by simp [Option.mem_def.mp hleft])⟩
          simp [World.leaves, hmoves, Option.mem_def.mp hleft]
        · refine ⟨left, ?_, rfl, fun hshown ↦ .inr hshown⟩
          have hfind := Table.find_of_key (fun _ ↦ Members.boundTo_iff) hmem
            (Members.boundTo_iff.mp (Members.boundTo_eq_true.mpr hbound))
          simp [World.leaves, hmoves, hleft, hfind]
      · have hkeep : bindEntry entry.name account.id before = before := by
          rw [bindEntry, if_neg hsame, if_neg hbound]
        rw [hkeep] at hloose ⊢
        obtain ⟨hmem, htakes⟩ := h.loose before hbefore hloose
        refine .inl ⟨hmem, fun other hother ↦ ?_⟩
        rw [htaken, List.mem_append, List.mem_singleton, Option.mem_toList] at hother
        obtain hother | rfl := hother
        · exact htakes other hother
        · rw [hrowname]
          exact Ne.symm hsame

/-- Nobody else has the name, so that there is nothing to move to. -/
theorem AtRow.movesTo_eq_none {name : String} {members : Members}
    (h : AtRow world account name members.entries) (hne : name ≠ account.name)
    (hfree : ∀ entry ∈ members.entries, fold entry.name = fold account.name →
      fold entry.name = fold name) : world.movesTo account = none := by
  rw [h.movesTo hne, Option.filter_eq_none_iff]
  intro row hfind
  obtain ⟨hrow, hnamed⟩ := Table.mem_of_find hfind
  obtain ⟨entry, hentry, hname⟩ := (h.names hne row.memberName).mpr ⟨row, hrow, rfl⟩
  have := hfree entry hentry (by rw [hname]; simpa using hnamed)
  simpa [hname] using this

/-- The account has the row that is renamed, or there is none. -/
theorem AtRow.holds_or_free {name : String} {members : Members}
    (h : AtRow world account name members.entries) (hne : name ≠ account.name)
    (hmoves : world.movesTo account = none) (hown : world.RenamesOwn account) :
    Holds members.entries account.id name ∨ ∀ entry ∈ members.entries, fold entry.name ≠ fold name := by
  by_cases hbound : ∀ known, world.known account.id = some known →
      (world.members.find (MemberRow.boundTo account.id)).isSome
  · exact .inl (h.self hbound)
  · right
    push Not at hbound
    obtain ⟨known, hknown, hunbound⟩ := hbound
    have hcurrent : known.memberName = name := by
      obtain hcurrent | ⟨hcurrent, -⟩ := h.current
      · simpa [World.currentName, hknown] using hcurrent
      · simp [World.currentName, hknown] at hcurrent
    have hnone := hown known hknown (by simpa using hunbound)
    simp only [hmoves, hcurrent, hne, Option.isSome_none, Bool.false_eq_true, false_or] at hnone
    intro entry hentry hname
    obtain ⟨row, hrow, hrowname⟩ := (h.names hne entry.name).mp ⟨entry, hentry, rfl⟩
    rw [Members.find_named_eq hrow (by rw [hrowname, hname])] at hnone
    simp at hnone

/-- A rename changes the account's own row and no other. -/
theorem AtRow.rowsAfter_renamed {name : String} {members : Members}
    (h : AtRow world account name members.entries) (hne : name ≠ account.name)
    (hfree : ∀ entry ∈ members.entries, fold entry.name = fold account.name →
      fold entry.name = fold name)
    (hown : world.RenamesOwn account) :
    RowsAfter world account account.name (renameEntry name account.name '' members.entries) := by
  have hmoves : world.movesTo account = none := h.movesTo_eq_none hne hfree
  have htaken := taken_of_movesTo_none hmoves
  have hself := h.holds_or_free hne hmoves hown
  refine ⟨fun other hholds ↦ ?_, fun hsettles ↦ ?_, fun id hid other ↦ ?_, ?_, .inl rfl⟩
  · obtain ⟨_, ⟨before, hbefore, rfl⟩, hbound, rfl⟩ := hholds
    have hbefore' : before.account = some account.id := by
      unfold renameEntry at hbound
      split_ifs at hbound <;> exact hbound
    rw [renameEntry, if_pos (congrArg fold (h.only before.name ⟨before, hbefore, hbefore', rfl⟩))]
  · have hholds := h.self fun known hknown ↦ by
      by_contra hunbound
      have := hsettles (by simp [hknown]) (by simpa using hunbound)
      simp [hmoves] at this
    exact (holds_rename_self hholds).mpr rfl
  · have hothers := h.others id hid other
    simp only [Option.mem_def] at hothers
    simp only [htaken, Option.mem_toList]
    rw [← hothers]
    obtain hholds | hnone := hself
    · exact holds_rename_other hholds hid
    · rw [Set.image_congr fun entry hentry ↦ show renameEntry name account.name entry = entry from
        if_neg (hnone entry hentry), Set.image_id']
  · rintro _ ⟨before, hbefore, rfl⟩ hloose
    have hloose' : before.account = none := by
      unfold renameEntry at hloose
      split_ifs at hloose <;> exact hloose
    have hkeep : renameEntry name account.name before = before := by
      refine if_neg fun hname ↦ ?_
      obtain ⟨entry, hentry, hid, hentryname⟩ | hnone := hself
      · rw [entry_eq_of_name hbefore hentry (by rw [hname, hentryname]), hid] at hloose'
        exact absurd hloose' (by simp)
      · exact hnone before hbefore hname
    rw [hkeep, htaken]
    simpa using Or.inl (h.loose before hbefore hloose')

/-- What comes of the turn of an account, which is known by `name` then. -/
structure Effect (world : World) (account : HubAccount) (world' : World) (name : String) : Prop where
  known : ∃ known : KnownAccount, known.memberName = name ∧ known.hidden = false ∧
    world'.known = Function.update world.known account.id (some known)
  noneHidden : NoneHidden world'.members
  rows : RowsAfter world account name world'.members.entries

theorem effect (hvalid : validName account.name = true) (hnone : NoneHidden world.members)
    (hshown : ∀ known, world.known account.id = some known → known.hidden = false)
    (hname : ∀ known, world.known account.id = some known →
      ∀ other, Holds world.members.entries account.id other → other = known.memberName)
    (hown : world.RenamesOwn account) :
    ∃ name, Effect world account (world.processAccount account) name := by
  obtain ⟨⟨name, members, known, hresolved, hfollowed, hhidden, hknown⟩, hnone'⟩ :=
    processed hvalid hnone hshown
  have hrow := atRow_of_resolved hresolved hname
  refine ⟨known.memberName, ⟨known, rfl, hhidden, hknown⟩, hnone', ?_⟩
  generalize (world.processAccount account).members.entries = entries at hfollowed
  generalize known.memberName = followed at hfollowed
  cases hfollowed with
  | same => exact hrow.rowsAfter_same
  | moved entry hentry hname hother => exact hrow.rowsAfter_moved hentry hname hother
  | renamed hne hfree => exact hrow.rowsAfter_renamed hne hfree hown

end Effect

/-! ## Snapshots -/

/-- An answer of the hub's, and when it is processed. -/
structure Snapshot where
  accounts : List HubAccount
  full : Bool
  clock : ℤ
  ids_nodup : (accounts.map (·.id)).Nodup

/-- Nothing is known, and nobody is a member. -/
def World.start : World where
  members := Table.empty
  directory := HubDirectory.load Table.empty
  control := []
  known _ := none
  outbox := []
  clock := 0

/-- `process` of a snapshot. -/
def World.take (world : World) (snapshot : Snapshot) : World :=
  { world with clock := snapshot.clock }.process snapshot.accounts snapshot.full

/-- The accounts of a snapshot that had their turn, those whose turn is to come, and what came of
it so far. -/
structure Turn where
  done : List HubAccount
  rest : List HubAccount
  world : World

def Turn.next (turn : Turn) (account : HubAccount) : Turn where
  done := turn.done ++ [account]
  rest := turn.rest.tail
  world := turn.world.processAccount account

def Snapshot.start (snapshot : Snapshot) (world : World) : Turn where
  done := []
  rest := snapshot.accounts
  world := { world with clock := snapshot.clock }

/-- What a world is when all accounts of a snapshot had their turn. -/
def Snapshot.turned (snapshot : Snapshot) (world : World) : World :=
  snapshot.accounts.foldl World.processAccount (snapshot.start world).world

theorem World.take_eq (world : World) (snapshot : Snapshot) : world.take snapshot =
    if snapshot.full then (snapshot.turned world).finishFull snapshot.accounts
    else snapshot.turned world := rfl

/-- The accounts of a snapshot have a turn each. -/
theorem Snapshot.fresh {snapshot : Snapshot} {done rest : List HubAccount} {account : HubAccount}
    (h : snapshot.accounts = done ++ account :: rest) : account.id ∉ done.map (·.id) := by
  have hnodup := snapshot.ids_nodup
  rw [h, List.map_append, List.map_cons, List.nodup_append] at hnodup
  exact fun hmem ↦ hnodup.2.2 _ hmem _ (by simp) rfl

/-- What a rule for the turns of a snapshot says of a whole one. -/
theorem turns_of_along {snapshot : Snapshot} {fair : Turn → HubAccount → Prop} {P : Turn → Prop}
    {world : World} (hstart : P (snapshot.start world))
    (hnext : ∀ turn account, P turn → snapshot.accounts = turn.done ++ turn.rest →
      turn.rest.head? = some account → fair turn account → P (turn.next account))
    (h : Run.Along Turn.next fair (snapshot.start world) snapshot.accounts) :
    P { done := snapshot.accounts, rest := [], world := snapshot.turned world } := by
  have hrest : ∀ (rest : List HubAccount) (turn : Turn), turn.rest = rest →
      snapshot.accounts = turn.done ++ turn.rest → Run.Along Turn.next fair turn rest → P turn →
        P { done := snapshot.accounts
            rest := []
            world := rest.foldl World.processAccount turn.world } := by
    intro rest
    induction rest with
    | nil =>
      rintro ⟨done, rest, world⟩ rfl hsplit - hturn
      rw [hsplit, List.append_nil]
      exact hturn
    | cons account rest ih =>
      intro turn hturn hsplit hfair hP
      refine ih (turn.next account) (by simp [Turn.next, hturn]) ?_ hfair.2 ?_
      · simp [Turn.next, hsplit, hturn]
      · exact hnext turn account hP hsplit (by simp [hturn]) hfair.1
  exact hrest snapshot.accounts _ rfl rfl h hstart

/-! ## What holds all along -/

/-- Nobody is hidden, and a row that is bound to a known account has the name it is known by. -/
structure Sound (world : World) : Prop where
  noneHidden : NoneHidden world.members
  shown : ∀ id known, world.known id = some known → known.hidden = false
  names : ∀ id known, world.known id = some known →
    ∀ name, Holds world.members.entries id name → name = known.memberName

section Sound

variable {world world' : World} {account : HubAccount} {name : String}

theorem sound_start : Sound World.start where
  noneHidden := by simp [NoneHidden, World.start]
  shown := by simp [World.start]
  names := by simp [World.start]

theorem Sound.effect (h : Sound world) (hvalid : validName account.name = true)
    (hown : world.RenamesOwn account) :
    ∃ name, Effect world account (world.processAccount account) name :=
  Sync.effect hvalid h.noneHidden (h.shown account.id) (h.names account.id) hown

theorem Effect.known_self (h : Effect world account world' name) :
    ∃ known, world'.known account.id = some known ∧ known.memberName = name := by
  obtain ⟨known, hname, -, hknown⟩ := h.known
  exact ⟨known, by rw [hknown, Function.update_self], hname⟩

theorem Effect.known_other (h : Effect world account world' name) {id : String}
    (hne : id ≠ account.id) : world'.known id = world.known id := by
  obtain ⟨known, -, -, hknown⟩ := h.known
  rw [hknown, Function.update_of_ne hne]

theorem Effect.sound (h : Effect world account world' name) (hsound : Sound world) :
    Sound world' := by
  obtain ⟨known, hname, hhidden, hknown⟩ := h.known
  refine ⟨h.noneHidden, fun id other hother ↦ ?_, fun id other hother held hheld ↦ ?_⟩
  · by_cases hid : id = account.id
    · rw [hknown, hid, Function.update_self] at hother
      rwa [← Option.some.inj hother]
    · rw [h.known_other hid] at hother
      exact hsound.shown id other hother
  · by_cases hid : id = account.id
    · rw [hknown, hid, Function.update_self] at hother
      rw [← Option.some.inj hother, hname]
      exact h.rows.only held (hid ▸ hheld)
    · rw [h.known_other hid] at hother
      exact hsound.names id other hother held ((h.rows.others id hid held).mp hheld).1

/-- An account with a name the map cannot store is passed over. -/
theorem processAccount_of_invalid (h : validName account.name = false) :
    world.processAccount account = world := by
  simp [World.processAccount, Sync.processAccount, h]

theorem Sound.processAccount (h : Sound world)
    (hown : validName account.name = true → world.RenamesOwn account) :
    Sound (world.processAccount account) := by
  cases hvalid : validName account.name with
  | true =>
    obtain ⟨name, heffect⟩ := h.effect hvalid (hown hvalid)
    exact heffect.sound h
  | false => rwa [processAccount_of_invalid hvalid]

/-- An account that moves onto rows of its own name only goes by its name then. -/
theorem Sound.effect_named (h : Sound world) (hvalid : validName account.name = true)
    (hown : world.RenamesOwn account)
    (hmoves : ∀ row ∈ world.movesTo account, row.memberName = account.name) :
    Effect world account (world.processAccount account) account.name := by
  obtain ⟨name, heffect⟩ := h.effect hvalid hown
  have hname : name = account.name := by
    obtain hname | ⟨row, hrow, hname⟩ := heffect.rows.name_eq
    · exact hname
    · rw [← hname, hmoves row hrow]
  rwa [hname] at heffect

/-- Who had a turn keeps its row in the turn of an account that takes no row of theirs, and the account
has its own then. -/
theorem Effect.holds_next {turn : Turn}
    (h : Effect turn.world account (turn.world.processAccount account) account.name)
    (hnew : account.id ∉ turn.done.map (·.id)) (hsettles : turn.world.Settles account)
    (htaken : ∀ row ∈ turn.world.taken account, ∀ id, row.hubAccountId = some id →
      id ∉ turn.done.map (·.id)) {other : HubAccount} (hother : other ∈ (turn.next account).done)
    (hheld : other ∈ turn.done → Holds turn.world.members.entries other.id other.name) :
    Holds (turn.next account).world.members.entries other.id other.name := by
  obtain hdone | hself := List.mem_append.mp hother
  · have hmem : other.id ∈ turn.done.map (·.id) := List.mem_map_of_mem hdone
    have hne : other.id ≠ account.id := fun heq ↦ hnew (heq ▸ hmem)
    exact (h.rows.others _ hne _).mpr
      ⟨hheld hdone, fun row hrow hid ↦ htaken row hrow other.id hid hmem⟩
  · rw [List.mem_singleton.mp hself]
    exact h.rows.self hsettles

/-- What a full snapshot ends with leaves names and bindings alone. -/
theorem finishFull_members (accounts : List HubAccount) {row : MemberRow} :
    row ∈ (world.finishFull accounts).members ↔ ∃ before ∈ world.members,
      Members.markRow (accounts.map (·.id)) world.clock before = row := by
  obtain ⟨members, hmark⟩ := Members.exists_markHubOrphans world.members (accounts.map (·.id))
    world.clock
  unfold World.finishFull
  dsimp only
  rw [hmark]
  exact Members.mem_markHubOrphans hmark

theorem holds_finishFull (accounts : List HubAccount) {id : String} :
    Holds (world.finishFull accounts).members.entries id name ↔
      Holds world.members.entries id name := by
  constructor
  · rintro ⟨_, ⟨row, hrow, rfl⟩, hid, hname⟩
    obtain ⟨before, hbefore, rfl⟩ := (finishFull_members accounts).mp hrow
    simp only [entry_account, entry_name, Members.markRow_hubAccountId,
      Members.markRow_memberName] at hid hname
    exact ⟨before.entry, mem_entries hbefore, hid, hname⟩
  · rintro ⟨_, ⟨before, hbefore, rfl⟩, hid, rfl⟩
    exact ⟨_, mem_entries ((finishFull_members accounts).mpr ⟨before, hbefore, rfl⟩), by simpa, by simp⟩

theorem known_finishFull {accounts : List HubAccount} {id : String} {known : KnownAccount} :
    (world.finishFull accounts).known id = some known ↔
      id ∈ accounts.map (·.id) ∧ world.known id = some known := by
  unfold World.finishFull
  dsimp only
  split_ifs with h <;> simp [h]

theorem Sound.finishFull (h : Sound world) (accounts : List HubAccount) :
    Sound (world.finishFull accounts) := by
  refine ⟨fun row hrow ↦ ?_, fun id known hknown ↦ ?_, fun id known hknown held hheld ↦ ?_⟩
  · obtain ⟨before, hbefore, rfl⟩ := (finishFull_members accounts).mp hrow
    rw [Members.markRow_hidden]
    exact h.noneHidden before hbefore
  · exact h.shown id known (known_finishFull.mp hknown).2
  · exact h.names id known (known_finishFull.mp hknown).2 held ((holds_finishFull accounts).mp hheld)

end Sound

end OsrsMap.Sync
