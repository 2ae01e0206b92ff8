import OsrsMap.Sync.Mirror

/-!
# What the sync does not read

The sync and the batcher share the members table, but no statement of the sync reads or writes a data
column, and the batcher writes nothing else: on tables that differ in their data columns only, the
sync does the same.
-/

namespace OsrsMap.Sync

/-- A row without its data. -/
def MemberRow.bare (row : MemberRow) : MemberRow :=
  { row with column := (newRow row.memberName).column }

theorem keys_bare (row : MemberRow) : row.bare.keys = row.keys := rfl

def Members.bare (members : Members) : Members := members.map keys_bare

def World.bare (world : World) : World := { world with members := world.members.bare }

/-! ## Statements -/

namespace Members

variable {members : Members} {name id : String} {accountHash : Option String} {now : ℤ}

theorem find_bare {p : MemberRow → Bool} (hp : ∀ row : MemberRow, p row.bare = p row) :
    members.bare.find p = (members.find p).map MemberRow.bare :=
  Table.find_map keys_bare hp

theorem update_bare {p : MemberRow → Bool} {f : MemberRow → MemberRow}
    (hp : ∀ row : MemberRow, p row.bare = p row) (hf : ∀ row : MemberRow, f row.bare = (f row).bare) :
    members.bare.update p f = (members.update p f).map bare :=
  Table.update_map keys_bare hp hf

theorem getMemberByHubId_bare (members : Members) (id : String) :
    members.bare.getMemberByHubId id = members.getMemberByHubId id := by
  rw [getMemberByHubId, find_bare fun _ ↦ rfl, Option.map_map]
  rfl

theorem findRow_bare (members : Members) (accountHash : Option String) (name : String) :
    members.bare.findRow accountHash name = (members.findRow accountHash name).map MemberRow.bare := by
  have hhash (hash : String) : members.bare.find (fun row ↦ row.accountHash = some hash) =
      (members.find fun row ↦ row.accountHash = some hash).map MemberRow.bare :=
    find_bare fun _ ↦ rfl
  have hname : members.bare.find (MemberRow.named name) =
      (members.find (MemberRow.named name)).map MemberRow.bare := find_bare fun _ ↦ rfl
  cases accountHash with
  | none => exact hname
  | some hash =>
    rw [findRow, findRow, Option.bind_some, Option.bind_some, hhash, hname, Option.map_or]

theorem findMemberForHubAccount_bare (members : Members) (accountHash : Option String)
    (name : String) : members.bare.findMemberForHubAccount accountHash name =
      members.findMemberForHubAccount accountHash name := by
  rw [findMemberForHubAccount, findRow_bare, Option.map_map]
  rfl

theorem ensureMemberExists_bare (members : Members) (name : String) :
    members.bare.ensureMemberExists name = (members.ensureMemberExists name).map bare := by
  unfold ensureMemberExists
  rw [find_bare fun _ ↦ rfl]
  cases members.find (MemberRow.named name) with
  | some row => rfl
  | none => exact Table.insert_map keys_bare rfl

theorem bindHubAccount_bare (members : Members) (name id : String) (accountHash : Option String) :
    members.bare.bindHubAccount name id accountHash =
      (members.bindHubAccount name id accountHash).map bare := by
  unfold bindHubAccount
  rw [update_bare (by exact fun _ ↦ rfl) (by exact fun _ ↦ rfl), Option.map_bind, Option.bind_map]
  congr 1
  funext cleared
  exact update_bare (fun _ ↦ rfl) fun _ ↦ rfl

theorem markHubOrphans_bare (members : Members) (visible : List String) (now : ℤ) :
    members.bare.markHubOrphans visible now = (members.markHubOrphans visible now).map bare := by
  unfold markHubOrphans clearHubOrphans
  rw [update_bare (by exact fun _ ↦ rfl) (by exact fun _ ↦ rfl), Option.map_bind, Option.bind_map]
  congr 1
  funext cleared
  exact update_bare (fun _ ↦ rfl) fun _ ↦ rfl

end Members

/-! ## Operations -/

/-- No operation of the sync depends on the data columns. -/
theorem exec_bare (op : Op) (world : World) :
    exec op world.bare = (exec op world).map fun done ↦ (done.1, done.2.bare) := by
  cases op with
  | getMemberByHubId id =>
    dsimp only [exec, World.bare, Option.map_some]
    rw [Members.getMemberByHubId_bare]
  | findMemberForHubAccount accountHash name =>
    dsimp only [exec, World.bare, Option.map_some]
    rw [Members.findMemberForHubAccount_bare]
  | ensureMemberExists name =>
    dsimp only [exec, World.bare]
    rw [Members.ensureMemberExists_bare, Option.map_map, Option.map_map]
    rfl
  | bindHubAccount name id accountHash =>
    dsimp only [exec, World.bare]
    rw [Members.bindHubAccount_bare, Option.map_map, Option.map_map]
    rfl
  | renameHubMember original new =>
    dsimp only [exec, World.bare, Members.renameHubMember]
    rw [Members.update_bare (by exact fun _ ↦ rfl) (by exact fun _ ↦ rfl), Option.map_map, Option.map_map]
    rfl
  | setHubPresence name online lastSeen =>
    dsimp only [exec, World.bare, Members.setHubPresence]
    rw [Members.update_bare (by exact fun _ ↦ rfl) (by exact fun _ ↦ rfl), Option.map_map, Option.map_map]
    rfl
  | _ => rfl

theorem processAccount_bare (world : World) (account : HubAccount) :
    world.bare.processAccount account = (world.processAccount account).bare :=
  congrArg Prod.snd (Program.run_map exec_bare (processAccount account) world)

theorem finishFull_bare (world : World) (accounts : List HubAccount) :
    world.bare.finishFull accounts = (world.finishFull accounts).bare := by
  unfold World.finishFull
  dsimp only [World.bare]
  rw [Members.markHubOrphans_bare]
  cases world.members.markHubOrphans (accounts.map (·.id)) world.clock <;> rfl

/-! ## Who has a turn -/

section Turn

variable {world : World} {account : HubAccount}

/-- The row an account is found by. -/
theorem foundRow_bare : (world.bare.members.find (MemberRow.boundTo account.id)).or
      (world.bare.members.findRow account.accountHash account.name) =
    ((world.members.find (MemberRow.boundTo account.id)).or
      (world.members.findRow account.accountHash account.name)).map MemberRow.bare := by
  dsimp only [World.bare]
  rw [Members.findRow_bare, Members.find_bare (by exact fun _ ↦ rfl), Option.map_or]

theorem currentName_bare : world.bare.currentName account = world.currentName account := by
  unfold World.currentName
  rw [foundRow_bare, Option.map_map]
  rfl

theorem plain_bare : Plain world.bare account ↔ Plain world account := by
  have hshown : (∀ row ∈ (world.bare.members.find (MemberRow.boundTo account.id)).or
        (world.bare.members.findRow account.accountHash account.name), row.hidden = false) ↔
      ∀ row ∈ (world.members.find (MemberRow.boundTo account.id)).or
        (world.members.findRow account.accountHash account.name), row.hidden = false := by
    rw [foundRow_bare]
    simp only [Option.mem_map, forall_exists_index, and_imp, forall_apply_eq_imp_iff₂]
    rfl
  have hname : world.bare.currentName account = world.currentName account := currentName_bare
  constructor
  · intro h
    exact ⟨hname ▸ h.named, fun hknown ↦ hshown.mp (h.shown hknown)⟩
  · intro h
    exact ⟨hname ▸ h.named, fun hknown ↦ hshown.mpr (h.shown hknown)⟩

theorem spares_bare {name : String} {event : MirrorEvent} :
    event.Spares name world.bare ↔ event.Spares name world := by
  cases event with
  | turn report =>
    unfold MirrorEvent.Spares Foreign
    dsimp only
    rw [currentName_bare, plain_bare]
  | _ => exact Iff.rfl

end Turn

/-- The batcher changes nothing else. -/
theorem storeChunk_bare {members members' : Members} {chunk : List MemberData} {now : ℤ}
    (h : members.storeChunk chunk now = some members') : members'.bare = members.bare := by
  apply Table.map_of_update keys_bare h
  intro row
  obtain ⟨column, hcolumn⟩ := assignOf_eq chunk now row
  rw [hcolumn]
  rfl

end OsrsMap.Sync
