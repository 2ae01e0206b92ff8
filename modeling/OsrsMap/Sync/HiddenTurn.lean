import OsrsMap.Sync.Poll
import Mathlib.Tactic.SplitIfs

/-!
# Who is hidden

That an admin hid a member stands in four places: its row, what the sync knows of the account, and
the directory's hidden accounts and bindings. A request writes the row and the directory and leaves
the member's name for the sync, which drops what it knows under that name when the next poll begins.
Until then it may be wrong about the member. What it knows under another name it must be right about.
-/

namespace OsrsMap.Sync

/-- The row of the account is hidden. -/
def HiddenRow (members : Members) (id : String) : Prop :=
  ∃ row ∈ members.rows, row.hubAccountId = some id ∧ row.hidden = true

instance (members : Members) (id : String) : Decidable (HiddenRow members id) :=
  inferInstanceAs (Decidable (∃ row ∈ members.rows, _ ∧ _))

/-- The directory has an account as hidden exactly when its row is, and has no name for it then. -/
structure FlagRight (world : World) (id : String) : Prop where
  flag : world.directory.isHidden id = true ↔ HiddenRow world.members id
  unbound : HiddenRow world.members id → world.directory.memberName id = none

instance (world : World) (id : String) : Decidable (FlagRight world id) :=
  decidable_of_iff ((world.directory.isHidden id = true ↔ HiddenRow world.members id) ∧
      (HiddenRow world.members id → world.directory.memberName id = none))
    ⟨fun h ↦ ⟨h.1, h.2⟩, fun h ↦ ⟨h.flag, h.unbound⟩⟩

/-! ## What the sync is right about -/

/-- What a program of the sync shares with the requests: `pending` are the names of the requests
that wrote to the database and have not left the name for the sync yet. -/
structure Scene where
  world : World
  pending : List String
  quiet : Bool

namespace Scene

def exec (op : Op) (scene : Scene) : Option (Answer op × Scene) :=
  (Sync.exec op scene.world).map fun (answer, world) ↦ (answer, { scene with world })

/-- What is known under the name will be dropped. -/
def Covers (scene : Scene) (name : String) : Prop :=
  fold name ∈ scene.pending ∨ fold name ∈ scene.world.control

instance (scene : Scene) (name : String) : Decidable (scene.Covers name) :=
  inferInstanceAs (Decidable (_ ∨ _))

/-- What the sync knows of an account is what the directory and its row say. -/
structure KnownRight (world : World) (id : String) (known : KnownAccount) : Prop where
  flag : world.directory.isHidden id = known.hidden
  row : HiddenRow world.members id ↔ known.hidden = true
  unbound : known.hidden = true → world.directory.memberName id = none

theorem KnownRight.flagRight {world : World} {id : String} {known : KnownAccount}
    (h : KnownRight world id known) : FlagRight world id where
  flag := by rw [h.flag, h.row]
  unbound hrow := h.unbound (h.row.mp hrow)

/-- The sync is right about what it knows under names that are not to be dropped, what was sent
since `mark` was sent for accounts that it knows as shown, and, while no request is under way, the
directory is right about the `unnamed` accounts. -/
structure Right (mark : ℕ) (unnamed : List String) (scene : Scene) : Prop where
  inverse : scene.world.directory.Inverse
  known : ∀ id known, scene.world.known id = some known → ¬ scene.Covers known.memberName →
    KnownRight scene.world id known
  sent : ∀ entry ∈ scene.world.outbox.drop mark,
    ∃ known, scene.world.known entry.1 = some known ∧ known.hidden = false
  unnamed : scene.quiet = true → ∀ id ∈ unnamed, FlagRight scene.world id

/-- What a step of a request may do as far as a program of the sync is concerned. -/
structure Others (scene scene' : Scene) : Prop where
  known : scene'.world.known = scene.world.known
  covers : ∀ name, scene.Covers name → scene'.Covers name
  kept : ∀ row ∈ scene.world.members, scene'.Covers row.memberName ∨ row ∈ scene'.world.members
  old : ∀ row ∈ scene'.world.members, ∃ before ∈ scene.world.members,
    before.memberName = row.memberName ∧ before.hubAccountId = row.hubAccountId
  hidden : ∀ id, scene'.world.directory.isHidden id = scene.world.directory.isHidden id ∨
    ∀ row ∈ scene'.world.members, row.hubAccountId = some id → scene'.Covers row.memberName
  unbound : ∀ id, scene.world.directory.memberName id = none →
    scene'.world.directory.memberName id = none

theorem Others.refl (scene : Scene) : Others scene scene where
  known := rfl
  covers _ h := h
  kept _ h := .inr h
  old row h := ⟨row, h, rfl, rfl⟩
  hidden _ := .inl rfl
  unbound _ h := h

theorem Others.trans {first second third : Scene} (h : Others first second)
    (h' : Others second third) : Others first third where
  known := h'.known.trans h.known
  covers name hname := h'.covers name (h.covers name hname)
  kept row hrow := by
    obtain hcovers | hrow := h.kept row hrow
    · exact .inl (h'.covers _ hcovers)
    · exact h'.kept row hrow
  old row hrow := by
    obtain ⟨between, hbetween, hname, hid⟩ := h'.old row hrow
    obtain ⟨before, hbefore, hname', hid'⟩ := h.old between hbetween
    exact ⟨before, hbefore, hname'.trans hname, hid'.trans hid⟩
  hidden id := by
    obtain hsame' | hcovered := h'.hidden id
    · obtain hsame | hcovered := h.hidden id
      · exact .inl (hsame'.trans hsame)
      · refine .inr fun row hrow hid ↦ ?_
        obtain ⟨between, hbetween, hname, hid'⟩ := h'.old row hrow
        rw [← hname]
        exact h'.covers _ (hcovered between hbetween (hid'.trans hid))
    · exact .inr hcovered
  unbound id hnone := h'.unbound id (h.unbound id hnone)

/-! ## What an operation has to meet -/

/-- A hidden row is only bound to an account that is new to the sync, and is not taken from one that
the sync knows as hidden or that is not named. -/
def MayBind (unnamed : List String) (scene : Scene) (id : String) (row : MemberRow) : Prop :=
  row.hidden = true → (scene.world.known id).isNone ∧ ∀ other ∈ row.hubAccountId, other ≠ id →
    (∀ known ∈ scene.world.known other, known.hidden = true → scene.Covers known.memberName) ∧
      (scene.quiet = true → other ∉ unnamed)

instance (unnamed : List String) (scene : Scene) (id : String) (row : MemberRow) :
    Decidable (MayBind unnamed scene id row) :=
  inferInstanceAs (Decidable (_ → _ ∧ ∀ other ∈ row.hubAccountId, _ → (∀ known ∈ scene.world.known other,
    _ → _) ∧ (_ → _)))

/-- What the operations in the turn of an account have to meet: a binding may be made, no name is
replaced that a request left or is about to leave, and a hidden member is unbound under the name
that the directory has for its account, if it has one. -/
def MayDo (unnamed : List String) (account : HubAccount) : Op → Scene → Prop
  | .bindHubAccount name id _, scene =>
    ∀ row ∈ scene.world.members.rows, row.named name = true → MayBind unnamed scene id row
  | .setKnown id new, scene =>
    ∀ known ∈ scene.world.known id, scene.Covers known.memberName → scene.Covers new.memberName
  | .removeMember name, scene =>
    ∀ bound ∈ scene.world.directory.memberName account.id, fold bound = fold name
  | _, _ => True

instance (unnamed : List String) (account : HubAccount) : (op : Op) → (scene : Scene) →
    Decidable (MayDo unnamed account op scene)
  | .bindHubAccount name id _, scene => inferInstanceAs (Decidable
      (∀ row ∈ scene.world.members.rows, row.named name = true → MayBind unnamed scene id row))
  | .setKnown id _, scene =>
    inferInstanceAs (Decidable (∀ known ∈ scene.world.known id, _ → _))
  | .removeMember _, scene =>
    inferInstanceAs (Decidable (∀ bound ∈ scene.world.directory.memberName account.id, _))
  | .getMemberByHubId _, _ | .findMemberForHubAccount _ _, _ | .ensureMemberExists _, _
  | .renameHubMember _ _, _ | .setHubPresence _ _ _, _ | .setHidden _ _, _ | .bind _ _, _
  | .setSharesHiscores _ _, _ | .getKnown _, _ | .send _ _, _ | .now, _ => isTrue trivial

/-! ## What the operations do -/

section Operations

variable {members members' : Members} {id other name : String} {accountHash : Option String}

theorem hiddenRow_iff : HiddenRow members id ↔
    ∃ row ∈ members, row.hubAccountId = some id ∧ row.hidden = true := Iff.rfl

/-- Statements that leave bindings and hiding alone. -/
theorem hiddenRow_image {f : MemberRow → MemberRow}
    (h : ∀ row, row ∈ members' ↔ ∃ before ∈ members, f before = row)
    (hbound : ∀ row, (f row).hubAccountId = row.hubAccountId)
    (hhidden : ∀ row, (f row).hidden = row.hidden) :
    HiddenRow members' id ↔ HiddenRow members id := by
  rw [hiddenRow_iff, hiddenRow_iff]
  constructor
  · rintro ⟨_, hrow, hid, hhid⟩
    obtain ⟨before, hbefore, rfl⟩ := (h _).mp hrow
    exact ⟨before, hbefore, hbound before ▸ hid, hhidden before ▸ hhid⟩
  · rintro ⟨before, hbefore, hid, hhid⟩
    exact ⟨f before, (h _).mpr ⟨before, hbefore, rfl⟩, (hbound before).trans hid,
      (hhidden before).trans hhid⟩

theorem hiddenRow_ensureMemberExists (h : members.ensureMemberExists name = some members') :
    HiddenRow members' id ↔ HiddenRow members id := by
  unfold Members.ensureMemberExists at h
  split at h
  · rw [Option.some.inj h]
  · rw [hiddenRow_iff, hiddenRow_iff]
    constructor
    · rintro ⟨row, hrow, hid, hhid⟩
      obtain hrow | rfl := (Table.mem_insert h).mp hrow
      · exact ⟨row, hrow, hid, hhid⟩
      · exact absurd hid (by simp [newRow])
    · rintro ⟨row, hrow, hid, hhid⟩
      exact ⟨row, (Table.mem_insert h).mpr (.inl hrow), hid, hhid⟩

theorem hiddenRow_bind_self (h : members.bindHubAccount name id accountHash = some members') :
    HiddenRow members' id ↔ ∃ row ∈ members, row.named name = true ∧ row.hidden = true := by
  rw [hiddenRow_iff]
  constructor
  · rintro ⟨_, hrow, hid, hhid⟩
    obtain ⟨before, hbefore, rfl⟩ := (Members.mem_bindHubAccount h).mp hrow
    unfold Members.bindRow at hid hhid
    split_ifs at hid hhid with hnamed hbound
    · exact ⟨before, hbefore, hnamed, hhid⟩
    · exact absurd (Members.boundTo_eq_true.mpr hid) hbound
  · rintro ⟨before, hbefore, hnamed, hhid⟩
    refine ⟨_, (Members.mem_bindHubAccount h).mpr ⟨before, hbefore, rfl⟩, ?_, ?_⟩ <;>
      simp [Members.bindRow, Members.named_eq_true.mp hnamed, hhid, MemberRow.named]

theorem hiddenRow_bind_other (h : members.bindHubAccount name id accountHash = some members')
    (hne : other ≠ id) (hfree : ∀ row ∈ members, row.named name = true → row.hidden = true →
      row.hubAccountId ≠ some other) :
    HiddenRow members' other ↔ HiddenRow members other := by
  rw [hiddenRow_iff, hiddenRow_iff]
  constructor
  · rintro ⟨_, hrow, hid, hhid⟩
    obtain ⟨before, hbefore, rfl⟩ := (Members.mem_bindHubAccount h).mp hrow
    unfold Members.bindRow at hid hhid
    split_ifs at hid hhid with hnamed hbound
    · exact absurd (Option.some.inj hid).symm hne
    · exact ⟨before, hbefore, hid, hhid⟩
  · rintro ⟨before, hbefore, hid, hhid⟩
    have hnamed : before.named name = false := by
      by_contra hnamed
      exact hfree before hbefore (by simpa using hnamed) hhid hid
    have hbound : before.boundTo id = false := by
      simp [MemberRow.boundTo, hid, hne]
    refine ⟨_, (Members.mem_bindHubAccount h).mpr ⟨before, hbefore, rfl⟩, ?_, ?_⟩ <;>
      simp [Members.bindRow, hnamed, hbound, hid, hhid]

end Operations

/-- Scenes that agree on everything the invariant is about. -/
structure Like (scene scene' : Scene) : Prop where
  known : scene'.world.known = scene.world.known
  outbox : scene'.world.outbox = scene.world.outbox
  control : scene'.world.control = scene.world.control
  pending : scene'.pending = scene.pending
  quiet : scene'.quiet = scene.quiet
  nameById : scene'.world.directory.nameById = scene.world.directory.nameById
  idByName : scene'.world.directory.idByName = scene.world.directory.idByName
  hidden : scene'.world.directory.hidden = scene.world.directory.hidden
  rows : ∀ id, HiddenRow scene'.world.members id ↔ HiddenRow scene.world.members id

/-- Operations that leave a scene alike. -/
def plain : Op → Bool
  | .bindHubAccount _ _ _ | .setHidden _ _ | .bind _ _ | .removeMember _ | .setKnown _ _
  | .send _ _ => false
  | _ => true

theorem like_exec {op : Op} {answer : Answer op} {scene scene' : Scene} (hop : plain op = true)
    (h : scene.exec op = some (answer, scene')) : Like scene scene' := by
  obtain ⟨⟨answer', world⟩, hexec, hscene⟩ := Option.map_eq_some_iff.mp h
  obtain ⟨-, rfl⟩ := Prod.mk.inj hscene
  cases op <;> simp only [plain, Bool.false_eq_true] at hop <;>
    simp only [Sync.exec, Option.map_eq_some_iff, Option.some.injEq, Prod.mk.injEq] at hexec
  case ensureMemberExists =>
    obtain ⟨members, hmembers, -, rfl⟩ := hexec
    exact ⟨rfl, rfl, rfl, rfl, rfl, rfl, rfl, rfl, fun _ ↦ hiddenRow_ensureMemberExists hmembers⟩
  case renameHubMember original new =>
    obtain ⟨members, hmembers, -, rfl⟩ := hexec
    refine ⟨rfl, rfl, rfl, rfl, rfl, rfl, rfl, rfl, fun _ ↦ ?_⟩
    exact hiddenRow_image (fun _ ↦ Members.mem_renameHubMember hmembers)
      (fun row ↦ by split_ifs <;> rfl) fun row ↦ by split_ifs <;> rfl
  case setHubPresence =>
    obtain ⟨members, hmembers, -, rfl⟩ := hexec
    refine ⟨rfl, rfl, rfl, rfl, rfl, rfl, rfl, rfl, fun _ ↦ ?_⟩
    exact hiddenRow_image (fun _ ↦ Members.mem_setHubPresence hmembers)
      (fun row ↦ by split_ifs <;> rfl) fun row ↦ by split_ifs <;> rfl
  all_goals
    obtain ⟨-, rfl⟩ := hexec
    exact ⟨rfl, rfl, rfl, rfl, rfl, rfl, rfl, rfl, fun _ ↦ Iff.rfl⟩

section Right

variable {mark : ℕ} {unnamed : List String} {scene scene' : Scene} {account : HubAccount}
  {known new : KnownAccount} {id name : String}

theorem Like.covers (h : Like scene scene') : scene'.Covers name ↔ scene.Covers name := by
  rw [Covers, Covers, h.pending, h.control]

theorem Like.knownRight (h : Like scene scene') (hright : KnownRight scene.world id known) :
    KnownRight scene'.world id known where
  flag := (congrFun h.hidden id).trans hright.flag
  row := (h.rows id).trans hright.row
  unbound hhidden := (congrFun h.nameById id).trans (hright.unbound hhidden)

theorem Like.flagRight (h : Like scene scene') (hright : FlagRight scene.world id) :
    FlagRight scene'.world id where
  flag := by
    rw [HubDirectory.isHidden, h.hidden, h.rows id]
    exact hright.flag
  unbound hrow := (congrFun h.nameById id).trans (hright.unbound ((h.rows id).mp hrow))

theorem Right.like (h : Right mark unnamed scene) (hlike : Like scene scene') :
    Right mark unnamed scene' where
  inverse := by
    intro id folded
    rw [hlike.nameById, hlike.idByName]
    exact h.inverse id folded
  known id known hknown hcovers := by
    rw [hlike.known] at hknown
    exact hlike.knownRight (h.known id known hknown fun hc ↦ hcovers (hlike.covers.mpr hc))
  sent entry hentry := by
    rw [hlike.outbox] at hentry
    rw [hlike.known]
    exact h.sent entry hentry
  unnamed hquiet id hid := by
    rw [hlike.quiet] at hquiet
    exact hlike.flagRight (h.unnamed hquiet id hid)

/-- What the sync knows changes for one account, which it was as right about before. -/
theorem Right.setKnown (h : Right mark unnamed scene)
    (hright : ¬ scene.Covers new.memberName → KnownRight scene.world id new)
    (hsent : ∀ known, scene.world.known id = some known → known.hidden = false →
      new.hidden = false) :
    Right mark unnamed { scene with
      world := { scene.world with known := Function.update scene.world.known id (some new) } } where
  inverse := h.inverse
  known other known hknown hcovers := by
    dsimp only at hknown
    by_cases hother : other = id
    · subst hother
      rw [Function.update_self] at hknown
      obtain rfl := Option.some.inj hknown
      exact ⟨(hright hcovers).flag, (hright hcovers).row, (hright hcovers).unbound⟩
    · rw [Function.update_of_ne hother] at hknown
      have hbefore := h.known other known hknown hcovers
      exact ⟨hbefore.flag, hbefore.row, hbefore.unbound⟩
  sent entry hentry := by
    obtain ⟨known, hknown, hhidden⟩ := h.sent entry hentry
    dsimp only
    by_cases hentry : entry.1 = id
    · rw [hentry, Function.update_self]
      exact ⟨new, rfl, hsent known (hentry ▸ hknown) hhidden⟩
    · rw [Function.update_of_ne hentry]
      exact ⟨known, hknown, hhidden⟩
  unnamed hquiet id hid := by
    have hbefore := h.unnamed hquiet id hid
    exact ⟨hbefore.flag, hbefore.unbound⟩

/-- A known account gets another name, or something else is known of it. -/
theorem Right.setKnown_again (h : Right mark unnamed scene)
    (hknown : scene.world.known id = some known) (hhidden : new.hidden = known.hidden)
    (hcovers : scene.Covers known.memberName → scene.Covers new.memberName) :
    Right mark unnamed { scene with
      world := { scene.world with known := Function.update scene.world.known id (some new) } } := by
  refine h.setKnown (fun hnew ↦ ?_) fun other hother hshown ↦ ?_
  · have hbefore := h.known id known hknown fun hc ↦ hnew (hcovers hc)
    exact ⟨hhidden ▸ hbefore.flag, hhidden ▸ hbefore.row, hhidden ▸ hbefore.unbound⟩
  · rw [hhidden, Option.some.inj (hknown.symm.trans hother)]
    exact hshown

/-- The directory changes for one account, of which nothing is known, or that is not hidden. -/
theorem Right.directory (id : String) (h : Right mark unnamed scene) {directory : HubDirectory}
    (hinverse : directory.Inverse) (hid : id ∉ unnamed)
    (hhidden : ∀ other ≠ id, directory.isHidden other = scene.world.directory.isHidden other)
    (hunbound : ∀ other ≠ id, scene.world.directory.memberName other = none →
      directory.memberName other = none)
    (hself : ∀ known, scene.world.known id = some known →
      known.hidden = false ∧ directory.isHidden id = scene.world.directory.isHidden id) :
    Right mark unnamed { scene with world := { scene.world with directory } } where
  inverse := hinverse
  known other known hknown hcovers := by
    have hbefore := h.known other known hknown hcovers
    by_cases hother : other = id
    · subst hother
      obtain ⟨hshown, hsame⟩ := hself known hknown
      exact ⟨hsame.trans hbefore.flag, hbefore.row, fun hh ↦ absurd hh (by simp [hshown])⟩
    · exact ⟨(hhidden other hother).trans hbefore.flag, hbefore.row,
        fun hh ↦ hunbound other hother (hbefore.unbound hh)⟩
  sent := h.sent
  unnamed hquiet other hother := by
    have hbefore := h.unnamed hquiet other hother
    have hne : other ≠ id := fun heq ↦ hid (heq ▸ hother)
    refine ⟨?_, fun hrow ↦ hunbound other hne (hbefore.unbound hrow)⟩
    dsimp only
    rw [hhidden other hne]
    exact hbefore.flag

/-- A binding that may be made, for an account that is not known as hidden. -/
theorem Right.bindHubAccount (h : Right mark unnamed scene) {accountHash : Option String}
    {members : Members}
    (hbind : Members.bindHubAccount scene.world.members name id accountHash = some members)
    (hid : id ∉ unnamed)
    (hmay : ∀ row ∈ scene.world.members.rows, row.named name = true → MayBind unnamed scene id row)
    (hself : ∀ known, scene.world.known id = some known → known.hidden = false) :
    Right mark unnamed { scene with world := { scene.world with members } } where
  inverse := h.inverse
  known other known hknown hcovers := by
    have hbefore := h.known other known hknown hcovers
    refine ⟨hbefore.flag, ?_, hbefore.unbound⟩
    by_cases hother : other = id
    · subst hother
      refine (hiddenRow_bind_self hbind).trans (iff_of_false ?_ (by simp [hself known hknown]))
      rintro ⟨row, hrow, hnamed, hhidden⟩
      have := (hmay row hrow hnamed hhidden).1
      rw [hknown] at this
      exact absurd this (by simp)
    · refine (hiddenRow_bind_other hbind hother fun row hrow hnamed hhidden hbound ↦ ?_).trans
        hbefore.row
      have hknownHidden := hbefore.row.mp ⟨row, hrow, hbound, hhidden⟩
      exact hcovers (((hmay row hrow hnamed hhidden).2 other hbound hother).1 known hknown hknownHidden)
  sent := h.sent
  unnamed hquiet other hother := by
    have hbefore := h.unnamed hquiet other hother
    have hne : other ≠ id := fun heq ↦ hid (heq ▸ hother)
    have hrows : HiddenRow members other ↔ HiddenRow scene.world.members other :=
      hiddenRow_bind_other hbind hne fun row hrow hnamed hhidden hbound ↦
        ((hmay row hrow hnamed hhidden).2 other hbound hne).2 hquiet hother
    exact ⟨hbefore.flag.trans hrows.symm, fun hrow ↦ hbefore.unbound (hrows.mp hrow)⟩

end Right

/-! ## The turn of an account -/

section Turn

/-- What has to hold where the channel to the batcher is closed. -/
def HiddenLost (account : HubAccount) : Op → Scene → Prop
  | .send _ _, scene => ∃ known, scene.world.known account.id = some known
  | _, _ => True

/-- Programs in the turn of an account that leave the sync right. -/
abbrev HiddenSafe {α : Type} (mark : ℕ) (unnamed : List String) (account : HubAccount)
    (post : α → Scene → Prop) (program : SyncProgram α) (scene : Scene) : Prop :=
  program.Safe Scene.exec Others (MayDo unnamed account) (HiddenLost account) (Right mark unnamed)
    post scene

variable {mark : ℕ} {unnamed : List String} {scene scene' : Scene} {account : HubAccount}
  {known : KnownAccount} {α : Type} {post : α → Scene → Prop}

/-- An operation that leaves the scene alike, in front of a program. -/
theorem hiddenSafe_plain {op : Op} {next : Answer op → SyncProgram α} {F : Scene → Prop}
    (hop : plain op = true) (hfact : F scene)
    (hlater : ∀ {scene scene'}, F scene → Others scene scene' → F scene')
    (hnext : ∀ answer before after, F before → Right mark unnamed after →
      Scene.exec op before = some (answer, after) →
        HiddenSafe mark unnamed account post (next answer) after) :
    HiddenSafe mark unnamed account post (.call op next) scene := by
  refine Program.safe_call (K := F) (fun _ hothers _ ↦ hlater hfact hothers)
    fun before hright hbefore ↦ ⟨?_, fun _ answer after hexec ↦ ?_⟩
  · cases op <;> first | exact trivial | exact absurd hop (by simp [plain])
  · have hlike := like_exec hop hexec
    exact ⟨hright.like hlike, hnext answer before after hbefore (hright.like hlike) hexec⟩

/-- The account is new to the sync and has a row, unless what is known by its name will be dropped. -/
structure GotRow (account : HubAccount) (known : KnownAccount) (scene : Scene) : Prop where
  unknown : scene.world.known account.id = none
  row : scene.Covers known.memberName ∨ ∃ row ∈ scene.world.members,
    row.hubAccountId = some account.id ∧ row.memberName = known.memberName ∧
      row.hidden = known.hidden

theorem GotRow.later (h : GotRow account known scene) (hothers : Others scene scene') :
    GotRow account known scene' where
  unknown := by rw [hothers.known, h.unknown]
  row := by
    obtain hcovers | ⟨row, hrow, hid, hname, hhidden⟩ := h.row
    · exact .inl (hothers.covers _ hcovers)
    · obtain hcovers | hrow := hothers.kept row hrow
      · exact .inl (hname ▸ hcovers)
      · exact .inr ⟨row, hrow, hid, hname, hhidden⟩

/-- A row to be bound: one of that name, or what is known by the name will be dropped. -/
structure FoundRow (account : HubAccount) (known : KnownAccount) (scene : Scene) : Prop where
  unknown : scene.world.known account.id = none
  row : scene.Covers known.memberName ∨ ∃ row ∈ scene.world.members,
    row.memberName = known.memberName ∧ row.hidden = known.hidden

theorem FoundRow.later (h : FoundRow account known scene) (hothers : Others scene scene') :
    FoundRow account known scene' where
  unknown := by rw [hothers.known, h.unknown]
  row := by
    obtain hcovers | ⟨row, hrow, hname, hhidden⟩ := h.row
    · exact .inl (hothers.covers _ hcovers)
    · obtain hcovers | hrow := hothers.kept row hrow
      · exact .inl (hname ▸ hcovers)
      · exact .inr ⟨row, hrow, hname, hhidden⟩

/-- Binding the row that was found. -/
theorem hiddenSafe_bindFound (known : KnownAccount) (hid : account.id ∉ unnamed)
    (hfound : FoundRow account known scene) :
    HiddenSafe mark unnamed account (GotRow account)
      (.call (.bindHubAccount known.memberName account.id account.accountHash)
        fun _ ↦ .done known) scene := by
  refine Program.safe_call (K := FoundRow account known) (fun _ hothers _ ↦ hfound.later hothers)
    fun before hright hfound ↦ ⟨trivial, fun hmay answer after hexec ↦ ?_⟩
  obtain ⟨⟨answer', world⟩, hstatement, hafter⟩ := Option.map_eq_some_iff.mp hexec
  obtain ⟨-, rfl⟩ := Prod.mk.inj hafter
  obtain ⟨members, hbind, hworld⟩ := Option.map_eq_some_iff.mp hstatement
  obtain ⟨-, rfl⟩ := Prod.mk.inj hworld
  refine ⟨hright.bindHubAccount hbind hid hmay fun known hknown ↦ ?_, ?_⟩
  · rw [hfound.unknown] at hknown
    exact absurd hknown (by simp)
  · have hgot : GotRow account known
        { before with world := { before.world with members } } := by
      refine ⟨hfound.unknown, ?_⟩
      obtain hcovers | ⟨row, hrow, hname, hhidden⟩ := hfound.row
      · exact .inl hcovers
      · refine .inr ⟨_, (Members.mem_bindHubAccount hbind).mpr ⟨row, hrow, rfl⟩, ?_⟩
        simp [Members.bindRow, MemberRow.named, hname, hhidden]
    exact Program.safe_done fun _ hothers _ ↦ hgot.later hothers

/-- A row for a name that none has. Requests add no rows, so that the name is still free when it is inserted. -/
theorem hiddenSafe_addMember (hid : account.id ∉ unnamed) (hunknown : scene.world.known account.id = none)
    (hfree : ∀ row ∈ scene.world.members, fold row.memberName ≠ fold account.name) :
    HiddenSafe mark unnamed account (GotRow account)
      (.call (.ensureMemberExists account.name) fun _ ↦
        .call (.bindHubAccount account.name account.id account.accountHash) fun _ ↦
          .done ⟨account.name, false, none, none⟩) scene := by
  refine hiddenSafe_plain (F := fun scene ↦ scene.world.known account.id = none ∧
      ∀ row ∈ scene.world.members, fold row.memberName ≠ fold account.name) rfl ⟨hunknown, hfree⟩ ?_
    fun _ before after hbefore _ hexec ↦ ?_
  · rintro scene scene' ⟨hunknown, hfree⟩ hothers
    refine ⟨hothers.known.symm ▸ hunknown, fun row hrow ↦ ?_⟩
    obtain ⟨before, hbefore, hname, -⟩ := hothers.old row hrow
    rw [← hname]
    exact hfree before hbefore
  · obtain ⟨⟨answer, world⟩, hstatement, hafter⟩ := Option.map_eq_some_iff.mp hexec
    obtain ⟨-, rfl⟩ := Prod.mk.inj hafter
    obtain ⟨members, hensure, hworld⟩ := Option.map_eq_some_iff.mp hstatement
    obtain ⟨-, rfl⟩ := Prod.mk.inj hworld
    have hnone : before.world.members.find (MemberRow.named account.name) = none := by
      by_contra hsome
      obtain ⟨row, hrow⟩ := Option.ne_none_iff_exists'.mp hsome
      obtain ⟨hmem, hnamed⟩ := Table.mem_of_find hrow
      exact hbefore.2 row hmem (Members.named_eq_true.mp hnamed)
    rw [Members.ensureMemberExists, hnone] at hensure
    refine hiddenSafe_bindFound ⟨account.name, false, none, none⟩ hid ⟨hbefore.1, .inr ?_⟩
    exact ⟨newRow account.name, (Table.mem_insert hensure).mpr (.inr rfl), rfl, rfl⟩

theorem hiddenSafe_resolveMember (hid : account.id ∉ unnamed)
    (hunknown : scene.world.known account.id = none) :
    HiddenSafe mark unnamed account (GotRow account) (resolveMember account) scene := by
  have hlater {scene scene' : Scene} (h : scene.world.known account.id = none)
      (hothers : Others scene scene') : scene'.world.known account.id = none := by
    rw [hothers.known, h]
  unfold resolveMember
  refine hiddenSafe_plain rfl hunknown hlater fun answer before after hbefore _ hexec ↦ ?_
  obtain ⟨rfl, rfl⟩ : before.world.members.getMemberByHubId account.id = answer ∧ before = after := by
    simpa [Scene.exec, Sync.exec] using hexec
  cases hbound : before.world.members.getMemberByHubId account.id with
  | some row =>
    obtain ⟨found, hfind, rfl⟩ := Option.map_eq_some_iff.mp hbound
    obtain ⟨hrow, hboundTo⟩ := Table.mem_of_find hfind
    refine Program.safe_done fun _ hothers _ ↦ GotRow.later ⟨hbefore, .inr ?_⟩ hothers
    exact ⟨found, hrow, Members.boundTo_eq_true.mp hboundTo, rfl, rfl⟩
  | none =>
    refine hiddenSafe_plain rfl hbefore hlater fun answer before after hbefore _ hexec ↦ ?_
    obtain ⟨rfl, rfl⟩ : before.world.members.findMemberForHubAccount account.accountHash
        account.name = answer ∧ before = after := by simpa [Scene.exec, Sync.exec] using hexec
    cases hfound : before.world.members.findMemberForHubAccount account.accountHash account.name with
    | some row =>
      obtain ⟨found, hfind, rfl⟩ := Option.map_eq_some_iff.mp hfound
      exact hiddenSafe_bindFound ⟨found.memberName, found.hidden, none, none⟩ hid
        ⟨hbefore, .inr ⟨found, Members.mem_of_findRow hfind, rfl, rfl⟩⟩
    | none =>
      have hnone := Members.find_named_of_findRow (Option.map_eq_none_iff.mp hfound)
      refine hiddenSafe_addMember hid hbefore fun row hrow hname ↦ ?_
      have := Table.not_of_find_none hnone hrow
      simp [MemberRow.named, hname] at this

/-- The directory has the account as its row says, too. -/
structure Flagged (account : HubAccount) (known : KnownAccount) (scene : Scene) : Prop
    extends GotRow account known scene where
  flag : scene.Covers known.memberName ∨
    scene.world.directory.isHidden account.id = known.hidden

theorem Flagged.later (h : Flagged account known scene) (hothers : Others scene scene') :
    Flagged account known scene' where
  toGotRow := h.toGotRow.later hothers
  flag := by
    obtain hcovers | hflag := h.flag
    · exact .inl (hothers.covers _ hcovers)
    · obtain hsame | hcovered := hothers.hidden account.id
      · exact .inr (hsame.trans hflag)
      · -- A request that changes the flag of an account is about the name of its row.
        obtain hcovers | ⟨row, hrow, hid, hname, -⟩ := (h.toGotRow.later hothers).row
        · exact .inl hcovers
        · exact .inl (hname ▸ hcovered row hrow hid)

/-- And has no name for it when it is hidden. -/
structure Ready (account : HubAccount) (known : KnownAccount) (scene : Scene) : Prop
    extends Flagged account known scene where
  unbound : known.hidden = true → scene.world.directory.memberName account.id = none

theorem Ready.later (h : Ready account known scene) (hothers : Others scene scene') :
    Ready account known scene' where
  toFlagged := h.toFlagged.later hothers
  unbound hhidden := hothers.unbound _ (h.unbound hhidden)

theorem Ready.knownRight (h : Ready account known scene) (hcovers : ¬ scene.Covers known.memberName) :
    KnownRight scene.world account.id known := by
  obtain ⟨row, hrow, hid, -, hhidden⟩ := h.row.resolve_left hcovers
  refine ⟨h.flag.resolve_left hcovers, ⟨?_, fun hknown ↦ ⟨row, hrow, hid, hhidden.trans hknown⟩⟩,
    h.unbound⟩
  rintro ⟨other, hother, hid', hhidden'⟩
  rw [← hhidden, ← Members.eq_of_account hother hrow hid' hid, hhidden']

/-- The sync learns of an account that the directory is ready for. -/
theorem hiddenSafe_learn (hready : Ready account known scene) :
    HiddenSafe mark unnamed account (fun known scene ↦ scene.world.known account.id = some known)
      (.call (.setKnown account.id known) fun _ ↦ .done known) scene := by
  refine Program.safe_call (K := Ready account known) (fun _ hothers _ ↦ hready.later hothers)
    fun before hright hready ↦ ⟨trivial, fun hmay answer after hexec ↦ ?_⟩
  obtain rfl : ({ before with world := { before.world with
      known := Function.update before.world.known account.id (some known) } } : Scene) = after := by
    simpa [Scene.exec, Sync.exec] using hexec
  refine ⟨hright.setKnown hready.knownRight fun other hother ↦ ?_, ?_⟩
  · rw [hready.unknown] at hother
    exact absurd hother (by simp)
  · refine Program.safe_done fun _ hothers _ ↦ ?_
    rw [hothers.known]
    exact Function.update_self ..

/-- The directory forgets the member of a hidden account. -/
theorem hiddenSafe_forget (hid : account.id ∉ unnamed) (hflagged : Flagged account known scene) :
    HiddenSafe mark unnamed account (fun known scene ↦ scene.world.known account.id = some known)
      (.call (.removeMember known.memberName) fun _ ↦
        .call (.setKnown account.id known) fun _ ↦ .done known) scene := by
  refine Program.safe_call (K := Flagged account known) (fun _ hothers _ ↦ hflagged.later hothers)
    fun before hright hflagged ↦ ⟨trivial, fun hmay answer after hexec ↦ ?_⟩
  obtain rfl : ({ before with world := { before.world with
      directory := before.world.directory.removeMember known.memberName } } : Scene) = after := by
    simpa [Scene.exec, Sync.exec] using hexec
  refine ⟨hright.directory account.id (hright.inverse.removeMember _) hid
    (fun other _ ↦ by simp [HubDirectory.isHidden])
    (fun other _ h ↦ HubDirectory.memberName_removeMember_none h) fun known hknown ↦ ?_, ?_⟩
  · rw [hflagged.unknown] at hknown
    exact absurd hknown (by simp)
  · refine hiddenSafe_learn ⟨⟨⟨hflagged.unknown, hflagged.row⟩, ?_⟩, fun _ ↦ ?_⟩
    · exact hflagged.flag.imp (fun h ↦ h) fun h ↦ by simpa [HubDirectory.isHidden] using h
    · -- The binding that is left for the account, if any, is under the name that is removed.
      rw [HubDirectory.memberName, hright.inverse.nameById_removeMember,
        Option.filter_eq_none_iff]
      intro bound hbound
      simpa using hmay bound hbound

/-- The directory learns the member of a shown account. -/
theorem hiddenSafe_introduce (hid : account.id ∉ unnamed) (hflagged : Flagged account known scene)
    (hshown : ¬ known.hidden = true) :
    HiddenSafe mark unnamed account (fun known scene ↦ scene.world.known account.id = some known)
      (.call (.bind account.id known.memberName) fun _ ↦
        .call (.setKnown account.id known) fun _ ↦ .done known) scene := by
  refine Program.safe_call (K := Flagged account known) (fun _ hothers _ ↦ hflagged.later hothers)
    fun before hright hflagged ↦ ⟨trivial, fun hmay answer after hexec ↦ ?_⟩
  obtain rfl : ({ before with world := { before.world with
      directory := before.world.directory.bind account.id known.memberName } } : Scene) = after := by
    simpa [Scene.exec, Sync.exec] using hexec
  refine ⟨hright.directory account.id (hright.inverse.bind _ _) hid
    (fun other _ ↦ by simp [HubDirectory.isHidden]) (fun other hother h ↦ ?_)
    fun known hknown ↦ ?_, ?_⟩
  · rw [HubDirectory.memberName] at h ⊢
    rw [hright.inverse.nameById_bind, if_neg hother, h]
    rfl
  · rw [hflagged.unknown] at hknown
    exact absurd hknown (by simp)
  · refine hiddenSafe_learn ⟨⟨⟨hflagged.unknown, hflagged.row⟩, ?_⟩, fun hh ↦ absurd hh hshown⟩
    exact hflagged.flag.imp (fun h ↦ h) fun h ↦ by simpa [HubDirectory.isHidden] using h

theorem hiddenSafe_knownAccount (hid : account.id ∉ unnamed) :
    HiddenSafe mark unnamed account (fun known scene ↦ scene.world.known account.id = some known)
      (knownAccount account) scene := by
  unfold knownAccount
  refine hiddenSafe_plain (F := fun _ ↦ True) rfl trivial (fun _ _ ↦ trivial)
    fun answer before after _ hright hexec ↦ ?_
  obtain ⟨rfl, rfl⟩ : before.world.known account.id = answer ∧ before = after := by
    simpa [Scene.exec, Sync.exec] using hexec
  cases hknown : before.world.known account.id with
  | some known =>
    refine Program.safe_done fun _ hothers _ ↦ ?_
    rw [hothers.known, hknown]
  | none =>
    change HiddenSafe _ _ _ _ (resolveMember account >>= _) before
    refine Program.Safe.bind Others.refl (hiddenSafe_resolveMember hid hknown)
      (fun known scene hright hgot ↦ ?_) hright
    refine Program.safe_call (K := GotRow account known) (fun _ hothers _ ↦ hgot.later hothers)
      fun before hright hgot ↦ ⟨trivial, fun _ answer after hexec ↦ ?_⟩
    obtain rfl : ({ before with world := { before.world with
        directory := before.world.directory.setHidden account.id known.hidden } } : Scene) = after := by
      simpa [Scene.exec, Sync.exec] using hexec
    refine ⟨hright.directory account.id hright.inverse hid (fun other hother ↦ ?_)
      (fun _ _ h ↦ h) fun known hknown ↦ ?_, ?_⟩
    · simp [HubDirectory.setHidden, HubDirectory.isHidden, Function.update_of_ne hother]
    · rw [hgot.unknown] at hknown
      exact absurd hknown (by simp)
    have hflagged : Flagged account known { before with world := { before.world with
        directory := before.world.directory.setHidden account.id known.hidden } } :=
      { unknown := hgot.unknown
        row := hgot.row
        flag := .inr (by simp [HubDirectory.setHidden, HubDirectory.isHidden]) }
    dsimp only
    split
    · exact hiddenSafe_forget hid hflagged
    · next hshown => exact hiddenSafe_introduce hid hflagged hshown

/-! Of an account that is known as shown, the sync may change its name and what was sent for it. -/

theorem Others.knows (h : Others scene scene') (hknown : scene.world.known account.id = some known) :
    scene'.world.known account.id = some known := by
  rw [h.known, hknown]

theorem hiddenSafe_setKnown {new : KnownAccount}
    {next : Answer (.setKnown account.id new) → SyncProgram α}
    (hknown : scene.world.known account.id = some known) (hhidden : new.hidden = known.hidden)
    (hnext : ∀ after : Scene, after.world.known account.id = some new →
      HiddenSafe mark unnamed account post (next ()) after) :
    HiddenSafe mark unnamed account post (.call (.setKnown account.id new) next) scene := by
  refine Program.safe_call (fun _ hothers _ ↦ hothers.knows hknown)
    fun before hright hknown ↦ ⟨trivial, fun hmay answer after hexec ↦ ?_⟩
  obtain rfl : ({ before with world := { before.world with
      known := Function.update before.world.known account.id (some new) } } : Scene) = after := by
    simpa [Scene.exec, Sync.exec] using hexec
  refine ⟨hright.setKnown_again hknown hhidden (hmay known hknown), hnext _ ?_⟩
  exact Function.update_self ..

theorem hiddenSafe_bind {name : String} {next : Answer (.bind account.id name) → SyncProgram α}
    (hid : account.id ∉ unnamed) (hknown : scene.world.known account.id = some known)
    (hshown : known.hidden = false)
    (hnext : ∀ after : Scene, after.world.known account.id = some known →
      HiddenSafe mark unnamed account post (next ()) after) :
    HiddenSafe mark unnamed account post (.call (.bind account.id name) next) scene := by
  refine Program.safe_call (fun _ hothers _ ↦ hothers.knows hknown)
    fun before hright hknown ↦ ⟨trivial, fun _ answer after hexec ↦ ?_⟩
  obtain rfl : ({ before with world := { before.world with
      directory := before.world.directory.bind account.id name } } : Scene) = after := by
    simpa [Scene.exec, Sync.exec] using hexec
  refine ⟨hright.directory account.id (hright.inverse.bind _ _) hid
    (fun other _ ↦ by simp [HubDirectory.isHidden]) (fun other hother h ↦ ?_)
    (fun other hother ↦ ⟨?_, by simp [HubDirectory.isHidden]⟩), hnext _ hknown⟩
  · rw [HubDirectory.memberName] at h ⊢
    rw [hright.inverse.nameById_bind, if_neg hother, h]
    rfl
  · rwa [← Option.some.inj (hknown.symm.trans hother)]

theorem hiddenSafe_known_plain {op : Op} {next : Answer op → SyncProgram α} (hop : plain op = true)
    (hknown : scene.world.known account.id = some known)
    (hnext : ∀ answer (after : Scene), after.world.known account.id = some known →
      HiddenSafe mark unnamed account post (next answer) after) :
    HiddenSafe mark unnamed account post (.call op next) scene := by
  refine hiddenSafe_plain hop hknown (fun h hothers ↦ hothers.knows h)
    fun answer before after hbefore _ hexec ↦ hnext answer after ?_
  rw [(like_exec hop hexec).known, hbefore]

theorem hiddenSafe_followRename {current : String} (hid : account.id ∉ unnamed)
    (hknown : scene.world.known account.id = some known) (hshown : known.hidden = false) :
    HiddenSafe mark unnamed account (fun _ scene ↦ scene.world.known account.id = some known)
      (followRename account current) scene := by
  unfold followRename
  refine hiddenSafe_known_plain rfl hknown fun taken scene hknown ↦ ?_
  dsimp only [Program.bind]
  split
  · refine Program.safe_call (fun _ hothers _ ↦ hothers.knows hknown)
      fun before hright hknown ↦ ⟨trivial, fun hmay answer after hexec ↦ ?_⟩
    obtain ⟨⟨answer', world⟩, hstatement, hafter⟩ := Option.map_eq_some_iff.mp hexec
    obtain ⟨-, rfl⟩ := Prod.mk.inj hafter
    obtain ⟨members, hbind, hworld⟩ := Option.map_eq_some_iff.mp hstatement
    obtain ⟨-, rfl⟩ := Prod.mk.inj hworld
    refine ⟨hright.bindHubAccount hbind hid hmay fun other hother ↦ ?_,
      Program.safe_done fun _ hothers _ ↦ hothers.knows hknown⟩
    rwa [← Option.some.inj (hknown.symm.trans hother)]
  · exact hiddenSafe_known_plain rfl hknown fun _ _ hknown ↦
      Program.safe_done fun _ hothers _ ↦ hothers.knows hknown

/-- Known and shown. -/
def KnownShown (account : HubAccount) (known : KnownAccount) (scene : Scene) : Prop :=
  scene.world.known account.id = some known ∧ known.hidden = false

theorem KnownShown.safe_done (h : KnownShown account known scene) :
    HiddenSafe mark unnamed account (KnownShown account) (Program.done known) scene :=
  Program.safe_done fun _ hothers _ ↦ ⟨hothers.knows h.1, h.2⟩

theorem hiddenSafe_followName (hid : account.id ∉ unnamed) (h : KnownShown account known scene)
    (hright : Right mark unnamed scene) :
    HiddenSafe mark unnamed account (KnownShown account) (followName account known) scene := by
  unfold followName
  split
  · exact h.safe_done
  · refine Program.Safe.bind Others.refl (hiddenSafe_followRename hid h.1 h.2)
      (fun name scene _ hknown ↦ ?_) hright
    refine hiddenSafe_setKnown hknown rfl fun scene hknown ↦ ?_
    refine hiddenSafe_bind hid hknown h.2 fun scene hknown ↦ ?_
    refine hiddenSafe_setKnown hknown rfl fun scene hknown ↦ ?_
    exact KnownShown.safe_done ⟨hknown, h.2⟩

theorem hiddenSafe_sendSections (h : KnownShown account known scene) :
    HiddenSafe mark unnamed account (KnownShown account) (sendSections account known) scene := by
  unfold sendSections
  dsimp only
  split
  · exact h.safe_done
  · refine Program.safe_call (fun _ hothers _ ↦ hothers.knows h.1)
      fun before hright hknown ↦ ⟨⟨known, hknown⟩, fun _ answer after hexec ↦ ?_⟩
    obtain rfl : ({ before with world := { before.world with outbox := before.world.outbox ++
        [(account.id, _)] } } : Scene) = after := by simpa [Scene.exec, Sync.exec] using hexec
    refine ⟨⟨hright.inverse, fun id other hother hcovers ↦ ?_, fun entry hentry ↦ ?_,
      fun hquiet id hid ↦ ?_⟩, ?_⟩
    · have hbefore := hright.known id other hother hcovers
      exact ⟨hbefore.flag, hbefore.row, hbefore.unbound⟩
    · rw [List.drop_append] at hentry
      obtain hentry | hentry := List.mem_append.mp hentry
      · exact hright.sent entry hentry
      · obtain rfl := List.mem_singleton.mp (List.mem_of_mem_drop hentry)
        exact ⟨known, hknown, h.2⟩
    · have hbefore := hright.unnamed hquiet id hid
      exact ⟨hbefore.flag, hbefore.unbound⟩
    · refine hiddenSafe_setKnown hknown rfl fun scene hknown ↦ ?_
      exact KnownShown.safe_done ⟨hknown, h.2⟩

theorem hiddenSafe_writePresence (h : KnownShown account known scene) :
    HiddenSafe mark unnamed account
      (fun _ scene ↦ ∃ known, scene.world.known account.id = some known)
      (writePresence account known) scene := by
  unfold writePresence
  refine hiddenSafe_known_plain rfl h.1 fun now scene hknown ↦ ?_
  dsimp only [Program.bind]
  split
  · refine hiddenSafe_known_plain rfl hknown fun _ scene hknown ↦ ?_
    refine hiddenSafe_known_plain rfl hknown fun now scene hknown ↦ ?_
    refine hiddenSafe_setKnown hknown rfl fun scene hknown ↦ ?_
    exact Program.safe_done fun _ hothers _ ↦ ⟨_, hothers.knows hknown⟩
  · exact Program.safe_done fun _ hothers _ ↦ ⟨_, hothers.knows hknown⟩

/-- After the turn of an account with a name that the map can store the sync knows it. -/
theorem hiddenSafe_processAccount (hid : validName account.name = true → account.id ∉ unnamed)
    (hright : Right mark unnamed scene) :
    HiddenSafe mark unnamed account
      (fun _ scene ↦ validName account.name = true →
        ∃ known, scene.world.known account.id = some known)
      (processAccount account) scene := by
  unfold processAccount
  cases hvalid : validName account.name with
  | false => exact Program.safe_done fun _ _ _ h ↦ absurd h (by simp)
  | true =>
    simp only [Bool.not_true, Bool.false_eq_true, if_false]
    have hid := hid hvalid
    refine Program.Safe.bind Others.refl (hiddenSafe_knownAccount hid)
      (fun known scene hright hknown ↦ ?_) hright
    split
    · exact Program.safe_done fun _ hothers _ _ ↦ ⟨known, hothers.knows hknown⟩
    · next hshown =>
      have hshown : known.hidden = false := by simpa using hshown
      refine hiddenSafe_plain rfl hknown (fun h hothers ↦ hothers.knows h)
        fun _ before after hbefore hright hexec ↦ ?_
      have hknown : after.world.known account.id = some known := by
        rw [(like_exec rfl hexec).known, hbefore]
      change HiddenSafe _ _ _ _ (followName account known >>= _) after
      refine Program.Safe.bind Others.refl (hiddenSafe_followName hid ⟨hknown, hshown⟩ hright)
        (fun known scene hright h ↦ ?_) hright
      refine Program.Safe.bind Others.refl (hiddenSafe_sendSections h)
        (fun known scene _ h ↦ ?_) hright
      exact Program.Safe.mono (fun _ _ h _ ↦ h) (hiddenSafe_writePresence h)

end Turn

end Scene

end OsrsMap.Sync
