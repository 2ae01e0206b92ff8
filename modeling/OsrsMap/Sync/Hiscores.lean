import OsrsMap.Sync.Poll
import Mathlib.Tactic.SplitIfs

/-!
# Who shares their hiscores

The sync notes of every account whether the hub lists it with its hiscores, and the endpoints turn
everybody else's away, because what they have cached may be minutes old. The note is written in the
turn of an account. Accounts that get none, or whose turn ends early, keep the one they had.
-/

namespace OsrsMap.Sync

/-- Listed with `hiscores` among its categories. -/
def HubAccount.shares (account : HubAccount) : Bool := account.categories.contains "hiscores"

/-- The account is one that the snapshot lists with its hiscores. -/
def SharedBy (accounts : List HubAccount) (id : String) : Prop :=
  ∃ account ∈ accounts, account.id = id ∧ account.shares = true

instance (accounts : List HubAccount) (id : String) : Decidable (SharedBy accounts id) :=
  inferInstanceAs (Decidable (∃ account ∈ accounts, _ ∧ _))

/-! ## The endpoints -/

inductive HistoryError where
  | disabled
  | notFound
  | hub

/-- `history_enabled`. -/
def historyEnabled (history : Bool) : Except HistoryError Unit :=
  if history then .ok () else .error .disabled

/-- The member's hub account. A member without one has nothing on the hub. -/
def hubIdOf (directory : HubDirectory) (member : String) : Except HistoryError String :=
  match directory.hubId member with
  | some id => .ok id
  | none => .error .notFound

/-- What the cache answers with for an account. -/
def fetchForMember {α : Type} (history : Bool) (directory : HubDirectory) (member : String)
    (cached : String → Except HistoryError α) : Except HistoryError α := do
  historyEnabled history
  let id ← hubIdOf directory member
  cached id

/-- `get_player_hiscores`. -/
def getPlayerHiscores {α : Type} (history : Bool) (directory : HubDirectory) (member : String)
    (cached : String → Except HistoryError α) : Except HistoryError α := do
  historyEnabled history
  let id ← hubIdOf directory member
  if directory.sharesHiscores id then fetchForMember history directory member cached
  else .error .notFound

/-- An account of the hub's answer with everybody's hiscores. -/
structure AccountHiscores (α : Type) where
  id : String
  name : String
  fetchedAt : Option ℤ
  hiscores : α

/-- `get_guild_hiscores`: the accounts it serves, each under its member's name. -/
def getGuildHiscores {α : Type} (history : Bool) (directory : HubDirectory)
    (cached : Except HistoryError (List (AccountHiscores α))) :
    Except HistoryError (List (AccountHiscores α)) := do
  historyEnabled history
  let accounts ← cached
  return ((accounts.filter fun entry ↦
      !directory.isHidden entry.id && directory.sharesHiscores entry.id).filter
        fun entry ↦ entry.fetchedAt.isSome).map
          fun entry ↦ { entry with name := (directory.memberName entry.id).getD entry.name }

/-! ## The property -/

/-- Only accounts that the snapshot lists with their hiscores are noted, and neither endpoint serves
another one's, whatever the cache holds. -/
structure HiscoresExact (directory : HubDirectory) (accounts : List HubAccount) : Prop where
  flags : ∀ id, directory.sharesHiscores id = true → SharedBy accounts id
  player : ∀ (α : Type) (history : Bool) (member : String)
    (cached : String → Except HistoryError α) (served : α),
    getPlayerHiscores history directory member cached = .ok served →
      ∃ id, SharedBy accounts id ∧ cached id = .ok served
  guild : ∀ (α : Type) (history : Bool)
    (cached : Except HistoryError (List (AccountHiscores α))) (served : List (AccountHiscores α)),
    getGuildHiscores history directory cached = .ok served →
      ∀ entry ∈ served, SharedBy accounts entry.id

/-- Right after a full poll in which no statement failed. -/
def System.HiscoresKept (system : System) : Prop :=
  ∀ poll, system.phase = .finished poll → poll.full = true → poll.clean = true →
    HiscoresExact system.world.directory poll.accounts

theorem hiscoresExact_of_flags {directory : HubDirectory} {accounts : List HubAccount}
    (h : ∀ id ∈ directory.hiscores, SharedBy accounts id) : HiscoresExact directory accounts where
  flags id hid := h id (of_decide_eq_true hid)
  player α history member cached served hserved := by
    unfold getPlayerHiscores fetchForMember at hserved
    cases history with
    | false => cases hserved
    | true =>
      cases hid : hubIdOf directory member with
      | error error => simp [historyEnabled, hid, bind, Except.bind] at hserved
      | ok id =>
        by_cases hshares : directory.sharesHiscores id = true
        · refine ⟨id, h id (of_decide_eq_true hshares), ?_⟩
          simpa [historyEnabled, hid, hshares, bind, Except.bind] using hserved
        · simp [historyEnabled, hid, hshares, bind, Except.bind] at hserved
  guild α history cached served hserved := by
    unfold getGuildHiscores at hserved
    cases history with
    | false => cases hserved
    | true =>
      cases cached with
      | error error => cases hserved
      | ok entries =>
        obtain rfl := Except.ok.inj hserved
        intro entry hentry
        obtain ⟨before, hbefore, rfl⟩ := List.mem_map.mp hentry
        have hfiltered := (List.mem_filter.mp (List.mem_filter.mp hbefore).1).2
        rw [Bool.and_eq_true] at hfiltered
        exact h before.id (of_decide_eq_true hfiltered.2)

/-! ## The turn of an account -/

section Turn

/-- The account is noted, but not listed with its hiscores any more. -/
def Revoked (account : HubAccount) (world : World) : Prop :=
  account.id ∈ world.directory.hiscores ∧ account.shares = false

instance (account : HubAccount) (world : World) : Decidable (Revoked account world) :=
  inferInstanceAs (Decidable (_ ∧ _))

/-- What the sync reads of such an account does not say that its member is hidden. -/
def ReadsShown (account : HubAccount) : Op → World → Prop
  | .getKnown id, world =>
    ∀ known ∈ world.known id, known.hidden = true → ¬ Revoked account world
  | .getMemberByHubId id, world =>
    ∀ row ∈ Members.getMemberByHubId world.members id, row.hidden = true → ¬ Revoked account world
  | .findMemberForHubAccount accountHash name, world =>
    ∀ row ∈ Members.findMemberForHubAccount world.members accountHash name,
      row.hidden = true → ¬ Revoked account world
  | _, _ => True

instance (account : HubAccount) : (op : Op) → (world : World) →
    Decidable (ReadsShown account op world)
  | .getKnown id, world => inferInstanceAs (Decidable (∀ known ∈ world.known id, _ → _))
  | .getMemberByHubId id, world =>
    inferInstanceAs (Decidable (∀ row ∈ Members.getMemberByHubId world.members id, _ → _))
  | .findMemberForHubAccount accountHash name, world => inferInstanceAs (Decidable
      (∀ row ∈ Members.findMemberForHubAccount world.members accountHash name, _ → _))
  | .ensureMemberExists _, _ | .bindHubAccount _ _ _, _ | .renameHubMember _ _, _
  | .setHubPresence _ _ _, _ | .setHidden _ _, _ | .bind _ _, _ | .removeMember _, _
  | .setSharesHiscores _ _, _ | .setKnown _ _, _ | .send _ _, _ | .now, _ => isTrue trivial

/-- What requests of admins leave as it is. -/
structure KeepsFlags (world world' : World) : Prop where
  hiscores : world'.directory.hiscores = world.directory.hiscores

/-- Every account that is noted is listed with its hiscores, or has a turn to come. -/
def FlagsListed (accounts rest : List HubAccount) (world : World) : Prop :=
  ∀ id ∈ world.directory.hiscores, SharedBy accounts id ∨
    ∃ account ∈ rest, account.id = id ∧ validName account.name = true

variable {accounts rest : List HubAccount} {account : HubAccount} {world : World}

theorem Revoked.keep {world' : World} (h : ¬ Revoked account world)
    (hkeep : KeepsFlags world world') : ¬ Revoked account world' := by
  rwa [Revoked, hkeep.hiscores]

/-- Only `setSharesHiscores` changes what is noted. -/
theorem hiscores_exec {op : Op} {answer : Answer op} {world' : World}
    (hop : ∀ id shares, op ≠ .setSharesHiscores id shares)
    (h : exec op world = some (answer, world')) : KeepsFlags world world' := by
  constructor
  cases op <;> simp only [exec, Option.map_eq_some_iff, Option.some.injEq, Prod.mk.injEq] at h
  case setSharesHiscores id shares => exact absurd rfl (hop id shares)
  case ensureMemberExists => obtain ⟨_, -, -, rfl⟩ := h; rfl
  case bindHubAccount => obtain ⟨_, -, -, rfl⟩ := h; rfl
  case renameHubMember => obtain ⟨_, -, -, rfl⟩ := h; rfl
  case setHubPresence => obtain ⟨_, -, -, rfl⟩ := h; rfl
  all_goals obtain ⟨-, rfl⟩ := h; simp [HubDirectory.setHidden]

/-- What has to hold where the channel to the batcher is closed. -/
def FlagLost (account : HubAccount) : Op → World → Prop
  | .send _ _, world => ¬ Revoked account world
  | _, _ => True

/-- Programs in the turn of an account, after which it is not noted against the snapshot. -/
abbrev FlagSafe {α : Type} (accounts rest : List HubAccount) (account : HubAccount)
    (post : α → World → Prop) (program : SyncProgram α) (world : World) : Prop :=
  program.Safe exec KeepsFlags (ReadsShown account) (FlagLost account)
    (FlagsListed accounts rest) post world

theorem FlagsListed.keep {world' : World} (h : FlagsListed accounts rest world)
    (hkeep : KeepsFlags world world') : FlagsListed accounts rest world' := by
  rwa [FlagsListed, hkeep.hiscores]

/-- A program that notes nothing keeps an account from being noted against the snapshot. -/
theorem flagSafe_of_only {α : Type} {program : SyncProgram α}
    (h : program.Only fun op ↦ ∀ id shares, op ≠ .setSharesHiscores id shares)
    (hstart : ¬ Revoked account world) :
    FlagSafe accounts rest account (fun _ world ↦ ¬ Revoked account world) program world := by
  refine h.safe hstart Revoked.keep (fun {op} _ _ hknown ↦ ?_) fun hop hinv hknown _ hexec ↦ ?_
  · cases op <;> first | exact hknown | exact trivial
  · have hkeep := hiscores_exec hop hexec
    exact ⟨hinv.keep hkeep, Revoked.keep hknown hkeep⟩

/-- An operation that notes nothing, in front of a program. -/
theorem flagSafe_call {α : Type} {op : Op} {next : Answer op → SyncProgram α}
    {post : α → World → Prop} {K : World → Prop}
    (hop : ∀ id shares, op ≠ .setSharesHiscores id shares) (hsend : ∀ id member, op ≠ .send id member)
    (hknown : K world)
    (hkeep : ∀ {world world'}, K world → KeepsFlags world world' → K world')
    (hnext : ∀ answer world world', K world → KeepsFlags world world' →
      ReadsShown account op world → exec op world = some (answer, world') →
        FlagSafe accounts rest account post (next answer) world') :
    FlagSafe accounts rest account post (.call op next) world := by
  refine Program.safe_call (K := K) (fun world' hothers _ ↦ hkeep hknown hothers)
    fun world' hinv hknown' ↦ ⟨?_, fun hreads answer after hexec ↦ ?_⟩
  · cases op <;> first | exact absurd rfl (hsend _ _) | exact trivial
  · have hsame := hiscores_exec hop hexec
    exact ⟨hinv.keep hsame, hnext answer world' after hknown' hsame hreads hexec⟩

/-- The answer of a resolved account: hidden only if it is not noted against the snapshot. -/
def ResolvedRight (account : HubAccount) (known : KnownAccount) (world : World) : Prop :=
  known.hidden = true → ¬ Revoked account world

theorem ResolvedRight.keep {known : KnownAccount} {world' : World}
    (h : ResolvedRight account known world) (hkeep : KeepsFlags world world') :
    ResolvedRight account known world' := fun hhidden ↦ Revoked.keep (h hhidden) hkeep

theorem flagSafe_pure {α : Type} {result : α} {post : α → World → Prop}
    (hkeep : ∀ {world world'}, post result world → KeepsFlags world world' → post result world')
    (h : post result world) :
    FlagSafe accounts rest account post (Program.done result) world :=
  Program.safe_done fun _ hothers _ ↦ hkeep h hothers

theorem flagSafe_resolveMember :
    FlagSafe accounts rest account (ResolvedRight account) (resolveMember account) world := by
  unfold resolveMember
  refine flagSafe_call (K := fun _ ↦ True) (by simp) (by simp) trivial (fun _ _ ↦ trivial)
    fun answer before after _ hsame hreads hexec ↦ ?_
  obtain ⟨rfl, rfl⟩ : before.members.getMemberByHubId account.id = answer ∧ before = after := by
    simpa [exec] using hexec
  cases hbound : before.members.getMemberByHubId account.id with
  | some row => exact flagSafe_pure ResolvedRight.keep (hreads row hbound)
  | none =>
    refine flagSafe_call (K := fun _ ↦ True) (by simp) (by simp) trivial (fun _ _ ↦ trivial)
      fun answer before after _ hsame hreads hexec ↦ ?_
    obtain ⟨rfl, rfl⟩ : before.members.findMemberForHubAccount account.accountHash account.name =
        answer ∧ before = after := by simpa [exec] using hexec
    cases hfound : before.members.findMemberForHubAccount account.accountHash account.name with
    | some row =>
      refine flagSafe_call (K := fun world ↦ row.hidden = true → ¬ Revoked account world)
        (by simp) (by simp) (hreads row hfound) (fun h hkeep hhidden ↦ Revoked.keep (h hhidden) hkeep)
        fun _ before after hknown hsame _ _ ↦ ?_
      exact flagSafe_pure ResolvedRight.keep fun hhidden ↦ Revoked.keep (hknown hhidden) hsame
    | none =>
      refine flagSafe_call (K := fun _ ↦ True) (by simp) (by simp) trivial (fun _ _ ↦ trivial)
        fun _ _ _ _ _ _ _ ↦ ?_
      refine flagSafe_call (K := fun _ ↦ True) (by simp) (by simp) trivial (fun _ _ ↦ trivial)
        fun _ _ _ _ _ _ _ ↦ ?_
      exact flagSafe_pure ResolvedRight.keep fun hhidden ↦ absurd hhidden (by simp)

theorem flagSafe_knownAccount (hinv : FlagsListed accounts rest world) :
    FlagSafe accounts rest account (ResolvedRight account) (knownAccount account) world := by
  unfold knownAccount
  refine flagSafe_call (K := FlagsListed accounts rest) (by simp) (by simp) hinv
    FlagsListed.keep fun answer before after hinv hsame hreads hexec ↦ ?_
  obtain ⟨rfl, rfl⟩ : before.known account.id = answer ∧ before = after := by
    simpa [exec] using hexec
  cases hknown : before.known account.id with
  | some known => exact flagSafe_pure ResolvedRight.keep (hreads known hknown)
  | none =>
    change FlagSafe _ _ _ _ (resolveMember account >>= _) before
    refine Program.Safe.bind (fun _ ↦ ⟨rfl⟩) flagSafe_resolveMember (fun known world _ hright ↦ ?_) hinv
    have hkeep {world world' : World} (h : ResolvedRight account known world)
        (hkeep : KeepsFlags world world') : ResolvedRight account known world' := h.keep hkeep
    refine flagSafe_call (by simp) (by simp) hright hkeep fun _ _ _ hright hsame _ _ ↦ ?_
    dsimp only
    split
    all_goals
      refine flagSafe_call (by simp) (by simp) (hkeep hright hsame) hkeep
        fun _ _ _ hright hsame _ _ ↦ ?_
      refine flagSafe_call (by simp) (by simp) (hkeep hright hsame) hkeep
        fun _ _ _ hright hsame _ _ ↦ ?_
      exact flagSafe_pure hkeep (hkeep hright hsame)

/-- After the note is written nothing changes it. -/
theorem only_rest (known : KnownAccount) : (do
      let known ← followName account known
      let known ← sendSections account known
      writePresence account known : SyncProgram Unit).Only
    fun op ↦ ∀ id shares, op ≠ .setSharesHiscores id shares := by
  refine Program.Only.bind ?_ fun known ↦ Program.Only.bind ?_ fun known ↦ ?_
  · unfold followName
    split
    · trivial
    · refine Program.Only.bind ?_ fun name ↦
        ⟨by simp, fun _ ↦ ⟨by simp, fun _ ↦ ⟨by simp, fun _ ↦ trivial⟩⟩⟩
      unfold followRename
      refine ⟨by simp, fun answer ↦ ?_⟩
      dsimp only [Program.bind]
      split <;> exact ⟨by simp, fun _ ↦ trivial⟩
  · unfold sendSections
    dsimp only
    split
    · trivial
    · exact ⟨by simp, fun _ ↦ ⟨by simp, fun _ ↦ trivial⟩⟩
  · unfold writePresence
    refine ⟨by simp, fun now ↦ ?_⟩
    dsimp only [Program.bind]
    split
    · exact ⟨by simp, fun _ ↦ ⟨by simp, fun _ ↦ ⟨by simp, fun _ ↦ trivial⟩⟩⟩
    · trivial

/-- The turn of a listed account leaves it noted only if it is listed with its hiscores. -/
theorem flagSafe_processAccount (haccount : account ∈ accounts)
    (hinv : FlagsListed accounts (account :: rest) world) :
    FlagSafe accounts (account :: rest) account
      (fun _ world ↦ validName account.name = true → ¬ Revoked account world)
      (processAccount account) world := by
  unfold processAccount
  cases hvalid : validName account.name with
  | false => exact fun _ _ _ h ↦ absurd h (by simp)
  | true =>
    simp only [Bool.not_true, Bool.false_eq_true, if_false]
    refine Program.Safe.bind (fun _ ↦ ⟨rfl⟩) (flagSafe_knownAccount hinv)
      (fun known world _ hright ↦ ?_) hinv
    split
    · next hhidden =>
      exact flagSafe_pure (fun h hkeep hvalid ↦ Revoked.keep (h hvalid) hkeep)
        fun _ ↦ hright hhidden
    · refine Program.safe_call (K := fun _ ↦ True) (fun _ _ _ ↦ trivial) fun before hinv _ ↦
        ⟨trivial, fun _ answer after hexec ↦ ?_⟩
      obtain rfl : ({ before with
          directory := before.directory.setSharesHiscores account.id account.shares } : World) =
          after := by simpa [exec, HubAccount.shares] using hexec
      refine ⟨fun id hid ↦ ?_, ?_⟩
      · dsimp only at hid
        rw [HubDirectory.mem_setSharesHiscores] at hid
        split_ifs at hid with hsame
        · exact .inl ⟨account, haccount, hsame.symm, hid⟩
        · exact hinv id hid
      · have hnoted : ¬ Revoked account { before with
            directory := before.directory.setSharesHiscores account.id account.shares } := by
          rintro ⟨hmem, hshares⟩
          dsimp only at hmem
          rw [HubDirectory.mem_setSharesHiscores, if_pos rfl, hshares] at hmem
          exact absurd hmem (by simp)
        exact Program.Safe.mono (fun _ _ h _ ↦ h) (flagSafe_of_only (only_rest known) hnoted)

end Turn

/-! ## Runs -/

namespace System

variable {system : System} {fullRefresh : ℤ}

/-- What the accounts of a full answer have to meet: whoever is noted is listed, with its hiscores
or with a name the map can store. -/
def ListsFlagged (world : World) (accounts : List HubAccount) : Prop :=
  ∀ id ∈ world.directory.hiscores,
    SharedBy accounts id ∨ ∃ account ∈ accounts, account.id = id ∧ validName account.name = true

instance (world : World) (accounts : List HubAccount) : Decidable (ListsFlagged world accounts) :=
  inferInstanceAs (Decidable (∀ id ∈ world.directory.hiscores, _ ∨ ∃ account ∈ accounts, _ ∧ _))

def AnswerKeeps (world : World) (accounts : List HubAccount) : Phase → Prop
  | .fetching full _ => full = true → ListsFlagged world accounts
  | _ => True

instance (world : World) (accounts : List HubAccount) : (phase : Phase) →
    Decidable (AnswerKeeps world accounts phase)
  | .fetching full _ => inferInstanceAs (Decidable (full = true → _))
  | .idle | .processing _ _ | .finished _ => isTrue trivial

def OperateKeeps (world : World) : Phase → Prop
  | .processing poll ((account, .call op _) :: _) =>
    poll.full = true → poll.clean = true → ReadsShown account op world
  | _ => True

instance (world : World) : (phase : Phase) → Decidable (OperateKeeps world phase)
  | .processing poll ((_, .call _ _) :: _) =>
    inferInstanceAs (Decidable (poll.full = true → poll.clean = true → _))
  | .processing _ ((_, .done _) :: _) | .processing _ [] | .idle | .fetching _ _ | .finished _ =>
    isTrue trivial

/-- What a step has to meet in a full poll: the answer lists whoever is noted, and what the sync
reads of an account that is noted but not listed with its hiscores does not say it is hidden. -/
def KeepsNotes (system : System) : Event → Prop
  | .answer accounts => AnswerKeeps system.world accounts system.phase
  | .operate => OperateKeeps system.world system.phase
  | _ => True

instance (system : System) : (event : Event) → Decidable (system.KeepsNotes event)
  | .answer accounts =>
    inferInstanceAs (Decidable (AnswerKeeps system.world accounts system.phase))
  | .operate => inferInstanceAs (Decidable (OperateKeeps system.world system.phase))
  | .request _ _ | .proceed _ | .proceedFails _ | .elapse _ | .begin | .noAnswer | .operateFails
  | .finish | .finishFails _ => isTrue trivial

/-- What is left of a turn notes nothing wrong, the other turns have not begun, and whoever is noted
is listed with its hiscores or has a turn to come. -/
structure NotesRight (accounts : List HubAccount) (todo : List (HubAccount × SyncProgram Unit))
    (world : World) : Prop where
  flags : FlagsListed accounts (todo.map Prod.fst) world
  head : ∀ account program rest, todo = (account, program) :: rest →
    FlagSafe accounts (account :: rest.map Prod.fst) account
      (fun _ world ↦ validName account.name = true → ¬ Revoked account world) program world
  rest : ∀ entry ∈ todo.tail, entry.2 = processAccount entry.1
  listed : ∀ entry ∈ todo, entry.1 ∈ accounts

/-- What holds all along. -/
def NotesInvariant (system : System) : Prop :=
  match system.phase with
  | .processing poll todo =>
    poll.full = true → poll.clean = true → NotesRight poll.accounts todo system.world
  | .finished poll => poll.full = true → poll.clean = true →
    ∀ id ∈ system.world.directory.hiscores, SharedBy poll.accounts id
  | _ => True

/-- A step of a request leaves the notes as they are. -/
theorem keepsFlags_next (request : AdminRequest) (world : World) :
    KeepsFlags world (request.next world).1 := by
  constructor
  unfold AdminRequest.next
  cases request.stage with
  | arrived =>
    dsimp only
    split
    · rfl
    · cases request.action with
      | setHidden hidden =>
        dsimp only
        split <;> rfl
      | delete => rfl
  | written => rfl
  | found id => cases id <;> cases request.action <;> rfl
  | flagged => simp
  | unbound => rfl

theorem NotesRight.keep {accounts : List HubAccount} {todo : List (HubAccount × SyncProgram Unit)}
    {world world' : World} (h : NotesRight accounts todo world) (hkeep : KeepsFlags world world') :
    NotesRight accounts todo world' where
  flags := h.flags.keep hkeep
  head account program rest htodo :=
    (h.head account program rest htodo).later (fun h h' ↦ ⟨h'.hiscores.trans h.hiscores⟩) hkeep
  rest := h.rest
  listed := h.listed

/-- Turns that have not begun. -/
theorem notesRight_fresh {accounts : List HubAccount} {todo : List (HubAccount × SyncProgram Unit)}
    {world : World} (hflags : FlagsListed accounts (todo.map Prod.fst) world)
    (hfresh : ∀ entry ∈ todo, entry.2 = processAccount entry.1)
    (hlisted : ∀ entry ∈ todo, entry.1 ∈ accounts) : NotesRight accounts todo world where
  flags := hflags
  head account program rest htodo := by
    subst htodo
    have hprogram : program = processAccount account := hfresh (account, program) (by simp)
    rw [hprogram]
    exact flagSafe_processAccount (hlisted (account, program) (by simp)) hflags
  rest entry hentry := hfresh entry (List.mem_of_mem_tail hentry)
  listed := hlisted

/-- The end of a turn. -/
theorem NotesRight.pop {accounts : List HubAccount} {account : HubAccount}
    {program : SyncProgram Unit} {rest : List (HubAccount × SyncProgram Unit)} {world : World}
    (h : NotesRight accounts ((account, program) :: rest) world)
    (hright : validName account.name = true → ¬ Revoked account world) :
    NotesRight accounts rest world := by
  refine notesRight_fresh (fun id hid ↦ ?_) h.rest fun entry hentry ↦
    h.listed entry (List.mem_cons_of_mem _ hentry)
  obtain hshared | ⟨other, hother, rfl, hvalid⟩ := h.flags id hid
  · exact .inl hshared
  · obtain rfl | hother := List.mem_cons.mp hother
    · refine .inl ⟨other, h.listed _ List.mem_cons_self, rfl, ?_⟩
      by_contra hshares
      exact hright hvalid ⟨hid, by simpa using hshares⟩
    · exact .inr ⟨other, hother, rfl, hvalid⟩

/-- An operation of the sync. -/
theorem NotesRight.exec {accounts : List HubAccount} {account : HubAccount} {op : Op}
    {next : Answer op → SyncProgram Unit} {rest : List (HubAccount × SyncProgram Unit)}
    {world after : World} {answer : Answer op}
    (h : NotesRight accounts ((account, .call op next) :: rest) world)
    (hreads : ReadsShown account op world) (hexec : Sync.exec op world = some (answer, after)) :
    NotesRight accounts ((account, next answer) :: rest) after := by
  obtain ⟨hflags, hsafe⟩ := (h.head account _ rest rfl world ⟨rfl⟩ h.flags).2 hreads answer after hexec
  refine ⟨hflags, ?_, h.rest, fun entry hentry ↦ ?_⟩
  · rintro _ _ _ ⟨⟩
    exact hsafe
  · obtain rfl | hentry := List.mem_cons.mp hentry
    · exact h.listed (account, .call op next) List.mem_cons_self
    · exact h.listed entry (List.mem_cons_of_mem _ hentry)

/-- An operation that is not a statement and fails ends its turn; nothing was noted before it. -/
theorem NotesRight.fail {accounts : List HubAccount} {account : HubAccount} {op : Op}
    {next : Answer op → SyncProgram Unit} {rest : List (HubAccount × SyncProgram Unit)} {world : World}
    (h : NotesRight accounts ((account, .call op next) :: rest) world) (hfallible : op.fallible = true)
    (hstatement : op.statement = false) : NotesRight accounts rest world := by
  have hlost := (h.head account _ rest rfl world ⟨rfl⟩ h.flags).1
  apply h.pop
  intro _
  cases op <;> first | exact hlost | exact absurd hfallible (by simpa [Op.statement] using hstatement)

section Steps

variable {world : World} {requests : List AdminRequest} {lastFull : Option ℤ} {poll : Poll}
  {todo : List (HubAccount × SyncProgram Unit)}

theorem notesInvariant_operate
    (h : poll.full = true → poll.clean = true → NotesRight poll.accounts todo world)
    (hkeeps : OperateKeeps world (.processing poll todo)) :
    (operate { world, requests, lastFull, phase := .processing poll todo } poll todo).NotesInvariant := by
  match todo, h with
  | [], h => exact h
  | (account, .done _) :: rest, h =>
    intro hfull hclean
    have hright := h hfull hclean
    exact hright.pop (hright.head account _ rest rfl _ ⟨rfl⟩ hright.flags)
  | (account, .call op next) :: rest, h =>
    unfold operate
    dsimp only
    cases hexec : exec op world with
    | none => exact fun _ hclean ↦ absurd hclean (by simp)
    | some answered => exact fun hfull hclean ↦ (h hfull hclean).exec (hkeeps hfull hclean) hexec

theorem notesInvariant_operateFails
    (h : poll.full = true → poll.clean = true → NotesRight poll.accounts todo world) :
    (operateFails { world, requests, lastFull, phase := .processing poll todo } poll
      todo).NotesInvariant := by
  match todo, h with
  | [], h => exact h
  | (account, .done _) :: rest, h => exact h
  | (account, .call op next) :: rest, h =>
    unfold operateFails
    dsimp only
    split
    · next hfallible =>
      intro hfull hclean
      obtain ⟨hclean, hstatement⟩ : poll.clean = true ∧ op.statement = false := by
        simpa using hclean
      exact (h hfull hclean).fail hfallible hstatement
    · exact h

/-- With no turn to come, whoever is noted is listed with its hiscores. -/
theorem notesInvariant_finishPoll
    (h : poll.full = true → poll.clean = true → NotesRight poll.accounts [] world) :
    (finishPoll { world, requests, lastFull, phase := .processing poll [] } poll).NotesInvariant := by
  have hshared (hfull : poll.full = true) (hclean : poll.clean = true) :
      ∀ id ∈ world.directory.hiscores, SharedBy poll.accounts id := by
    intro id hid
    simpa using (h hfull hclean).flags id hid
  unfold finishPoll
  split
  · exact hshared
  · exact hshared

theorem notesInvariant_finishPollFails {cleared : Bool}
    (h : poll.full = true → poll.clean = true → NotesRight poll.accounts [] world) :
    (finishPollFails { world, requests, lastFull, phase := .processing poll [] } poll
      cleared).NotesInvariant := by
  unfold finishPollFails
  split
  · trivial
  · exact h

end Steps

/-- A step of a request. -/
theorem notesInvariant_proceed {n : ℕ} (h : system.NotesInvariant) :
    (system.step fullRefresh (.proceed n)).NotesInvariant := by
  obtain ⟨world, requests, lastFull, phase⟩ := system
  unfold step
  dsimp only
  cases hrequest : requests[n]? with
  | none => exact h
  | some request =>
    cases phase with
    | processing poll todo => exact fun hfull hclean ↦ (h hfull hclean).keep (keepsFlags_next request world)
    | idle | fetching _ _ | finished _ => trivial

/-- The answer of a poll: no turn has begun. -/
theorem notesInvariant_answer {accounts : List HubAccount} (h : system.NotesInvariant)
    (hkeeps : system.KeepsNotes (.answer accounts)) :
    (system.step fullRefresh (.answer accounts)).NotesInvariant := by
  obtain ⟨world, requests, lastFull, phase⟩ := system
  cases phase with
  | fetching full quiet =>
    refine fun hfull _ ↦ notesRight_fresh ?_ (by simp) (by simp)
    rw [List.map_map, show Prod.fst ∘ (fun account ↦ (account, processAccount account)) = id from rfl,
      List.map_id]
    exact hkeeps hfull
  | idle | processing _ _ | finished _ => exact h

/-- No step breaks it that meets what it has to. -/
theorem notesInvariant_step {event : Event} (h : system.NotesInvariant)
    (hkeeps : system.KeepsNotes event) : (system.step fullRefresh event).NotesInvariant := by
  obtain ⟨world, requests, lastFull, phase⟩ := system
  cases event with
  | proceed n => exact notesInvariant_proceed h
  | answer accounts => exact notesInvariant_answer h hkeeps
  | request memberName action => cases phase <;> first | exact h | trivial
  | proceedFails n =>
    unfold step
    dsimp only
    split
    · cases phase <;> first | exact h | trivial
    · exact h
  | elapse now =>
    cases phase with
    | processing poll todo => exact fun hfull hclean ↦ (h hfull hclean).keep ⟨rfl⟩
    | idle | fetching _ _ | finished _ => exact h
  | begin => cases phase <;> first | exact h | trivial
  | noAnswer => cases phase <;> exact h
  | operate =>
    cases phase with
    | processing poll todo => exact notesInvariant_operate h hkeeps
    | idle | fetching _ _ | finished _ => exact h
  | operateFails =>
    cases phase with
    | processing poll todo => exact notesInvariant_operateFails h
    | idle | fetching _ _ | finished _ => exact h
  | finish =>
    cases phase with
    | processing poll todo =>
      cases todo with
      | nil => exact notesInvariant_finishPoll h
      | cons entry rest => exact h
    | idle | fetching _ _ | finished _ => exact h
  | finishFails cleared =>
    cases phase with
    | processing poll todo =>
      cases todo with
      | nil => exact notesInvariant_finishPollFails h
      | cons entry rest => exact h
    | idle | fetching _ _ | finished _ => exact h

/-- In every run whose steps meet what they have to, the notes are exact after every full poll in
which no statement failed. -/
theorem hiscoresKept_of_keepsNotes (members : Members) (now fullRefresh : ℤ) (events : List Event)
    (h : Run.Along (fun system ↦ system.step fullRefresh) KeepsNotes (boot members now) events) :
    Run.Always (fun system ↦ system.step fullRefresh) HiscoresKept (boot members now) events := by
  have hinvariant := Run.always_of_along (P := NotesInvariant)
    (fun _ _ hsystem hkeeps ↦ notesInvariant_step hsystem hkeeps)
    (show (boot members now).NotesInvariant from trivial) h
  refine hinvariant.mono fun system hsystem poll hphase hfull hclean ↦ ?_
  rw [NotesInvariant, hphase] at hsystem
  exact hiscoresExact_of_flags (hsystem hfull hclean)

/-- An account of which the hub shares its name and these categories. -/
def sharingAccount (id name : String) (categories : List String) : HubAccount :=
  { plainAccount id name with categories }

/-- One account stops sharing its hiscores, another one that shares them is hidden. -/
theorem hiscoresKept_stops : Run.Always (fun system ↦ system.step 0) HiscoresKept
    (boot Table.empty 0)
    (pollOf [sharingAccount "a" "Alpha" ["hiscores"], sharingAccount "b" "Bravo" ["hiscores"]] ++
      requestOf "Bravo" (.setHidden true) ++
      pollOf [sharingAccount "a" "Alpha" [], sharingAccount "b" "Bravo" ["hiscores"]]) :=
  hiscoresKept_of_keepsNotes _ _ _ _ (by decide +kernel)

/-- The only account leaves: what was noted of it stays. -/
def sharerLeft : List Event := pollOf [sharingAccount "a" "Alpha" ["hiscores"]] ++ pollOf []

theorem hiscoresKept_fails_left :
    ¬ Run.Always (fun system ↦ system.step 0) HiscoresKept (boot Table.empty 0) sharerLeft := by
  intro h
  obtain ⟨poll, hphase, hpoll⟩ := endsIn_iff.mp (show (sharerLeft.foldl (fun system ↦ system.step 0)
    (boot Table.empty 0)).phase.endsIn (fun poll ↦ poll.full && poll.clean &&
      poll.accounts.isEmpty) = true by decide +kernel)
  simp only [Bool.and_eq_true, List.isEmpty_iff] at hpoll
  obtain ⟨⟨hfull, hclean⟩, haccounts⟩ := hpoll
  have hnoted : (sharerLeft.foldl (fun system ↦ system.step 0)
    (boot Table.empty 0)).world.directory.sharesHiscores "a" = true := by decide +kernel
  obtain ⟨account, haccount, -⟩ := (h.final poll hphase hfull hclean).flags "a" hnoted
  rw [haccounts] at haccount
  exact absurd haccount (by simp)

end System

end OsrsMap.Sync
