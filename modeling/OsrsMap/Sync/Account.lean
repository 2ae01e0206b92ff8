import OsrsMap.Library.Program
import OsrsMap.Sync.Directory

/-!
# Processing an account

`HubSync::process_account` (`server/src/hub/sync.rs`) as a program: its statements, the directory's
methods, what it reads and writes of what the sync knows, and the sections it sends are its atomic
operations, so that admins and failing statements can come in between.
-/

namespace OsrsMap.Sync

/-- The sections of a member; none where there is nothing new. -/
abbrev MemberSections := Section → Option Payload

/-- One account of a snapshot. `sections` is what `MemberSections::from_account` makes of the rest
of it, given what was sent before; `locationStale` is of its location, if it has one. Times are
milliseconds. -/
structure HubAccount where
  id : String
  name : String
  accountHash : Option String
  categories : List String
  online : Option Bool
  locationStale : Option Bool
  lastSeen : Option ℤ
  sections : Option MemberSections → MemberSections

/-- An account of which the hub shares nothing but its name. -/
def plainAccount (id name : String) : HubAccount where
  id := id
  name := name
  accountHash := none
  categories := []
  online := none
  locationStale := none
  lastSeen := none
  sections _ _ := none

/-- What the sync remembers about a hub account between polls. -/
structure KnownAccount where
  memberName : String
  hidden : Bool
  sent : Option MemberSections
  presence : Option (Bool × ℤ)

/-- An update for the batcher. -/
structure MemberData where
  name : String
  sections : MemberSections

/-- `PRESENCE_REFRESH`. -/
def presenceRefresh : ℤ := 60 * 1000

/-- What a program of the sync may do. -/
inductive Op where
  | getMemberByHubId (id : String)
  | findMemberForHubAccount (accountHash : Option String) (name : String)
  | ensureMemberExists (name : String)
  | bindHubAccount (name id : String) (accountHash : Option String)
  | renameHubMember (original new : String)
  | setHubPresence (name : String) (online : Bool) (lastSeen : Option ℤ)
  | setHidden (id : String) (hidden : Bool)
  | bind (id name : String)
  | removeMember (name : String)
  | setSharesHiscores (id : String) (shares : Bool)
  | getKnown (id : String)
  | setKnown (id : String) (account : KnownAccount)
  | send (id : String) (member : MemberData)
  | now

/-- What an operation answers with. -/
abbrev Answer : Op → Type
  | .getMemberByHubId _ | .findMemberForHubAccount _ _ => Option HubMemberRow
  | .getKnown _ => Option KnownAccount
  | .now => ℤ
  | _ => Unit

/-- What the sync, the admins and the history endpoints share. `outbox` is what was sent to the
batcher, with the account it was sent for. -/
structure World where
  members : Members
  directory : HubDirectory
  control : List String
  known : String → Option KnownAccount
  outbox : List (String × MemberData)
  clock : ℤ

/-- What an operation does; there is no answer when the database refuses it. -/
def exec : (op : Op) → World → Option (Answer op × World)
  | .getMemberByHubId id, world => some (world.members.getMemberByHubId id, world)
  | .findMemberForHubAccount accountHash name, world =>
    some (world.members.findMemberForHubAccount accountHash name, world)
  | .ensureMemberExists name, world =>
    (world.members.ensureMemberExists name).map fun members ↦ ((), { world with members })
  | .bindHubAccount name id accountHash, world =>
    (world.members.bindHubAccount name id accountHash).map fun members ↦
      ((), { world with members })
  | .renameHubMember original new, world =>
    (world.members.renameHubMember original new).map fun members ↦ ((), { world with members })
  | .setHubPresence name online lastSeen, world =>
    (world.members.setHubPresence name online lastSeen world.clock).map fun members ↦
      ((), { world with members })
  | .setHidden id hidden, world =>
    some ((), { world with directory := world.directory.setHidden id hidden })
  | .bind id name, world => some ((), { world with directory := world.directory.bind id name })
  | .removeMember name, world =>
    some ((), { world with directory := world.directory.removeMember name })
  | .setSharesHiscores id shares, world =>
    some ((), { world with directory := world.directory.setSharesHiscores id shares })
  | .getKnown id, world => some (world.known id, world)
  | .setKnown id account, world =>
    some ((), { world with known := Function.update world.known id (some account) })
  | .send id member, world => some ((), { world with outbox := world.outbox ++ [(id, member)] })
  | .now, world => some (world.clock, world)

/-- Programs of the sync. -/
abbrev SyncProgram := Program Op Answer

/-- Does an operation. -/
def perform (op : Op) : SyncProgram (Answer op) := Program.lift op

@[simp]
theorem perform_bind {α : Type} (op : Op) (next : Answer op → SyncProgram α) :
    (perform op >>= next) = Program.call op next := rfl

/-- Running on after an operation that was not refused. -/
theorem run_perform {α : Type} {op : Op} {world after : World} {answer : Answer op}
    (h : exec op world = some (answer, after)) (next : Answer op → SyncProgram α) :
    (perform op >>= next).run exec world = (next answer).run exec after :=
  Program.run_call exec h next

/-! ## The programs -/

/-- Finds or creates the member for a hub account and binds the account to it. -/
def resolveMember (account : HubAccount) : SyncProgram KnownAccount := do
  let known (memberName : String) (hidden : Bool) : KnownAccount :=
    { memberName, hidden, sent := none, presence := none }
  match (← perform (.getMemberByHubId account.id) : Option HubMemberRow) with
  | some row => pure (known row.memberName row.hidden)
  | none =>
    let existing : Option HubMemberRow ←
      perform (.findMemberForHubAccount account.accountHash account.name)
    match existing with
    | some row =>
      perform (.bindHubAccount row.memberName account.id account.accountHash)
      pure (known row.memberName row.hidden)
    | none =>
      perform (.ensureMemberExists account.name)
      perform (.bindHubAccount account.name account.id account.accountHash)
      pure (known account.name false)

/-- Follows a rename on the hub. The result is the member name to use from now on. -/
def followRename (account : HubAccount) (currentName : String) : SyncProgram String := do
  let taken : Option HubMemberRow ← perform (.findMemberForHubAccount none account.name)
  match taken.filter fun row ↦ fold row.memberName ≠ fold currentName with
  | some row =>
    perform (.bindHubAccount row.memberName account.id account.accountHash)
    pure row.memberName
  | none =>
    perform (.renameHubMember currentName account.name)
    pure account.name

/-- What the sync knows of an account, resolved first when it knows nothing. -/
def knownAccount (account : HubAccount) : SyncProgram KnownAccount := do
  let known : Option KnownAccount ← perform (.getKnown account.id)
  match known with
  | some known => pure known
  | none =>
    let known ← resolveMember account
    perform (.setHidden account.id known.hidden)
    if known.hidden then perform (.removeMember known.memberName)
    else perform (.bind account.id known.memberName)
    perform (.setKnown account.id known)
    pure known

/-- The member name of a known account, after its rename on the hub if there was one. -/
def followName (account : HubAccount) (known : KnownAccount) : SyncProgram KnownAccount := do
  if known.memberName = account.name then pure known
  else
    let memberName ← followRename account known.memberName
    perform (.setKnown account.id { known with memberName })
    perform (.bind account.id memberName)
    -- A new name has no data on the site yet; everything is sent again.
    let known := { known with memberName, sent := none }
    perform (.setKnown account.id known)
    pure known

/-- `section_changed`. -/
def sectionChanged (previous : Option MemberSections) (current : MemberSections)
    (part : Section) : Bool :=
  previous.all fun previous ↦ previous part ≠ current part

/-- Sends the sections that changed since they were last sent. -/
def sendSections (account : HubAccount) (known : KnownAccount) : SyncProgram KnownAccount := do
  let current := account.sections known.sent
  let changed := sections.filter (sectionChanged known.sent current)
  if changed.isEmpty then pure known
  else
    let member : MemberData :=
      { name := known.memberName
        sections := fun part ↦ if part ∈ changed then current part else none }
    perform (.send account.id member)
    let known := { known with sent := some current }
    perform (.setKnown account.id known)
    pure known

/-- Writes the presence when it flipped, and otherwise at most once a minute. -/
def writePresence (account : HubAccount) (known : KnownAccount) : SyncProgram Unit := do
  let online := account.online.getD (account.locationStale = some false)
  let now : ℤ ← perform .now
  if known.presence.all fun (wasOnline, at_) ↦ wasOnline ≠ online ∨ presenceRefresh ≤ now - at_ then
    perform (.setHubPresence known.memberName online account.lastSeen)
    let now : ℤ ← perform .now
    perform (.setKnown account.id { known with presence := some (online, now) })
  else pure ()

def processAccount (account : HubAccount) : SyncProgram Unit := do
  if !validName account.name then pure ()
  else
    let known ← knownAccount account
    if known.hidden then pure ()
    else
      perform (.setSharesHiscores account.id (account.categories.contains "hiscores"))
      let known ← followName account known
      let known ← sendSections account known
      writePresence account known

/-! ## A snapshot -/

namespace World

/-- Processes an account with nothing in between. -/
def processAccount (world : World) (account : HubAccount) : World :=
  ((Sync.processAccount account).run exec world).2

/-- What a full snapshot is followed by: accounts that left are forgotten and marked. -/
def finishFull (world : World) (accounts : List HubAccount) : World :=
  let visible := accounts.map (·.id)
  { world with
    known := fun id ↦ if id ∈ visible then world.known id else none
    members := (world.members.markHubOrphans visible world.clock).getD world.members }

/-- `process`, with nothing in between. -/
def process (world : World) (accounts : List HubAccount) (full : Bool) : World :=
  let world := accounts.foldl processAccount world
  if full then world.finishFull accounts else world

end World

end OsrsMap.Sync
