import OsrsMap.Library.Run
import OsrsMap.Sync.Account

/-!
# Polls and admin requests

The sync's task (`HubSync::poll_once`, `process`) next to the requests of admins
(`delete_player`, `set_player_hidden` in `server/src/admin_routes.rs`), one atomic step at a time:
a statement, a method of the directory, a message. Requests may come and go on anywhere in a poll,
and the database may fail any statement.
-/

namespace OsrsMap.Sync

/-! ## Admin requests -/

inductive AdminAction where
  | setHidden (hidden : Bool)
  | delete
deriving DecidableEq, Repr

/-- How far a request got. -/
inductive AdminStage where
  | arrived
  | written
  | found (id : Option String)
  | flagged
  | unbound
deriving DecidableEq, Repr

structure AdminRequest where
  memberName : String
  action : AdminAction
  stage : AdminStage
deriving DecidableEq, Repr

/-- The next step of a request: `set_member_hidden` or `delete_member` (no such player ends it),
for a player hidden or shown `hub_id` and `set_hidden`, then `remove_member` and `forget_member`. -/
def AdminRequest.next (request : AdminRequest) (world : World) : World × Option AdminRequest :=
  match request.stage with
  | .arrived =>
    if (world.members.find (MemberRow.named request.memberName)).isNone then (world, none)
    else
      match request.action with
      | .setHidden hidden =>
        match Members.setMemberHidden world.members request.memberName hidden with
        | some members => ({ world with members }, some { request with stage := .written })
        | none => (world, none)
      | .delete =>
        ({ world with members := Members.deleteMember world.members request.memberName },
          some { request with stage := .flagged })
  | .written =>
    (world, some { request with stage := .found (world.directory.hubId request.memberName) })
  | .found id =>
    let directory :=
      match id, request.action with
      | some id, .setHidden hidden => world.directory.setHidden id hidden
      | _, _ => world.directory
    ({ world with directory }, some { request with stage := .flagged })
  | .flagged =>
    ({ world with directory := world.directory.removeMember request.memberName },
      some { request with stage := .unbound })
  | .unbound => ({ world with control := world.control ++ [fold request.memberName] }, none)

/-! ## Polls -/

/-- A poll that got an answer. Not of the code: whether no request was under way since it began,
whether no statement failed, and how much had been sent before it. -/
structure Poll where
  accounts : List HubAccount
  full : Bool
  quiet : Bool
  clean : Bool
  mark : ℕ

inductive Phase where
  | idle
  | fetching (full quiet : Bool)
  /-- What is left to run for each account whose turn is not over. -/
  | processing (poll : Poll) (todo : List (HubAccount × SyncProgram Unit))
  /-- Idle again, right after a poll. -/
  | finished (poll : Poll)

/-- Notes a step of a request. -/
def Phase.disturbed : Phase → Phase
  | .fetching full _ => .fetching full false
  | .processing poll todo => .processing { poll with quiet := false } todo
  | .idle | .finished _ => .idle

/-- Right after a poll like that. -/
def Phase.endsIn (p : Poll → Bool) : Phase → Bool
  | .finished poll => p poll
  | _ => false

structure System where
  world : World
  requests : List AdminRequest
  lastFull : Option ℤ
  phase : Phase

/-- Operations that may fail: statements and the channel to the batcher. -/
def Op.fallible : Op → Bool
  | .getMemberByHubId _ | .findMemberForHubAccount _ _ | .ensureMemberExists _
  | .bindHubAccount _ _ _ | .renameHubMember _ _ | .setHubPresence _ _ _ | .send _ _ => true
  | _ => false

/-- Whether it is the database that fails there. -/
def Op.statement : Op → Bool
  | .send _ _ => false
  | op => op.fallible

inductive Event where
  | request (memberName : String) (action : AdminAction)
  /-- The next step of a request under way. -/
  | proceed (request : ℕ)
  /-- The statement of a request fails. -/
  | proceedFails (request : ℕ)
  | elapse (now : ℤ)
  | begin
  | answer (accounts : List HubAccount)
  /-- An error, or nothing new. -/
  | noAnswer
  /-- The next operation of the sync. -/
  | operate
  | operateFails
  | finish
  /-- One of the two statements that mark the orphans fails. -/
  | finishFails (cleared : Bool)

namespace World

/-- Drops what the sync knows about members an admin changed. -/
def applyControl (world : World) : World :=
  { world with
    known := fun id ↦ (world.known id).filter fun known ↦ fold known.memberName ∉ world.control
    control := [] }

end World

namespace System

/-- Start-up. -/
def boot (members : Members) (now : ℤ) : System where
  world :=
    { members
      directory := HubDirectory.load members
      control := []
      known := fun _ ↦ none
      outbox := []
      clock := now }
  requests := []
  lastFull := none
  phase := .idle

variable (system : System) (fullRefresh : ℤ)

/-- `apply_control`, and whether the poll is a full one. -/
def beginPoll : System :=
  let lastFull := if system.world.control = [] then system.lastFull else none
  let full := lastFull.all fun at_ ↦ fullRefresh ≤ system.world.clock - at_
  { system with
    world := system.world.applyControl
    lastFull
    phase := .fetching full (system.requests = []) }

/-- The sync's next operation: the `?` of one that fails ends the account's turn. -/
def operate (poll : Poll) : List (HubAccount × SyncProgram Unit) → System
  | [] => system
  | (_, .done _) :: rest => { system with phase := .processing poll rest }
  | (account, .call op next) :: rest =>
    match exec op system.world with
    | some (answer, world) =>
      { system with world, phase := .processing poll ((account, next answer) :: rest) }
    | none => { system with phase := .processing { poll with clean := false } rest }

def operateFails (poll : Poll) : List (HubAccount × SyncProgram Unit) → System
  | (_, .call op _) :: rest =>
    if op.fallible then
      { system with phase := .processing { poll with clean := poll.clean && !op.statement } rest }
    else system
  | _ => system

/-- The end of `process` and of the poll. -/
def finishPoll (poll : Poll) : System :=
  if poll.full then
    { system with
      world := system.world.finishFull poll.accounts
      lastFull := some system.world.clock
      phase := .finished poll }
  else { system with phase := .finished poll }

/-- The end of `process` when marking fails: the accounts that left are forgotten all the same. -/
def finishPollFails (poll : Poll) (cleared : Bool) : System :=
  if poll.full then
    let visible := poll.accounts.map (·.id)
    { system with
      world :=
        { system.world with
          known := (system.world.finishFull poll.accounts).known
          members :=
            if cleared then
              (Members.clearHubOrphans system.world.members visible).getD system.world.members
            else system.world.members }
      phase := .idle }
  else system

def step : Event → System
  | .request memberName action =>
    { system with
      requests := system.requests ++ [{ memberName, action, stage := .arrived }]
      phase := system.phase.disturbed }
  | .proceed n =>
    match system.requests[n]? with
    | some request =>
      let (world, request') := request.next system.world
      { system with
        world
        requests := system.requests.take n ++ request'.toList ++ system.requests.drop (n + 1)
        phase := system.phase.disturbed }
    | none => system
  | .proceedFails n =>
    if (system.requests[n]?).any fun request ↦ request.stage = .arrived then
      { system with
        requests := system.requests.eraseIdx n
        phase := system.phase.disturbed }
    else system
  | .elapse now => { system with world := { system.world with clock := now } }
  | .begin =>
    match system.phase with
    | .idle | .finished _ => system.beginPoll fullRefresh
    | _ => system
  | .answer accounts =>
    match system.phase with
    | .fetching full quiet =>
      let poll : Poll :=
        { accounts, full, quiet, clean := true, mark := system.world.outbox.length }
      { system with
        phase := .processing poll (accounts.map fun account ↦ (account, processAccount account)) }
    | _ => system
  | .noAnswer =>
    match system.phase with
    | .fetching _ _ => { system with phase := .idle }
    | _ => system
  | .operate =>
    match system.phase with
    | .processing poll todo => system.operate poll todo
    | _ => system
  | .operateFails =>
    match system.phase with
    | .processing poll todo => system.operateFails poll todo
    | _ => system
  | .finish =>
    match system.phase with
    | .processing poll [] => system.finishPoll poll
    | _ => system
  | .finishFails cleared =>
    match system.phase with
    | .processing poll [] => system.finishPollFails poll cleared
    | _ => system

/-! ## Whole polls and requests -/

/-- An answer that is processed with nothing in between; no turn takes more steps. -/
def answerOf (accounts : List HubAccount) : List Event :=
  [.answer accounts] ++ List.replicate (16 * accounts.length) .operate ++ [.finish]

def pollOf (accounts : List HubAccount) : List Event := .begin :: answerOf accounts

/-- The only request, with nothing in between. -/
def requestOf (memberName : String) (action : AdminAction) : List Event :=
  .request memberName action :: List.replicate 5 (.proceed 0)

theorem endsIn_iff {p : Poll → Bool} {phase : Phase} :
    phase.endsIn p = true ↔ ∃ poll, phase = .finished poll ∧ p poll = true := by
  cases phase <;> simp [Phase.endsIn]

end System

end OsrsMap.Sync
