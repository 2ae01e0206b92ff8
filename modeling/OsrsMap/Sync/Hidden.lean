import OsrsMap.Sync.HiddenTurn

/-!
# Hidden stays hidden

A request only makes the sync wrong about accounts that it knows under the name of the request, and
those it drops before the next poll. So once the requests are through, a full poll finds every
listed account right, or new to it.
-/

namespace OsrsMap.Sync

/-- Right after a full poll in which no statement failed and no request was under way: what is
hidden is hidden everywhere, and the poll sent nothing for it. -/
def System.HiddenStays (system : System) : Prop :=
  ∀ poll, system.phase = .finished poll → poll.full = true → poll.clean = true →
    poll.quiet = true → ∀ account ∈ poll.accounts, FlagRight system.world account.id ∧
      (HiddenRow system.world.members account.id →
        ∀ sent ∈ system.world.outbox.drop poll.mark, sent.1 ≠ account.id)

namespace Scene

/-! ## A step of a request -/

section Request

variable {mark : ℕ} {unnamed : List String} {scene : Scene} {request : AdminRequest}

/-- What a step of a request has to meet: the account of the row it writes is known by the name it
was made for, if it is known, and the account it flags has no row and is not known by another name
that is not to be dropped. -/
def RequestKeeps (request : AdminRequest) (scene : Scene) : Prop :=
  match request.stage with
  | .arrived =>
    ∀ row ∈ scene.world.members.rows, row.named request.memberName = true →
      ∀ id ∈ row.hubAccountId, ∀ known ∈ scene.world.known id,
        scene.Covers known.memberName ∨ fold known.memberName = fold request.memberName
  | .found (some id) =>
    (∀ row ∈ scene.world.members.rows, row.hubAccountId = some id → scene.Covers row.memberName) ∧
      ∀ known ∈ scene.world.known id, scene.Covers known.memberName
  | _ => True

instance (request : AdminRequest) (scene : Scene) : Decidable (RequestKeeps request scene) := by
  unfold RequestKeeps
  split <;> infer_instance

/-- What a step of a request leaves as it is. -/
structure Spares (scene after : Scene) : Prop where
  known : after.world.known = scene.world.known
  outbox : after.world.outbox = scene.world.outbox
  covers : ∀ name, scene.Covers name → after.Covers name
  kept : ∀ row ∈ scene.world.members, after.Covers row.memberName ∨ row ∈ after.world.members
  old : ∀ row ∈ after.world.members, ∃ before ∈ scene.world.members,
    before.memberName = row.memberName ∧ before.hubAccountId = row.hubAccountId
  rows : ∀ id known, scene.world.known id = some known → ¬ after.Covers known.memberName →
    (HiddenRow after.world.members id ↔ HiddenRow scene.world.members id)
  hidden : ∀ id, after.world.directory.isHidden id = scene.world.directory.isHidden id ∨
    (∀ row ∈ scene.world.members, row.hubAccountId = some id → scene.Covers row.memberName) ∧
      ∀ known, scene.world.known id = some known → scene.Covers known.memberName
  unbound : ∀ id, scene.world.directory.memberName id = none →
    after.world.directory.memberName id = none
  inverse : scene.world.directory.Inverse → after.world.directory.Inverse

theorem Spares.others {after : Scene} (h : Spares scene after) : Others scene after where
  known := h.known
  covers := h.covers
  kept := h.kept
  old := h.old
  hidden id := by
    obtain hsame | ⟨hrows, -⟩ := h.hidden id
    · exact .inl hsame
    · refine .inr fun row hrow hid ↦ ?_
      obtain ⟨before, hbefore, hname, hid'⟩ := h.old row hrow
      rw [← hname]
      exact h.covers _ (hrows before hbefore (hid'.trans hid))
  unbound := h.unbound

theorem Spares.right {after : Scene} (h : Spares scene after) (hquiet : after.quiet = false)
    (hright : Right mark unnamed scene) : Right mark unnamed after where
  inverse := h.inverse hright.inverse
  known id known hknown hcovers := by
    rw [h.known] at hknown
    have hbefore := hright.known id known hknown fun hc ↦ hcovers (h.covers _ hc)
    refine ⟨?_, (h.rows id known hknown hcovers).trans hbefore.row,
      fun hhidden ↦ h.unbound id (hbefore.unbound hhidden)⟩
    obtain hsame | ⟨-, hknowns⟩ := h.hidden id
    · exact hsame.trans hbefore.flag
    · exact absurd (h.covers _ (hknowns known hknown)) hcovers
  sent entry hentry := by
    rw [h.outbox] at hentry
    rw [h.known]
    exact hright.sent entry hentry
  unnamed hafter := absurd hafter (by simp [hquiet])

/-- Nothing but who is pending changes. -/
theorem spares_of_world {after : Scene} (hmembers : after.world.members = scene.world.members)
    (hdirectory : after.world.directory = scene.world.directory)
    (hknown : after.world.known = scene.world.known) (houtbox : after.world.outbox = scene.world.outbox)
    (hcovers : ∀ name, scene.Covers name → after.Covers name) : Spares scene after where
  known := hknown
  outbox := houtbox
  covers := hcovers
  kept row hrow := .inr (hmembers ▸ hrow)
  old row hrow := ⟨row, hmembers ▸ hrow, rfl, rfl⟩
  rows _ _ _ _ := by rw [hmembers]
  hidden id := .inl (by rw [hdirectory])
  unbound id h := by rwa [hdirectory]
  inverse h := by rwa [hdirectory]

/-- The rows of a name are written, and whoever is known and has such a row is known by it. -/
theorem spares_of_rows {after : Scene} {name : String} {members : Members}
    (hworld : after.world = { scene.world with members })
    (hcovers : ∀ other, scene.Covers other → after.Covers other)
    (hname : ∀ other, fold other = fold name → after.Covers other)
    (hothers : ∀ row, row.named name = false → (row ∈ members ↔ row ∈ scene.world.members))
    (hold : ∀ row ∈ members, ∃ before ∈ scene.world.members,
      before.memberName = row.memberName ∧ before.hubAccountId = row.hubAccountId)
    (hkeeps : ∀ row ∈ scene.world.members.rows, row.named name = true →
      ∀ id ∈ row.hubAccountId, ∀ known ∈ scene.world.known id,
        scene.Covers known.memberName ∨ fold known.memberName = fold name) :
    Spares scene after := by
  have hnamed (row : MemberRow) (hrow : row.named name = true) : after.Covers row.memberName :=
    hname _ (Members.named_eq_true.mp hrow)
  have hmembers : after.world.members = members := by rw [hworld]
  refine ⟨by rw [hworld], by rw [hworld], hcovers, fun row hrow ↦ ?_, by rwa [hmembers],
    fun id known hknown hnot ↦ ?_, fun id ↦ .inl (by rw [hworld]), by simp [hworld], by simp [hworld]⟩
  · cases hrowNamed : row.named name with
    | true => exact .inl (hnamed row hrowNamed)
    | false => exact .inr (hmembers ▸ (hothers row hrowNamed).mpr hrow)
  · -- No row of the account has the name, before or after.
    have hfree (row : MemberRow) (hrow : row ∈ scene.world.members) (hid : row.hubAccountId = some id) :
        row.named name = false := by
      by_contra hrowNamed
      obtain hcover | hfold := hkeeps row hrow (by simpa using hrowNamed) id hid known hknown
      · exact hnot (hcovers _ hcover)
      · exact hnot (hname _ hfold)
    rw [hmembers]
    constructor
    · rintro ⟨row, hrow, hid, hhidden⟩
      obtain ⟨before, hbefore, hsame, hid'⟩ := hold row hrow
      have hfreeRow : row.named name = false := by
        have := hfree before hbefore (hid'.trans hid)
        rwa [MemberRow.named, hsame] at this
      exact ⟨row, (hothers row hfreeRow).mp hrow, hid, hhidden⟩
    · rintro ⟨row, hrow, hid, hhidden⟩
      exact ⟨row, (hothers row (hfree row hrow hid)).mpr hrow, hid, hhidden⟩

/-- The rows of a player that an admin hides or shows. -/
theorem spares_setHidden {after : Scene} {hidden : Bool} {members : Members} {name : String}
    (hset : Members.setMemberHidden scene.world.members name hidden = some members)
    (hworld : after.world = { scene.world with members })
    (hcovers : ∀ other, scene.Covers other → after.Covers other)
    (hname : ∀ other, fold other = fold name → after.Covers other)
    (hkeeps : ∀ row ∈ scene.world.members.rows, row.named name = true →
      ∀ id ∈ row.hubAccountId, ∀ known ∈ scene.world.known id,
        scene.Covers known.memberName ∨ fold known.memberName = fold name) :
    Spares scene after := by
  refine spares_of_rows hworld hcovers hname (fun row hnamed ↦ ?_) (fun row hrow ↦ ?_) hkeeps
  · rw [Table.mem_update hset]
    constructor
    · rintro ⟨before, hbefore, rfl⟩
      have hnamed' : before.named name = false := by
        revert hnamed
        split_ifs with h
        · intro hnamed
          rw [MemberRow.named] at hnamed h
          rw [h] at hnamed
          exact absurd hnamed (by simp)
        · exact fun hnamed ↦ hnamed
      rwa [hnamed', if_neg (by simp)]
    · exact fun hrow ↦ ⟨row, hrow, by rw [hnamed, if_neg (by simp)]⟩
  · obtain ⟨before, hbefore, rfl⟩ := (Table.mem_update hset).mp hrow
    exact ⟨before, hbefore, by split_ifs <;> rfl, by split_ifs <;> rfl⟩

/-- Only what the directory has of accounts changes. -/
theorem spares_of_directory {after : Scene} {directory : HubDirectory}
    (hworld : after.world = { scene.world with directory })
    (hcovers : ∀ name, scene.Covers name → after.Covers name)
    (hhidden : ∀ id, directory.isHidden id = scene.world.directory.isHidden id ∨
      (∀ row ∈ scene.world.members, row.hubAccountId = some id → scene.Covers row.memberName) ∧
        ∀ known, scene.world.known id = some known → scene.Covers known.memberName)
    (hunbound : ∀ id, scene.world.directory.memberName id = none → directory.memberName id = none)
    (hinverse : scene.world.directory.Inverse → directory.Inverse) : Spares scene after := by
  have hmembers : after.world.members = scene.world.members := by rw [hworld]
  have hdirectory : after.world.directory = directory := by rw [hworld]
  constructor
  · rw [hworld]
  · rw [hworld]
  · exact hcovers
  · exact fun row hrow ↦ .inr (hmembers ▸ hrow)
  · exact fun row hrow ↦ ⟨row, hmembers ▸ hrow, rfl, rfl⟩
  · exact fun _ _ _ _ ↦ by rw [hmembers]
  · rwa [hdirectory]
  · rwa [hdirectory]
  · rwa [hdirectory]

/-- A step of a request that meets what it has to. -/
theorem spares_next {after : Scene} (hkeeps : RequestKeeps request scene)
    (hworld : after.world = (request.next scene.world).1)
    (hpending : ∀ name, scene.Covers name → after.Covers name)
    (hwritten : request.stage = .arrived → (request.next scene.world).2.isSome = true →
      ∀ name, fold name = fold request.memberName → after.Covers name) :
    Spares scene after := by
  have hsame (hworld : after.world = scene.world) : Spares scene after :=
    spares_of_world (by rw [hworld]) (by rw [hworld]) (by rw [hworld]) (by rw [hworld]) hpending
  unfold RequestKeeps at hkeeps
  unfold AdminRequest.next at hworld hwritten
  cases hstage : request.stage with
  | arrived =>
    rw [hstage] at hkeeps hworld hwritten
    dsimp only at hkeeps hworld hwritten
    split at hworld
    · exact hsame hworld
    · next hfound =>
      rw [if_neg hfound] at hwritten
      cases haction : request.action with
      | setHidden hidden =>
        rw [haction] at hworld hwritten
        dsimp only at hworld hwritten
        cases hset : Members.setMemberHidden scene.world.members request.memberName hidden with
        | none =>
          rw [hset] at hworld
          exact hsame hworld
        | some members =>
          rw [hset] at hworld hwritten
          exact spares_setHidden hset hworld hpending (hwritten rfl rfl) hkeeps
      | delete =>
        rw [haction] at hworld hwritten
        dsimp only at hworld hwritten
        refine spares_of_rows hworld hpending (hwritten rfl rfl) (fun row hnamed ↦ ?_)
          (fun row hrow ↦ ⟨row, (Table.mem_delete.mp hrow).1, rfl, rfl⟩) hkeeps
        exact Table.mem_delete.trans (and_iff_left hnamed)
  | written =>
    rw [hstage] at hworld
    exact hsame hworld
  | found id =>
    rw [hstage] at hkeeps hworld
    dsimp only at hworld
    cases id with
    | none => exact hsame hworld
    | some id =>
      cases haction : request.action with
      | delete =>
        rw [haction] at hworld
        exact hsame hworld
      | setHidden hidden =>
        rw [haction] at hworld
        apply spares_of_directory hworld hpending
        · intro other
          by_cases hother : other = id
          · subst hother
            exact .inr hkeeps
          · left
            simp [HubDirectory.setHidden, HubDirectory.isHidden, Function.update_of_ne hother]
        · exact fun _ h ↦ h
        · exact fun h ↦ h
  | flagged =>
    rw [hstage] at hworld
    apply spares_of_directory hworld hpending
    · exact fun other ↦ .inl (by simp [HubDirectory.isHidden])
    · exact fun _ h ↦ HubDirectory.memberName_removeMember_none h
    · exact fun h ↦ h.removeMember _
  | unbound =>
    rw [hstage] at hworld
    exact spares_of_world (by rw [hworld]) (by rw [hworld]) (by rw [hworld]) (by rw [hworld]) hpending

end Request

end Scene

namespace System

open Scene

variable {system : System} {fullRefresh : ℤ}

/-- The names of the requests that wrote to the database. -/
def pending (requests : List AdminRequest) : List String :=
  (requests.filter fun request ↦ request.stage ≠ .arrived).map fun request ↦ fold request.memberName

def scene (system : System) (quiet : Bool) : Scene where
  world := system.world
  pending := pending system.requests
  quiet := quiet

/-- The accounts of a full snapshot that get no turn: none of that id has a name the map can store. -/
def unnamed (accounts : List HubAccount) (full : Bool) : List String :=
  if full then
    (accounts.filter fun account ↦ accounts.all fun other ↦
      other.id ≠ account.id || !validName other.name).map (·.id)
  else []

theorem mem_unnamed {accounts : List HubAccount} {full : Bool} {id : String} :
    id ∈ unnamed accounts full ↔ full = true ∧ (∃ account ∈ accounts, account.id = id) ∧
      ∀ account ∈ accounts, account.id = id → validName account.name = false := by
  cases full with
  | false => simp [unnamed]
  | true =>
    simp only [unnamed, if_true, List.mem_map, List.mem_filter, List.all_eq_true, Bool.or_eq_true,
      decide_eq_true_eq, Bool.not_eq_true', true_and]
    constructor
    · rintro ⟨account, ⟨haccount, hall⟩, rfl⟩
      exact ⟨⟨account, haccount, rfl⟩, fun other hother hsame ↦
        (hall other hother).resolve_left fun hne ↦ hne hsame⟩
    · rintro ⟨⟨account, haccount, rfl⟩, hall⟩
      exact ⟨account, ⟨haccount, fun other hother ↦ or_iff_not_imp_left.mpr fun hsame ↦
        hall other hother (not_not.mp hsame)⟩, rfl⟩

/-! ## What a step has to meet -/

def ProceedKeeps (system : System) (n : ℕ) : Prop :=
  ∀ request ∈ system.requests[n]?, RequestKeeps request (system.scene false)

instance (system : System) (n : ℕ) : Decidable (system.ProceedKeeps n) :=
  inferInstanceAs (Decidable (∀ request ∈ system.requests[n]?, _))

/-- The directory is right about the listed accounts that get no turn. -/
def AnswerRight (world : World) (accounts : List HubAccount) : Phase → Prop
  | .fetching full quiet =>
    quiet = true → ∀ id ∈ unnamed accounts full, FlagRight world id
  | _ => True

instance (world : World) (accounts : List HubAccount) : (phase : Phase) →
    Decidable (AnswerRight world accounts phase)
  | .fetching full quiet =>
    inferInstanceAs (Decidable (quiet = true → ∀ id ∈ unnamed accounts full, FlagRight world id))
  | .idle | .processing _ _ | .finished _ => isTrue trivial

def OperateRight (system : System) : Phase → Prop
  | .processing poll ((account, .call op _) :: _) =>
    MayDo (unnamed poll.accounts poll.full) account op (system.scene poll.quiet)
  | _ => True

instance (system : System) : (phase : Phase) → Decidable (system.OperateRight phase)
  | .processing poll ((account, .call op _) :: _) => inferInstanceAs
      (Decidable (MayDo (unnamed poll.accounts poll.full) account op (system.scene poll.quiet)))
  | .processing _ ((_, .done _) :: _) | .processing _ [] | .idle | .fetching _ _ | .finished _ =>
    isTrue trivial

def KeepsHidden (system : System) : Event → Prop
  | .proceed n => system.ProceedKeeps n
  | .answer accounts => AnswerRight system.world accounts system.phase
  | .operate => system.OperateRight system.phase
  | _ => True

instance (system : System) : (event : Event) → Decidable (system.KeepsHidden event)
  | .proceed n => inferInstanceAs (Decidable (system.ProceedKeeps n))
  | .answer accounts => inferInstanceAs (Decidable (AnswerRight system.world accounts system.phase))
  | .operate => inferInstanceAs (Decidable (system.OperateRight system.phase))
  | .request _ _ | .proceedFails _ | .elapse _ | .begin | .noAnswer | .operateFails | .finish
  | .finishFails _ => isTrue trivial

/-! ## What holds all along -/

/-- In the middle of a poll. -/
structure TurnsRight (poll : Poll) (todo : List (HubAccount × SyncProgram Unit)) (scene : Scene) :
    Prop where
  right : Right poll.mark (unnamed poll.accounts poll.full) scene
  head : ∀ account program rest, todo = (account, program) :: rest →
    HiddenSafe poll.mark (unnamed poll.accounts poll.full) account
      (fun _ scene ↦ validName account.name = true →
        ∃ known, scene.world.known account.id = some known) program scene
  rest : ∀ entry ∈ todo.tail, entry.2 = processAccount entry.1
  listed : ∀ entry ∈ todo, entry.1 ∈ poll.accounts
  done : poll.clean = true → ∀ account ∈ poll.accounts, validName account.name = true →
    account ∈ todo.map Prod.fst ∨ ∃ known, scene.world.known account.id = some known

/-- No request is under way, and none left a name. -/
def Undisturbed (system : System) : Prop := system.requests = [] ∧ system.world.control = []

def RightNow (system : System) : Prop := ∃ mark, Right mark [] (system.scene false)

/-- What a finished poll says of its accounts. -/
def PollRight (system : System) (poll : Poll) : Prop :=
  ∀ account ∈ poll.accounts, FlagRight system.world account.id ∧
    (HiddenRow system.world.members account.id →
      ∀ sent ∈ system.world.outbox.drop poll.mark, sent.1 ≠ account.id)

def HiddenInvariant (system : System) : Prop :=
  match system.phase with
  | .idle => system.RightNow
  | .fetching _ quiet => system.RightNow ∧ (quiet = true → system.Undisturbed)
  | .processing poll todo =>
    TurnsRight poll todo (system.scene poll.quiet) ∧ (poll.quiet = true → system.Undisturbed)
  | .finished poll => system.RightNow ∧
    (poll.full = true → poll.clean = true → poll.quiet = true → system.PollRight poll)

/-! ## What a step preserves -/

theorem mem_pending {requests : List AdminRequest} {folded : String} :
    folded ∈ pending requests ↔
      ∃ request ∈ requests, request.stage ≠ .arrived ∧ fold request.memberName = folded := by
  simp [pending, and_assoc]

theorem request_split {requests : List AdminRequest} {n : ℕ} {request : AdminRequest}
    (h : requests[n]? = some request) :
    requests = requests.take n ++ request :: requests.drop (n + 1) := by
  obtain ⟨hn, hget⟩ := List.getElem?_eq_some_iff.mp h
  rw [← hget, ← List.drop_eq_getElem_cons hn, List.take_append_drop]

theorem Right.calm {mark : ℕ} {listed : List String} {scene : Scene}
    (h : Right mark listed scene) : Right mark [] { scene with quiet := false } where
  inverse := h.inverse
  known := h.known
  sent := h.sent
  unnamed := by simp

/-- Requests come, go and fail without a trace but that the poll is not quiet any more. -/
theorem spares_pending {scene after : Scene} (hworld : after.world = scene.world)
    (hpending : ∀ folded ∈ scene.pending, folded ∈ after.pending) : Spares scene after := by
  refine spares_of_world (by rw [hworld]) (by rw [hworld]) (by rw [hworld]) (by rw [hworld])
    fun name hname ↦ ?_
  obtain hname | hname := hname
  · exact .inl (hpending _ hname)
  · exact .inr (hworld ▸ hname)

theorem TurnsRight.later {poll : Poll} {todo : List (HubAccount × SyncProgram Unit)}
    {scene after : Scene} (h : TurnsRight poll todo scene) (hspares : Spares scene after)
    (hquiet : after.quiet = false) : TurnsRight { poll with quiet := false } todo after where
  right := hspares.right hquiet h.right
  head account program rest htodo := by
    refine Program.Safe.later ?_ (h.head account program rest htodo) hspares.others
    exact Others.trans
  rest := h.rest
  listed := h.listed
  done hclean account haccount hvalid := by
    rw [hspares.known]
    exact h.done hclean account haccount hvalid

/-- A step of a request, or one coming or failing. -/
theorem hiddenInvariant_spares {world : World} {requests : List AdminRequest}
    (h : system.HiddenInvariant)
    (hspares : ∀ quiet, Spares (system.scene quiet)
      { world, pending := pending requests, quiet := false }) :
    HiddenInvariant { system with world, requests, phase := system.phase.disturbed } := by
  have hnow {mark : ℕ} {listed : List String} {quiet : Bool}
      (hright : Right mark listed (system.scene quiet)) :
      RightNow { system with world, requests, phase := system.phase.disturbed } :=
    ⟨mark, Right.calm ((hspares quiet).right rfl hright)⟩
  unfold HiddenInvariant at h ⊢
  cases hphase : system.phase with
  | idle =>
    rw [hphase] at h
    obtain ⟨mark, hright⟩ := h
    simpa [Phase.disturbed, hphase] using hnow hright
  | fetching full quiet =>
    rw [hphase] at h
    obtain ⟨⟨mark, hright⟩, -⟩ := h
    simpa [Phase.disturbed, hphase] using hnow hright
  | processing poll todo =>
    rw [hphase] at h
    exact ⟨h.1.later (hspares poll.quiet) rfl, fun hquiet ↦ absurd hquiet (by simp)⟩
  | finished poll =>
    rw [hphase] at h
    obtain ⟨⟨mark, hright⟩, -⟩ := h
    simpa [Phase.disturbed, hphase] using hnow hright

/-- A request that goes on has written, and keeps its name. -/
theorem next_request {request request' : AdminRequest} {world : World}
    (h : (request.next world).2 = some request') :
    request'.stage ≠ .arrived ∧ request'.memberName = request.memberName := by
  unfold AdminRequest.next at h
  cases hstage : request.stage <;> rw [hstage] at h <;> dsimp only at h
  case arrived =>
    split at h
    · exact absurd h (by simp)
    · cases haction : request.action with
      | setHidden hidden =>
        rw [haction] at h
        dsimp only at h
        split at h
        · exact Option.some.inj h ▸ ⟨by simp, rfl⟩
        · exact absurd h (by simp)
      | delete =>
        rw [haction] at h
        exact Option.some.inj h ▸ ⟨by simp, rfl⟩
  case unbound => exact absurd h (by simp)
  all_goals exact Option.some.inj h ▸ ⟨by simp, rfl⟩

/-- One that wrote goes on until it left its name. -/
theorem next_pending {request : AdminRequest} (world : World) (h : request.stage ≠ .arrived) :
    (∃ request', (request.next world).2 = some request') ∨
      fold request.memberName ∈ (request.next world).1.control := by
  unfold AdminRequest.next
  cases hstage : request.stage <;> dsimp only
  case arrived => exact absurd hstage h
  case unbound => simp
  all_goals exact .inl ⟨_, rfl⟩

theorem control_next {request : AdminRequest} {world : World} {folded : String}
    (h : folded ∈ world.control) : folded ∈ (request.next world).1.control := by
  unfold AdminRequest.next
  cases request.stage with
  | arrived =>
    dsimp only
    split
    · exact h
    · cases request.action with
      | setHidden hidden =>
        dsimp only
        split <;> exact h
      | delete => exact h
  | written | found id | flagged => exact h
  | unbound => exact List.mem_append_left _ h

theorem hiddenInvariant_proceed {n : ℕ} {request : AdminRequest} (h : system.HiddenInvariant)
    (hrequest : system.requests[n]? = some request) (hkeeps : system.ProceedKeeps n) :
    (system.step fullRefresh (.proceed n)).HiddenInvariant := by
  have hsplit := request_split hrequest
  unfold step
  dsimp only
  rw [hrequest]
  dsimp only
  refine hiddenInvariant_spares h fun quiet ↦ ?_
  have hnext {request' : AdminRequest} (hnext : (request.next system.world).2 = some request')
      {folded : String} (hfold : fold request.memberName = folded) :
      folded ∈ pending (system.requests.take n ++ (request.next system.world).2.toList ++
        system.requests.drop (n + 1)) := by
    obtain ⟨hstage, hname⟩ := next_request hnext
    exact mem_pending.mpr ⟨request', by simp [hnext], hstage, by rw [hname, hfold]⟩
  refine spares_next (hkeeps request hrequest) rfl (fun name hcovers ↦ ?_)
    fun hstage hsome name hname ↦ ?_
  · obtain hpending | hcontrol := hcovers
    · obtain ⟨other, hother, hstage, hfold⟩ := mem_pending.mp hpending
      rw [hsplit, List.mem_append, List.mem_cons] at hother
      obtain hother | rfl | hother := hother
      · exact .inl (mem_pending.mpr ⟨other, by simp [hother], hstage, hfold⟩)
      · obtain ⟨request', hgoesOn⟩ | hleft := next_pending system.world hstage
        · exact .inl (hnext hgoesOn hfold)
        · exact .inr (hfold ▸ hleft)
      · exact .inl (mem_pending.mpr ⟨other, by simp [hother], hstage, hfold⟩)
    · exact .inr (control_next hcontrol)
  · obtain ⟨request', hgoesOn⟩ := Option.isSome_iff_exists.mp hsome
    exact .inl (hnext hgoesOn hname.symm)

/-- The sync forgets nobody in the turn of an account. -/
theorem known_exec {op : Op} {answer : Answer op} {world after : World} {id : String}
    (h : exec op world = some (answer, after)) (hknown : ∃ known, world.known id = some known) :
    ∃ known, after.known id = some known := by
  cases op <;> simp only [exec, Option.map_eq_some_iff, Option.some.injEq, Prod.mk.injEq] at h
  case setKnown other new =>
    obtain ⟨-, rfl⟩ := h
    by_cases hid : id = other
    · exact ⟨new, by simp [hid]⟩
    · simpa [hid] using hknown
  case ensureMemberExists => obtain ⟨_, -, -, rfl⟩ := h; exact hknown
  case bindHubAccount => obtain ⟨_, -, -, rfl⟩ := h; exact hknown
  case renameHubMember => obtain ⟨_, -, -, rfl⟩ := h; exact hknown
  case setHubPresence => obtain ⟨_, -, -, rfl⟩ := h; exact hknown
  all_goals obtain ⟨-, rfl⟩ := h; exact hknown

theorem control_exec {op : Op} {answer : Answer op} {world after : World}
    (h : exec op world = some (answer, after)) : after.control = world.control := by
  cases op <;> simp only [exec, Option.map_eq_some_iff, Option.some.injEq, Prod.mk.injEq] at h
  case ensureMemberExists => obtain ⟨_, -, -, rfl⟩ := h; rfl
  case bindHubAccount => obtain ⟨_, -, -, rfl⟩ := h; rfl
  case renameHubMember => obtain ⟨_, -, -, rfl⟩ := h; rfl
  case setHubPresence => obtain ⟨_, -, -, rfl⟩ := h; rfl
  all_goals obtain ⟨-, rfl⟩ := h; rfl

/-- Turns that have not begun. -/
theorem turnsRight_fresh {poll : Poll} {todo : List (HubAccount × SyncProgram Unit)} {scene : Scene}
    (hright : Right poll.mark (unnamed poll.accounts poll.full) scene)
    (hfresh : ∀ entry ∈ todo, entry.2 = processAccount entry.1)
    (hlisted : ∀ entry ∈ todo, entry.1 ∈ poll.accounts)
    (hdone : poll.clean = true → ∀ account ∈ poll.accounts, validName account.name = true →
      account ∈ todo.map Prod.fst ∨ ∃ known, scene.world.known account.id = some known) :
    TurnsRight poll todo scene where
  right := hright
  head account program rest htodo := by
    subst htodo
    have hprogram : program = processAccount account := hfresh (account, program) (by simp)
    rw [hprogram]
    refine hiddenSafe_processAccount (fun hvalid hunnamed ↦ ?_) hright
    have haccount := hlisted (account, program) (by simp)
    rw [(mem_unnamed.mp hunnamed).2.2 account haccount rfl] at hvalid
    exact absurd hvalid (by simp)
  rest entry hentry := hfresh entry (List.mem_of_mem_tail hentry)
  listed := hlisted
  done := hdone

/-- The end of a turn; after one that failed nothing is said of its account. -/
theorem TurnsRight.pop {poll : Poll} {account : HubAccount} {program : SyncProgram Unit}
    {rest : List (HubAccount × SyncProgram Unit)} {scene : Scene} (clean : Bool)
    (h : TurnsRight poll ((account, program) :: rest) scene) (hclean : clean = true → poll.clean = true)
    (hknown : clean = true → validName account.name = true →
      ∃ known, scene.world.known account.id = some known) :
    TurnsRight { poll with clean } rest scene := by
  refine turnsRight_fresh h.right h.rest (fun entry hentry ↦
    h.listed entry (List.mem_cons_of_mem _ hentry)) fun hclean' other hother hvalid ↦ ?_
  obtain hmem | hother := h.done (hclean hclean') other hother hvalid
  · obtain rfl | hmem := List.mem_cons.mp hmem
    · exact .inr (hknown hclean' hvalid)
    · exact .inl hmem
  · exact .inr hother

/-- An operation of the sync. -/
theorem TurnsRight.exec {poll : Poll} {account : HubAccount} {op : Op}
    {next : Answer op → SyncProgram Unit} {rest : List (HubAccount × SyncProgram Unit)}
    {scene : Scene} {answer : Answer op} {world : World}
    (h : TurnsRight poll ((account, .call op next) :: rest) scene)
    (hmay : MayDo (unnamed poll.accounts poll.full) account op scene)
    (hexec : Sync.exec op scene.world = some (answer, world)) :
    TurnsRight poll ((account, next answer) :: rest) { scene with world } := by
  obtain ⟨hright, hsafe⟩ := (h.head account _ rest rfl scene (Others.refl scene) h.right).2 hmay
    answer { scene with world } (by rw [Scene.exec, hexec]; rfl)
  refine ⟨hright, ?_, h.rest, fun entry hentry ↦ ?_, fun hclean other hother hvalid ↦ ?_⟩
  · rintro _ _ _ ⟨⟩
    exact hsafe
  · obtain rfl | hentry := List.mem_cons.mp hentry
    · exact h.listed (account, .call op next) List.mem_cons_self
    · exact h.listed entry (List.mem_cons_of_mem _ hentry)
  · obtain hmem | hknown := h.done hclean other hother hvalid
    · exact .inl hmem
    · exact .inr (known_exec hexec hknown)

/-- When all turns are over the sync is right about every account of the poll. -/
theorem TurnsRight.pollRight {poll : Poll} (h : TurnsRight poll [] (system.scene poll.quiet))
    (hfull : poll.full = true) (hclean : poll.clean = true) (hquiet : poll.quiet = true)
    (hundisturbed : system.Undisturbed) : system.PollRight poll := by
  have hcovers (name : String) : ¬ (system.scene poll.quiet).Covers name := by
    simp [Covers, scene, pending, hundisturbed.1, hundisturbed.2]
  intro account haccount
  constructor
  · by_cases hunnamed : account.id ∈ unnamed poll.accounts poll.full
    · exact h.right.unnamed hquiet account.id hunnamed
    · -- An account of this id had a turn, and the sync knows it.
      obtain ⟨other, hother, hsame, hvalid⟩ : ∃ other ∈ poll.accounts, other.id = account.id ∧
          validName other.name = true := by
        by_contra hnone
        push Not at hnone
        exact hunnamed (mem_unnamed.mpr ⟨hfull, ⟨account, haccount, rfl⟩, fun other hother hsame ↦ by
          simpa using hnone other hother hsame⟩)
      obtain hmem | ⟨known, hknown⟩ := h.done hclean other hother hvalid
      · exact absurd hmem (by simp)
      · rw [hsame] at hknown
        exact (h.right.known account.id known hknown (hcovers _)).flagRight
  · rintro hrow sent hsent heq
    obtain ⟨known, hknown, hshown⟩ := h.right.sent sent hsent
    have hright := h.right.known sent.1 known hknown (hcovers _)
    rw [heq] at hright
    exact absurd (hright.row.mp hrow) (by simp [hshown])

/-- Forgetting accounts, and statements that leave bindings and hiding alone. -/
theorem Right.forget {mark : ℕ} {listed : List String} {scene : Scene} {members : Members}
    {known : String → Option KnownAccount} (h : Right mark listed scene)
    (hknown : ∀ id account, known id = some account → scene.world.known id = some account)
    (hrows : ∀ id, HiddenRow members id ↔ HiddenRow scene.world.members id) :
    Right scene.world.outbox.length []
      { scene with world := { scene.world with members, known }, quiet := false } where
  inverse := h.inverse
  known id account haccount hcovers := by
    have hbefore := h.known id account (hknown id account haccount) hcovers
    exact ⟨hbefore.flag, (hrows id).trans hbefore.row, hbefore.unbound⟩
  sent := by simp
  unnamed := by simp

theorem hiddenRow_markHubOrphans {members members' : Members} {visible : List String} {now : ℤ}
    {id : String} (h : members.markHubOrphans visible now = some members') :
    HiddenRow members' id ↔ HiddenRow members id :=
  hiddenRow_image (fun _ ↦ Members.mem_markHubOrphans h) (fun _ ↦ Members.markRow_hubAccountId)
    fun _ ↦ Members.markRow_hidden

theorem hiddenRow_clearHubOrphans {members members' : Members} {visible : List String} {id : String}
    (h : members.clearHubOrphans visible = some members') :
    HiddenRow members' id ↔ HiddenRow members id :=
  hiddenRow_image (fun _ ↦ Table.mem_update h) (fun row ↦ by split_ifs <;> rfl)
    fun row ↦ by split_ifs <;> rfl

theorem hiddenInvariant_begin (h : system.RightNow) :
    (system.beginPoll fullRefresh).HiddenInvariant := by
  obtain ⟨mark, hright⟩ := h
  refine ⟨⟨system.world.outbox.length, hright.inverse, fun id known hknown hcovers ↦ ?_, ?_, by simp⟩,
    fun hquiet ↦ ⟨of_decide_eq_true hquiet, rfl⟩⟩
  · obtain ⟨hknown, hkept⟩ := Option.filter_eq_some_iff.mp hknown
    have hbefore := hright.known id known hknown fun hc ↦ by
      obtain hpending | hcontrol := hc
      · exact hcovers (.inl hpending)
      · exact absurd hcontrol (of_decide_eq_true hkept)
    exact ⟨hbefore.flag, hbefore.row, hbefore.unbound⟩
  · simp [scene, beginPoll, World.applyControl]

theorem hiddenInvariant_answer {accounts : List HubAccount} (h : system.HiddenInvariant)
    (hright : AnswerRight system.world accounts system.phase) :
    (system.step fullRefresh (.answer accounts)).HiddenInvariant := by
  obtain ⟨world, requests, lastFull, phase⟩ := system
  cases phase with
  | fetching full quiet =>
    obtain ⟨⟨mark, hnow⟩, hundisturbed⟩ := h
    refine ⟨turnsRight_fresh ⟨hnow.inverse, hnow.known, by simp [scene, step], hright⟩ (by simp) (by simp)
      fun _ account haccount _ ↦ .inl ?_, hundisturbed⟩
    simpa [Function.comp_def] using haccount
  | idle | processing _ _ | finished _ => exact h

theorem hiddenInvariant_operate (h : system.HiddenInvariant)
    (hright : system.OperateRight system.phase) :
    (system.step fullRefresh .operate).HiddenInvariant := by
  obtain ⟨world, requests, lastFull, phase⟩ := system
  cases phase with
  | processing poll todo =>
    obtain ⟨hturns, hundisturbed⟩ := h
    match todo, hturns, hright with
    | [], hturns, _ => exact ⟨hturns, hundisturbed⟩
    | (account, .done _) :: rest, hturns, _ =>
      refine ⟨hturns.pop poll.clean (fun h ↦ h) fun _ hvalid ↦ ?_, hundisturbed⟩
      exact hturns.head account _ rest rfl _ (Others.refl _) hturns.right hvalid
    | (account, .call op next) :: rest, hturns, hright =>
      unfold step operate
      dsimp only
      cases hexec : exec op world with
      | none => exact ⟨hturns.pop false (by simp) (by simp), hundisturbed⟩
      | some answered =>
        refine ⟨hturns.exec hright hexec, fun hquiet ↦ ⟨(hundisturbed hquiet).1, ?_⟩⟩
        exact (control_exec hexec).trans (hundisturbed hquiet).2
  | idle | fetching _ _ | finished _ => exact h

theorem hiddenInvariant_operateFails (h : system.HiddenInvariant) :
    (system.step fullRefresh .operateFails).HiddenInvariant := by
  obtain ⟨world, requests, lastFull, phase⟩ := system
  cases phase with
  | processing poll todo =>
    obtain ⟨hturns, hundisturbed⟩ := h
    match todo, hturns with
    | [], hturns => exact ⟨hturns, hundisturbed⟩
    | (account, .done _) :: rest, hturns => exact ⟨hturns, hundisturbed⟩
    | (account, .call op next) :: rest, hturns =>
      unfold step operateFails
      dsimp only
      split
      · next hfallible =>
        refine ⟨hturns.pop (poll.clean && !op.statement) (by simp +contextual)
          fun hclean _ ↦ ?_, hundisturbed⟩
        -- Only the channel to the batcher may fail in a clean poll.
        have hstatement : op.statement = false := by
          simpa using (Bool.and_eq_true_iff.mp hclean).2
        have hlost := (hturns.head account _ rest rfl _ (Others.refl _) hturns.right).1
        cases op <;> first | exact hlost |
          exact absurd hfallible (by simpa [Op.statement] using hstatement)
      · exact ⟨hturns, hundisturbed⟩
  | idle | fetching _ _ | finished _ => exact h

theorem hiddenInvariant_finish (h : system.HiddenInvariant) :
    (system.step fullRefresh .finish).HiddenInvariant := by
  obtain ⟨world, requests, lastFull, phase⟩ := system
  cases phase with
  | processing poll todo =>
    cases todo with
    | nil =>
      obtain ⟨hturns, hundisturbed⟩ := h
      have hpoll (hfull : poll.full = true) (hclean : poll.clean = true) (hquiet : poll.quiet = true) :=
        hturns.pollRight hfull hclean hquiet (hundisturbed hquiet)
      unfold step finishPoll
      dsimp only
      split
      · obtain ⟨members, hmark⟩ := Members.exists_markHubOrphans world.members
          (poll.accounts.map (·.id)) world.clock
        have hrows (id : String) : HiddenRow (world.finishFull poll.accounts).members id ↔
            HiddenRow world.members id := by
          unfold World.finishFull
          dsimp only
          rw [hmark]
          exact hiddenRow_markHubOrphans hmark
        refine ⟨⟨_, Right.forget hturns.right (fun id known hknown ↦ ?_) hrows⟩,
          fun hfull hclean hquiet account haccount ↦ ?_⟩
        · split_ifs at hknown
          exact hknown
        · obtain ⟨hflag, hsent⟩ := hpoll hfull hclean hquiet account haccount
          exact ⟨⟨hflag.flag.trans (hrows _).symm, fun hrow ↦ hflag.unbound ((hrows _).mp hrow)⟩,
            fun hrow ↦ hsent ((hrows _).mp hrow)⟩
      · exact ⟨⟨_, Right.calm hturns.right⟩, hpoll⟩
    | cons entry rest => exact h
  | idle | fetching _ _ | finished _ => exact h

theorem hiddenInvariant_finishFails {cleared : Bool} (h : system.HiddenInvariant) :
    (system.step fullRefresh (.finishFails cleared)).HiddenInvariant := by
  obtain ⟨world, requests, lastFull, phase⟩ := system
  cases phase with
  | processing poll todo =>
    cases todo with
    | nil =>
      obtain ⟨hturns, hundisturbed⟩ := h
      unfold step finishPollFails
      dsimp only
      split
      · refine ⟨_, Right.forget hturns.right (fun id known hknown ↦ ?_) fun id ↦ ?_⟩
        · unfold World.finishFull at hknown
          dsimp only at hknown
          split_ifs at hknown
          exact hknown
        · obtain ⟨members, hclear⟩ := Members.exists_clearHubOrphans world.members
            (poll.accounts.map (·.id))
          rw [hclear]
          cases cleared with
          | true => exact hiddenRow_clearHubOrphans hclear
          | false => exact Iff.rfl
      · exact ⟨hturns, hundisturbed⟩
    | cons entry rest => exact h
  | idle | fetching _ _ | finished _ => exact h

/-- A request that arrives. -/
theorem hiddenInvariant_request {memberName : String} {action : AdminAction} (h : system.HiddenInvariant) :
    (system.step fullRefresh (.request memberName action)).HiddenInvariant := by
  refine hiddenInvariant_spares h fun quiet ↦ spares_pending rfl fun folded hfolded ↦ ?_
  obtain ⟨request, hrequest, hstage, hfold⟩ := mem_pending.mp hfolded
  exact mem_pending.mpr ⟨request, List.mem_append_left _ hrequest, hstage, hfold⟩

/-- A request whose first statement fails: nobody was waiting for it. -/
theorem hiddenInvariant_proceedFails {n : ℕ} (h : system.HiddenInvariant) :
    (system.step fullRefresh (.proceedFails n)).HiddenInvariant := by
  unfold step
  dsimp only
  split
  · next harrived =>
    refine hiddenInvariant_spares h fun quiet ↦ spares_pending rfl fun folded hfolded ↦ ?_
    obtain ⟨request, hrequest, hstage, hfold⟩ := mem_pending.mp hfolded
    obtain ⟨failed, hfailed, harrived⟩ : ∃ failed, system.requests[n]? = some failed ∧
        failed.stage = .arrived := by
      cases hfailed : system.requests[n]? with
      | none => simp [hfailed] at harrived
      | some failed => exact ⟨failed, rfl, by simpa [hfailed] using harrived⟩
    have hsplit := request_split hfailed
    refine mem_pending.mpr ⟨request, ?_, hstage, hfold⟩
    have hrequest' : request ∈ system.requests := hrequest
    rw [hsplit, List.mem_append, List.mem_cons] at hrequest'
    rw [List.eraseIdx_eq_take_drop_succ, List.mem_append]
    obtain hbefore | rfl | hafter := hrequest'
    · exact .inl hbefore
    · exact absurd harrived hstage
    · exact .inr hafter
  · exact h

/-- Time goes by. -/
theorem hiddenInvariant_elapse {now : ℤ} (h : system.HiddenInvariant) :
    (system.step fullRefresh (.elapse now)).HiddenInvariant := by
  obtain ⟨world, requests, lastFull, phase⟩ := system
  have hlike (quiet : Bool) : Like (scene ⟨world, requests, lastFull, phase⟩ quiet)
      (scene ⟨{ world with clock := now }, requests, lastFull, phase⟩ quiet) :=
    ⟨rfl, rfl, rfl, rfl, rfl, rfl, rfl, rfl, fun _ ↦ Iff.rfl⟩
  cases phase with
  | idle => exact h.imp fun mark hright ↦ hright.like (hlike false)
  | fetching full quiet => exact ⟨h.1.imp fun mark hright ↦ hright.like (hlike false), h.2⟩
  | finished poll =>
    refine ⟨h.1.imp fun mark hright ↦ hright.like (hlike false),
      fun hfull hclean hquiet account haccount ↦ ?_⟩
    obtain ⟨hflag, hsent⟩ := h.2 hfull hclean hquiet account haccount
    exact ⟨⟨hflag.flag, hflag.unbound⟩, hsent⟩
  | processing poll todo =>
    obtain ⟨hturns, hundisturbed⟩ := h
    refine ⟨⟨hturns.right.like (hlike poll.quiet), fun account program rest htodo ↦ ?_,
      hturns.rest, hturns.listed, hturns.done⟩, hundisturbed⟩
    have hspares : Spares (scene ⟨world, requests, lastFull, .processing poll todo⟩ poll.quiet)
        (scene ⟨{ world with clock := now }, requests, lastFull, .processing poll todo⟩
          poll.quiet) := spares_of_world rfl rfl rfl rfl fun _ hname ↦ hname
    refine Program.Safe.later ?_ (hturns.head account program rest htodo) hspares.others
    exact Others.trans

/-- No step breaks it that meets what it has to. -/
theorem hiddenInvariant_step {event : Event} (h : system.HiddenInvariant)
    (hkeeps : system.KeepsHidden event) : (system.step fullRefresh event).HiddenInvariant := by
  cases event with
  | request memberName action => exact hiddenInvariant_request h
  | proceed n =>
    cases hrequest : system.requests[n]? with
    | some request => exact hiddenInvariant_proceed h hrequest hkeeps
    | none =>
      unfold step
      dsimp only
      rw [hrequest]
      exact h
  | proceedFails n => exact hiddenInvariant_proceedFails h
  | elapse now => exact hiddenInvariant_elapse h
  | begin =>
    obtain ⟨world, requests, lastFull, phase⟩ := system
    cases phase with
    | idle => exact hiddenInvariant_begin h
    | finished poll => exact hiddenInvariant_begin h.1
    | fetching _ _ | processing _ _ => exact h
  | answer accounts => exact hiddenInvariant_answer h hkeeps
  | noAnswer =>
    obtain ⟨world, requests, lastFull, phase⟩ := system
    cases phase with
    | fetching full quiet => exact h.1
    | idle | processing _ _ | finished _ => exact h
  | operate => exact hiddenInvariant_operate h hkeeps
  | operateFails => exact hiddenInvariant_operateFails h
  | finish => exact hiddenInvariant_finish h
  | finishFails cleared => exact hiddenInvariant_finishFails h

/-- In every run whose steps meet what they have to, hidden stays hidden. -/
theorem hiddenStays_of_keepsHidden (members : Members) (now fullRefresh : ℤ) (events : List Event)
    (h : Run.Along (fun system ↦ system.step fullRefresh) KeepsHidden (boot members now) events) :
    Run.Always (fun system ↦ system.step fullRefresh) HiddenStays (boot members now) events := by
  have hstart : (boot members now).HiddenInvariant :=
    ⟨0, HubDirectory.inverse_load members, by simp [scene, boot], by simp [scene, boot],
      by simp [scene]⟩
  have hinvariant := Run.always_of_along (P := HiddenInvariant)
    (fun _ _ hsystem hkeeps ↦ hiddenInvariant_step hsystem hkeeps) hstart h
  refine hinvariant.mono fun system hsystem poll hphase hfull hclean hquiet ↦ ?_
  rw [HiddenInvariant, hphase] at hsystem
  exact hsystem.2 hfull hclean hquiet

/-- A member is hidden between polls, and its account is renamed afterwards. -/
theorem hiddenStays_hidden : Run.Always (fun system ↦ system.step 0) HiddenStays
    (boot Table.empty 0)
    (pollOf [plainAccount "a" "Alpha", plainAccount "b" "Bravo"] ++
      requestOf "Alpha" (.setHidden true) ++
      pollOf [plainAccount "a" "Charlie", plainAccount "b" "Bravo"]) :=
  hiddenStays_of_keepsHidden _ _ _ _ (by decide +kernel)

/-- A member is hidden while a poll is under way whose answer has it renamed: the sync renames its
row and goes on as if it were shown. -/
def hiddenInPoll : List Event :=
  pollOf [plainAccount "a" "Alpha"] ++ [.begin] ++ requestOf "Alpha" (.setHidden true) ++
    answerOf [plainAccount "a" "Bravo"] ++ pollOf [plainAccount "a" "Bravo"]

theorem hiddenStays_fails_hiddenInPoll :
    ¬ Run.Always (fun system ↦ system.step 0) HiddenStays (boot Table.empty 0) hiddenInPoll := by
  intro h
  obtain ⟨poll, hphase, hpoll⟩ := endsIn_iff.mp (show (hiddenInPoll.foldl (fun system ↦ system.step 0)
    (boot Table.empty 0)).phase.endsIn (fun poll ↦ poll.full && poll.clean && poll.quiet &&
      poll.accounts.any (·.id = "a")) = true by decide +kernel)
  simp only [Bool.and_eq_true, List.any_eq_true, decide_eq_true_eq] at hpoll
  obtain ⟨⟨⟨hfull, hclean⟩, hquiet⟩, account, haccount, hid⟩ := hpoll
  have hflag := (h.final poll hphase hfull hclean hquiet account haccount).1
  rw [hid] at hflag
  have hnot : ¬ FlagRight (hiddenInPoll.foldl (fun system ↦ system.step 0)
    (boot Table.empty 0)).world "a" := by decide +kernel
  exact hnot hflag

end System

end OsrsMap.Sync
