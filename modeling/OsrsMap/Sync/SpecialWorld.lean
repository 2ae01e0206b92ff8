import OsrsMap.Sync.AnyTurn
import OsrsMap.Sync.HubMeta
import OsrsMap.Sync.Mirror
import OsrsMap.Sync.Poll

/-!
# The main game's totals on a special world

The details that are stored of an account on a special world have its main game's totals. They are
taken from what the sync remembers having sent (`KnownAccount::sent` in `server/src/hub/sync.rs`), which
a restart, a change by an admin, a full snapshot without the account and a rename make it forget.
-/

namespace OsrsMap.Sync

open Overlay

/-! ## What was said of an account -/

section History

variable (history : List SnapshotAccount)

/-- The totals of the last snapshot on the main game, where the last snapshot comes first; none when
there was none. -/
def lastMainGame : Totals :=
  (history.find? (!·.onSpecialWorld)).elim .none fun account ↦ account.details.totals

/-- Since its last snapshot on the main game an account has shared what the totals belong to. -/
def SharedSince : Prop :=
  ∀ account ∈ history.takeWhile (·.onSpecialWorld), account.sharesTotals = true

/-- An account is on a special world, and has shared what the totals belong to all along. -/
def StaysOnSpecialWorld : Prop :=
  (history.head?.any fun account ↦ account.onSpecialWorld) = true ∧ SharedSince history

instance : Decidable (SharedSince history) :=
  inferInstanceAs (Decidable (∀ account ∈ history.takeWhile (·.onSpecialWorld),
    account.sharesTotals = true))

instance : Decidable (StaysOnSpecialWorld history) :=
  inferInstanceAs (Decidable (_ ∧ SharedSince history))

variable {history} {account : SnapshotAccount}

theorem lastMainGame_cons : lastMainGame (account :: history) =
    if account.onSpecialWorld then lastMainGame history else account.details.totals := by
  unfold lastMainGame
  rw [List.find?_cons]
  cases account.onSpecialWorld <;> rfl

theorem sharedSince_cons (h : account.onSpecialWorld = true) :
    SharedSince (account :: history) ↔ account.sharesTotals = true ∧ SharedSince history := by
  unfold SharedSince
  rw [List.takeWhile_cons_of_pos h, List.forall_mem_cons]

end History

/-! ## Polls, restarts and admins -/

/-- The sync and the batcher, and all snapshots that were processed of an account. -/
structure Watch where
  mirror : Mirror
  history : String → List SnapshotAccount

/-- What may happen: a poll begins, an account has its turn, a full snapshot is through, time passes, the
batcher receives an update, ends its buffer or stores a chunk, a request that hides or shows a member
takes a step, or the server restarts. -/
inductive WatchEvent where
  | begin
  | turn (account : SnapshotAccount)
  | left (accounts : List SnapshotAccount)
  | elapse (now : ℤ)
  | receive
  | flush
  | store (i : ℕ)
  | admin (memberName : String) (hidden : Bool) (stage : AdminStage)
  | restart

namespace Watch

variable (json : MetaJson) (watch : Watch)

def step : WatchEvent → Watch
  | .begin =>
    { watch with
      mirror := { watch.mirror with world := watch.mirror.world.applyControl } }
  | .turn account =>
    { mirror := watch.mirror.step (.turn (json.reportOf account))
      history := Function.update watch.history account.report.id
        (account :: watch.history account.report.id) }
  | .left accounts => { watch with mirror := watch.mirror.step (.left (accounts.map json.reportOf)) }
  | .elapse now => { watch with mirror := watch.mirror.step (.elapse now) }
  | .receive => { watch with mirror := watch.mirror.step .receive }
  | .flush => { watch with mirror := watch.mirror.step .flush }
  | .store i => { watch with mirror := watch.mirror.step (.store i) }
  | .admin memberName hidden stage =>
    let request : AdminRequest := { memberName, action := .setHidden hidden, stage }
    { watch with
      mirror := { watch.mirror with world := (request.next watch.mirror.world).1 } }
  -- What the sync knows, what admins told it and what is not stored yet is in memory only.
  | .restart => { watch with mirror := .boot watch.mirror.world.members watch.mirror.world.clock }

/-- The server starts for the first time. -/
def boot (members : Members) (clock : ℤ) : Watch where
  mirror := .boot members clock
  history _ := []

/-- Once everything is stored, the details of an account on a special world have the totals of its last
snapshot on the main game. -/
def KeepsTotals : Prop :=
  watch.mirror.Drained → ∀ row ∈ watch.mirror.world.members, ∀ id ∈ row.hubAccountId,
    StaysOnSpecialWorld (watch.history id) →
      json.totals (row.column .hubMeta).value = lastMainGame (watch.history id)

instance : Decidable (watch.KeepsTotals json) :=
  inferInstanceAs (Decidable (watch.mirror.Drained → ∀ row ∈ watch.mirror.world.members.rows,
    ∀ id ∈ row.hubAccountId, StaysOnSpecialWorld (watch.history id) →
      json.totals (row.column .hubMeta).value = lastMainGame (watch.history id)))

end Watch

/-! ## When they are kept -/

/-- The turn of a shown account finds its row: it still has it, and what is pending for a name that the
turn may give a row is written like it. -/
def Mirror.FindsRow (mirror : Mirror) (account : HubAccount) : Prop :=
  StillOwns mirror.world account ∧ ((mirror.world.movesTo account).isNone →
    ∀ update ∈ mirror.pending, fold update.name = fold account.name → update.name = account.name)

instance (mirror : Mirror) (account : HubAccount) : Decidable (mirror.FindsRow account) :=
  inferInstanceAs (Decidable (StillOwns mirror.world account ∧ (_ → ∀ update ∈ mirror.pending,
    fold update.name = fold account.name → update.name = account.name)))

namespace Watch

variable (json : MetaJson) (watch : Watch)

/-- A turn that passes an account over: the row that it has, or takes over, comes to its totals as it
is. -/
def PassesOver (account : SnapshotAccount) (taken : Option MemberRow) : Prop :=
  SharedSince (account :: watch.history account.report.id) →
    ∀ row ∈ (watch.mirror.world.members.find (MemberRow.boundTo account.report.id)).or taken,
      json.totals (watch.mirror.awaited row.memberName .hubMeta) =
        lastMainGame (account :: watch.history account.report.id)

/-- A turn that is not passed over: on a special world the sync remembers what it sent, unless there are
no totals to keep. -/
def Sends (account : SnapshotAccount) : Prop :=
  watch.mirror.FindsRow (json.reportOf account).account ∧
    (account.onSpecialWorld = true → SharedSince (account :: watch.history account.report.id) →
      (watch.mirror.world.remembered (json.reportOf account).account).isSome = true ∨
        lastMainGame (watch.history account.report.id) = .none)

/-- What is pending changes no totals. -/
def NoTotalsPending : Prop :=
  ∀ row ∈ watch.mirror.world.members, ∀ id ∈ row.hubAccountId, SharedSince (watch.history id) →
    json.totals (row.column .hubMeta).value =
      json.totals (watch.mirror.awaited row.memberName .hubMeta)

/-- What a turn and a restart have to meet: what was sent of the details is remembered, or nothing is lost by
forgetting it. -/
def Remembers : WatchEvent → Prop
  | .turn account =>
    if validName account.report.name then
      if watch.mirror.world.hides (json.reportOf account).account then
        watch.PassesOver json account (watch.mirror.world.takesOver (json.reportOf account).account)
      else watch.Sends json account
    else watch.PassesOver json account none
  | .restart => watch.NoTotalsPending json
  | _ => True

instance (account : SnapshotAccount) (taken : Option MemberRow) :
    Decidable (watch.PassesOver json account taken) :=
  inferInstanceAs (Decidable (SharedSince _ → ∀ row ∈ Option.or _ taken,
    json.totals (watch.mirror.awaited row.memberName .hubMeta) = _))

instance (account : SnapshotAccount) : Decidable (watch.Sends json account) :=
  inferInstanceAs (Decidable (watch.mirror.FindsRow _ ∧
    (account.onSpecialWorld = true → SharedSince _ → _ = true ∨ _ = Totals.none)))

instance : Decidable (watch.NoTotalsPending json) :=
  inferInstanceAs (Decidable (∀ row ∈ watch.mirror.world.members.rows, ∀ id ∈ row.hubAccountId,
    SharedSince (watch.history id) → json.totals (row.column .hubMeta).value =
      json.totals (watch.mirror.awaited row.memberName .hubMeta)))

instance : (event : WatchEvent) → Decidable (watch.Remembers json event)
  | .turn account => inferInstanceAs (Decidable (if validName account.report.name then
      if watch.mirror.world.hides (json.reportOf account).account then
        watch.PassesOver json account (watch.mirror.world.takesOver (json.reportOf account).account)
      else watch.Sends json account
    else watch.PassesOver json account none))
  | .restart => inferInstanceAs (Decidable (watch.NoTotalsPending json))
  | .begin | .left _ | .elapse _ | .receive | .flush | .store _ | .admin .. =>
    inferInstanceAs (Decidable True)

/-! ## What holds all along -/

/-- What is pending goes by the names of rows, the columns of a row come to the details that the sync
remembers having sent, and these have the totals of the last snapshot on the main game. -/
structure Sound (json : MetaJson) (watch : Watch) : Prop where
  batched : watch.mirror.Batched
  named : ∀ name, HasRow watch.mirror.world.members name →
    NamedAt name watch.mirror.world.members watch.mirror.pending
  remembered : ∀ id name, Owns watch.mirror.world.members id name →
    ∀ known ∈ watch.mirror.world.known id, known.memberName = name →
      ∀ sent ∈ known.sent, watch.mirror.awaited name .hubMeta = sent .hubMeta
  totals : ∀ id name, Owns watch.mirror.world.members id name → SharedSince (watch.history id) →
    json.totals (watch.mirror.awaited name .hubMeta) = lastMainGame (watch.history id)

variable {json} {watch}

theorem sound_boot {members : Members} (hfree : ∀ row ∈ members, row.hubAccountId = none) (clock : ℤ) :
    Sound json (boot members clock) where
  batched := Mirror.batched_boot members clock
  named _ _ _ hupdate := absurd hupdate List.not_mem_nil
  remembered _ _ _ _ hknown := absurd hknown (by simp [boot, Mirror.boot, World.start])
  totals id _ howns := by
    obtain ⟨row, hrow, -, hid⟩ := howns
    rw [hfree row hrow] at hid
    exact absurd hid (Option.some_ne_none id).symm

/-- Steps of the batcher. -/
theorem Sound.batcher {mirror : Mirror} (h : Sound json watch) (hbatched : mirror.Batched)
    (hknown : mirror.world.known = watch.mirror.world.known)
    (howns : ∀ id name, Owns mirror.world.members id name → Owns watch.mirror.world.members id name)
    (hnamed : ∀ name, HasRow mirror.world.members name → NamedAt name mirror.world.members mirror.pending)
    (hawaited : ∀ name, HasRow watch.mirror.world.members name →
      mirror.awaited name = watch.mirror.awaited name) :
    Sound json { watch with mirror } where
  batched := hbatched
  named := hnamed
  remembered id name hother known hfound := by
    have howned := howns id name hother
    dsimp only at hfound ⊢
    rw [hknown] at hfound
    rw [hawaited name howned.hasRow]
    exact h.remembered id name howned known hfound
  totals id name hother := by
    have howned := howns id name hother
    dsimp only
    rw [hawaited name howned.hasRow]
    exact h.totals id name howned

theorem Sound.receive (h : Sound json watch) : Sound json (watch.step json .receive) := by
  apply h.batcher h.batched.receive
  · exact congrArg World.known (Mirror.world_receive _)
  · intro id name howns
    rwa [Mirror.world_receive] at howns
  · intro name hrow
    rw [Mirror.world_receive] at hrow ⊢
    rw [Mirror.pending_receive]
    exact h.named name hrow
  · exact fun name _ ↦ Mirror.awaited_receive _ name

theorem Sound.flush (h : Sound json watch) : Sound json (watch.step json .flush) := by
  apply h.batcher h.batched.flush
  · exact congrArg World.known (Mirror.world_flush _)
  · intro id name howns
    rwa [Mirror.world_flush] at howns
  · intro name hrow
    rw [Mirror.world_flush] at hrow ⊢
    exact Mirror.namedAt_flush (h.named name hrow)
  · exact fun name hrow ↦ Mirror.awaited_flush (h.named name hrow)

theorem Sound.store (h : Sound json watch) (i : ℕ) : Sound json (watch.step json (.store i)) := by
  obtain ⟨members, hstore, hworld⟩ := watch.mirror.world_store i
  have hbatched : (watch.mirror.step (.store i)).Batched := (h.batched.storeChunk _).dropChunk i
  apply h.batcher hbatched
  · rw [hworld]
  · intro id name howns
    rw [hworld] at howns
    exact (Mirror.owns_storeChunk hstore).mp howns
  · intro name hrow
    rw [hworld] at hrow
    exact Mirror.namedAt_store (h.named name (Mirror.hasRow_of_storeChunk hstore hrow)) i
  · exact fun name hrow ↦ Mirror.awaited_store h.batched (h.named name hrow) i

/-- What leaves names, bindings and data alone, and lets the sync know no more than before. -/
theorem Sound.sameData {world : World} (h : Sound json watch)
    (hmembers : SameData watch.mirror.world.members world.members)
    (hknown : ∀ id, ∀ known ∈ world.known id, known ∈ watch.mirror.world.known id)
    (houtbox : world.outbox = watch.mirror.world.outbox) :
    Sound json { watch with mirror := { watch.mirror with world } } := by
  have hsent : world.outbox = watch.mirror.world.outbox ++ [] := by rw [houtbox, List.append_nil]
  have hpending : Mirror.pending { watch.mirror with world } = watch.mirror.pending := by
    rw [Mirror.pending_of_outbox h.batched hsent, List.map_nil, List.append_nil]
  have hawaited (name : String) :
      Mirror.awaited { watch.mirror with world } name = watch.mirror.awaited name := by
    rw [Mirror.awaited, hpending]
    exact congrArg (fun values ↦ stack values _) (hmembers.keepsColumns.valuesOf name)
  refine ⟨Mirror.batched_of_outbox h.batched hsent, fun name hrow ↦ ?_,
    fun id name howns known hfound ↦ ?_, fun id name howns ↦ ?_⟩
  · obtain ⟨after, hafter, rfl⟩ := hrow
    obtain ⟨row, hmem, hname, -⟩ := hmembers.origin after hafter
    dsimp only
    rw [hpending, hname]
    exact (h.named row.memberName ⟨row, hmem, rfl⟩).later fun exact _ ↦ hmembers.keepsColumns.hasRow
  · dsimp only
    rw [hawaited]
    exact h.remembered id name (hmembers.owns_iff.mp howns) known (hknown id known hfound)
  · dsimp only
    rw [hawaited]
    exact h.totals id name (hmembers.owns_iff.mp howns)

/-- A request that hides or shows a member changes no data. -/
theorem next_setHidden (memberName : String) (hidden : Bool) (stage : AdminStage) (world : World) :
    ∃ members directory control,
      (AdminRequest.next { memberName, action := .setHidden hidden, stage } world).1 =
        { world with members, directory, control } ∧ SameData world.members members := by
  cases stage with
  | arrived =>
    unfold AdminRequest.next
    dsimp only
    split_ifs
    · exact ⟨_, _, _, rfl, .refl _⟩
    · split
      · next members hset =>
        refine ⟨members, _, _, rfl, ?_⟩
        apply sameData_of_map fun row ↦ Table.mem_update hset
        all_goals
          intro row
          split_ifs <;> rfl
      · exact ⟨_, _, _, rfl, .refl _⟩
  | written => exact ⟨_, _, _, rfl, .refl _⟩
  | found id => exact ⟨_, _, _, rfl, .refl _⟩
  | flagged => exact ⟨_, _, _, rfl, .refl _⟩
  | unbound => exact ⟨_, _, _, rfl, .refl _⟩

theorem Sound.begin (h : Sound json watch) : Sound json (watch.step json .begin) := by
  have hknown : ∀ id, ∀ known ∈ watch.mirror.world.applyControl.known id,
      known ∈ watch.mirror.world.known id :=
    fun id known hfound ↦ (Option.filter_eq_some_iff.mp hfound).1
  exact h.sameData (.refl _) hknown rfl

theorem Sound.left (h : Sound json watch) (accounts : List SnapshotAccount) :
    Sound json (watch.step json (.left accounts)) := by
  have hknown : ∀ id, ∀ known ∈ (watch.mirror.world.finishFull
      ((accounts.map json.reportOf).map HubReport.account)).known id,
      known ∈ watch.mirror.world.known id :=
    fun id known hfound ↦ (known_finishFull.mp hfound).2
  exact h.sameData (sameData_finishFull _ _) hknown rfl

theorem Sound.admin (h : Sound json watch) (memberName : String) (hidden : Bool) (stage : AdminStage) :
    Sound json (watch.step json (.admin memberName hidden stage)) := by
  obtain ⟨members, directory, control, hnext, hsame⟩ :=
    next_setHidden memberName hidden stage watch.mirror.world
  unfold step
  dsimp only
  rw [hnext]
  exact h.sameData hsame (fun _ _ hknown ↦ hknown) rfl

/-- After a restart nothing is remembered, and what was pending is gone. -/
theorem Sound.restart (h : Sound json watch) (hstored : watch.NoTotalsPending json) :
    Sound json (watch.step json .restart) where
  batched := Mirror.batched_boot _ _
  named _ _ _ hupdate := absurd hupdate List.not_mem_nil
  remembered _ _ _ _ hknown := absurd hknown (by simp [step, Mirror.boot, World.start])
  totals id name howns hshared := by
    obtain ⟨row, hrow, rfl, hid⟩ := howns
    have hvalues : Mirror.awaited (.boot watch.mirror.world.members watch.mirror.world.clock)
        row.memberName .hubMeta = (row.column .hubMeta).value :=
      congrFun (valuesOf_of_mem hrow rfl) .hubMeta
    calc json.totals (Mirror.awaited (.boot watch.mirror.world.members watch.mirror.world.clock)
          row.memberName .hubMeta) = json.totals (row.column .hubMeta).value := by rw [hvalues]
      _ = json.totals (watch.mirror.awaited row.memberName .hubMeta) := hstored row hrow id hid hshared
      _ = lastMainGame (watch.history id) := h.totals id row.memberName ⟨row, hrow, rfl, hid⟩ hshared

/-! ## A turn -/

section Turn

variable {account : SnapshotAccount}

/-- The snapshots of other accounts are none of an account's. -/
theorem history_of_ne {id : String} (h : id ≠ account.report.id) :
    (watch.step json (.turn account)).history id = watch.history id := Function.update_of_ne h ..

theorem history_self : (watch.step json (.turn account)).history account.report.id =
    account :: watch.history account.report.id := Function.update_self ..

/-- Passing an account over with a name that the map cannot store. -/
theorem Sound.turn_invalid (h : Sound json watch) (hvalid : validName account.report.name = false)
    (hpasses : watch.PassesOver json account none) : Sound json (watch.step json (.turn account)) := by
  have hsame : (watch.step json (.turn account)).mirror = watch.mirror :=
    Mirror.step_turn_of_invalid hvalid
  refine ⟨?_, ?_, ?_, fun id name howns hshared ↦ ?_⟩
  all_goals rw [hsame]
  · exact h.batched
  · exact h.named
  · exact h.remembered
  · rw [hsame] at howns
    by_cases hid : id = account.report.id
    · rw [hid, history_self] at hshared ⊢
      obtain ⟨row, hrow, rfl⟩ := find_or_of_owns (hid ▸ howns) none
      exact hpasses hshared row hrow
    · rw [history_of_ne hid] at hshared ⊢
      exact h.totals id name howns hshared

/-- A row of another account is one that it had, with what it had. -/
theorem owns_before {world : World} {account : HubAccount} {members : Members}
    (h : LeavesOthers world account members) {id name : String} (hne : id ≠ account.id)
    (howns : Owns members id name) :
    Owns world.members id name ∧ members.valuesOf name = world.members.valuesOf name := by
  obtain ⟨row, hrow, rfl, hid⟩ := howns
  obtain ⟨before, hbefore, hbound, hname, hcolumn⟩ := h.others row hrow id hne hid
  refine ⟨⟨before, hbefore, hname.symm, hbound⟩, ?_⟩
  rw [valuesOf_of_mem hrow rfl, valuesOf_of_mem hbefore (congrArg fold hname)]
  unfold MemberRow.values
  rw [hcolumn]

/-- What was pending still goes by the names of rows after a turn. -/
theorem namedAt_after {world : World} {account : HubAccount} {members : Members}
    {pending : List MemberData} (h : LeavesOthers world account members)
    (hnamed : ∀ name, HasRow world.members name → NamedAt name world.members pending)
    (hspelled : (world.movesTo account).isNone →
      ∀ update ∈ pending, fold update.name = fold account.name → update.name = account.name)
    {row : MemberRow} (hrow : row ∈ members) : NamedAt row.memberName members pending := by
  intro update hupdate hsame
  obtain ⟨before, hbefore, hname⟩ | ⟨hnew, hmoves⟩ := h.named row hrow
  · obtain ⟨other, hother, hotherName⟩ :=
      hnamed row.memberName ⟨before, hbefore, hname⟩ update hupdate hsame
    have hone : other = before := Members.eq_of_name hother hbefore (by rw [hotherName, ← hsame, hname])
    exact ⟨row, hrow, by rw [← hotherName, hone, hname]⟩
  · refine ⟨row, hrow, ?_⟩
    rw [hnew] at hsame ⊢
    exact (hspelled (Option.isNone_iff_eq_none.mpr hmoves) update hupdate hsame.symm).symm

/-- Passing an account over whose member is hidden. -/
theorem Sound.turn_hidden (h : Sound json watch) (hvalid : validName account.report.name = true)
    (hhidden : watch.mirror.world.hides (json.reportOf account).account = true)
    (hpasses : watch.PassesOver json account
      (watch.mirror.world.takesOver (json.reportOf account).account)) :
    Sound json (watch.step json (.turn account)) := by
  obtain ⟨members, directory, known, hturn, hpassed⟩ :=
    @processAccount_hidden watch.mirror.world (json.reportOf account).account hvalid hhidden
  let after : Mirror :=
    { watch.mirror with
      world :=
        { watch.mirror.world with
          members
          directory
          known := Function.update watch.mirror.world.known account.report.id (some known) } }
  have hafter : (watch.step json (.turn account)).mirror = after :=
    congrArg (fun world ↦ ({ watch.mirror with world } : Mirror)) hturn
  have hawaited (name : String) : after.awaited name = watch.mirror.awaited name :=
    congrArg (fun values ↦ stack values _) (hpassed.columns.valuesOf name)
  have hothers : ∀ id ≠ account.report.id, ∀ name, Owns members id name →
      Owns watch.mirror.world.members id name :=
    fun id hne name howns ↦ (owns_before hpassed.leaves hne howns).1
  refine ⟨?_, ?_, fun id name howns other hother ↦ ?_, fun id name howns hshared ↦ ?_⟩
  all_goals rw [hafter]
  · exact ⟨h.batched.arrived, h.batched.single⟩
  · exact fun name hrow ↦ (h.named name (hpassed.names name hrow)).later
      fun exact _ ↦ hpassed.columns.hasRow
  · rw [hafter] at howns hother
    rw [hawaited]
    by_cases hid : id = account.report.id
    · intro hname sent hsent
      have hother' : other = known := by
        dsimp only [after] at hother
        rw [hid, Function.update_self, Option.mem_some_iff] at hother
        exact hother.symm
      rw [hother'] at hname hsent
      -- What the sync remembers of it, it knew before, and the account has the row it had.
      have hknown := hpassed.knew sent hsent
      have hmembers := hpassed.same (takesOver_of_known hknown)
      have hbefore : Owns watch.mirror.world.members account.report.id name := by
        rw [← hmembers, ← hid]
        exact howns
      exact h.remembered account.report.id name hbefore known hknown hname sent hsent
    · dsimp only [after] at hother
      rw [Function.update_of_ne hid] at hother
      exact h.remembered id name (hothers id hid name howns) other hother
  · rw [hafter] at howns
    rw [hawaited]
    by_cases hid : id = account.report.id
    · rw [hid, history_self] at hshared ⊢
      obtain ⟨row, hrow, rfl⟩ := hpassed.exists_row (hid ▸ howns)
      exact hpasses hshared row hrow
    · rw [history_of_ne hid] at hshared ⊢
      exact h.totals id name (hothers id hid name howns) hshared

/-- What the sync remembers having sent of the details of an account, its columns come to. -/
theorem Sound.awaited_remembered (h : Sound json watch) {account : HubAccount} {sent : MemberSections}
    (hstill : StillOwns watch.mirror.world account)
    (hsent : watch.mirror.world.remembered account = some sent) :
    Owns watch.mirror.world.members account.id account.name ∧
      watch.mirror.awaited account.name .hubMeta = sent .hubMeta := by
  obtain ⟨known, hknown, hsame⟩ := Option.bind_eq_some_iff.mp hsent
  split_ifs at hsame with hname
  have howns : Owns watch.mirror.world.members account.id account.name := hname ▸ hstill known hknown
  exact ⟨howns, h.remembered account.id account.name howns known hknown hname sent hsame⟩

/-- The totals that are sent are those of the last snapshot on the main game. -/
theorem Sound.totals_sent (h : Sound json watch)
    (hstill : StillOwns watch.mirror.world (json.reportOf account).account)
    (hkeeps : account.onSpecialWorld = true →
      SharedSince (account :: watch.history account.report.id) →
      (watch.mirror.world.remembered (json.reportOf account).account).isSome = true ∨
        lastMainGame (watch.history account.report.id) = .none)
    (hshared : SharedSince (account :: watch.history account.report.id)) :
    json.totals ((json.reportOf account).fromAccount
        (watch.mirror.world.remembered (json.reportOf account).account) .hubMeta) =
      lastMainGame (account :: watch.history account.report.id) := by
  rw [lastMainGame_cons]
  cases hworld : account.onSpecialWorld with
  | false => exact MetaJson.totals_fromAccount_mainGame hworld
  | true =>
    obtain ⟨hshares, hbefore⟩ := (sharedSince_cons hworld).mp hshared
    rw [if_pos rfl, MetaJson.totals_fromAccount_specialWorld hworld hshares]
    cases hsent : watch.mirror.world.remembered (json.reportOf account).account with
    | none =>
      obtain hsome | hnone := hkeeps hworld hshared
      · rw [hsent] at hsome
        exact absurd hsome Bool.false_ne_true
      · rw [hnone]
        rfl
    | some sent =>
      obtain ⟨howns, hawaited⟩ := h.awaited_remembered hstill hsent
      rw [Option.bind_some, ← hawaited]
      exact h.totals account.report.id _ howns hbefore

/-- What the columns of the account's row come to by the details that were sent now. -/
theorem Sound.awaited_sent (h : Sound json watch) {account : HubAccount} {world : World} {name : String}
    (hstill : StillOwns watch.mirror.world account)
    (houtbox : world.outbox = watch.mirror.world.outbox ++
      updateFor (account.under name) (watch.mirror.world.remembered account))
    (hsome : (account.sections (watch.mirror.world.remembered account) .hubMeta).isSome = true)
    (hkept : watch.mirror.world.remembered account ≠ none →
      name = account.name ∧ KeepsColumns watch.mirror.world.members world.members) :
    Mirror.awaited { watch.mirror with world } name .hubMeta =
      account.sections (watch.mirror.world.remembered account) .hubMeta := by
  let previous := watch.mirror.world.remembered account
  have hawaited : Mirror.awaited { watch.mirror with world } name =
      overlay (diff previous (account.sections previous))
        (stack (world.members.valuesOf name) (layersFor name watch.mirror.pending)) := by
    rw [Mirror.awaited, Mirror.pending_of_outbox h.batched houtbox, layersFor_append, stack_append,
      Mirror.layersFor_updateFor, if_pos rfl]
    exact stack_updateFor (account.under name) previous _
  rw [hawaited]
  apply overlay_diff_apply hsome
  intro sent hsent
  -- It was not renamed, so what was sent before is what its row comes to.
  have hprevious : watch.mirror.world.remembered account = some sent := hsent
  obtain ⟨rfl, hcolumns⟩ := hkept (hprevious ▸ Option.some_ne_none sent)
  obtain ⟨-, hbefore⟩ := h.awaited_remembered hstill hprevious
  rw [hcolumns.valuesOf, ← hbefore]
  rfl

/-- A turn in which what changed is sent. -/
theorem Sound.turn_shown (h : Sound json watch) (hvalid : validName account.report.name = true)
    (hshown : watch.mirror.world.hides (json.reportOf account).account = false)
    (hsends : watch.Sends json account) : Sound json (watch.step json (.turn account)) := by
  obtain ⟨⟨hstill, hspelled⟩, hkeeps⟩ := hsends
  obtain ⟨members, directory, presence, own, hturn, hleaves, howned, hkept⟩ :=
    @processAccount_shown watch.mirror.world (json.reportOf account).account hvalid hshown hstill
  let current := (json.reportOf account).fromAccount
    (watch.mirror.world.remembered (json.reportOf account).account)
  let sent := updateFor ((json.reportOf account).account.under own)
    (watch.mirror.world.remembered (json.reportOf account).account)
  let known : KnownAccount := { memberName := own, hidden := false, sent := some current, presence }
  let after : Mirror :=
    { watch.mirror with
      world :=
        { watch.mirror.world with
          members
          directory
          known := Function.update watch.mirror.world.known account.report.id (some known)
          outbox := watch.mirror.world.outbox ++ sent } }
  have hafter : (watch.step json (.turn account)).mirror = after :=
    congrArg (fun world ↦ ({ watch.mirror with world } : Mirror)) hturn
  have hpending : after.pending = watch.mirror.pending ++ sent.map Prod.snd :=
    Mirror.pending_of_outbox h.batched rfl
  have hself : after.awaited own .hubMeta = current .hubMeta :=
    h.awaited_sent hstill rfl (HubReport.fromAccount_hubMeta _) hkept
  -- A row of another account has what it had, and nothing is sent under its name.
  have hothers : ∀ id ≠ account.report.id, ∀ name, Owns members id name →
      Owns watch.mirror.world.members id name ∧ after.awaited name = watch.mirror.awaited name := by
    intro id hne name howns
    obtain ⟨hbefore, hvalues⟩ := owns_before hleaves hne howns
    have hforeign : fold name ≠ fold own := fun hsame ↦ hne (Owns.unique howns howned hsame)
    refine ⟨hbefore, ?_⟩
    rw [Mirror.awaited, hpending, layersFor_append, Mirror.layersFor_updateFor, if_neg hforeign,
      List.append_nil]
    exact congrArg (fun values ↦ stack values _) hvalues
  refine ⟨?_, ?_, fun id name howns other hother ↦ ?_, fun id name howns hshared ↦ ?_⟩
  all_goals rw [hafter]
  · exact Mirror.batched_of_outbox h.batched rfl
  · rintro name ⟨row, hrow, rfl⟩
    rw [hpending]
    apply (namedAt_after hleaves h.named hspelled hrow).append
    · intro update hupdate _
      rw [Mirror.name_of_mem_updateFor hupdate]
      exact howned.hasRow
  · rw [hafter] at howns hother
    by_cases hid : id = account.report.id
    · intro hname last hlast
      dsimp only [after] at hother
      rw [hid, Function.update_self, Option.mem_some_iff] at hother
      rw [← hother] at hname hlast
      rw [← hname, ← Option.some.inj hlast]
      exact hself
    · dsimp only [after] at hother
      rw [Function.update_of_ne hid] at hother
      obtain ⟨hbefore, hsame⟩ := hothers id hid name howns
      rw [hsame]
      exact h.remembered id name hbefore other hother
  · rw [hafter] at howns
    by_cases hid : id = account.report.id
    · rw [hid] at howns hshared ⊢
      rw [history_self] at hshared ⊢
      rw [howns.name_eq howned, hself]
      exact h.totals_sent hstill hkeeps hshared
    · rw [history_of_ne hid] at hshared ⊢
      obtain ⟨hbefore, hsame⟩ := hothers id hid name howns
      rw [hsame]
      exact h.totals id name hbefore hshared

end Turn

/-! ## A run -/

theorem Sound.step {event : WatchEvent} (h : Sound json watch) (hremembers : watch.Remembers json event) :
    Sound json (watch.step json event) := by
  cases event with
  | begin => exact h.begin
  | turn account =>
    dsimp only [Remembers] at hremembers
    split_ifs at hremembers with hvalid hhidden
    · exact h.turn_hidden hvalid hhidden hremembers
    · exact h.turn_shown hvalid (Bool.eq_false_iff.mpr hhidden) hremembers
    · exact h.turn_invalid (Bool.eq_false_iff.mpr hvalid) hremembers
  | left accounts => exact h.left accounts
  | elapse now => exact h.sameData (.refl _) (fun _ _ hknown ↦ hknown) rfl
  | receive => exact h.receive
  | flush => exact h.flush
  | store i => exact h.store i
  | admin memberName hidden stage => exact h.admin memberName hidden stage
  | restart => exact h.restart hremembers

theorem Sound.keepsTotals (h : Sound json watch) : watch.KeepsTotals json := by
  intro hdrained row hrow id hid hstays
  have hawaited : watch.mirror.awaited row.memberName .hubMeta = (row.column .hubMeta).value := by
    rw [Mirror.awaited, show watch.mirror.pending = [] from hdrained, layersFor_nil, stack_nil]
    exact congrFun (valuesOf_of_mem hrow rfl) .hubMeta
  rw [← hawaited]
  exact h.totals id row.memberName ⟨row, hrow, rfl, hid⟩ hstays.2

/-- A special world keeps the totals of the main game in every run in which the sync remembers them. -/
theorem keepsTotals_of_remembers (json : MetaJson) (members : Members) (clock : ℤ)
    (events : List WatchEvent) (hfree : ∀ row ∈ members, row.hubAccountId = none)
    (h : Run.Along (step json) (Remembers json) (boot members clock) events) :
    Run.Always (step json) (KeepsTotals json) (boot members clock) events := by
  have hsound : Run.Always (step json) (Sound json) (boot members clock) events :=
    Run.always_of_along (fun watch event hwatch hevent ↦ hwatch.step hevent) (sound_boot hfree clock) h
  exact hsound.mono fun watch hwatch ↦ hwatch.keepsTotals

/-- The account on the main game. -/
def onMainGame : SnapshotAccount where
  report := plainReport "1" "Zezima" totalsCategories 99
  details := plainDetails mainTotals

/-- The account on a special world, which has totals of its own. -/
def onSeasonal : SnapshotAccount where
  report := { plainReport "1" "Zezima" totalsCategories 99 with specialWorld := some true }
  details := plainDetails ⟨some 32, some 0, some 7, some 9⟩

/-- A turn whose update is stored before anything else happens. -/
def storedTurn (account : SnapshotAccount) : List WatchEvent :=
  [.begin, .turn account, .receive, .flush, .store 0]

/-- The account is seen on the main game again before it goes to a special world. -/
def seenAgain : List WatchEvent :=
  storedTurn onMainGame ++ [.restart] ++ storedTurn onMainGame ++ storedTurn onSeasonal

theorem keepsTotals_seenAgain :
    Run.Always (step plainJson) (KeepsTotals plainJson) (boot Table.empty 0) seenAgain :=
  keepsTotals_of_remembers plainJson Table.empty 0 seenAgain (by decide) (by decide +kernel)

/-- The account goes to a special world while the server restarts. -/
def goneMeanwhile : List WatchEvent :=
  storedTurn onMainGame ++ [.restart] ++ storedTurn onSeasonal

theorem not_keepsTotals_goneMeanwhile : ¬ ∀ (json : MetaJson) (members : Members) (clock : ℤ)
    (events : List WatchEvent), (∀ row ∈ members, row.hubAccountId = none) →
      Run.Always (step json) (KeepsTotals json) (boot members clock) events := by
  intro h
  have hkeeps := (h plainJson Table.empty 0 goneMeanwhile (by decide)).final
  exact absurd hkeeps (by decide +kernel)

end Watch

end OsrsMap.Sync
