import OsrsMap.Library.Run
import OsrsMap.Hub.Sessions

/-!
# Sign-ins next to the sweep

A sign-in (`discord_login`, `server/src/discord_routes.rs`) asks the hub and then starts a session;
the sweep (`reverify_once`, `server/src/hub/members.rs`) asks and then refreshes or ends the sessions
of the account. Asking and writing are two steps in two tasks without a lock, so that an answer may
be written after a newer one. And a sign-in does nothing about the sessions that its account has
already, whatever the hub says of it.
-/

namespace OsrsMap.Hub

open Cache (HubError)

/-! ## The tasks -/

/-- A sign-in that the hub called a member's, before its session is started. -/
structure SignIn where
  browser : ℕ
  discordId : String
  name : String
  isAdmin : Bool
deriving DecidableEq, Repr

/-- The session of a sign-in, with what the table fills in. -/
def SignIn.row (signIn : SignIn) (sessionId : String) (now expiresAt : ℤ) : SessionRow where
  sessionId := sessionId
  discordId := signIn.discordId
  name := signIn.name
  isAdmin := signIn.isAdmin
  expiresAt := expiresAt
  verifiedAt := now

/-- The sweep under way. -/
inductive Sweep where
  | cleaned
  | asking (due : List String)
  | answered (discordId : String) (member : HubMember) (due : List String)
deriving DecidableEq, Repr

/-- The sweep before its next account, if there is one. -/
def Sweep.next : List String → Option Sweep
  | [] => none
  | discordId :: due => some (.asking (discordId :: due))

/-- The table, the sign-ins and the sweep. Not of the code: what the hub answered, the newest answer
first. -/
structure Desk where
  sessions : Sessions
  signIns : List SignIn
  sweep : Option Sweep
  answers : List (String × HubMember)

inductive DeskEvent where
  /-- The hub answers a sign-in, of an account that Discord names. -/
  | signInAnswered (browser : ℕ) (discordId displayName : String) (answer : Except HubError HubMember)
  /-- `start_session` makes an end of what has run out, if it can. -/
  | cleanup (now : ℤ)
  | sessionStarted (signIn : SignIn) (sessionId : String) (now expiresAt : ℤ)
  | logout (sessionId : String)
  | sweepCleans (now : ℤ)
  | sweepSelects (ties : String → ℕ) (now utcNow : ℤ)
  | sweepAnswered (answer : Except HubError HubMember)
  | sweepWrites (now : ℤ)

namespace Desk

def start : Desk := ⟨Table.empty, [], none, []⟩

/-- What the hub says of an account last. -/
def latest (desk : Desk) (discordId : String) : Option HubMember := desk.answers.lookup discordId

/-- The hub answers a sign-in; only a member's goes on. -/
def answerSignIn (desk : Desk) (browser : ℕ) (discordId displayName : String) :
    Except HubError HubMember → Desk
  | .error _ => desk
  | .ok member =>
    { desk with
      signIns := if member.member then
          desk.signIns ++ [⟨browser, discordId, member.name.getD displayName, member.isAdmin⟩]
        else desk.signIns
      answers := (discordId, member) :: desk.answers }

/-- The table with the session of a sign-in, if it is one of those under way and the insert is not
refused. -/
def started (desk : Desk) (signIn : SignIn) (sessionId : String) (now expiresAt : ℤ) :
    Option Sessions :=
  if signIn ∈ desk.signIns then desk.sessions.createSession (signIn.row sessionId now expiresAt)
  else none

def startSession (desk : Desk) (signIn : SignIn) (sessionId : String) (now expiresAt : ℤ) : Desk :=
  { desk with
    signIns := desk.signIns.erase signIn
    sessions := (desk.started signIn sessionId now expiresAt).getD desk.sessions }

/-- The hub answers the sweep about its next account, or the sweep ends. -/
def answerSweep (desk : Desk) : Except HubError HubMember → Desk
  | .error _ =>
    match desk.sweep with
    | some (.asking _) => { desk with sweep := none }
    | _ => desk
  | .ok member =>
    match desk.sweep with
    | some (.asking (discordId :: due)) =>
      { desk with
        sweep := some (.answered discordId member due)
        answers := (discordId, member) :: desk.answers }
    | _ => desk

def step (desk : Desk) : DeskEvent → Desk
  | .signInAnswered browser discordId displayName answer =>
    desk.answerSignIn browser discordId displayName answer
  | .cleanup now => { desk with sessions := desk.sessions.cleanupExpired now }
  | .sessionStarted signIn sessionId now expiresAt => desk.startSession signIn sessionId now expiresAt
  | .logout sessionId => { desk with sessions := desk.sessions.deleteSession sessionId }
  | .sweepCleans now =>
    match desk.sweep with
    | none => { desk with sweep := some .cleaned, sessions := desk.sessions.cleanupExpired now }
    | some _ => desk
  | .sweepSelects ties now utcNow =>
    match desk.sweep with
    | some .cleaned =>
      let due := desk.sessions.toVerify ties now (utcNow - minutes verifyAfterMinutes) sweepMembers
      { desk with sweep := Sweep.next due }
    | _ => desk
  | .sweepAnswered answer => desk.answerSweep answer
  | .sweepWrites now =>
    match desk.sweep with
    | some (.answered discordId member due) =>
      { desk with sweep := Sweep.next due, sessions := desk.sessions.settle discordId member now }
    | _ => desk

/-- All sign-ins and the sweep have finished. -/
def Finished (desk : Desk) : Prop := desk.signIns = [] ∧ desk.sweep = none

instance decidableFinished (desk : Desk) : Decidable desk.Finished :=
  inferInstanceAs (Decidable (desk.signIns = [] ∧ desk.sweep = none))

/-- The sessions of every account are as the hub said last. -/
def AgreesWithHub (desk : Desk) : Prop :=
  ∀ discordId member, desk.latest discordId = some member → desk.sessions.Agree discordId member

/-! ## When a step is spared -/

end Desk

/-- Two answers that say the same of an account's sessions. -/
def HubMember.SaysAs (answer other : HubMember) : Prop :=
  answer.member = other.member ∧ (answer.member = true → answer.isAdmin = other.isAdmin)

instance decidableSaysAs (answer other : HubMember) : Decidable (answer.SaysAs other) :=
  inferInstanceAs (Decidable (answer.member = other.member ∧
    (answer.member = true → answer.isAdmin = other.isAdmin)))

/-- The sweep is about to end the sessions of an account, or to write on them what an answer says. -/
def Sweep.Settles (discordId : String) (member : HubMember) : Option Sweep → Prop
  | some (.answered asked answer _) =>
    asked = discordId ∧ (answer.member = false ∨ answer.SaysAs member)
  | _ => False

instance decidableSettles (discordId : String) (member : HubMember) :
    (sweep : Option Sweep) → Decidable (Sweep.Settles discordId member sweep)
  | some (.answered asked answer _) =>
    inferInstanceAs (Decidable (asked = discordId ∧ (answer.member = false ∨ answer.SaysAs member)))
  | some .cleaned => inferInstanceAs (Decidable False)
  | some (.asking _) => inferInstanceAs (Decidable False)
  | none => inferInstanceAs (Decidable False)

namespace Desk

/-- What the sweep is about to write is as the hub said last, or finds no session. -/
def WritesLatest (desk : Desk) : Option Sweep → Prop
  | some (.answered discordId answer _) => answer.member = true →
    desk.sessions.ofAccount discordId ≠ [] → ∀ member ∈ desk.latest discordId, answer.SaysAs member
  | _ => True

instance decidableWritesLatest (desk : Desk) :
    (sweep : Option Sweep) → Decidable (desk.WritesLatest sweep)
  | some (.answered discordId answer _) => inferInstanceAs (Decidable (answer.member = true →
    desk.sessions.ofAccount discordId ≠ [] → ∀ member ∈ desk.latest discordId, answer.SaysAs member))
  | some .cleaned => inferInstanceAs (Decidable True)
  | some (.asking _) => inferInstanceAs (Decidable True)
  | none => inferInstanceAs (Decidable True)

/-- The step leaves no session that is not as the hub said last: a sign-in's answer finds none, and
what is written is not older than an answer that says otherwise; or the sweep is about to settle the
account. -/
def Spared (desk : Desk) : DeskEvent → Prop
  | .signInAnswered _ discordId _ (.ok member) =>
    desk.sessions.Agree discordId member ∨ Sweep.Settles discordId member desk.sweep
  | .sessionStarted signIn sessionId now expiresAt =>
    (desk.started signIn sessionId now expiresAt).isSome →
      ∀ member ∈ desk.latest signIn.discordId,
        (member.member = true ∧ signIn.isAdmin = member.isAdmin) ∨
          Sweep.Settles signIn.discordId member desk.sweep
  | .sweepWrites _ => desk.WritesLatest desk.sweep
  | _ => True

instance decidableSpared (desk : Desk) : (event : DeskEvent) → Decidable (desk.Spared event)
  | .signInAnswered _ discordId _ (.ok member) => inferInstanceAs (Decidable
    (desk.sessions.Agree discordId member ∨ Sweep.Settles discordId member desk.sweep))
  | .signInAnswered _ _ _ (.error _) => inferInstanceAs (Decidable True)
  | .cleanup _ => inferInstanceAs (Decidable True)
  | .sessionStarted signIn sessionId now expiresAt => inferInstanceAs (Decidable
    ((desk.started signIn sessionId now expiresAt).isSome →
      ∀ member ∈ desk.latest signIn.discordId,
        (member.member = true ∧ signIn.isAdmin = member.isAdmin) ∨
          Sweep.Settles signIn.discordId member desk.sweep))
  | .logout _ => inferInstanceAs (Decidable True)
  | .sweepCleans _ => inferInstanceAs (Decidable True)
  | .sweepSelects _ _ _ => inferInstanceAs (Decidable True)
  | .sweepAnswered _ => inferInstanceAs (Decidable True)
  | .sweepWrites _ => inferInstanceAs (Decidable (desk.WritesLatest desk.sweep))

/-! ## What holds all along -/

/-- Whoever is asked about is answered about. -/
structure Answered (desk : Desk) : Prop where
  signIns : ∀ signIn ∈ desk.signIns, (desk.latest signIn.discordId).isSome
  sweep : ∀ discordId member due, desk.sweep = some (.answered discordId member due) →
    (desk.latest discordId).isSome

/-- The sessions of every account are as the hub said last, or about to be settled. -/
def Kept (desk : Desk) : Prop :=
  ∀ discordId member, desk.latest discordId = some member →
    desk.sessions.Agree discordId member ∨ Sweep.Settles discordId member desk.sweep

variable {desk : Desk} {discordId other : String} {member : HubMember}

theorem settles_iff {sweep : Option Sweep} : Sweep.Settles discordId member sweep ↔
    ∃ answer due, sweep = some (.answered discordId answer due) ∧
      (answer.member = false ∨ answer.SaysAs member) := by
  constructor
  · intro h
    match sweep with
    | some (.answered asked answer due) =>
      obtain ⟨rfl, hanswer⟩ := h
      exact ⟨answer, due, rfl, hanswer⟩
  · rintro ⟨answer, due, rfl, hanswer⟩
    exact ⟨rfl, hanswer⟩

/-- With no answer to write, all accounts are as the hub said last. -/
theorem Kept.agrees (h : desk.Kept)
    (hsweep : ∀ discordId member due, desk.sweep ≠ some (.answered discordId member due)) :
    desk.AgreesWithHub := by
  intro discordId member hlatest
  refine (h discordId member hlatest).resolve_right fun hsettled ↦ ?_
  obtain ⟨answer, due, heq, -⟩ := settles_iff.mp hsettled
  exact hsweep discordId answer due heq

theorem lookup_answers (answers : List (String × HubMember)) (answer : HubMember) :
    List.lookup other ((discordId, answer) :: answers) =
      if other = discordId then some answer else answers.lookup other := by
  by_cases h : other = discordId
  · rw [if_pos h, h, List.lookup_cons_self]
  · rw [if_neg h, List.lookup_cons, beq_false_of_ne h]

end Desk

namespace Sessions

variable {sessions : Sessions} {discordId other : String} {member : HubMember} {row : SessionRow}

/-- With rows deleted, what agreed agrees. -/
theorem Agree.delete (h : sessions.Agree discordId member) (p : SessionRow → Bool) :
    Sessions.Agree (sessions.delete p) discordId member := by
  have hsub : ∀ row ∈ Sessions.ofAccount (sessions.delete p) discordId,
      row ∈ sessions.ofAccount discordId := by
    intro row hrow
    obtain ⟨hmem, haccount⟩ := mem_ofAccount.mp hrow
    exact mem_ofAccount.mpr ⟨(Table.mem_delete.mp hmem).1, haccount⟩
  unfold Agree at h ⊢
  split at h
  · next hmember =>
    rw [if_pos hmember]
    exact fun row hrow ↦ h row (hsub row hrow)
  · next hmember =>
    rw [if_neg hmember]
    exact List.eq_nil_iff_forall_not_mem.mpr fun row hrow ↦
      List.eq_nil_iff_forall_not_mem.mp h row (hsub row hrow)

theorem agree_of_ofAccount {after : Sessions}
    (h : after.ofAccount discordId = sessions.ofAccount discordId) :
    after.Agree discordId member ↔ sessions.Agree discordId member := by
  unfold Agree
  rw [h]

theorem ofAccount_createSession {after : Sessions} (h : sessions.createSession row = some after) :
    after.ofAccount discordId =
      sessions.ofAccount discordId ++ if row.discordId = discordId then [row] else [] := by
  unfold ofAccount
  rw [Table.rows_of_ofRows h, List.filter_append]
  by_cases hrow : row.discordId = discordId
  · rw [if_pos hrow, List.filter_cons_of_pos (by simpa using hrow), List.filter_nil]
  · rw [if_neg hrow, List.filter_cons_of_neg (by simpa using hrow), List.filter_nil]

/-- A new session of an account agrees with an answer if the others do and it does. -/
theorem agree_createSession (member : HubMember) {after : Sessions} (h : sessions.createSession row = some after) :
    after.Agree row.discordId member ↔ sessions.Agree row.discordId member ∧
      member.member = true ∧ row.isAdmin = member.isAdmin := by
  unfold Agree
  rw [ofAccount_createSession h, if_pos rfl]
  split
  · next hmember =>
    constructor
    · intro hall
      refine ⟨fun other hother ↦ hall other (List.mem_append_left _ hother), hmember, ?_⟩
      exact hall row (List.mem_append_right _ (List.mem_singleton_self _))
    · rintro ⟨hall, -, hrow⟩ other hother
      obtain hother | hother := List.mem_append.mp hother
      · exact hall other hother
      · exact List.mem_singleton.mp hother ▸ hrow
  · next hmember =>
    constructor
    · exact fun hnil ↦ absurd hnil (by simp)
    · exact fun hagree ↦ absurd hagree.2.1 hmember

theorem agree_of_nil (h : sessions.ofAccount discordId = []) : sessions.Agree discordId member := by
  unfold Agree
  rw [h]
  split
  · exact fun row hrow ↦ absurd hrow List.not_mem_nil
  · rfl

/-- What the sweep writes agrees with an answer that says the same, or there is no session. -/
theorem agree_settle_iff (sessions : Sessions) (discordId : String) (member answer : HubMember)
    (now : ℤ) :
    (sessions.settle discordId answer now).Agree discordId member ↔
      (answer.member = true → sessions.ofAccount discordId ≠ [] → answer.SaysAs member) := by
  by_cases hanswer : answer.member = true
  · have hafter : (sessions.settle discordId answer now).ofAccount discordId =
        (sessions.ofAccount discordId).map
          (SessionRow.refreshed discordId answer.name answer.isAdmin now) := by
      unfold settle
      rw [if_pos hanswer, ofAccount_refreshSessions]
    rw [forall_prop_of_true hanswer]
    cases hrows : sessions.ofAccount discordId with
    | nil =>
      rw [hrows, List.map_nil] at hafter
      exact iff_of_true (agree_of_nil hafter) fun hne ↦ absurd rfl hne
    | cons row rows =>
      rw [forall_prop_of_true (List.cons_ne_nil row rows)]
      have hadmin : ∀ row ∈ (sessions.settle discordId answer now).ofAccount discordId,
          row.isAdmin = answer.isAdmin := fun row hrow ↦ ofAccount_settle_of_member hanswer hrow
      obtain ⟨first, hfirst⟩ : ∃ first, first ∈
          (sessions.settle discordId answer now).ofAccount discordId := by
        rw [hafter, hrows]
        exact ⟨_, List.mem_cons_self⟩
      unfold Agree HubMember.SaysAs
      split
      · next hmember =>
        constructor
        · exact fun hall ↦ ⟨hanswer.trans hmember.symm, fun _ ↦
            (hadmin first hfirst).symm.trans (hall first hfirst)⟩
        · exact fun hagreed row hrow ↦ (hadmin row hrow).trans (hagreed.2 hanswer)
      · next hmember =>
        constructor
        · exact fun hnil ↦ absurd (hnil ▸ hfirst) List.not_mem_nil
        · exact fun hagreed ↦ absurd (hagreed.1.symm.trans hanswer) hmember
  · refine iff_of_true ?_ fun hmember ↦ absurd hmember hanswer
    exact agree_of_nil (ofAccount_settle_of_not_member hanswer)

end Sessions

namespace Desk

variable {desk : Desk} {event : DeskEvent}

theorem answered_start : start.Answered where
  signIns _ hsignIn := absurd hsignIn List.not_mem_nil
  sweep _ _ _ hsweep := nomatch hsweep

theorem isSome_latest_cons {discordId other : String} (member : HubMember)
    (h : (desk.latest other).isSome ∨ other = discordId) :
    (List.lookup other ((discordId, member) :: desk.answers)).isSome := by
  rw [lookup_answers]
  split
  · rfl
  · next hne => exact h.resolve_right hne

theorem sweep_next_ne (due : List String) (discordId : String) (member : HubMember)
    (rest : List String) : Sweep.next due ≠ some (.answered discordId member rest) := by
  cases due <;> simp [Sweep.next]

theorem Answered.answerSignIn (h : desk.Answered) (browser : ℕ) (discordId displayName : String)
    (answer : Except HubError HubMember) :
    (desk.answerSignIn browser discordId displayName answer).Answered := by
  cases answer with
  | error err => exact h
  | ok member =>
    refine ⟨fun signIn hsignIn ↦ ?_, fun asked answer due hsweep ↦ ?_⟩
    · apply isSome_latest_cons
      unfold Desk.answerSignIn at hsignIn
      dsimp only at hsignIn
      split at hsignIn
      · obtain hsignIn | hsignIn := List.mem_append.mp hsignIn
        · exact Or.inl (h.signIns signIn hsignIn)
        · exact Or.inr (congrArg SignIn.discordId (List.mem_singleton.mp hsignIn))
      · exact Or.inl (h.signIns signIn hsignIn)
    · exact isSome_latest_cons member (Or.inl (h.sweep asked answer due hsweep))

theorem Answered.answerSweep (h : desk.Answered) (answer : Except HubError HubMember) :
    (desk.answerSweep answer).Answered := by
  cases answer with
  | error err =>
    rw [Desk.answerSweep]
    split
    · exact ⟨h.signIns, fun _ _ _ hsweep ↦ nomatch hsweep⟩
    · exact h
  | ok member =>
    rw [Desk.answerSweep]
    split
    · next discordId due hsweep =>
      refine ⟨fun signIn hsignIn ↦ isSome_latest_cons member (Or.inl (h.signIns signIn hsignIn)), ?_⟩
      intro asked answer rest hnext
      cases hnext
      exact isSome_latest_cons member (Or.inr rfl)
    · exact h

theorem answered_step (h : desk.Answered) (event : DeskEvent) : (desk.step event).Answered := by
  cases event with
  | signInAnswered browser discordId displayName answer =>
    exact h.answerSignIn browser discordId displayName answer
  | cleanup now => exact ⟨h.signIns, h.sweep⟩
  | sessionStarted signIn sessionId now expiresAt =>
    exact ⟨fun other hother ↦ h.signIns other (List.mem_of_mem_erase hother), h.sweep⟩
  | logout sessionId => exact ⟨h.signIns, h.sweep⟩
  | sweepCleans now =>
    unfold step
    dsimp only
    split
    · exact ⟨h.signIns, fun _ _ _ hsweep ↦ nomatch hsweep⟩
    · exact h
  | sweepSelects ties now utcNow =>
    unfold step
    dsimp only
    split
    · exact ⟨h.signIns, fun discordId member due hsweep ↦ absurd hsweep (sweep_next_ne _ _ _ _)⟩
    · exact h
  | sweepAnswered answer => exact h.answerSweep answer
  | sweepWrites now =>
    unfold step
    dsimp only
    split
    · exact ⟨h.signIns, fun discordId member due hsweep ↦ absurd hsweep (sweep_next_ne _ _ _ _)⟩
    · exact h

/-! ## When everyone stays settled -/

theorem kept_start : start.Kept := fun _ _ hlatest ↦ nomatch hlatest

/-- With rows deleted, everyone stays settled. -/
theorem Kept.delete (h : desk.Kept) (p : SessionRow → Bool) :
    Kept { desk with sessions := desk.sessions.delete p } :=
  fun discordId member hlatest ↦ (h discordId member hlatest).imp_left (·.delete p)

theorem AgreesWithHub.delete (h : desk.AgreesWithHub) (p : SessionRow → Bool) (sweep : Option Sweep) :
    Kept { desk with sessions := desk.sessions.delete p, sweep := sweep } :=
  fun discordId member hlatest ↦ Or.inl ((h discordId member hlatest).delete p)

theorem AgreesWithHub.kept_sweep (h : desk.AgreesWithHub) (sweep : Option Sweep) :
    Kept { desk with sweep := sweep } :=
  fun discordId member hlatest ↦ Or.inl (h discordId member hlatest)

/-- An answer to a sign-in leaves everyone settled exactly if it is spared. -/
theorem kept_answerSignIn_iff (h : desk.Kept) (browser : ℕ) (discordId displayName : String)
    (member : HubMember) :
    (desk.answerSignIn browser discordId displayName (.ok member)).Kept ↔
      desk.sessions.Agree discordId member ∨ Sweep.Settles discordId member desk.sweep := by
  have hlatest (other : String) :
      (desk.answerSignIn browser discordId displayName (.ok member)).latest other =
        if other = discordId then some member else desk.latest other :=
    lookup_answers desk.answers member
  constructor
  · intro hkept
    exact hkept discordId member ((hlatest discordId).trans (if_pos rfl))
  · intro hspared other answer hother
    rw [hlatest] at hother
    split at hother
    · next heq =>
      obtain rfl := Option.some.inj hother
      rw [heq]
      exact hspared
    · exact h other answer hother

theorem kept_startSession_iff (h : desk.Kept) (hanswered : desk.Answered) (signIn : SignIn)
    (sessionId : String) (now expiresAt : ℤ) :
    (desk.startSession signIn sessionId now expiresAt).Kept ↔
      desk.Spared (.sessionStarted signIn sessionId now expiresAt) := by
  unfold startSession Spared
  dsimp only
  cases hstarted : desk.started signIn sessionId now expiresAt with
  | none => exact iff_of_true h fun hsome ↦ absurd hsome Bool.false_ne_true
  | some sessions =>
    rw [Option.isSome_some, forall_prop_of_true rfl, Option.getD_some]
    unfold started at hstarted
    split at hstarted
    · next hsignIn =>
      obtain ⟨member, hlatest⟩ := Option.isSome_iff_exists.mp (hanswered.signIns signIn hsignIn)
      have hagree := Sessions.agree_createSession member hstarted
      constructor
      · intro hkept other hother
        obtain rfl := Option.some.inj (hlatest.symm.trans hother)
        exact (hkept signIn.discordId member hlatest).imp_left fun hnew ↦ (hagree.mp hnew).2
      · intro hspared discordId other hother
        by_cases heq : discordId = signIn.discordId
        · rw [heq] at hother ⊢
          obtain rfl := Option.some.inj (hlatest.symm.trans hother)
          obtain hsame | hsettled := hspared member hlatest
          · exact (h signIn.discordId member hlatest).imp_left fun hold ↦ hagree.mpr ⟨hold, hsame⟩
          · exact Or.inr hsettled
        · refine (h discordId other hother).imp_left ?_
          apply (Sessions.agree_of_ofAccount ?_).mpr
          rw [Sessions.ofAccount_createSession hstarted]
          exact (congrArg _ (if_neg (Ne.symm heq))).trans (List.append_nil _)
    · cases hstarted

theorem kept_answerSweep (h : desk.Kept) (answer : Except HubError HubMember) :
    (desk.answerSweep answer).Kept := by
  cases answer with
  | error err =>
    rw [Desk.answerSweep]
    split
    · next hsweep => exact (h.agrees (by simp [hsweep])).kept_sweep none
    · exact h
  | ok member =>
    rw [Desk.answerSweep]
    split
    · next discordId due hsweep =>
      have hagrees := h.agrees (by simp [hsweep])
      intro other latest hlatest
      replace hlatest := (lookup_answers desk.answers member).symm.trans hlatest
      split at hlatest
      · next heq =>
        obtain rfl := Option.some.inj hlatest
        exact Or.inr ⟨heq.symm, Or.inr ⟨rfl, fun _ ↦ rfl⟩⟩
      · exact Or.inl (hagrees other latest hlatest)
    · exact h

theorem kept_sweepWrites_iff (h : desk.Kept) (hanswered : desk.Answered) (now : ℤ) :
    (desk.step (.sweepWrites now)).Kept ↔ desk.Spared (.sweepWrites now) := by
  unfold step Spared WritesLatest
  dsimp only
  cases hsweep : desk.sweep with
  | none => exact iff_of_true h trivial
  | some sweep =>
    cases sweep with
    | cleaned => exact iff_of_true h trivial
    | asking due => exact iff_of_true h trivial
    | answered discordId answer due =>
      obtain ⟨member, hlatest⟩ := Option.isSome_iff_exists.mp (hanswered.sweep discordId answer due hsweep)
      have hagree := Sessions.agree_settle_iff desk.sessions discordId member answer now
      dsimp only
      constructor
      · intro hkept hmember hne other hother
        obtain rfl := Option.some.inj (hlatest.symm.trans hother)
        have hnext := hkept.agrees (fun _ _ _ ↦ sweep_next_ne _ _ _ _) discordId member hlatest
        exact hagree.mp hnext hmember hne
      · intro hspared other latest hother
        by_cases heq : other = discordId
        · rw [heq] at hother ⊢
          obtain rfl := Option.some.inj (hlatest.symm.trans hother)
          exact Or.inl (hagree.mpr fun hmember hne ↦ hspared hmember hne member hlatest)
        · refine Or.inl ((Sessions.agree_of_ofAccount (Sessions.ofAccount_settle_of_ne heq)).mpr ?_)
          refine (h other latest hother).resolve_right fun hsettled ↦ ?_
          obtain ⟨_, _, hasked, -⟩ := settles_iff.mp hsettled
          rw [hsweep] at hasked
          cases hasked
          exact heq rfl

/-- A step leaves everyone settled exactly if it is spared. -/
theorem kept_step_iff (hanswered : desk.Answered) (h : desk.Kept) :
    (desk.step event).Kept ↔ desk.Spared event := by
  cases event with
  | signInAnswered browser discordId displayName answer =>
    cases answer with
    | error err => exact iff_of_true h trivial
    | ok member => exact kept_answerSignIn_iff h browser discordId displayName member
  | cleanup now => exact iff_of_true (h.delete _) trivial
  | sessionStarted signIn sessionId now expiresAt =>
    exact kept_startSession_iff h hanswered signIn sessionId now expiresAt
  | logout sessionId => exact iff_of_true (h.delete _) trivial
  | sweepCleans now =>
    refine iff_of_true ?_ trivial
    unfold step
    dsimp only
    split
    · next hsweep => exact (h.agrees (by simp [hsweep])).delete _ _
    · exact h
  | sweepSelects ties now utcNow =>
    refine iff_of_true ?_ trivial
    unfold step
    dsimp only
    split
    · next hsweep => exact (h.agrees (by simp [hsweep])).kept_sweep _
    · exact h
  | sweepAnswered answer => exact iff_of_true (kept_answerSweep h answer) trivial
  | sweepWrites now => exact kept_sweepWrites_iff h hanswered now

/-- Everyone stays settled through a run exactly if all of its steps are spared. -/
theorem always_kept_iff (events : List DeskEvent) :
    Run.Always step Kept start events ↔ Run.Along step Spared start events :=
  Run.always_iff_along_of_invariant (fun _ event h ↦ answered_step h event)
    (fun _ _ hanswered h ↦ kept_step_iff hanswered h) answered_start kept_start

/-- In a run of spared steps, whenever all sign-ins and the sweep have finished, the sessions of
every account are as the hub said last. -/
theorem agreesWithHub_of_spared {events : List DeskEvent}
    (h : Run.Along step Spared start events) :
    Run.Always step (fun desk ↦ desk.Finished → desk.AgreesWithHub) start events :=
  ((always_kept_iff events).mpr h).mono fun desk hkept hfinished ↦
    hkept.agrees (by simp [hfinished.2])

/-! ## A sweep that nothing comes between -/

section Alone

variable (lookup : String → Except HubError HubMember) (now : String → ℤ)

/-- What happens in the loop of a sweep. -/
def sweepEvents : List String → List DeskEvent
  | [] => []
  | discordId :: due =>
    match lookup discordId with
    | .error err => [.sweepAnswered (.error err)]
    | .ok member =>
      .sweepAnswered (.ok member) :: .sweepWrites (now discordId) :: sweepEvents due

variable {lookup now}

theorem foldl_sweepEvents {due : List String} {desk : Desk} (h : desk.sweep = Sweep.next due) :
    ((sweepEvents lookup now due).foldl step desk).sessions =
        (reverifyEach lookup now due desk.sessions).1 ∧
      ((sweepEvents lookup now due).foldl step desk).sweep = none := by
  induction due generalizing desk with
  | nil => exact ⟨rfl, h⟩
  | cons discordId due ih =>
    unfold sweepEvents reverifyEach
    cases hlookup : lookup discordId with
    | error err =>
      have hstep : desk.step (.sweepAnswered (.error err)) = { desk with sweep := none } := by
        rw [step, answerSweep, h]
        rfl
      rw [List.foldl_cons, List.foldl_nil, hstep]
      exact ⟨rfl, rfl⟩
    | ok member =>
      have hstep : (desk.step (.sweepAnswered (.ok member))).step (.sweepWrites (now discordId)) =
          { desk with
            sweep := Sweep.next due
            sessions := desk.sessions.settle discordId member (now discordId)
            answers := (discordId, member) :: desk.answers } := by
        rw [step, answerSweep, h]
        rfl
      rw [List.foldl_cons, List.foldl_cons, hstep]
      exact ih rfl

/-- On its own, a sweep does what `reverify_once` does. -/
theorem sessions_foldl_sweep {desk : Desk} (h : desk.sweep = none) (clock : SweepClock) :
    ((.sweepCleans clock.cleaned :: .sweepSelects clock.ties clock.selected clock.utcNow ::
      sweepEvents lookup clock.settled (dueIn clock desk.sessions)).foldl step desk).sessions =
        (reverifyOnce lookup clock desk.sessions).1 := by
  have hstep : (desk.step (.sweepCleans clock.cleaned)).step
      (.sweepSelects clock.ties clock.selected clock.utcNow) =
        { desk with
          sweep := Sweep.next (dueIn clock desk.sessions)
          sessions := desk.sessions.cleanupExpired clock.cleaned } := by
    rw [step.eq_def desk]
    dsimp only
    rw [h]
    rfl
  rw [List.foldl_cons, List.foldl_cons, hstep]
  exact (foldl_sweepEvents rfl).1

end Alone

/-! ## Two runs -/

def isMember : HubMember := ⟨true, false, some "Alpha"⟩

def isNoMember : HubMember := ⟨false, false, none⟩

/-- A sign-in, and a sweep twenty minutes later after Alpha has left the guild. -/
def leaving : List DeskEvent :=
  [.signInAnswered 1 "1" "alpha" (.ok isMember), .cleanup 0,
    .sessionStarted ⟨1, "1", "Alpha", false⟩ "first" 0 100000, .sweepCleans 1200,
    .sweepSelects (fun _ ↦ 0) 1200 1200, .sweepAnswered (.ok isNoMember), .sweepWrites 1201]

theorem agreesWithHub_leaving : (leaving.foldl step start).Finished ∧
    (leaving.foldl step start).AgreesWithHub :=
  have hspared : Run.Along step Spared start leaving := by decide +kernel
  ⟨by decide +kernel, (agreesWithHub_of_spared hspared).final (by decide +kernel)⟩

/-- Alpha signs in with another browser while the sweep ends the first session: the hub calls them a
member, then no member, and then the second session is started. -/
def overtaken : List DeskEvent :=
  [.signInAnswered 1 "1" "alpha" (.ok isMember), .cleanup 0,
    .sessionStarted ⟨1, "1", "Alpha", false⟩ "first" 0 100000, .sweepCleans 1200,
    .sweepSelects (fun _ ↦ 0) 1200 1200, .signInAnswered 2 "1" "alpha" (.ok isMember),
    .sweepAnswered (.ok isNoMember), .sweepWrites 1201, .cleanup 1202,
    .sessionStarted ⟨2, "1", "Alpha", false⟩ "second" 1202 100000]

/-- The second session outlives the newer answer. -/
theorem not_agreesWithHub_overtaken :
    ¬ Run.Always step (fun desk ↦ desk.Finished → desk.AgreesWithHub) start overtaken := by
  intro h
  have hagree := h.final (by decide +kernel) "1" isNoMember (by decide +kernel)
  revert hagree
  decide +kernel

end Desk

end OsrsMap.Hub
