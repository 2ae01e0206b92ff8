import OsrsMap.Library.Run
import OsrsMap.Hub.SignIns

/-!
# Who is let in

Signing in from the browser on (`server/src/discord_routes.rs`, `server/src/auth_routes.rs`) and what a request is
answered (`SessionMiddleware`, `server/src/auth_middleware.rs`): a browser is given a state to go to Discord with,
comes back with a code and a state, and is given a session when the two states are one and the hub calls the
account a member. Browsers, sign-ins under way and the sweep go on side by side.

States and session ids are random; here they are new whenever they are drawn. A code and a state may come from
anywhere.
-/

namespace OsrsMap.Hub

open Cache (HubError)

/-! ## Requests -/

/-- Whose a session is. -/
structure Session where
  discordId : String
  name : String
  isAdmin : Bool
deriving DecidableEq, Repr

/-- Who a route is for, by the scope that `configure` (`server/src/api.rs`) mounts it in. -/
inductive Audience where
  | anyone
  | signedIn
  | admins
deriving DecidableEq, Repr

inductive Answer where
  /-- The handler runs. -/
  | served (session : Option Session)
  | unauthorized (message : String)
  | forbidden (message : String)
  | internalServerError
deriving DecidableEq, Repr

/-- `get_session`. -/
def Sessions.getSession (sessions : Sessions) (sessionId : String) (now : ℤ) : Option Session :=
  (sessions.find fun row ↦ row.sessionId = sessionId ∧ now < row.expiresAt).map fun row ↦
    { discordId := row.discordId, name := row.name, isAdmin := row.isAdmin }

/-- `SessionMiddleware::call` with the session cookie of a request, and what its handler asks for. There may be no
connection to the database. -/
def answerTo (audience : Audience) (cookie : Option String) (connected : Bool) (sessions : Sessions) (now : ℤ) :
    Answer :=
  if audience = .anyone then .served none
  else
    match cookie with
    | none => .unauthorized "Not authenticated"
    | some sessionId =>
      if connected then
        match sessions.getSession sessionId now with
        | none => .unauthorized "Invalid or expired session"
        | some session =>
          if audience = .admins ∧ session.isAdmin = false then .forbidden "Admin access required"
          else .served (some session)
      else .internalServerError

/-! ## Browsers -/

structure Cookie where
  value : String
  expiresAt : ℤ
deriving DecidableEq, Repr

/-- What a browser sends of a cookie. -/
def sent (cookie : Option Cookie) (now : ℤ) : Option String :=
  (cookie.filter fun cookie ↦ now < cookie.expiresAt).map Cookie.value

/-- The `session` and the `discord_oauth_state` cookie. -/
structure Browser where
  session : Option Cookie
  oauthState : Option Cookie
deriving DecidableEq, Repr

/-- `OAUTH_STATE_MAX_AGE_MINUTES`. -/
def oauthStateMaxAgeMinutes : ℤ := 10

/-- `SESSION_DURATION_HOURS`. -/
def sessionDurationHours : ℤ := 72

/-- How long a session is, in seconds. -/
def sessionDuration : ℤ := minutes (60 * sessionDurationHours)

/-- A browser that came back from Discord with the state that it was given. -/
structure Callback where
  browser : ℕ
  state : String
deriving DecidableEq, Repr

/-- A session that was started. -/
structure SessionGrant where
  browser : ℕ
  discordId : String
  sessionId : String
  startedAt : ℤ
deriving DecidableEq, Repr

/-- What happened: a browser was given a state, came back from Discord with the state it had, the hub answered the
callback about an account, and the browser was given a session. -/
inductive Note where
  | issued (browser : ℕ) (state : String) (now : ℤ)
  | accepted (callback : Callback) (now : ℤ)
  | answered (callback : Callback) (discordId : String) (member : HubMember)
  | granted (grant : SessionGrant)
deriving DecidableEq, Repr

/-- The state that a browser was given. -/
def Note.state : Note → Option String
  | .issued _ state _ => some state
  | _ => none

/-- The id of a session that was started. -/
def Note.sessionId : Note → Option String
  | .granted grant => some grant.sessionId
  | _ => none

/-- The desk with the browsers before it, and the callbacks that wait for Discord or the hub. Not of the code: what
happened so far, the newest first. -/
structure Front where
  desk : Desk
  browsers : ℕ → Browser
  callbacks : List Callback
  log : List Note

inductive FrontEvent where
  | discordStart (browser : ℕ) (state : String) (now : ℤ)
  | discordCallback (browser : ℕ) (received : Option String) (now : ℤ)
  /-- Discord takes no such code, or gives no answer; then the browser keeps the state. -/
  | discordRefused (callback : Callback) (answered : Bool)
  /-- The hub answers about the account that Discord names. -/
  | hubAnswered (callback : Callback) (discordId displayName : String) (answer : Except HubError HubMember)
  | sessionStarted (signIn : SignIn) (sessionId : String) (now : ℤ)
  | logout (browser : ℕ) (now : ℤ)
  | cleanup (now : ℤ)
  | sweepCleans (now : ℤ)
  | sweepSelects (ties : String → ℕ) (now utcNow : ℤ)
  | sweepAnswered (answer : Except HubError HubMember)
  | sweepWrites (now : ℤ)

/-- The hub calls the account a member. -/
def isMember : Except HubError HubMember → Bool
  | .ok member => member.member
  | .error _ => false

namespace Front

def start : Front := ⟨Desk.start, fun _ ↦ ⟨none, none⟩, [], []⟩

variable (front : Front)

/-- A response that takes the state back. -/
def clearState (browser : ℕ) : Front :=
  { front with
    browsers := Function.update front.browsers browser { front.browsers browser with oauthState := none } }

def discordStart (browser : ℕ) (state : String) (now : ℤ) : Front :=
  { front with
    browsers := Function.update front.browsers browser
      { front.browsers browser with oauthState := some ⟨state, now + minutes oauthStateMaxAgeMinutes⟩ }
    log := .issued browser state now :: front.log }

/-- `discord_callback`: the states are compared. -/
def discordCallback (browser : ℕ) (received : Option String) (now : ℤ) : Front :=
  match sent (front.browsers browser).oauthState now, received with
  | some expected, some state =>
    if expected = state then
      { front with
        callbacks := front.callbacks ++ [⟨browser, state⟩]
        log := .accepted ⟨browser, state⟩ now :: front.log }
    else front.clearState browser
  | _, _ => front.clearState browser

def discordRefused (callback : Callback) (answered : Bool) : Front :=
  if callback ∈ front.callbacks then
    let after := { front with callbacks := front.callbacks.erase callback }
    if answered then after.clearState callback.browser else after
  else front

/-- An answer of the hub. -/
def answerNotes (callback : Callback) (discordId : String) : Except HubError HubMember → List Note
  | .ok member => [.answered callback discordId member]
  | .error _ => []

/-- `discord_login`, from the hub's answer on: only a member's goes on to a session. -/
def hubAnswered (callback : Callback) (discordId displayName : String)
    (answer : Except HubError HubMember) : Front :=
  if callback ∈ front.callbacks then
    let after :=
      { front with
        callbacks := front.callbacks.erase callback
        desk := front.desk.answerSignIn callback.browser discordId displayName answer
        log := answerNotes callback discordId answer ++ front.log }
    if isMember answer then after else after.clearState callback.browser
  else front

/-- `start_session`: the cookies come with the answer, unless the insert fails. -/
def sessionStarted (signIn : SignIn) (sessionId : String) (now : ℤ) : Front :=
  let after := { front with desk := front.desk.startSession signIn sessionId now (now + sessionDuration) }
  match front.desk.started signIn sessionId now (now + sessionDuration) with
  | none => after
  | some _ =>
    { after with
      browsers := Function.update front.browsers signIn.browser ⟨some ⟨sessionId, now + sessionDuration⟩, none⟩
      log := .granted ⟨signIn.browser, signIn.discordId, sessionId, now⟩ :: front.log }

def logout (browser : ℕ) (now : ℤ) : Front :=
  { front with
    desk := (sent (front.browsers browser).session now).elim front.desk fun sessionId ↦
      front.desk.step (.logout sessionId)
    browsers := Function.update front.browsers browser { front.browsers browser with session := none } }

def step : FrontEvent → Front
  | .discordStart browser state now => front.discordStart browser state now
  | .discordCallback browser received now => front.discordCallback browser received now
  | .discordRefused callback answered => front.discordRefused callback answered
  | .hubAnswered callback discordId displayName answer => front.hubAnswered callback discordId displayName answer
  | .sessionStarted signIn sessionId now => front.sessionStarted signIn sessionId now
  | .logout browser now => front.logout browser now
  | .cleanup now => { front with desk := front.desk.step (.cleanup now) }
  | .sweepCleans now => { front with desk := front.desk.step (.sweepCleans now) }
  | .sweepSelects ties now utcNow => { front with desk := front.desk.step (.sweepSelects ties now utcNow) }
  | .sweepAnswered answer => { front with desk := front.desk.step (.sweepAnswered answer) }
  | .sweepWrites now => { front with desk := front.desk.step (.sweepWrites now) }

/-- What is drawn at random is new. -/
def Fresh : FrontEvent → Prop
  | .discordStart _ state _ => ∀ note ∈ front.log, note.state ≠ some state
  | .sessionStarted _ sessionId _ => ∀ note ∈ front.log, note.sessionId ≠ some sessionId
  | _ => True

instance decidableFresh : (event : FrontEvent) → Decidable (front.Fresh event)
  | .discordStart _ state _ => inferInstanceAs (Decidable (∀ note ∈ front.log, note.state ≠ some state))
  | .sessionStarted _ sessionId _ => inferInstanceAs (Decidable (∀ note ∈ front.log, note.sessionId ≠ some sessionId))
  | .discordCallback _ _ _ | .discordRefused _ _ | .hubAnswered _ _ _ _ | .logout _ _ | .cleanup _ | .sweepCleans _
  | .sweepSelects _ _ _ | .sweepAnswered _ | .sweepWrites _ => inferInstanceAs (Decidable True)

end Front

/-! ## The table of the sessions -/

/-- An answer of the hub called the account a member, and an admin or not. -/
def Said (answers : List (String × HubMember)) (discordId : String) (isAdmin : Bool) : Prop :=
  ∃ member, (discordId, member) ∈ answers ∧ member.member = true ∧ member.isAdmin = isAdmin

theorem Said.mono {answers more : List (String × HubMember)} {discordId : String} {isAdmin : Bool}
    (h : Said answers discordId isAdmin) (hmore : answers ⊆ more) : Said more discordId isAdmin := by
  obtain ⟨member, hmem, hsaid⟩ := h
  exact ⟨member, hmore hmem, hsaid⟩

/-- The sessions are some of those that were there, of the same accounts and no longer than they were. -/
def Sessions.Inherits (after before : Sessions) : Prop :=
  ∀ row ∈ after, ∃ old ∈ before,
    old.sessionId = row.sessionId ∧ old.discordId = row.discordId ∧ old.expiresAt = row.expiresAt

section Inherits

variable {sessions : Sessions} {discordId : String} {member : HubMember} {row : SessionRow}

theorem inherits_refl (sessions : Sessions) : sessions.Inherits sessions :=
  fun row hrow ↦ ⟨row, hrow, rfl, rfl, rfl⟩

theorem inherits_delete (sessions : Sessions) (p : SessionRow → Bool) :
    Sessions.Inherits (sessions.delete p) sessions :=
  fun row hrow ↦ ⟨row, (Table.mem_delete.mp hrow).1, rfl, rfl, rfl⟩

/-- What a session is after an answer was written: as it was, or as the answer says. -/
theorem mem_settle {now : ℤ} (h : row ∈ sessions.settle discordId member now) :
    ∃ old ∈ sessions, old.sessionId = row.sessionId ∧ old.discordId = row.discordId ∧
      old.expiresAt = row.expiresAt ∧ (old.isAdmin = row.isAdmin ∨
        row.discordId = discordId ∧ member.member = true ∧ member.isAdmin = row.isAdmin) := by
  unfold Sessions.settle at h
  split_ifs at h with hmember
  · obtain ⟨old, hold, rfl⟩ := List.mem_map.mp h
    refine ⟨old, hold, ?_⟩
    unfold SessionRow.refreshed
    split_ifs with haccount
    · exact ⟨rfl, rfl, rfl, .inr ⟨haccount, hmember, rfl⟩⟩
    · exact ⟨rfl, rfl, rfl, .inl rfl⟩
  · exact ⟨row, (Table.mem_delete.mp h).1, rfl, rfl, rfl, .inl rfl⟩

theorem inherits_settle (sessions : Sessions) (discordId : String) (member : HubMember) (now : ℤ) :
    Sessions.Inherits (sessions.settle discordId member now) sessions := by
  intro row hrow
  obtain ⟨old, hold, hid, haccount, hexpires, -⟩ := mem_settle hrow
  exact ⟨old, hold, hid, haccount, hexpires⟩

end Inherits

namespace Desk

variable {desk : Desk}

/-- The sign-ins, the sweep and the sessions are as the hub said. -/
structure Vouched (desk : Desk) : Prop where
  signIns : ∀ signIn ∈ desk.signIns, Said desk.answers signIn.discordId signIn.isAdmin
  sweep : ∀ discordId member due, desk.sweep = some (.answered discordId member due) →
    (discordId, member) ∈ desk.answers
  rows : ∀ row ∈ desk.sessions, Said desk.answers row.discordId row.isAdmin

theorem vouched_start : start.Vouched where
  signIns _ hsignIn := absurd hsignIn List.not_mem_nil
  sweep _ _ _ hsweep := nomatch hsweep
  rows _ hrow := absurd hrow Table.not_mem_empty

theorem Vouched.delete (h : desk.Vouched) (p : SessionRow → Bool) {sweep : Option Sweep}
    (hsweep : ∀ discordId member due, sweep = some (.answered discordId member due) →
      (discordId, member) ∈ desk.answers) :
    Vouched { desk with sessions := desk.sessions.delete p, sweep := sweep } :=
  ⟨h.signIns, hsweep, fun row hrow ↦ h.rows row (Table.mem_delete.mp hrow).1⟩

theorem Vouched.answerSignIn (h : desk.Vouched) (browser : ℕ) (discordId displayName : String)
    (answer : Except HubError HubMember) : (desk.answerSignIn browser discordId displayName answer).Vouched := by
  cases answer with
  | error err => exact h
  | ok member =>
    have hmore : desk.answers ⊆ (discordId, member) :: desk.answers := List.subset_cons_self _ _
    refine ⟨fun signIn hsignIn ↦ ?_, fun asked answer due hsweep ↦ hmore (h.sweep asked answer due hsweep),
      fun row hrow ↦ (h.rows row hrow).mono hmore⟩
    unfold Desk.answerSignIn at hsignIn
    dsimp only at hsignIn
    split_ifs at hsignIn with hmember
    · obtain hsignIn | hsignIn := List.mem_append.mp hsignIn
      · exact (h.signIns signIn hsignIn).mono hmore
      · obtain rfl := List.mem_singleton.mp hsignIn
        exact ⟨member, List.mem_cons_self, hmember, rfl⟩
    · exact (h.signIns signIn hsignIn).mono hmore

theorem Vouched.answerSweep (h : desk.Vouched) (answer : Except HubError HubMember) :
    (desk.answerSweep answer).Vouched := by
  cases answer with
  | error err =>
    rw [Desk.answerSweep]
    split
    · refine ⟨h.signIns, fun _ _ _ hsweep ↦ ?_, h.rows⟩
      cases hsweep
    · exact h
  | ok member =>
    rw [Desk.answerSweep]
    split
    · next discordId due hsweep =>
      have hmore : desk.answers ⊆ (discordId, member) :: desk.answers := List.subset_cons_self _ _
      refine ⟨fun signIn hsignIn ↦ (h.signIns signIn hsignIn).mono hmore, ?_,
        fun row hrow ↦ (h.rows row hrow).mono hmore⟩
      intro asked answer rest hnext
      cases hnext
      exact List.mem_cons_self
    · exact h

theorem mem_started {signIn : SignIn} {sessionId : String} {now expiresAt : ℤ} {sessions : Sessions}
    (h : desk.started signIn sessionId now expiresAt = some sessions) :
    signIn ∈ desk.signIns ∧ ∀ row ∈ sessions, row ∈ desk.sessions ∨ row = signIn.row sessionId now expiresAt := by
  unfold started at h
  split_ifs at h with hsignIn
  exact ⟨hsignIn, fun row ↦ (Table.mem_insert h).mp⟩

theorem Vouched.startSession (h : desk.Vouched) (signIn : SignIn) (sessionId : String) (now expiresAt : ℤ) :
    (desk.startSession signIn sessionId now expiresAt).Vouched := by
  refine ⟨fun other hother ↦ h.signIns other (List.mem_of_mem_erase hother), h.sweep, ?_⟩
  unfold Desk.startSession
  dsimp only
  cases hstarted : desk.started signIn sessionId now expiresAt with
  | none => exact h.rows
  | some sessions =>
    obtain ⟨hsignIn, hrows⟩ := mem_started hstarted
    intro row hrow
    obtain hrow | rfl := hrows row hrow
    · exact h.rows row hrow
    · exact h.signIns signIn hsignIn

theorem vouched_step (h : desk.Vouched) (event : DeskEvent) : (desk.step event).Vouched := by
  cases event with
  | signInAnswered browser discordId displayName answer => exact h.answerSignIn browser discordId displayName answer
  | cleanup now => exact h.delete _ h.sweep
  | sessionStarted signIn sessionId now expiresAt => exact h.startSession signIn sessionId now expiresAt
  | logout sessionId => exact h.delete _ h.sweep
  | sweepCleans now =>
    simp only [step]
    split
    · refine h.delete _ fun _ _ _ hsweep ↦ ?_
      cases hsweep
    · exact h
  | sweepSelects ties now utcNow =>
    simp only [step]
    split
    · exact ⟨h.signIns, fun discordId member due hsweep ↦ absurd hsweep (sweep_next_ne _ _ _ _), h.rows⟩
    · exact h
  | sweepAnswered answer => exact h.answerSweep answer
  | sweepWrites now =>
    simp only [step]
    split
    · next discordId member due hsweep =>
      refine ⟨h.signIns, fun discordId member due hsweep ↦ absurd hsweep (sweep_next_ne _ _ _ _), ?_⟩
      intro row hrow
      obtain ⟨old, hold, -, haccount, -, hsame | ⟨haccount', hmember, hadmin⟩⟩ := mem_settle hrow
      · exact haccount ▸ hsame ▸ h.rows old hold
      · exact ⟨member, haccount' ▸ h.sweep discordId member due hsweep, hmember, hadmin⟩
    · exact h

/-- The sweep, and whoever cleans up or signs out, starts no session. -/
def StartsNone : DeskEvent → Prop
  | .signInAnswered _ _ _ _ | .sessionStarted _ _ _ _ => False
  | _ => True

theorem inherits_step {event : DeskEvent} (h : StartsNone event) :
    (desk.step event).sessions.Inherits desk.sessions ∧ (desk.step event).signIns = desk.signIns := by
  cases event with
  | signInAnswered browser discordId displayName answer => exact h.elim
  | cleanup now => exact ⟨inherits_delete _ _, rfl⟩
  | sessionStarted signIn sessionId now expiresAt => exact h.elim
  | logout sessionId => exact ⟨inherits_delete _ _, rfl⟩
  | sweepCleans now =>
    simp only [step]
    split
    · exact ⟨inherits_delete _ _, rfl⟩
    · exact ⟨inherits_refl _, rfl⟩
  | sweepSelects ties now utcNow =>
    simp only [step]
    split <;> exact ⟨inherits_refl _, rfl⟩
  | sweepAnswered answer =>
    simp only [step]
    cases answer <;> rw [Desk.answerSweep] <;> split <;> exact ⟨inherits_refl _, rfl⟩
  | sweepWrites now =>
    simp only [step]
    split
    · exact ⟨inherits_settle _ _ _ _, rfl⟩
    · exact ⟨inherits_refl _, rfl⟩

end Desk

/-! ## What holds all along -/

namespace Front

variable {front : Front}

/-- How a browser comes back to be let in, the newest first. -/
def comingBack (callback : Callback) (issuedAt cameAt : ℤ) : List Note :=
  [.accepted callback cameAt, .issued callback.browser callback.state issuedAt]

/-- A browser came back in time with a state that it was given before. -/
def CameBack (log : List Note) (callback : Callback) : Prop :=
  ∃ issuedAt cameAt, cameAt < issuedAt + minutes oauthStateMaxAgeMinutes ∧
    (comingBack callback issuedAt cameAt).Sublist log

/-- And the hub then called the account a member. -/
def SignedIn (log : List Note) (browser : ℕ) (discordId : String) : Prop :=
  ∃ state issuedAt cameAt member, cameAt < issuedAt + minutes oauthStateMaxAgeMinutes ∧ member.member = true ∧
    (.answered ⟨browser, state⟩ discordId member :: comingBack ⟨browser, state⟩ issuedAt cameAt).Sublist log

/-- And then the browser was given the session. -/
def Earned (log : List Note) (grant : SessionGrant) : Prop :=
  ∃ state issuedAt cameAt member, cameAt < issuedAt + minutes oauthStateMaxAgeMinutes ∧ member.member = true ∧
    (.granted grant :: .answered ⟨grant.browser, state⟩ grant.discordId member ::
      comingBack ⟨grant.browser, state⟩ issuedAt cameAt).Sublist log

theorem CameBack.mono {log more : List Note} {callback : Callback} (h : CameBack log callback)
    (hmore : log.Sublist more) : CameBack more callback := by
  obtain ⟨issuedAt, cameAt, hinTime, hsub⟩ := h
  exact ⟨issuedAt, cameAt, hinTime, hsub.trans hmore⟩

theorem SignedIn.mono {log more : List Note} {browser : ℕ} {discordId : String} (h : SignedIn log browser discordId)
    (hmore : log.Sublist more) : SignedIn more browser discordId := by
  obtain ⟨state, issuedAt, cameAt, member, hinTime, hmember, hsub⟩ := h
  exact ⟨state, issuedAt, cameAt, member, hinTime, hmember, hsub.trans hmore⟩

theorem Earned.mono {log more : List Note} {grant : SessionGrant} (h : Earned log grant)
    (hmore : log.Sublist more) : Earned more grant := by
  obtain ⟨state, issuedAt, cameAt, member, hinTime, hmember, hsub⟩ := h
  exact ⟨state, issuedAt, cameAt, member, hinTime, hmember, hsub.trans hmore⟩

/-- Every session was started for a browser that came back with its own state and whose account the hub then called
a member's, and every cookie is of a session that was started for that browser. -/
structure Sound (front : Front) : Prop where
  vouched : front.desk.Vouched
  signIns : ∀ signIn ∈ front.desk.signIns, SignedIn front.log signIn.browser signIn.discordId
  rows : ∀ row ∈ front.desk.sessions, ∃ grant, .granted grant ∈ front.log ∧ grant.sessionId = row.sessionId ∧
    grant.discordId = row.discordId ∧ grant.startedAt + sessionDuration = row.expiresAt
  cookies : ∀ browser cookie, (front.browsers browser).session = some cookie →
    ∃ grant, .granted grant ∈ front.log ∧ grant.browser = browser ∧ grant.sessionId = cookie.value
  grants : ∀ grant, .granted grant ∈ front.log → Earned front.log grant
  apart : ∀ a b, .granted a ∈ front.log → .granted b ∈ front.log → a.sessionId = b.sessionId → a = b
  states : ∀ browser cookie, (front.browsers browser).oauthState = some cookie → ∃ issuedAt,
    .issued browser cookie.value issuedAt ∈ front.log ∧ cookie.expiresAt = issuedAt + minutes oauthStateMaxAgeMinutes
  callbacks : ∀ callback ∈ front.callbacks, CameBack front.log callback
  new : ∀ browser other state issuedAt given, .issued browser state issuedAt ∈ front.log →
    .issued other state given ∈ front.log → other = browser

theorem sound_start : start.Sound where
  vouched := Desk.vouched_start
  signIns _ hsignIn := absurd hsignIn List.not_mem_nil
  rows _ hrow := absurd hrow Table.not_mem_empty
  cookies _ _ hcookie := nomatch hcookie
  grants _ hgrant := absurd hgrant List.not_mem_nil
  apart _ _ hgrant := absurd hgrant List.not_mem_nil
  states _ _ hcookie := nomatch hcookie
  callbacks _ hcallback := absurd hcallback List.not_mem_nil
  new _ _ _ _ _ hissued := absurd hissued List.not_mem_nil

/-- Something else happens: a state that is given is new, and so is the id of a session, which is given to a browser
that signed in. -/
theorem Sound.note (h : front.Sound) {note : Note}
    (hstate : ∀ state, note.state = some state → ∀ earlier ∈ front.log, earlier.state ≠ some state)
    (hgranted : ∀ grant, note = .granted grant → SignedIn front.log grant.browser grant.discordId ∧
      ∀ earlier ∈ front.log, earlier.sessionId ≠ some grant.sessionId) :
    Sound { front with log := note :: front.log } where
  vouched := h.vouched
  signIns signIn hsignIn := (h.signIns signIn hsignIn).mono (List.sublist_cons_self _ _)
  rows row hrow :=
    have ⟨grant, hgrant, hsame⟩ := h.rows row hrow
    ⟨grant, List.mem_cons_of_mem _ hgrant, hsame⟩
  cookies browser cookie hcookie :=
    have ⟨grant, hgrant, hsame⟩ := h.cookies browser cookie hcookie
    ⟨grant, List.mem_cons_of_mem _ hgrant, hsame⟩
  grants grant hgrant := by
    obtain hnew | hold := List.mem_cons.mp hgrant
    · obtain ⟨state, issuedAt, cameAt, member, hinTime, hmember, hsub⟩ := (hgranted grant hnew.symm).1
      exact ⟨state, issuedAt, cameAt, member, hinTime, hmember, hnew ▸ hsub.cons_cons _⟩
    · exact (h.grants grant hold).mono (List.sublist_cons_self _ _)
  apart a b ha hb hsame := by
    obtain ha | ha := List.mem_cons.mp ha
    · obtain hb | hb := List.mem_cons.mp hb
      · exact Note.granted.inj (ha.trans hb.symm)
      · exact absurd (congrArg some hsame.symm) ((hgranted a ha.symm).2 _ hb)
    · obtain hb | hb := List.mem_cons.mp hb
      · exact absurd (congrArg some hsame) ((hgranted b hb.symm).2 _ ha)
      · exact h.apart a b ha hb hsame
  states browser cookie hcookie :=
    have ⟨issuedAt, hissued, hexpires⟩ := h.states browser cookie hcookie
    ⟨issuedAt, List.mem_cons_of_mem _ hissued, hexpires⟩
  callbacks callback hcallback := (h.callbacks callback hcallback).mono (List.sublist_cons_self _ _)
  new browser other state issuedAt given ha hb := by
    obtain ha | ha := List.mem_cons.mp ha
    · obtain hb | hb := List.mem_cons.mp hb
      · exact (Note.issued.inj (hb.trans ha.symm)).1
      · exact absurd rfl (hstate state (congrArg Note.state ha.symm) _ hb)
    · obtain hb | hb := List.mem_cons.mp hb
      · exact absurd rfl (hstate state (congrArg Note.state hb.symm) _ ha)
      · exact h.new browser other state issuedAt given ha hb

/-- A browser gets other cookies, of its own. -/
theorem Sound.update (h : front.Sound) (browser : ℕ) {cookies : Browser}
    (hsession : ∀ cookie, cookies.session = some cookie →
      ∃ grant, .granted grant ∈ front.log ∧ grant.browser = browser ∧ grant.sessionId = cookie.value)
    (hstate : ∀ cookie, cookies.oauthState = some cookie → ∃ issuedAt,
      .issued browser cookie.value issuedAt ∈ front.log ∧
        cookie.expiresAt = issuedAt + minutes oauthStateMaxAgeMinutes) :
    Sound { front with browsers := Function.update front.browsers browser cookies } := by
  refine { h with cookies := fun other cookie hcookie ↦ ?_, states := fun other cookie hcookie ↦ ?_ }
  · dsimp only at hcookie
    by_cases hother : other = browser
    · subst hother
      rw [Function.update_self] at hcookie
      exact hsession cookie hcookie
    · rw [Function.update_of_ne hother] at hcookie
      exact h.cookies other cookie hcookie
  · dsimp only at hcookie
    by_cases hother : other = browser
    · subst hother
      rw [Function.update_self] at hcookie
      exact hstate cookie hcookie
    · rw [Function.update_of_ne hother] at hcookie
      exact h.states other cookie hcookie

theorem Sound.clearState (h : front.Sound) (browser : ℕ) : (front.clearState browser).Sound :=
  h.update browser (h.cookies browser) fun _ hcookie ↦ nomatch hcookie

theorem Sound.discordStart (h : front.Sound) (browser : ℕ) {state : String} (now : ℤ)
    (hfresh : ∀ note ∈ front.log, note.state ≠ some state) : (front.discordStart browser state now).Sound := by
  have hissued : Sound { front with log := .issued browser state now :: front.log } := by
    refine h.note ?_ fun grant hgrant ↦ nomatch hgrant
    rintro _ ⟨⟩
    exact hfresh
  refine hissued.update browser (hissued.cookies browser) fun cookie hcookie ↦ ?_
  obtain rfl := Option.some.inj hcookie
  exact ⟨now, List.mem_cons_self, rfl⟩

theorem exists_of_sent {cookie : Option Cookie} {now : ℤ} {value : String} (h : sent cookie now = some value) :
    ∃ sentCookie, cookie = some sentCookie ∧ sentCookie.value = value ∧ now < sentCookie.expiresAt := by
  obtain ⟨sentCookie, hfilter, hvalue⟩ := Option.map_eq_some_iff.mp h
  obtain ⟨hcookie, hlive⟩ := Option.filter_eq_some_iff.mp hfilter
  exact ⟨sentCookie, hcookie, hvalue, of_decide_eq_true hlive⟩

theorem Sound.discordCallback (h : front.Sound) (browser : ℕ) (received : Option String) (now : ℤ) :
    (front.discordCallback browser received now).Sound := by
  unfold Front.discordCallback
  split
  · next expected state hsent =>
    split_ifs with hsame
    · obtain ⟨cookie, hcookie, rfl, hlive⟩ := exists_of_sent hsent
      obtain ⟨issuedAt, hissued, hexpires⟩ := h.states browser cookie hcookie
      have hnoted : Sound { front with log := .accepted ⟨browser, state⟩ now :: front.log } :=
        h.note (fun _ hstate ↦ nomatch hstate) fun _ hgrant ↦ nomatch hgrant
      refine { hnoted with callbacks := fun callback hcallback ↦ ?_ }
      obtain hcallback | hcallback := List.mem_append.mp hcallback
      · exact hnoted.callbacks callback hcallback
      · obtain rfl := List.mem_singleton.mp hcallback
        exact ⟨issuedAt, now, hexpires ▸ hlive, (List.singleton_sublist.mpr (hsame ▸ hissued)).cons_cons _⟩
    · exact h.clearState browser
  · exact h.clearState browser

theorem Sound.erase (h : front.Sound) (callback : Callback) :
    Sound { front with callbacks := front.callbacks.erase callback } :=
  { h with callbacks := fun other hother ↦ h.callbacks other (List.mem_of_mem_erase hother) }

theorem Sound.discordRefused (h : front.Sound) (callback : Callback) (answered : Bool) :
    (front.discordRefused callback answered).Sound := by
  unfold Front.discordRefused
  split_ifs
  · exact (h.erase callback).clearState callback.browser
  · exact h.erase callback
  · exact h

theorem mem_signIns_answerSignIn {desk : Desk} {browser : ℕ} {discordId displayName : String}
    {answer : Except HubError HubMember} {signIn : SignIn}
    (h : signIn ∈ (desk.answerSignIn browser discordId displayName answer).signIns) :
    signIn ∈ desk.signIns ∨ signIn.browser = browser ∧ signIn.discordId = discordId ∧
      ∃ member, answer = .ok member ∧ member.member = true := by
  cases answer with
  | error err => exact .inl h
  | ok member =>
    unfold Desk.answerSignIn at h
    dsimp only at h
    split_ifs at h with hmember
    · refine (List.mem_append.mp h).imp_right fun h ↦ ?_
      obtain rfl := List.mem_singleton.mp h
      exact ⟨rfl, rfl, member, rfl, hmember⟩
    · exact .inl h

theorem sessions_answerSignIn (desk : Desk) (browser : ℕ) (discordId displayName : String)
    (answer : Except HubError HubMember) :
    (desk.answerSignIn browser discordId displayName answer).sessions = desk.sessions := by
  cases answer <;> rfl

theorem Sound.answerNotes (h : front.Sound) (callback : Callback) (discordId : String)
    (answer : Except HubError HubMember) :
    Sound { front with log := Front.answerNotes callback discordId answer ++ front.log } := by
  cases answer with
  | error err => exact h
  | ok member => exact h.note (fun _ hstate ↦ nomatch hstate) fun _ hgrant ↦ nomatch hgrant

theorem Sound.hubAnswered (h : front.Sound) (callback : Callback) (discordId displayName : String)
    (answer : Except HubError HubMember) :
    (front.hubAnswered callback discordId displayName answer).Sound := by
  unfold Front.hubAnswered
  by_cases hcallback : callback ∈ front.callbacks
  · have hnoted := (h.erase callback).answerNotes callback discordId answer
    have hdesk : Sound
        { front with
          callbacks := front.callbacks.erase callback
          desk := front.desk.answerSignIn callback.browser discordId displayName answer
          log := Front.answerNotes callback discordId answer ++ front.log } :=
      { hnoted with
        vouched := h.vouched.answerSignIn _ _ _ _
        signIns := fun signIn hsignIn ↦ by
          obtain hsignIn | ⟨hbrowser, haccount, member, rfl, hmember⟩ := mem_signIns_answerSignIn hsignIn
          · exact hnoted.signIns signIn hsignIn
          · obtain ⟨issuedAt, cameAt, hinTime, hsub⟩ := h.callbacks callback hcallback
            rw [hbrowser, haccount]
            exact ⟨callback.state, issuedAt, cameAt, member, hinTime, hmember, hsub.cons_cons _⟩
        rows := fun row hrow ↦ hnoted.rows row (sessions_answerSignIn _ _ _ _ _ ▸ hrow) }
    rw [if_pos hcallback]
    dsimp only
    split_ifs
    · exact hdesk
    · exact hdesk.clearState callback.browser
  · rw [if_neg hcallback]
    exact h

theorem Sound.sessionStarted (h : front.Sound) {signIn : SignIn} {sessionId : String} {now : ℤ}
    (hfresh : ∀ note ∈ front.log, note.sessionId ≠ some sessionId) :
    (front.sessionStarted signIn sessionId now).Sound := by
  have hvouched := h.vouched.startSession signIn sessionId now (now + sessionDuration)
  have hsignIns : ∀ other ∈ (front.desk.startSession signIn sessionId now (now + sessionDuration)).signIns,
      SignedIn front.log other.browser other.discordId :=
    fun other hother ↦ h.signIns other (List.mem_of_mem_erase hother)
  unfold Front.sessionStarted
  cases hstarted : front.desk.started signIn sessionId now (now + sessionDuration) with
  | none =>
    refine { h with vouched := hvouched, signIns := hsignIns, rows := fun row hrow ↦ h.rows row ?_ }
    rwa [Desk.startSession, hstarted] at hrow
  | some sessions =>
    obtain ⟨hsignIn, hrows⟩ := Desk.mem_started hstarted
    let grant : SessionGrant := ⟨signIn.browser, signIn.discordId, sessionId, now⟩
    have hnoted : Sound { front with log := .granted grant :: front.log } := by
      refine h.note (fun _ hstate ↦ nomatch hstate) ?_
      rintro _ ⟨⟩
      exact ⟨h.signIns signIn hsignIn, hfresh⟩
    have hgranted : Sound
        { front with
          desk := front.desk.startSession signIn sessionId now (now + sessionDuration)
          log := .granted grant :: front.log } := by
      refine { hnoted with
        vouched := hvouched
        signIns := fun other hother ↦ (hsignIns other hother).mono (List.sublist_cons_self _ _)
        rows := fun row hrow ↦ ?_ }
      rw [Desk.startSession, hstarted] at hrow
      obtain hrow | rfl := hrows row hrow
      · exact hnoted.rows row hrow
      · exact ⟨grant, List.mem_cons_self, rfl, rfl, rfl⟩
    refine hgranted.update signIn.browser (fun cookie hcookie ↦ ?_) fun cookie hcookie ↦ nomatch hcookie
    obtain rfl := Option.some.inj hcookie
    exact ⟨grant, List.mem_cons_self, rfl, rfl⟩

/-- The desk goes on by itself. -/
theorem Sound.desk (h : front.Sound) {event : DeskEvent} (hevent : Desk.StartsNone event) :
    Sound { front with desk := front.desk.step event } := by
  obtain ⟨hinherits, hsignIns⟩ : _ ∧ (front.desk.step event).signIns = front.desk.signIns := Desk.inherits_step hevent
  refine { h with
    vouched := Desk.vouched_step h.vouched event
    signIns := fun signIn hsignIn ↦ h.signIns signIn (hsignIns ▸ hsignIn)
    rows := fun row hrow ↦ ?_ }
  obtain ⟨old, hold, hid, haccount, hexpires⟩ := hinherits row hrow
  obtain ⟨grant, hgrant, hgrantId, hgrantAccount, hgrantExpires⟩ := h.rows old hold
  exact ⟨grant, hgrant, hgrantId.trans hid, hgrantAccount.trans haccount, hgrantExpires.trans hexpires⟩

theorem Sound.logout (h : front.Sound) (browser : ℕ) (now : ℤ) : (front.logout browser now).Sound := by
  unfold Front.logout
  have hdesk : Sound { front with
      desk := (sent (front.browsers browser).session now).elim front.desk fun sessionId ↦
        front.desk.step (.logout sessionId) } := by
    cases sent (front.browsers browser).session now with
    | none => exact h
    | some sessionId =>
      have hevent : Desk.StartsNone (.logout sessionId) := trivial
      exact h.desk hevent
  exact hdesk.update browser (fun _ hcookie ↦ nomatch hcookie) (h.states browser)

theorem sound_step (h : front.Sound) {event : FrontEvent} (hfresh : front.Fresh event) : (front.step event).Sound := by
  cases event with
  | discordStart browser state now => exact h.discordStart browser now hfresh
  | discordCallback browser received now => exact h.discordCallback browser received now
  | discordRefused callback answered => exact h.discordRefused callback answered
  | hubAnswered callback discordId displayName answer => exact h.hubAnswered callback discordId displayName answer
  | sessionStarted signIn sessionId now => exact h.sessionStarted hfresh
  | logout browser now => exact h.logout browser now
  | cleanup now => exact h.desk trivial
  | sweepCleans now => exact h.desk trivial
  | sweepSelects ties now utcNow => exact h.desk trivial
  | sweepAnswered answer => exact h.desk trivial
  | sweepWrites now => exact h.desk trivial

/-! ## Who is let in -/

/-- A request goes on only with a session that is there, and has not run out. -/
theorem exists_row_of_getSession {sessions : Sessions} {sessionId : String} {now : ℤ} {session : Session}
    (h : sessions.getSession sessionId now = some session) :
    ∃ row ∈ sessions, row.sessionId = sessionId ∧ now < row.expiresAt ∧ row.discordId = session.discordId ∧
      row.isAdmin = session.isAdmin := by
  obtain ⟨row, hfind, rfl⟩ := Option.map_eq_some_iff.mp h
  obtain ⟨hrow, hkey⟩ := Table.mem_of_find hfind
  obtain ⟨hid, hlive⟩ := of_decide_eq_true hkey
  exact ⟨row, hrow, hid, hlive, rfl, rfl⟩

theorem exists_session_of_answerTo {audience : Audience} {cookie : Option String} {connected : Bool}
    {sessions : Sessions} {now : ℤ} {session : Session}
    (h : answerTo audience cookie connected sessions now = .served (some session)) :
    ∃ sessionId, cookie = some sessionId ∧ sessions.getSession sessionId now = some session ∧
      (audience = .admins → session.isAdmin = true) := by
  unfold answerTo at h
  by_cases haudience : audience = .anyone
  · rw [if_pos haudience] at h
    cases h
  · rw [if_neg haudience] at h
    cases cookie with
    | none => cases h
    | some sessionId =>
      cases connected with
      | false => cases h
      | true =>
        cases hsession : sessions.getSession sessionId now with
        | none => simp [hsession] at h
        | some found =>
          simp only [hsession, if_true] at h
          split_ifs at h with hforbidden
          cases h
          exact ⟨sessionId, rfl, hsession, fun hadmins ↦ by simpa [hadmins] using hforbidden⟩

/-- Why a browser's request goes on with a session: one after the other, the browser was given a state that no other
was given, came back with it within ten minutes, the hub answered this sign-in that the account is a member's, and
the browser was given this very session of the account, less than three days ago. And the hub, then or for the sweep,
called the account an admin's or not as the session says. -/
structure Entitled (front : Front) (browser : ℕ) (sessionId : String) (session : Session) (now : ℤ) : Prop where
  signedIn : ∃ state issuedAt cameAt member startedAt,
    [.granted ⟨browser, session.discordId, sessionId, startedAt⟩, .answered ⟨browser, state⟩ session.discordId member,
      .accepted ⟨browser, state⟩ cameAt, .issued browser state issuedAt].Sublist front.log ∧
    (∀ other given, .issued other state given ∈ front.log → other = browser) ∧
    cameAt < issuedAt + minutes oauthStateMaxAgeMinutes ∧ member.member = true ∧ now < startedAt + sessionDuration
  said : Said front.desk.answers session.discordId session.isAdmin

theorem Sound.entitled (h : front.Sound) {browser : ℕ} {sessionId : String} {session : Session} {now : ℤ}
    (hsent : sent (front.browsers browser).session now = some sessionId)
    (hsession : front.desk.sessions.getSession sessionId now = some session) :
    front.Entitled browser sessionId session now := by
  obtain ⟨cookie, hcookie, hvalue, -⟩ := exists_of_sent hsent
  obtain ⟨grant, hgrant, hbrowser, hid⟩ := h.cookies browser cookie hcookie
  obtain ⟨row, hrow, hrowId, hlive, haccount, hadmin⟩ := exists_row_of_getSession hsession
  obtain ⟨same, hsame, hsameId, hsameAccount, hexpires⟩ := h.rows row hrow
  obtain rfl : same = grant := h.apart same grant hsame hgrant (by rw [hsameId, hrowId, hid, hvalue])
  obtain ⟨state, issuedAt, cameAt, member, hinTime, hmember, hsub⟩ := h.grants same hsame
  have hgrantEq : same = ⟨browser, session.discordId, sessionId, same.startedAt⟩ := by
    rw [← hbrowser, ← haccount, ← hsameAccount, ← hvalue, ← hid]
  rw [hgrantEq] at hsub
  refine ⟨⟨state, issuedAt, cameAt, member, same.startedAt, hsub, fun other given hother ↦ ?_, hinTime, hmember,
    hexpires ▸ hlive⟩, haccount ▸ hadmin ▸ h.vouched.rows row hrow⟩
  exact h.new browser other state issuedAt given (hsub.subset (by simp [comingBack])) hother

/-- However browsers, Discord, the hub and the sweep interleave, and wherever codes and states come from: a request
goes on with a session only for a browser that signed in itself, to a route for admins only for an admin. -/
theorem served_entitled (events : List FrontEvent) (hfresh : Run.Along step Fresh start events) (browser : ℕ)
    (audience : Audience) (connected : Bool) (now : ℤ) (session : Session)
    (hserved : answerTo audience (sent ((events.foldl step start).browsers browser).session now) connected
      (events.foldl step start).desk.sessions now = .served (some session)) :
    (∃ sessionId, sent ((events.foldl step start).browsers browser).session now = some sessionId ∧
      (events.foldl step start).Entitled browser sessionId session now) ∧
        (audience = .admins → session.isAdmin = true) := by
  have hsound : Run.Always step Sound start events :=
    Run.always_of_along (fun _ _ h hevent ↦ sound_step h hevent) sound_start hfresh
  obtain ⟨sessionId, hsent, hsession, hadmins⟩ := exists_session_of_answerTo hserved
  exact ⟨⟨sessionId, hsent, hsound.final.entitled hsent hsession⟩, hadmins⟩

/-- Ann signs in, an admin on the hub; Bob follows a link with a state that is not his. -/
def annSignsIn : List FrontEvent :=
  [.discordStart 1 "5f1d" 0, .discordStart 2 "c03e" 10, .discordCallback 2 (some "5f1d") 20,
    .discordCallback 1 (some "5f1d") 30, .hubAnswered ⟨1, "5f1d"⟩ "42" "ann" (.ok ⟨true, true, some "Ann"⟩),
    .cleanup 31, .sessionStarted ⟨1, "42", "Ann", true⟩ "9b2c" 31]

theorem served_entitled_ann : ∃ sessionId,
    sent ((annSignsIn.foldl step start).browsers 1).session 100 = some sessionId ∧
      (annSignsIn.foldl step start).Entitled 1 sessionId ⟨"42", "Ann", true⟩ 100 :=
  (served_entitled annSignsIn (by decide) 1 .admins true 100 ⟨"42", "Ann", true⟩ (by decide)).1

example : answerTo .signedIn (sent ((annSignsIn.foldl step start).browsers 2).session 100) true
    (annSignsIn.foldl step start).desk.sessions 100 = .unauthorized "Not authenticated" := by decide

/-! ## Who is signed out -/

/-- A session that was started is there no more. -/
def Ended (front : Front) (sessionId : String) : Prop :=
  (∃ note ∈ front.log, note.sessionId = some sessionId) ∧ ∀ row ∈ front.desk.sessions, row.sessionId ≠ sessionId

/-- The sessions after a step: those that were there, or some of them, and one that was started. -/
structure GoesOn (front after : Front) (event : FrontEvent) : Prop where
  log : front.log ⊆ after.log
  rows : ∀ row ∈ after.desk.sessions, (∃ old ∈ front.desk.sessions, old.sessionId = row.sessionId) ∨
    ∃ signIn now, event = .sessionStarted signIn row.sessionId now

theorem goesOn_of_inherits {after : Front} (event : FrontEvent) (hlog : front.log ⊆ after.log)
    (hinherits : after.desk.sessions.Inherits front.desk.sessions) : GoesOn front after event where
  log := hlog
  rows row hrow :=
    have ⟨old, hold, hid, _⟩ := hinherits row hrow
    .inl ⟨old, hold, hid⟩

theorem goesOn_sessionStarted (front : Front) (signIn : SignIn) (sessionId : String) (now : ℤ) :
    GoesOn front (front.sessionStarted signIn sessionId now) (.sessionStarted signIn sessionId now) := by
  unfold Front.sessionStarted Desk.startSession
  cases hstarted : front.desk.started signIn sessionId now (now + sessionDuration) with
  | none => exact ⟨List.Subset.refl _, fun row hrow ↦ .inl ⟨row, hrow, rfl⟩⟩
  | some sessions =>
    refine ⟨List.subset_cons_self _ _, fun row hrow ↦ ?_⟩
    obtain hrow | rfl := (Desk.mem_started hstarted).2 row hrow
    · exact .inl ⟨row, hrow, rfl⟩
    · exact .inr ⟨signIn, now, rfl⟩

theorem goesOn_step (front : Front) (event : FrontEvent) : GoesOn front (front.step event) event := by
  have hdesk {deskEvent : DeskEvent} (hevent : Desk.StartsNone deskEvent) :
      GoesOn front { front with desk := front.desk.step deskEvent } event :=
    goesOn_of_inherits event (List.Subset.refl _) (Desk.inherits_step hevent).1
  cases event with
  | discordStart browser state now => exact goesOn_of_inherits _ (List.subset_cons_self _ _) (inherits_refl _)
  | discordCallback browser received now =>
    unfold step Front.discordCallback
    dsimp only
    split
    · split_ifs
      · exact goesOn_of_inherits _ (List.subset_cons_self _ _) (inherits_refl _)
      · exact goesOn_of_inherits _ (List.Subset.refl _) (inherits_refl _)
    · exact goesOn_of_inherits _ (List.Subset.refl _) (inherits_refl _)
  | discordRefused callback answered =>
    unfold step Front.discordRefused
    dsimp only
    split_ifs <;> exact goesOn_of_inherits _ (List.Subset.refl _) (inherits_refl _)
  | hubAnswered callback discordId displayName answer =>
    have hsessions := sessions_answerSignIn front.desk callback.browser discordId displayName answer
    unfold step Front.hubAnswered
    dsimp only
    split_ifs
    · exact goesOn_of_inherits _ (List.subset_append_right _ _) (hsessions ▸ inherits_refl _)
    · exact goesOn_of_inherits _ (List.subset_append_right _ _) (hsessions ▸ inherits_refl _)
    · exact goesOn_of_inherits _ (List.Subset.refl _) (inherits_refl _)
  | sessionStarted signIn sessionId now => exact goesOn_sessionStarted front signIn sessionId now
  | logout browser now =>
    refine goesOn_of_inherits _ (List.Subset.refl _) ?_
    unfold step Front.logout
    dsimp only
    cases sent (front.browsers browser).session now with
    | none => exact inherits_refl _
    | some sessionId => exact inherits_delete _ _
  | cleanup now => exact hdesk trivial
  | sweepCleans now => exact hdesk trivial
  | sweepSelects ties now utcNow => exact hdesk trivial
  | sweepAnswered answer => exact hdesk trivial
  | sweepWrites now => exact hdesk trivial

theorem log_foldl (front : Front) (events : List FrontEvent) : front.log ⊆ (events.foldl step front).log := by
  induction events generalizing front with
  | nil => exact List.Subset.refl _
  | cons event events ih => exact List.Subset.trans (goesOn_step front event).log (ih _)

theorem Ended.step {sessionId : String} (h : front.Ended sessionId) {event : FrontEvent} (hfresh : front.Fresh event) :
    (front.step event).Ended sessionId := by
  obtain ⟨⟨note, hnote, hid⟩, hnone⟩ := h
  obtain ⟨hlog, hrows⟩ := goesOn_step front event
  refine ⟨⟨note, hlog hnote, hid⟩, fun row hrow hrowId ↦ ?_⟩
  obtain ⟨old, hold, holdId⟩ | ⟨signIn, now, rfl⟩ := hrows row hrow
  · exact hnone old hold (holdId.trans hrowId)
  · exact hfresh note hnote (hid.trans (congrArg some hrowId.symm))

theorem answerTo_of_ended {sessionId : String} (h : front.Ended sessionId) {audience : Audience}
    (haudience : audience ≠ .anyone) (now : ℤ) :
    answerTo audience (some sessionId) true front.desk.sessions now = .unauthorized "Invalid or expired session" := by
  have hnone : front.desk.sessions.getSession sessionId now = none := by
    cases hsession : front.desk.sessions.getSession sessionId now with
    | none => rfl
    | some session =>
      obtain ⟨row, hrow, hid, -⟩ := exists_row_of_getSession hsession
      exact absurd hid (h.2 row hrow)
  rw [answerTo, if_neg haudience]
  simp only [if_true, hnone]

/-- A session that was there and is there no more, because it was signed out, ran out or was ended by the sweep, lets
nobody in again, whoever has its cookie. -/
theorem ended_stays (before middle after : List FrontEvent)
    (hfresh : Run.Along step Fresh start (before ++ middle ++ after)) (row : SessionRow)
    (hrow : row ∈ (before.foldl step start).desk.sessions)
    (hgone : ∀ other ∈ ((before ++ middle).foldl step start).desk.sessions, other.sessionId ≠ row.sessionId)
    (audience : Audience) (haudience : audience ≠ .anyone) (now : ℤ) :
    answerTo audience (some row.sessionId) true ((before ++ middle ++ after).foldl step start).desk.sessions now =
      .unauthorized "Invalid or expired session" := by
  obtain ⟨hearlier, hlater⟩ := (Run.along_append _ _ _).mp hfresh
  have hsound : Run.Always step Sound start before :=
    Run.always_of_along (fun _ _ h hevent ↦ sound_step h hevent) sound_start ((Run.along_append _ _ _).mp hearlier).1
  obtain ⟨grant, hgrant, hid, -⟩ := hsound.final.rows row hrow
  have hended : ((before ++ middle).foldl step start).Ended row.sessionId := by
    refine ⟨⟨.granted grant, ?_, congrArg some hid⟩, hgone⟩
    rw [List.foldl_append]
    exact log_foldl _ middle hgrant
  have hstays : Run.Always step (Ended · row.sessionId) ((before ++ middle).foldl step start) after :=
    Run.always_of_along (fun _ _ h hevent ↦ h.step hevent) hended hlater
  have hlast := hstays.final
  rw [← List.foldl_append] at hlast
  exact answerTo_of_ended hlast haudience now

def annSignsOut : List FrontEvent := [.logout 1 200]

def annComesBack : List FrontEvent :=
  [.discordStart 1 "77aa" 300, .discordCallback 1 (some "77aa") 310,
    .hubAnswered ⟨1, "77aa"⟩ "42" "ann" (.ok ⟨true, true, some "Ann"⟩),
    .sessionStarted ⟨1, "42", "Ann", true⟩ "4d10" 320]

theorem ended_stays_ann : answerTo .signedIn (some "9b2c") true
    ((annSignsIn ++ annSignsOut ++ annComesBack).foldl step start).desk.sessions 400 =
      .unauthorized "Invalid or expired session" := by
  have hsession : (annSignsIn.foldl step start).desk.sessions.rows = [⟨"9b2c", "42", "Ann", true, 259231, 31⟩] := by
    decide
  have hnone : ((annSignsIn ++ annSignsOut).foldl step start).desk.sessions.rows = [] := by decide
  refine ended_stays annSignsIn annSignsOut annComesBack (by decide) ⟨"9b2c", "42", "Ann", true, 259231, 31⟩ ?_ ?_
    .signedIn (by decide) 400
  · rw [Table.mem_def, hsession]
    exact List.mem_singleton_self _
  · intro other hother
    rw [Table.mem_def, hnone] at hother
    cases hother

end Front

end OsrsMap.Hub
