import OsrsMap.Library.Table
import OsrsMap.Cache.Ttl
import Mathlib.Data.List.Dedup
import Mathlib.Data.List.Sort
import Mathlib.Data.Prod.Lex

/-!
# Sessions and what the hub says of their members

The sessions table (`server/src/db/sessions.rs`) and `reverify_once` (`server/src/hub/members.rs`),
which asks the hub about the members whose sessions weren't checked lately, whoever was checked
longest ago first.

A lookup that fails is not an answer about anyone: the sweep ends there, and the rest waits for the
next one.
-/

namespace OsrsMap.Hub

open Cache (HubError)

/-- What the hub says of a Discord account. -/
structure HubMember where
  member : Bool
  isAdmin : Bool
  name : Option String
deriving DecidableEq, Repr

structure SessionRow where
  sessionId : String
  discordId : String
  name : String
  isAdmin : Bool
  expiresAt : ℤ
  verifiedAt : ℤ
deriving DecidableEq, Repr

/-- `guildmap.sessions`. -/
abbrev Sessions := Table SessionRow String fun row ↦ [row.sessionId]

/-- Seconds in a minute. -/
def minutes (count : ℤ) : ℤ := count * 60

/-- `VERIFY_AFTER_MINUTES`. -/
def verifyAfterMinutes : ℤ := 15

/-- `SWEEP_MEMBERS`. -/
def sweepMembers : ℕ := 50

/-! ## Statements -/

/-- The row with what the hub says of its member now. -/
def SessionRow.refreshed (discordId : String) (name : Option String) (isAdmin : Bool) (now : ℤ)
    (row : SessionRow) : SessionRow :=
  if row.discordId = discordId then
    { row with name := name.getD row.name, isAdmin := isAdmin, verifiedAt := now }
  else row

namespace Sessions

/-- The sessions of a Discord account. -/
def ofAccount (sessions : Sessions) (discordId : String) : List SessionRow :=
  sessions.rows.filter fun row ↦ row.discordId = discordId

/-- `create_session`; a session id that there is fails. -/
def createSession (sessions : Sessions) (row : SessionRow) : Option Sessions := sessions.insert row

/-- `delete_session`. -/
def deleteSession (sessions : Sessions) (sessionId : String) : Sessions :=
  sessions.delete fun row ↦ row.sessionId = sessionId

/-- `cleanup_expired_sessions`. -/
def cleanupExpired (sessions : Sessions) (now : ℤ) : Sessions :=
  sessions.delete fun row ↦ row.expiresAt ≤ now

theorem keys_refreshed (discordId : String) (name : Option String) (isAdmin : Bool) (now : ℤ)
    (row : SessionRow) : [(row.refreshed discordId name isAdmin now).sessionId] = [row.sessionId] := by
  unfold SessionRow.refreshed
  split <;> rfl

/-- `refresh_sessions`. -/
def refreshSessions (sessions : Sessions) (discordId : String) (name : Option String)
    (isAdmin : Bool) (now : ℤ) : Sessions :=
  sessions.map (keys_refreshed discordId name isAdmin now)

/-- `delete_sessions_of`. -/
def deleteSessionsOf (sessions : Sessions) (discordId : String) : Sessions :=
  sessions.delete fun row ↦ row.discordId = discordId

/-- `MIN(verified_at)` of the rows of an account. -/
def minVerified (rows : List SessionRow) (discordId : String) : ℤ :=
  ((rows.filter fun row ↦ row.discordId = discordId).map SessionRow.verifiedAt).min?.getD 0

/-- The rows `WHERE expires_at > NOW()`. -/
def live (sessions : Sessions) (now : ℤ) : List SessionRow := sessions.rows.filter fun row ↦ now < row.expiresAt

/-- The accounts of rows that `HAVING MIN(verified_at) < $1` leaves. -/
def verifiedLongAgo (rows : List SessionRow) (verifiedBefore : ℤ) : List String :=
  (rows.map SessionRow.discordId).dedup.filter fun discordId ↦ minVerified rows discordId < verifiedBefore

/-- `sessions_to_verify`. Accounts that were checked at the same time come in any order. -/
def toVerify (sessions : Sessions) (ties : String → ℕ) (now verifiedBefore : ℤ) (limit : ℕ) : List String :=
  let live := sessions.live now
  ((verifiedLongAgo live verifiedBefore).insertionSort fun a b ↦
    toLex (minVerified live a, ties a) ≤ toLex (minVerified live b, ties b)).take limit

/-- What the sweep makes of an answer about an account. -/
def settle (sessions : Sessions) (discordId : String) (member : HubMember) (now : ℤ) : Sessions :=
  if member.member then sessions.refreshSessions discordId member.name member.isAdmin now
  else sessions.deleteSessionsOf discordId

end Sessions

/-! ## A sweep -/

/-- The times of the statements of a sweep, and of its own clock; and the order in which the database
has accounts that were checked at the same time. -/
structure SweepClock where
  cleaned : ℤ
  utcNow : ℤ
  selected : ℤ
  ties : String → ℕ
  settled : String → ℤ

section Sweep

variable (lookup : String → Except HubError HubMember)

/-- The loop of `reverify_once`, with how many were asked about. -/
def reverifyEach (now : String → ℤ) : List String → Sessions → Sessions × ℕ
  | [], sessions => (sessions, 0)
  | discordId :: due, sessions =>
    match lookup discordId with
    -- Not an answer about anyone: the rest waits for the next sweep.
    | .error _ => (sessions, 0)
    | .ok member =>
      let rest := reverifyEach now due (sessions.settle discordId member (now discordId))
      (rest.1, rest.2 + 1)

/-- The accounts that a sweep finds due. -/
def dueIn (clock : SweepClock) (sessions : Sessions) : List String :=
  (sessions.cleanupExpired clock.cleaned).toVerify clock.ties clock.selected
    (clock.utcNow - minutes verifyAfterMinutes) sweepMembers

/-- `reverify_once`. -/
def reverifyOnce (clock : SweepClock) (sessions : Sessions) : Sessions × ℕ :=
  reverifyEach lookup clock.settled (dueIn clock sessions) (sessions.cleanupExpired clock.cleaned)

/-- The hub answers about an account. -/
def answers (discordId : String) : Bool := (lookup discordId).isOk

/-- The accounts that a sweep asks about: the due ones before the first whose lookup fails. -/
def asked (clock : SweepClock) (sessions : Sessions) : List String :=
  (dueIn clock sessions).takeWhile (answers lookup)

/-- The sessions of an account are as the hub says: someone who is no member has none, and those of
a member say whether they are an admin. -/
def Sessions.Agree (sessions : Sessions) (discordId : String) (member : HubMember) : Prop :=
  if member.member then ∀ row ∈ sessions.ofAccount discordId, row.isAdmin = member.isAdmin
  else sessions.ofAccount discordId = []

instance decidableAgree (sessions : Sessions) (discordId : String) (member : HubMember) :
    Decidable (sessions.Agree discordId member) :=
  inferInstanceAs (Decidable (if member.member then
    ∀ row ∈ sessions.ofAccount discordId, row.isAdmin = member.isAdmin
  else sessions.ofAccount discordId = []))

/-- What the hub says of an account is done; without an answer nothing changes. -/
def SettledBy (before after : Sessions) (discordId : String) : Except HubError HubMember → Prop
  | .error _ => after.ofAccount discordId = before.ofAccount discordId
  | .ok member => after.Agree discordId member

instance decidableSettledBy (before after : Sessions) (discordId : String) :
    (answer : Except HubError HubMember) → Decidable (SettledBy before after discordId answer)
  | .error _ =>
    inferInstanceAs (Decidable (after.ofAccount discordId = before.ofAccount discordId))
  | .ok member => inferInstanceAs (Decidable (after.Agree discordId member))

end Sweep

/-! ## What a statement does to an account -/

namespace Sessions

variable {sessions : Sessions} {discordId other : String} {member : HubMember} {row : SessionRow}
  {now : ℤ}

theorem mem_ofAccount : row ∈ sessions.ofAccount discordId ↔ row ∈ sessions ∧ row.discordId = discordId := by
  rw [ofAccount, List.mem_filter, decide_eq_true_eq]
  rfl

theorem discordId_refreshed (name : Option String) (isAdmin : Bool) (row : SessionRow) :
    (row.refreshed discordId name isAdmin now).discordId = row.discordId := by
  unfold SessionRow.refreshed
  split <;> rfl

theorem ofAccount_refreshSessions (name : Option String) (isAdmin : Bool) :
    (sessions.refreshSessions discordId name isAdmin now).ofAccount other =
      (sessions.ofAccount other).map (SessionRow.refreshed discordId name isAdmin now) := by
  unfold ofAccount refreshSessions Table.map
  rw [List.filter_map]
  congr 2
  funext row
  rw [Function.comp_apply, discordId_refreshed]

theorem ofAccount_deleteSessionsOf : (sessions.deleteSessionsOf discordId).ofAccount other =
    if other = discordId then [] else sessions.ofAccount other := by
  unfold ofAccount deleteSessionsOf Table.delete
  rw [List.filter_filter]
  split
  · next heq =>
    rw [List.filter_eq_nil_iff]
    intro row hrow
    simp [heq]
  · next hne =>
    apply List.filter_congr
    intro row hrow
    by_cases hother : row.discordId = other
    · simp [hother, hne]
    · simp [hother]

/-- Only the account that was asked about changes. -/
theorem ofAccount_settle_of_ne (h : other ≠ discordId) :
    (sessions.settle discordId member now).ofAccount other = sessions.ofAccount other := by
  unfold settle
  split
  · rw [ofAccount_refreshSessions]
    refine (List.map_congr_left fun row hrow ↦ ?_).trans (List.map_id _)
    have hrow : row.discordId = other := (mem_ofAccount.mp hrow).2
    exact if_neg (hrow ▸ h)
  · rw [ofAccount_deleteSessionsOf, if_neg h]

theorem ofAccount_settle_of_member (h : member.member = true)
    (hrow : row ∈ (sessions.settle discordId member now).ofAccount discordId) :
    row.isAdmin = member.isAdmin := by
  unfold settle at hrow
  rw [if_pos h, ofAccount_refreshSessions] at hrow
  obtain ⟨before, hbefore, rfl⟩ := List.mem_map.mp hrow
  rw [SessionRow.refreshed, if_pos (mem_ofAccount.mp hbefore).2]

theorem ofAccount_settle_of_not_member (h : ¬ member.member = true) :
    (sessions.settle discordId member now).ofAccount discordId = [] := by
  unfold settle
  rw [if_neg h, ofAccount_deleteSessionsOf, if_pos rfl]

theorem nodup_verifiedLongAgo (rows : List SessionRow) (verifiedBefore : ℤ) :
    (verifiedLongAgo rows verifiedBefore).Nodup := (List.nodup_dedup _).filter _

/-- An account is due once. -/
theorem nodup_toVerify (ties : String → ℕ) (verifiedBefore : ℤ) (limit : ℕ) :
    (sessions.toVerify ties now verifiedBefore limit).Nodup := by
  unfold toVerify
  refine List.Nodup.sublist (List.take_sublist _ _) ?_
  exact (List.perm_insertionSort _ _).nodup_iff.mpr (nodup_verifiedLongAgo _ _)

/-- Every order by `MIN(verified_at)` is one of those that accounts come in. -/
theorem exists_toVerify (verifiedBefore : ℤ) (limit : ℕ) {due : List String}
    (hperm : due.Perm (verifiedLongAgo (sessions.live now) verifiedBefore))
    (hsorted : due.Pairwise fun a b ↦ minVerified (sessions.live now) a ≤ minVerified (sessions.live now) b) :
    ∃ ties, sessions.toVerify ties now verifiedBefore limit = due.take limit := by
  have hnodup : due.Nodup := hperm.nodup_iff.mpr (nodup_verifiedLongAgo _ _)
  refine ⟨due.idxOf, congrArg (List.take limit) ?_⟩
  refine List.Perm.eq_of_pairwise (fun a b ha hb hab hba ↦ ?_) (List.pairwise_insertionSort _ _) ?_
    ((List.perm_insertionSort _ _).trans hperm.symm)
  · have htie : due.idxOf a = due.idxOf b := congrArg (fun key ↦ (ofLex key).2) (le_antisymm hab hba)
    exact ((List.idxOf_inj hb).mp htie.symm).symm
  · refine List.pairwise_iff_getElem.mpr fun i j hi hj hlt ↦ ?_
    dsimp only
    rw [hnodup.idxOf_getElem, hnodup.idxOf_getElem]
    exact Prod.Lex.toLex_mono ⟨List.pairwise_iff_getElem.mp hsorted i j hi hj hlt, hlt.le⟩

end Sessions

/-! ## What a sweep does -/

section Swept

variable {lookup : String → Except HubError HubMember} {now : String → ℤ} {sessions before : Sessions}
  {discordId : String}

theorem settledBy_congr {after after' : Sessions} {answer : Except HubError HubMember}
    (h : after.ofAccount discordId = after'.ofAccount discordId) :
    SettledBy before after discordId answer ↔ SettledBy before after' discordId answer := by
  cases answer with
  | error err => rw [SettledBy, SettledBy, h]
  | ok member => rw [SettledBy, SettledBy, Sessions.Agree, Sessions.Agree, h]

theorem agree_settle (member : HubMember) (now : ℤ) :
    (sessions.settle discordId member now).Agree discordId member := by
  unfold Sessions.Agree
  split
  · next hmember => exact fun row hrow ↦ Sessions.ofAccount_settle_of_member hmember hrow
  · next hmember => exact Sessions.ofAccount_settle_of_not_member hmember

/-- The loop leaves alone whoever it doesn't ask about. -/
theorem ofAccount_reverifyEach {due : List String} (h : discordId ∉ due.takeWhile (answers lookup)) :
    (reverifyEach lookup now due sessions).1.ofAccount discordId = sessions.ofAccount discordId := by
  induction due generalizing sessions with
  | nil => rfl
  | cons first due ih =>
    unfold reverifyEach
    cases hlookup : lookup first with
    | error err => rfl
    | ok member =>
      have hanswers : answers lookup first = true := by rw [answers, hlookup]; rfl
      rw [List.takeWhile_cons_of_pos hanswers, List.mem_cons, not_or] at h
      exact (ih h.2).trans (Sessions.ofAccount_settle_of_ne h.1)

theorem settled_reverifyEach {due : List String} (hnodup : due.Nodup)
    (h : discordId ∈ due.takeWhile (answers lookup)) :
    SettledBy before (reverifyEach lookup now due sessions).1 discordId (lookup discordId) := by
  induction due generalizing sessions with
  | nil => cases h
  | cons first due ih =>
    obtain ⟨hfirst, hnodup⟩ := List.nodup_cons.mp hnodup
    unfold reverifyEach
    cases hlookup : lookup first with
    | error err =>
      have hanswers : ¬ answers lookup first = true := by
        rw [answers, hlookup]
        exact Bool.false_ne_true
      rw [List.takeWhile_cons_of_neg hanswers] at h
      cases h
    | ok member =>
      have hanswers : answers lookup first = true := by rw [answers, hlookup]; rfl
      rw [List.takeWhile_cons_of_pos hanswers] at h
      obtain rfl | h := List.mem_cons.mp h
      · have hlater : discordId ∉ due.takeWhile (answers lookup) :=
          fun hmem ↦ hfirst ((List.takeWhile_sublist _).subset hmem)
        rw [settledBy_congr (ofAccount_reverifyEach hlater), hlookup]
        exact agree_settle member _
      · exact ih hnodup h

theorem asked_reverifyEach {due : List String} :
    (reverifyEach lookup now due sessions).2 = (due.takeWhile (answers lookup)).length := by
  induction due generalizing sessions with
  | nil => rfl
  | cons first due ih =>
    unfold reverifyEach
    cases hlookup : lookup first with
    | error err =>
      rw [List.takeWhile_cons_of_neg (by rw [answers, hlookup]; exact Bool.false_ne_true)]
      rfl
    | ok member =>
      rw [List.takeWhile_cons_of_pos (by rw [answers, hlookup]; rfl), List.length_cons]
      exact congrArg (· + 1) ih

/-- A sweep does what the hub says of every due account before the first whose lookup fails, and
leaves all other sessions as they are, but for those that had run out. -/
theorem reverifyOnce_settles (lookup : String → Except HubError HubMember) (clock : SweepClock)
    (sessions : Sessions) :
    (∀ discordId ∈ asked lookup clock sessions, SettledBy (sessions.cleanupExpired clock.cleaned)
      (reverifyOnce lookup clock sessions).1 discordId (lookup discordId)) ∧
    (∀ discordId ∉ asked lookup clock sessions,
      (reverifyOnce lookup clock sessions).1.ofAccount discordId =
        (sessions.cleanupExpired clock.cleaned).ofAccount discordId) ∧
    (reverifyOnce lookup clock sessions).2 = (asked lookup clock sessions).length := by
  refine ⟨fun discordId hasked ↦ ?_, fun discordId hasked ↦ ?_, asked_reverifyEach⟩
  · exact settled_reverifyEach (Sessions.nodup_toVerify _ _ _) hasked
  · exact ofAccount_reverifyEach hasked

end Swept

/-! ## A lookup that fails -/

/-- Two accounts that were both last checked long ago. -/
def twoSessions : Sessions where
  rows := [⟨"first", "1", "Alpha", false, 100000, 0⟩, ⟨"second", "2", "Bravo", true, 100000, 60⟩]
  unique := by decide

/-- The hub fails for the first account; the second is no member. -/
def failingFirst (discordId : String) : Except HubError HubMember :=
  if discordId = "1" then .error (.other "hub returned 500") else .ok ⟨false, false, none⟩

def noon : SweepClock where
  cleaned := 43200
  utcNow := 43200
  selected := 43200
  ties _ := 0
  settled _ := 43200

/-- The second account is due and keeps its session. -/
theorem not_settled_of_failingFirst : "2" ∈ dueIn noon twoSessions ∧
    ¬ SettledBy twoSessions (reverifyOnce failingFirst noon twoSessions).1 "2" (failingFirst "2") := by
  decide +kernel

end OsrsMap.Hub
