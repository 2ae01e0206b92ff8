import OsrsMap.Page.Convergence

/-!
# Full reloads

`pollMembers` (`site/src/data/api.js`) with polls that overlap: one is sent every two seconds with
the `nextCheck` of that moment, answers come in any order, and each writes `nextCheck` anew. A reload
that an update asks for is only asked for there: it is lost when another answer comes before the next
poll is sent. `callOnInterval` (`site/src/utility.js`) makes the first call without waiting for it and waits
for every other one before the next: two polls may be under way at once, and the first may be answered at
any time.
-/

namespace OsrsMap.Page

open Sync (Members MemberRow)

/-- A poll that is under way: its `from_time`, and whether `callOnInterval` waits for it. -/
structure MembersPoll where
  fromTime : ℤ
  awaited : Bool

/-- The page, with whether the first poll was sent and the polls that are under way. Not of the code: whether a
reload was asked for and no poll sent since. -/
structure Poller where
  page : GuildData
  nextCheck : ℤ
  called : Bool
  flying : List MembersPoll
  owed : Bool

inductive PollEvent where
  | send
  /-- One of the polls under way is answered. -/
  | answer (index : ℕ) (response : MembersResponse)
  /-- One of them fails. -/
  | fail (index : ℕ)

namespace PollEvent

/-- A poll is sent. -/
def IsSend : PollEvent → Prop
  | .send => True
  | _ => False

instance : DecidablePred IsSend
  | .send => isTrue trivial
  | .answer _ _ | .fail _ => isFalse id

end PollEvent

namespace Poller

/-- `enable`. -/
def enable : Poller where
  page := ∅
  nextCheck := 0
  called := false
  flying := []
  owed := false

def step (poller : Poller) : PollEvent → Poller
  | .send =>
    { poller with
      called := true
      flying := poller.flying ++ [{ fromTime := poller.nextCheck, awaited := poller.called }]
      owed := false }
  | .answer index response =>
    match poller.flying[index]? with
    | none => poller
    | some _ =>
      { poller with
        page := (poller.page.update response).1
        nextCheck := (poller.page.update response).2
        flying := poller.flying.eraseIdx index
        owed := poller.owed || poller.page.needsFullReload response }
  | .fail index => { poller with flying := poller.flying.eraseIdx index }

/-- A poll is sent as `callOnInterval` sends it: not while one that it waits for is under way. -/
def Paced (poller : Poller) : PollEvent → Prop
  | .send => ∀ poll ∈ poller.flying, poll.awaited = false
  | .answer _ _ | .fail _ => True

instance (poller : Poller) : DecidablePred poller.Paced
  | .send => inferInstanceAs (Decidable (∀ poll ∈ poller.flying, poll.awaited = false))
  | .answer _ _ | .fail _ => inferInstanceAs (Decidable True)

/-- The update asks for a reload. -/
def Asks (poller : Poller) : PollEvent → Prop
  | .answer index response =>
    index < poller.flying.length ∧ poller.page.needsFullReload response = true
  | _ => False

instance (poller : Poller) : (event : PollEvent) → Decidable (poller.Asks event)
  | .answer _ _ => inferInstanceAs (Decidable (_ ∧ _))
  | .send | .fail _ => inferInstanceAs (Decidable False)

/-- Every reload that an update asks for is made: a later poll is sent with the epoch. -/
def ReloadsMade (events : ℕ → PollEvent) : Prop :=
  ∀ n, (Run.trace step enable events n).Asks (events n) →
    ∃ m > n, (events m).IsSend ∧ (Run.trace step enable events m).nextCheck = 0

/-- No answer comes between an update that asks for a reload and the next poll that is sent. -/
def SparesRequest (poller : Poller) : PollEvent → Prop
  | .answer index _ => poller.owed = true → poller.flying.length ≤ index
  | _ => True

variable {poller : Poller} {event : PollEvent} {events : ℕ → PollEvent}

theorem step_asks (h : poller.Asks event) :
    (poller.step event).owed = true ∧ (poller.step event).nextCheck = 0 := by
  cases event with
  | send => exact h.elim
  | fail index => exact h.elim
  | answer index response =>
    obtain ⟨hflying, hasks⟩ := h
    rw [step, List.getElem?_eq_getElem hflying]
    constructor
    · simp [hasks]
    · exact if_pos hasks

/-- Until a poll is sent, the request stays. -/
theorem step_spares (hspares : poller.SparesRequest event) (hsend : ¬ event.IsSend)
    (h : poller.owed = true ∧ poller.nextCheck = 0) :
    (poller.step event).owed = true ∧ (poller.step event).nextCheck = 0 := by
  cases event with
  | send => exact absurd trivial hsend
  | fail index => exact h
  | answer index response =>
    rw [step, List.getElem?_eq_none (hspares h.1)]
    exact h

/-- Every reload that is asked for is made in a run in which no answer comes in between, as long as
polls are sent. -/
theorem reloadsMade_of_sparesRequest (hsends : ∀ n, ∃ m ≥ n, (events m).IsSend)
    (hspares : ∀ n, (Run.trace step enable events n).SparesRequest (events n)) :
    ReloadsMade events := by
  intro n hasks
  have hstart : (Run.trace step enable events (n + 1)).owed = true ∧
      (Run.trace step enable events (n + 1)).nextCheck = 0 := step_asks hasks
  obtain ⟨m, hm, hsend, hpending⟩ := Run.trace_until (P := fun poller : Poller ↦
      poller.owed = true ∧ poller.nextCheck = 0) (hsends (n + 1)) hstart
    fun m _ hsend hpending ↦ step_spares (hspares m) hsend hpending
  exact ⟨m, hm, hsend, hpending.2⟩

/-! ## Two polls under way -/

/-- A member whose stats were stored, which is on the map or hidden. -/
def statsTable (hidden : Bool) : Members :=
  let added := (Statement.ensureMemberExists "Alpha").run 0 Table.empty
  let stored := (Statement.storeChunk
    [sectionData "Alpha" .stats [99, 99, 70, 99, 0, 0, 301]] 10000000).run 10000000 added
  (Statement.setMemberHidden "Alpha" hidden).run 10000000 stored

/-- The page loads while the member is hidden. It is shown again, and the next poll's answer has it
without data, so that a reload is asked for. Polls and their answers alternate. -/
def shownAgain : ℕ → PollEvent
  | 0 | 2 | 4 => .send
  | 1 => .answer 0 (getMembers (statsTable true) 0 15000000)
  | 3 => .answer 0 (getMembers (statsTable false) 13000000 17000000)
  | 5 => .answer 0 (getMembers (statsTable false) 0 19000000)
  | n + 6 =>
    let seconds : ℤ := 2000000 * (n / 2 : ℕ)
    if n % 2 = 0 then .send
    else .answer 0 (getMembers (statsTable false) (17000000 + seconds) (21000000 + seconds))

/-- Before an answer a poll is sent. -/
theorem shownAgain_even (k : ℕ) : shownAgain (2 * k) = .send := by
  match k with
  | 0 | 1 | 2 => rfl
  | k + 3 => simp [shownAgain, Nat.mul_add]

/-- The reload is made. -/
theorem reloadsMade_shownAgain : ReloadsMade shownAgain := by
  apply reloadsMade_of_sparesRequest
  · exact fun n ↦ ⟨2 * n, by omega, by rw [shownAgain_even]; trivial⟩
  · intro n
    obtain ⟨k, rfl | rfl⟩ : ∃ k, n = 2 * k ∨ n = 2 * k + 1 := ⟨n / 2, by omega⟩
    · rw [shownAgain_even]
      trivial
    · rw [Run.trace_succ, shownAgain_even]
      cases shownAgain (2 * k + 1) with
      | send | fail _ => trivial
      | answer _ _ => exact fun howed ↦ absurd howed Bool.false_ne_true

/-- An answer with no new names only moves the cursor. -/
theorem step_answer_known {index : ℕ} {response : MembersResponse}
    (hflying : index < poller.flying.length)
    (hknown : ∀ entry ∈ response.roster, (poller.page.lookup entry.name).isSome = true) :
    poller.step (.answer index response) =
      { poller with
        page := poller.page.members response
        nextCheck := toDate response.cursor
        flying := poller.flying.eraseIdx index } := by
  have hdone : poller.page.needsFullReload response = false := by
    have happears : poller.page.appears response.roster = false := by
      refine List.any_eq_false.mpr fun entry hentry ↦ ?_
      simp [Option.isNone_iff_eq_none, ← Option.isSome_iff_ne_none, hknown entry hentry]
    rw [GuildData.needsFullReload, happears, Bool.false_and]
  rw [step, List.getElem?_eq_getElem hflying]
  simp [GuildData.update, hdone]

/-- The row of a member for whom nothing was stored yet. -/
def bareTable : Members := (Statement.ensureMemberExists "Alpha").run 0 Table.empty

/-- The first poll is slow. The second, which asks for everything too, finds a member without data and its answer
asks for a reload; then the first one is answered and moves the cursor on. From then on polls and their answers
alternate. -/
def overtaken : ℕ → PollEvent
  | 0 | 1 => .send
  | 2 => .answer 1 (getMembers bareTable 0 17000000)
  | 3 => .answer 0 (getMembers bareTable 0 15000000)
  | n + 4 =>
    let seconds : ℤ := 2000000 * (n / 2 : ℕ)
    if n % 2 = 0 then .send
    else .answer 0 (getMembers bareTable (13000000 + seconds) (17000000 + seconds))

/-- Before each of the polls that alternate with their answers the page has the member, and asks for
what changed since the poll before. -/
theorem trace_overtaken (k : ℕ) :
    let poller := Run.trace step enable overtaken (2 * k + 4)
    (poller.page.lookup "Alpha").isSome = true ∧ poller.nextCheck = 13000000 + 2000000 * k ∧
      poller.flying = [] := by
  induction k with
  | zero => decide +kernel
  | succ k ih =>
    obtain ⟨hpage, hcursor, hflying⟩ := ih
    have hsend : overtaken (2 * k + 4) = .send := by simp [overtaken]
    have hanswer : overtaken (2 * k + 4 + 1) = .answer 0 (getMembers bareTable
        (13000000 + 2000000 * k) (17000000 + 2000000 * k)) := by
      have hhalf : (2 * k + 1) / 2 = k := by omega
      simp [overtaken, hhalf]
    have hroster : bareTable.roster = ["Alpha"] := by decide +kernel
    have hknown : ∀ entry ∈ (getMembers bareTable (13000000 + 2000000 * k) (17000000 + 2000000 * k)).roster,
        ((Run.trace step enable overtaken (2 * k + 4)).page.lookup entry.name).isSome = true := by
      intro entry hentry
      have hname := mem_roster_getMembers.mp (List.mem_map_of_mem hentry)
      rw [hroster, List.mem_singleton] at hname
      rw [hname]
      exact hpage
    have hsecond : Run.trace step enable overtaken (2 * (k + 1) + 4) =
        ((Run.trace step enable overtaken (2 * k + 4)).step .send).step
          (.answer 0 (getMembers bareTable (13000000 + 2000000 * k) (17000000 + 2000000 * k))) := by
      rw [show 2 * (k + 1) + 4 = 2 * k + 4 + 1 + 1 by omega, Run.trace_succ, Run.trace_succ, hsend,
        hanswer]
    have hone : 0 < ((Run.trace step enable overtaken (2 * k + 4)).step .send).flying.length := by
      simp [step]
    rw [hsecond, step_answer_known hone hknown]
    refine ⟨?_, ?_, ?_⟩
    · obtain ⟨row, hrow, hname⟩ : ∃ row ∈ bareTable.rows,
          Members.onRoster row = true ∧ row.memberName = "Alpha" := by decide +kernel
      have hentry := List.mem_map_of_mem (f := rosterEntry (17000000 + 2000000 * k))
        (List.mem_filter.mpr ⟨hrow, hname.1⟩)
      obtain ⟨member, hmember, -⟩ := @GuildData.exists_lookup_members
        (Run.trace step enable overtaken (2 * k + 4)).page
        (getMembers bareTable (13000000 + 2000000 * k) (17000000 + 2000000 * k)) _
        getMembers_distinct hentry
      have hentryName : (rosterEntry (17000000 + 2000000 * k) row).name = "Alpha" := hname.2
      rw [hentryName] at hmember
      exact Option.isSome_iff_exists.mpr ⟨member, hmember⟩
    · change (17000000 + 2000000 * (k : ℤ) - 2000 * 1000) / 1000 * 1000 = _
      push_cast
      omega
    · simp [step, hflying]

/-- It is a run of `callOnInterval`: of the polls it waits for there is never more than one. -/
theorem paced_overtaken (n : ℕ) : (Run.trace step enable overtaken n).Paced (overtaken n) := by
  obtain hfirst | ⟨k, rfl | rfl⟩ : n < 4 ∨ ∃ k, n = 2 * k + 4 ∨ n = 2 * k + 5 := by
    obtain hfirst | hlater := Nat.lt_or_ge n 4
    · exact .inl hfirst
    · exact .inr ⟨(n - 4) / 2, by omega⟩
  · revert n
    decide +kernel
  · have hsend : overtaken (2 * k + 4) = .send := by simp [overtaken]
    rw [hsend, Paced, (trace_overtaken k).2.2]
    exact fun poll hpoll ↦ absurd hpoll List.not_mem_nil
  · have hhalf : (2 * k + 1) / 2 = k := by omega
    have hanswer : overtaken (2 * k + 5) = .answer 0 (getMembers bareTable
        (13000000 + 2000000 * k) (17000000 + 2000000 * k)) := by
      simp [overtaken, hhalf]
    rw [hanswer]
    trivial

/-- The reload is never made, though polls keep being sent, as `callOnInterval` sends them, and answered. -/
theorem reloadsMade_fails_overtaken : (∀ n, (Run.trace step enable overtaken n).Paced (overtaken n)) ∧
    (∀ n, ∃ m ≥ n, (overtaken m).IsSend) ∧
    (∀ n, ∃ m ≥ n, (Run.trace step enable overtaken m).flying = []) ∧ ¬ ReloadsMade overtaken := by
  refine ⟨paced_overtaken, fun n ↦ ⟨2 * n + 4, by omega, by simp [overtaken, PollEvent.IsSend]⟩,
    fun n ↦ ⟨2 * n + 4, by omega, (trace_overtaken n).2.2⟩, fun hmade ↦ ?_⟩
  have hasks : (Run.trace step enable overtaken 2).Asks (overtaken 2) := by decide +kernel
  obtain ⟨m, hm, hsend, hepoch⟩ := hmade 2 hasks
  obtain rfl | hlater : m = 3 ∨ 4 ≤ m := by omega
  · exact hsend
  · obtain ⟨k, rfl | rfl⟩ : ∃ k, m = 2 * k + 4 ∨ m = 2 * k + 5 := ⟨(m - 4) / 2, by omega⟩
    · rw [(trace_overtaken k).2.1] at hepoch
      omega
    · exact absurd hsend (by simp [overtaken, PollEvent.IsSend])

end Poller

end OsrsMap.Page
