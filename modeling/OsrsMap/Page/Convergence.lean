import OsrsMap.Library.Run
import OsrsMap.Page.MembersQuery

/-!
# The page converges to the server

One page next to the members table: any statement may run between a poll's reading of the table and
the page's taking of the answer, and between polls. A poll that fails changes neither side, so that
there is no step for it.

The page ends with every column unless one of two things happens. A name that is new to the page may
come with some of its columns and not with all of them: it then counts as having its data, and no
reload is asked for. And a row may come by a name that the page has a member of, whose data is then
shown for the row's.
-/

namespace OsrsMap.Page

open Sync (Section Payload Members MemberRow sections assignOf)
open Cursor (Cell)

/-! ## The server's statements -/

/-- The statements that change the members table. A chunk of updates is stamped with the start of
its transaction; it runs when it is committed. -/
inductive Statement where
  | storeChunk (chunk : List Sync.MemberData) (stamp : ℤ)
  | ensureMemberExists (name : String)
  | bindHubAccount (name id : String) (accountHash : Option String)
  | setHubPresence (name : String) (online : Bool) (lastSeen : Option ℤ)
  | setMemberHidden (name : String) (hidden : Bool)
  | renameHubMember (original new : String)
  | clearHubOrphans (visible : List String)
  | markHubOrphans (visible : List String)
  | deleteMember (name : String)

namespace Statement

/-- The table after a statement; one that is refused changes nothing. -/
def run (statement : Statement) (now : ℤ) (members : Members) : Members :=
  let after : Option Members :=
    match statement with
    | .storeChunk chunk stamp => members.storeChunk chunk stamp
    | .ensureMemberExists name => members.ensureMemberExists name
    | .bindHubAccount name id accountHash => members.bindHubAccount name id accountHash
    | .setHubPresence name online lastSeen => members.setHubPresence name online lastSeen now
    | .setMemberHidden name hidden => members.setMemberHidden name hidden
    | .renameHubMember original new => members.renameHubMember original new
    | .clearHubOrphans visible => members.clearHubOrphans visible
    | .markHubOrphans visible => members.markHubOrphans visible now
    | .deleteMember name => some (members.deleteMember name)
  after.getD members

/-- The rows that come by a name they did not have, as the statement leaves them. -/
def appearing (statement : Statement) (members : Members) : List MemberRow :=
  match statement with
  | .ensureMemberExists name =>
    if (members.find (MemberRow.named name)).isNone then [Sync.newRow name] else []
  | .renameHubMember original new =>
    if (members.renameHubMember original new).isSome then
      (members.rows.filter fun row ↦ row.named original && decide (row.memberName ≠ new)).map
        fun row ↦ { row with memberName := new }
    else []
  | _ => []

end Statement

/-! ## The system -/

/-- The table, and the page with the `from_time` of its next poll. `answer` is the answer under way.
Not of the code: whether the last update asked for a reload, and whether no statement ran since the
last answer was read. -/
structure System where
  members : Members
  clock : ℤ
  page : GuildData
  nextCheck : ℤ
  answer : Option MembersResponse
  reloading : Bool
  quiet : Bool

inductive Event where
  | run (statement : Statement)
  | pass (time : ℕ)
  /-- A poll is answered, in a transaction that started at this time. -/
  | read (started : ℤ)
  /-- The page takes the answer. -/
  | update

namespace System

/-- The page is opened, before anybody is on the map. -/
def boot (now : ℤ) : System where
  members := Table.empty
  clock := now
  page := ∅
  nextCheck := 0
  answer := none
  reloading := false
  quiet := false

/-- The page takes the answer under way. -/
def take (system : System) : System :=
  match system.answer with
  | none => system
  | some response =>
    { system with
      page := (system.page.update response).1
      nextCheck := (system.page.update response).2
      answer := none
      reloading := system.page.needsFullReload response }

/-- A poll is made only when the one before is over. -/
def step (system : System) : Event → System
  | .run statement =>
    { system with members := statement.run system.clock system.members, quiet := false }
  | .pass time => { system with clock := system.clock + time }
  | .read started =>
    if system.answer.isSome then system
    else
      { system with
        answer := some (getMembers system.members system.nextCheck started)
        quiet := true }
  | .update => system.take

/-- The full reload that was asked for, if one was. -/
def reload (system : System) (started : ℤ) : System :=
  if system.reloading then (system.step (.read started)).step .update else system

end System

/-! ## The property -/

/-- The page has the members of the roster, and shows of each column what is stored. -/
structure Shows (page : GuildData) (members : Members) : Prop where
  names : ∀ name, (page.lookup name).isSome = true ↔ name ∈ members.roster
  sections : ∀ row ∈ members, Members.onRoster row = true →
    ∀ member, page.lookup row.memberName = some member →
      ∀ part, member.sections part = (row.column part).value.bind (transformFromStorage part)

/-- When a poll is over and no statement ran since it was read, the page shows what is stored, after
the full reload if one was asked for; and that reload asks for no other. -/
def System.Converged (system : System) : Prop :=
  system.answer = none → system.quiet = true → ∀ started ≤ system.clock,
    Shows (system.reload started).page system.members ∧
      (system.reload started).reloading = false

/-- What is stored is committed less than the cursor's overlap after the time it is stamped with,
and a poll reads no earlier than its transaction started. -/
def Timely (system : System) : Event → Prop
  | .run (.storeChunk _ stamp) => stamp ≤ system.clock ∧ system.clock < stamp + cursorOverlap
  | .read started => started ≤ system.clock
  | _ => True

instance (system : System) : (event : Event) → Decidable (Timely system event)
  | .run (.storeChunk _ _) => inferInstanceAs (Decidable (_ ∧ _))
  | .run (.ensureMemberExists _) | .run (.bindHubAccount _ _ _) | .run (.setHubPresence _ _ _)
  | .run (.setMemberHidden _ _) | .run (.renameHubMember _ _) | .run (.clearHubOrphans _)
  | .run (.markHubOrphans _) | .run (.deleteMember _) | .pass _ | .update =>
    inferInstanceAs (Decidable True)
  | .read _ => inferInstanceAs (Decidable (_ ≤ _))

/-! ## When the page keeps every column -/

/-- The rows on the roster whose names are new to the page. -/
def System.newRows (system : System) : List MemberRow :=
  system.members.rows.filter fun row ↦
    Members.onRoster row && (system.page.lookup row.memberName).isNone

/-- None of the row's columns changed since. -/
def Silent (since : ℤ) (row : MemberRow) : Prop :=
  ∀ part ∈ sections, (row.column part).cell.changedSince since = false

/-- All of the row's columns that hold something changed since. -/
def Complete (since : ℤ) (row : MemberRow) : Prop :=
  ∀ part ∈ sections, (row.column part).value ≠ none →
    (row.column part).cell.changedSince since = true

/-- A column of the row is shown as it is stored or changed since, for every column. -/
def CaughtUp (since : ℤ) (row : MemberRow) (member : MemberData) : Prop :=
  ∀ part ∈ sections, Cell.CaughtUp (transformFromStorage part) (member.sections part) since
    (row.column part).cell

instance (since : ℤ) (row : MemberRow) : Decidable (Silent since row) :=
  inferInstanceAs (Decidable (∀ part ∈ sections, _))

instance (since : ℤ) (row : MemberRow) : Decidable (Complete since row) :=
  inferInstanceAs (Decidable (∀ part ∈ sections, _ → _))

instance (since : ℤ) (row : MemberRow) (member : MemberData) :
    Decidable (CaughtUp since row member) :=
  inferInstanceAs (Decidable (∀ part ∈ sections, _))

/-- A row that comes by a name finds no member of it on the page, with the answer under way taken,
but one that shows what the row holds or will be sent. A poll that finds new names on the roster
gets everything that is stored of each of them, or nothing of one. -/
def KeepsColumns (system : System) : Event → Prop
  | .run statement => ∀ row ∈ statement.appearing system.members,
      ∀ member ∈ system.take.page.lookup row.memberName,
        CaughtUp system.take.nextCheck row member
  | .read _ => system.answer.isNone = true →
      (∃ row ∈ system.newRows, Silent system.nextCheck row) ∨
        ∀ row ∈ system.newRows, Complete system.nextCheck row
  | _ => True

instance (system : System) : (event : Event) → Decidable (KeepsColumns system event)
  | .run statement =>
    inferInstanceAs (Decidable (∀ row ∈ statement.appearing system.members, ∀ member ∈ _, _))
  | .read _ => inferInstanceAs (Decidable (_ → _ ∨ _))
  | .pass _ | .update => inferInstanceAs (Decidable True)

/-! ## What a statement does to the rows -/

/-- A row after a statement: it kept its name and its columns, or it came by its name, with the
columns of a row there was or with none, or it was stored to. -/
inductive Origin (members : Members) (row : MemberRow) : Statement → Prop where
  | kept {statement : Statement} {before : MemberRow} (mem : before ∈ members)
      (name : before.memberName = row.memberName) (column : before.column = row.column) :
      Origin members row statement
  | appeared {statement : Statement} (appears : row ∈ statement.appearing members)
      (column : (∃ before ∈ members, before.column = row.column) ∨
        ∀ part, row.column part = { value := none, lastUpdate := none }) :
      Origin members row statement
  | stored {chunk : List Sync.MemberData} {stamp : ℤ} {before : MemberRow} (mem : before ∈ members)
      (assigned : assignOf chunk stamp before = row) :
      Origin members row (.storeChunk chunk stamp)

section Origin

variable {members members' : Members} {row : MemberRow} {statement : Statement} {now : ℤ}

/-- A statement that writes neither names nor columns. -/
theorem origin_of_update {p : MemberRow → Bool} {f : MemberRow → MemberRow}
    (h : members.update p f = some members')
    (hname : ∀ before, (f before).memberName = before.memberName)
    (hcolumn : ∀ before, (f before).column = before.column) (hrow : row ∈ members') :
    Origin members row statement := by
  obtain ⟨before, hbefore, rfl⟩ := (Table.mem_update h).mp hrow
  apply Origin.kept hbefore
  · split
    · exact (hname before).symm
    · rfl
  · split
    · exact (hcolumn before).symm
    · rfl

theorem origin_rename {original new : String} (h : members.renameHubMember original new = some members')
    (hrow : row ∈ members') : Origin members row (.renameHubMember original new) := by
  obtain ⟨before, hbefore, rfl⟩ := (Members.mem_renameHubMember h).mp hrow
  by_cases hnamed : before.named original = true
  · by_cases hname : before.memberName = new
    · apply Origin.kept hbefore
      · rw [if_pos hnamed, hname]
      · rw [if_pos hnamed]
    · refine Origin.appeared ?_ (.inl ⟨before, hbefore, by rw [if_pos hnamed]⟩)
      rw [Statement.appearing, h, if_pos hnamed]
      refine List.mem_map.mpr ⟨before, List.mem_filter.mpr ⟨hbefore, ?_⟩, rfl⟩
      simp only [hnamed, Bool.true_and, decide_eq_true_eq]
      exact hname
  · exact Origin.kept hbefore (by rw [if_neg hnamed]) (by rw [if_neg hnamed])

/-- A statement that is refused leaves every row as it is. -/
theorem of_mem_getD {after : Option Members} (hrow : row ∈ after.getD members)
    (hran : ∀ members', after = some members' → row ∈ members' → Origin members row statement) :
    Origin members row statement := by
  cases hafter : after with
  | none =>
    rw [hafter, Option.getD_none] at hrow
    exact Origin.kept hrow rfl rfl
  | some members' =>
    rw [hafter, Option.getD_some] at hrow
    exact hran members' hafter hrow

theorem mem_run (hrow : row ∈ statement.run now members) : Origin members row statement := by
  cases statement with
  | storeChunk chunk stamp =>
    refine of_mem_getD hrow fun after hafter hrow ↦ ?_
    obtain ⟨before, hbefore, hassigned⟩ := (Sync.mem_storeChunk hafter).mp hrow
    exact Origin.stored hbefore hassigned
  | ensureMemberExists name =>
    refine of_mem_getD hrow fun after (hafter : members.ensureMemberExists name = some after) hrow ↦ ?_
    cases hfind : members.find (MemberRow.named name) with
    | some found =>
      rw [Members.ensureMemberExists, hfind] at hafter
      obtain rfl := Option.some.inj hafter
      exact Origin.kept hrow rfl rfl
    | none =>
      rw [Members.ensureMemberExists, hfind] at hafter
      obtain hrow | rfl := (Table.mem_insert hafter).mp hrow
      · exact Origin.kept hrow rfl rfl
      · refine Origin.appeared ?_ (.inr fun _ ↦ rfl)
        simp [Statement.appearing, hfind]
  | bindHubAccount name id accountHash =>
    refine of_mem_getD hrow fun after hafter hrow ↦ ?_
    obtain ⟨before, hbefore, rfl⟩ := (Members.mem_bindHubAccount hafter).mp hrow
    refine Origin.kept hbefore ?_ ?_ <;> (unfold Members.bindRow; split_ifs <;> rfl)
  | setHubPresence name online lastSeen =>
    exact of_mem_getD hrow fun _ hafter ↦ origin_of_update hafter (fun _ ↦ rfl) (fun _ ↦ rfl)
  | setMemberHidden name hidden =>
    exact of_mem_getD hrow fun _ hafter ↦ origin_of_update hafter (fun _ ↦ rfl) (fun _ ↦ rfl)
  | renameHubMember original new => exact of_mem_getD hrow fun _ ↦ origin_rename
  | clearHubOrphans visible =>
    exact of_mem_getD hrow fun _ hafter ↦ origin_of_update hafter (fun _ ↦ rfl) (fun _ ↦ rfl)
  | markHubOrphans visible =>
    refine of_mem_getD hrow fun after hafter hrow ↦ ?_
    obtain ⟨before, hbefore, rfl⟩ := (Members.mem_markHubOrphans hafter).mp hrow
    refine Origin.kept hbefore Members.markRow_memberName.symm ?_
    unfold Members.markRow
    split
    · rfl
    · split_ifs <;> rfl
  | deleteMember name =>
    rw [Statement.run, Option.getD_some, Members.deleteMember, Table.mem_delete] at hrow
    exact Origin.kept hrow.1 rfl rfl

end Origin

/-! ## The invariant -/

/-- The page is in step with the table: of each member it shows of each column what is stored, or
will be sent it with the next answer. -/
structure InStep (system : System) : Prop where
  clock : cursorOverlap ≤ system.clock
  cursor : system.nextCheck ≤ system.clock - cursorOverlap
  stamped : ∀ row ∈ system.members, ∀ part, (row.column part).cell.Stamped 0
  asked : system.page.Asked
  caughtUp : ∀ row ∈ system.members, ∀ member, system.page.lookup row.memberName = some member →
    CaughtUp system.nextCheck row member
  reloads : system.reloading = true → system.nextCheck = 0
  names : system.quiet = true → ∀ name,
    (system.page.lookup name).isSome = true ↔ name ∈ system.members.roster
  shows : system.quiet = true → system.reloading = false → Shows system.page system.members

variable {system : System} {row : MemberRow} {member : MemberData} {statement : Statement}
  {started since : ℤ}

theorem inStep_boot {now : ℤ} (h : cursorOverlap ≤ now) : InStep (System.boot now) where
  clock := h
  cursor := by
    change 0 ≤ now - cursorOverlap
    omega
  stamped row hrow := absurd hrow Table.not_mem_empty
  asked name member hmember := by
    rw [System.boot, AList.lookup_empty] at hmember
    exact absurd hmember (by simp)
  caughtUp row hrow := absurd hrow Table.not_mem_empty
  reloads hreloading := absurd hreloading (by simp [System.boot])
  names hquiet := absurd hquiet (by simp [System.boot])
  shows hquiet := absurd hquiet (by simp [System.boot])

/-- What a statement stores is stamped later than the cursor of the page's next poll. -/
theorem cursor_le_stamp {chunk : List Sync.MemberData} {stamp : ℤ} (h : InStep system)
    (htimely : Timely system (.run (.storeChunk chunk stamp))) :
    system.nextCheck ≤ stamp ∧ 0 ≤ stamp := by
  have hclock := h.clock
  have hcursor := h.cursor
  have hstamp : system.clock < stamp + cursorOverlap := htimely.2
  omega

theorem cell_assignOf (chunk : List Sync.MemberData) (stamp : ℤ) (row : MemberRow) (part : Section) :
    ((assignOf chunk stamp row).column part).cell = (row.column part).cell ∨
      ∃ new, ((assignOf chunk stamp row).column part).cell = (row.column part).cell.write new stamp := by
  unfold assignOf
  split
  · exact .inr ⟨_, Sync.cell_assign⟩
  · exact .inl rfl

theorem stamped_run (h : InStep system) (htimely : Timely system (.run statement))
    (hrow : row ∈ statement.run system.clock system.members) (part : Section) :
    (row.column part).cell.Stamped 0 := by
  cases mem_run hrow with
  | kept mem name column => exact column ▸ h.stamped _ mem part
  | appeared appears column =>
    obtain ⟨before, hbefore, hcolumn⟩ | hnone := column
    · exact hcolumn ▸ h.stamped before hbefore part
    · rw [hnone part]
      trivial
  | @stored chunk stamp before mem assigned =>
    subst assigned
    obtain hsame | ⟨new, hwritten⟩ := cell_assignOf chunk stamp before part
    · exact hsame ▸ h.stamped _ mem part
    · exact hwritten ▸ (h.stamped _ mem part).write (cursor_le_stamp h htimely).2

theorem caughtUp_run (h : InStep system) (htimely : Timely system (.run statement))
    (hkeeps : ∀ row ∈ statement.appearing system.members,
      ∀ member ∈ system.page.lookup row.memberName, CaughtUp system.nextCheck row member)
    (hrow : row ∈ statement.run system.clock system.members)
    (hmember : system.page.lookup row.memberName = some member) :
    CaughtUp system.nextCheck row member := by
  cases mem_run hrow with
  | kept mem name column =>
    have hbefore := h.caughtUp _ mem member (name ▸ hmember)
    intro part hpart
    exact column ▸ hbefore part hpart
  | appeared appears column => exact hkeeps row appears member hmember
  | @stored chunk stamp before mem assigned =>
    subst assigned
    have hname : (assignOf chunk stamp before).memberName = before.memberName := by
      obtain ⟨column, heq⟩ := Sync.assignOf_eq chunk stamp before
      rw [heq]
    have hbefore := h.caughtUp before mem member (hname ▸ hmember)
    intro part hpart
    obtain hsame | ⟨new, hwritten⟩ := cell_assignOf chunk stamp before part
    · exact hsame ▸ hbefore part hpart
    · exact hwritten ▸ (hbefore part hpart).write (cursor_le_stamp h htimely).1

theorem inStep_run (h : InStep system) (htimely : Timely system (.run statement))
    (hkeeps : ∀ row ∈ statement.appearing system.members,
      ∀ member ∈ system.page.lookup row.memberName, CaughtUp system.nextCheck row member) :
    InStep (system.step (.run statement)) where
  clock := h.clock
  cursor := h.cursor
  stamped _ hrow part := stamped_run h htimely hrow part
  asked := h.asked
  caughtUp _ hrow _ hmember := by
    have hcaughtUp := caughtUp_run h htimely hkeeps hrow hmember
    exact hcaughtUp
  reloads := h.reloads
  names hquiet := absurd hquiet (by simp [System.step])
  shows hquiet := absurd hquiet (by simp [System.step])

theorem inStep_pass (h : InStep system) (time : ℕ) : InStep (system.step (.pass time)) where
  clock := by
    have := h.clock
    change cursorOverlap ≤ system.clock + time
    omega
  cursor := by
    have := h.cursor
    change system.nextCheck ≤ system.clock + time - cursorOverlap
    omega
  stamped := h.stamped
  asked := h.asked
  caughtUp := h.caughtUp
  reloads := h.reloads
  names := h.names
  shows := h.shows

/-! ## A poll -/

/-- A poll that is answered and taken with nothing in between. -/
def System.polled (system : System) (started : ℤ) : System :=
  ({ system with
      answer := some (getMembers system.members system.nextCheck started)
      quiet := true } : System).take

theorem step_read (h : system.answer = none) (started : ℤ) :
    (system.step (.read started)).take = system.polled started := by
  rw [System.step, h]
  rfl

/-- A reload is asked for when nothing of a new name changed since the last poll. -/
theorem needsFullReload_getMembers (h : InStep system) :
    system.page.needsFullReload (getMembers system.members system.nextCheck started) = true ↔
      ∃ row ∈ system.newRows, Silent system.nextCheck row := by
  rw [GuildData.needsFullReload_iff h.asked getMembers_distinct]
  constructor
  · rintro ⟨entry, hentry, hnew, hdata⟩
    obtain ⟨row, hrow, rfl⟩ := List.mem_map.mp hentry
    obtain ⟨hmem, hroster⟩ := List.mem_filter.mp hrow
    refine ⟨row, List.mem_filter.mpr ⟨hmem, ?_⟩, fun part _ ↦ ?_⟩
    · have hnew' : system.page.lookup row.memberName = none := hnew
      rw [hroster, hnew']
      rfl
    · exact (data_getMembers_eq_none hmem hroster).mp hdata part
  · rintro ⟨row, hrow, hsilent⟩
    obtain ⟨hmem, hboth⟩ := List.mem_filter.mp hrow
    obtain ⟨hroster, hnew⟩ := Bool.and_eq_true_iff.mp hboth
    refine ⟨rosterEntry started row, List.mem_map_of_mem (List.mem_filter.mpr ⟨hmem, hroster⟩), ?_, ?_⟩
    · exact Option.isNone_iff_eq_none.mp hnew
    · exact (data_getMembers_eq_none hmem hroster).mpr fun part ↦ hsilent part (mem_sections part)

/-- What the page has of a row on the roster after a poll. -/
theorem exists_lookup_polled (started : ℤ) (hrow : row ∈ system.members)
    (hroster : Members.onRoster row = true) :
    ∃ member, (system.polled started).page.lookup row.memberName = some member ∧
      ∀ part, member.sections part = Cell.receive (transformFromStorage part)
        (((system.page.lookup row.memberName).getD .new).sections part)
        ((row.column part).cell.sent system.nextCheck) := by
  have hentry : rosterEntry started row ∈
      (getMembers system.members system.nextCheck started).roster :=
    List.mem_map_of_mem (List.mem_filter.mpr ⟨hrow, hroster⟩)
  obtain ⟨member, hmember, hsections⟩ :=
    @GuildData.exists_lookup_members system.page _ _ getMembers_distinct hentry
  refine ⟨member, hmember, fun part ↦ (hsections part).trans ?_⟩
  exact congrArg _ (sent_getMembers hrow hroster part)

/-- After a poll the page shows a row on the roster as it is stored, unless its name is new and a
reload is asked for: then what it does not show is stored. -/
theorem sections_polled (h : InStep system)
    (hnew : (∃ row ∈ system.newRows, Silent system.nextCheck row) ∨
      ∀ row ∈ system.newRows, Complete system.nextCheck row)
    (hrow : row ∈ system.members) (hroster : Members.onRoster row = true)
    (hmember : (system.polled started).page.lookup row.memberName = some member) (part : Section) :
    member.sections part = (row.column part).cell.shown (transformFromStorage part) ∨
      (system.polled started).reloading = true ∧ system.page.lookup row.memberName = none ∧
        ((row.column part).value = none → member.sections part = none) := by
  obtain ⟨member', hmember', hsections⟩ := exists_lookup_polled started hrow hroster
  obtain rfl := Option.some.inj (hmember.symm.trans hmember')
  rw [hsections part]
  cases hold : system.page.lookup row.memberName with
  | some old =>
    left
    exact (h.caughtUp row hrow old hold part (mem_sections part)).receive (h.stamped row hrow part)
  | none =>
    obtain hsilent | hcomplete := hnew
    · right
      refine ⟨(needsFullReload_getMembers h).mpr hsilent, rfl, fun hvalue ↦ ?_⟩
      have hsent : (row.column part).cell.sent system.nextCheck = none := by
        unfold Cell.sent
        split
        · exact hvalue
        · rfl
      rw [hsent]
      rfl
    · left
      have hnewRow : row ∈ system.newRows := by
        rw [System.newRows, List.mem_filter, hroster, hold]
        exact ⟨hrow, rfl⟩
      refine Cell.CaughtUp.receive ?_ (h.stamped row hrow part)
      exact Cell.caughtUp_none (hcomplete row hnewRow part (mem_sections part))

theorem names_polled (name : String) :
    ((system.polled started).page.lookup name).isSome = true ↔ name ∈ system.members.roster := by
  constructor
  · intro hsome
    apply (@mem_roster_getMembers system.members system.nextCheck started name).mp
    by_contra hname
    have hnone : (system.polled started).page.lookup name = none :=
      GuildData.lookup_members_of_notMem hname
    rw [hnone] at hsome
    exact absurd hsome (by simp)
  · intro hname
    obtain ⟨row, hrow, hroster, rfl⟩ := Members.mem_roster.mp hname
    obtain ⟨member, hmember, -⟩ := exists_lookup_polled started hrow hroster
    rw [hmember]
    rfl

theorem toDate_le (time : ℤ) : toDate time ≤ time := by
  unfold toDate
  omega

theorem inStep_polled (h : InStep system) (hstarted : started ≤ system.clock)
    (hnew : (∃ row ∈ system.newRows, Silent system.nextCheck row) ∨
      ∀ row ∈ system.newRows, Complete system.nextCheck row) :
    InStep (system.polled started) where
  clock := h.clock
  cursor := by
    have hclock := h.clock
    have hdate := toDate_le (started - cursorOverlap)
    change (if system.page.needsFullReload _ then 0 else toDate (started - cursorOverlap)) ≤
      system.clock - cursorOverlap
    split <;> omega
  stamped := h.stamped
  asked := GuildData.asked_members h.asked getMembers_distinct
  caughtUp row hrow member hmember part _ := by
    have hname : row.memberName ∈ system.members.roster :=
      (names_polled row.memberName).mp (by rw [hmember]; rfl)
    obtain ⟨other, hother, hroster, hsame⟩ := Members.mem_roster.mp hname
    obtain rfl : other = row := Members.eq_of_name hother hrow (congrArg Sync.fold hsame)
    obtain hshown | ⟨hreloading, -, hunset⟩ := sections_polled h hnew hrow hroster hmember part
    · exact .inl hshown
    · have hcursor : (system.polled started).nextCheck = 0 := if_pos hreloading
      rw [hcursor]
      exact Cell.caughtUp_first (h.stamped other hrow part) hunset
  reloads hreloading := if_pos hreloading
  names _ := names_polled
  shows _ hreloading :=
    { names := names_polled
      sections := fun row hrow hroster member hmember part ↦ by
        obtain hshown | ⟨hreloads, -⟩ := sections_polled h hnew hrow hroster hmember part
        · exact hshown
        · rw [hreloading] at hreloads
          exact absurd hreloads (by simp) }

/-- The reload that was asked for gets everything, and asks for nothing more. -/
theorem InStep.converged (h : InStep system) : system.Converged := by
  intro hidle hquiet started hstarted
  unfold System.reload
  split
  · next hreloading =>
    have hnone : system.newRows = [] := by
      refine List.filter_eq_nil_iff.mpr fun row hrow hboth ↦ ?_
      obtain ⟨hroster, hnew⟩ := Bool.and_eq_true_iff.mp hboth
      have hname := (h.names hquiet row.memberName).mpr
        (Members.mem_roster.mpr ⟨row, hrow, hroster, rfl⟩)
      rw [Option.isNone_iff_eq_none.mp hnew] at hname
      exact absurd hname (by simp)
    have hpolled : InStep (system.polled started) := by
      apply inStep_polled h hstarted
      right
      simp [hnone]
    have hdone : (system.polled started).reloading = false := by
      by_contra hnot
      have hagain : (system.polled started).reloading = true := by simpa using hnot
      obtain ⟨row, hrow, -⟩ := (needsFullReload_getMembers h).mp hagain
      exact absurd hrow (by simp [hnone])
    have hstep : (system.step (.read started)).step .update = system.polled started :=
      step_read hidle started
    rw [hstep]
    exact ⟨hpolled.shows rfl hdone, hdone⟩
  · next hnot =>
    have hdone : system.reloading = false := by simpa using hnot
    exact ⟨h.shows hquiet hdone, hdone⟩

/-! ## Runs -/

theorem take_take : system.take.take = system.take := by
  unfold System.take
  cases hanswer : system.answer <;> simp [hanswer]

theorem take_run (statement : Statement) :
    (system.step (.run statement)).take = system.take.step (.run statement) := by
  unfold System.take
  cases hanswer : system.answer <;> simp [System.step, hanswer]

theorem take_pass (time : ℕ) : (system.step (.pass time)).take = system.take.step (.pass time) := by
  unfold System.take
  cases hanswer : system.answer <;> simp [System.step, hanswer]

theorem take_members : system.take.members = system.members := by
  unfold System.take
  split <;> rfl

theorem take_clock : system.take.clock = system.clock := by
  unfold System.take
  split <;> rfl

/-- With the answer under way taken, the page stays in step. -/
theorem inStep_step {event : Event} (h : InStep system.take) (htimely : Timely system event)
    (hkeeps : KeepsColumns system event) : InStep (system.step event).take := by
  cases event with
  | run statement =>
    rw [take_run]
    apply inStep_run h
    · cases statement <;> first | trivial | simpa [Timely, take_clock] using htimely
    · rw [take_members]
      exact hkeeps
  | pass time =>
    rw [take_pass]
    exact inStep_pass h time
  | update =>
    change InStep system.take.take
    rw [take_take]
    exact h
  | read started =>
    cases hanswer : system.answer with
    | some answer =>
      have hsame : system.step (.read started) = system := by simp [System.step, hanswer]
      rw [hsame]
      exact h
    | none =>
      have hidle : system.take = system := by simp [System.take, hanswer]
      rw [step_read hanswer]
      rw [hidle] at h
      exact inStep_polled h htimely (hkeeps (by simp [hanswer]))

/-- The page converges in every run in which no row comes by a name the page has other data of, and
no new name comes with part of its columns. -/
theorem System.converged_of_keepsColumns {now : ℤ} (hnow : cursorOverlap ≤ now)
    {events : List Event} (htimely : Run.Along System.step Timely (System.boot now) events)
    (hkeeps : Run.Along System.step KeepsColumns (System.boot now) events) :
    Run.Always System.step System.Converged (System.boot now) events := by
  have hinStep : Run.Always System.step (fun system ↦ InStep system.take) (System.boot now) events := by
    refine Run.always_of_along (fun system event h hgood ↦ ?_) (inStep_boot hnow)
      (Run.along_and htimely hkeeps)
    exact inStep_step h hgood.1 hgood.2
  refine hinStep.mono fun system h hidle ↦ ?_
  have htaken : system.take = system := by simp [System.take, hidle]
  exact (htaken ▸ h).converged hidle

/-! ## A member renamed -/

/-- Data of one section. -/
def sectionData (name : String) (part : Section) (values : List ℤ) : Sync.MemberData where
  name := name
  sections other := if other = part then some (.array values) else none

/-- A member whose stats are stored is renamed after the page has loaded it, and the page polls. -/
def renamed (stored : List Statement) : List Event :=
  [.run (.ensureMemberExists "Alpha"),
    .run (.storeChunk [sectionData "Alpha" .stats [99, 99, 70, 99, 0, 0, 301]] 10000000),
    .pass 5000000, .read 15000000, .update, .pass 5000000,
    .run (.renameHubMember "Alpha" "Bravo")] ++ stored.map .run ++ [.read 20000000, .update]

/-- Nothing is stored since the rename: the page asks for everything. -/
theorem converged_renamed :
    Run.Always System.step System.Converged (System.boot 10000000) (renamed []) :=
  System.converged_of_keepsColumns (by decide) (by decide +kernel) (by decide +kernel)

/-- The member has moved, too: the page takes the position for its data and misses its stats. -/
theorem converged_fails_renamedAndMoved :
    let moved := renamed
      [.storeChunk [sectionData "Bravo" .coordinates [3200, 3200, 0]] 20000000]
    Run.Along System.step Timely (System.boot 10000000) moved ∧
      ¬ Run.Always System.step System.Converged (System.boot 10000000) moved := by
  intro moved
  refine ⟨by decide +kernel, fun h ↦ ?_⟩
  let last := moved.foldl System.step (System.boot 10000000)
  have hlast : last.answer.isNone = true ∧ last.quiet = true ∧ last.reloading = false ∧
      last.clock = 20000000 := by decide +kernel
  have hmissing : ∃ row ∈ last.members.rows, Members.onRoster row = true ∧
      ∃ member ∈ last.page.lookup row.memberName,
        member.sections .stats ≠ (row.column .stats).value.bind (transformFromStorage .stats) := by
    decide +kernel
  obtain ⟨row, hrow, hroster, member, hmember, hstats⟩ := hmissing
  have hshows := (h.final (Option.isNone_iff_eq_none.mp hlast.1) hlast.2.1 20000000
    hlast.2.2.2.ge).1
  have hdone : ¬ (moved.foldl System.step (System.boot 10000000)).reloading = true := by
    rw [hlast.2.2.1]
    exact Bool.false_ne_true
  rw [System.reload, if_neg hdone] at hshows
  exact hstats (hshows.sections row hrow hroster member hmember .stats)

end OsrsMap.Page
