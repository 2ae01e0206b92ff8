import OsrsMap.Sync.Batcher
import OsrsMap.Sync.Convert
import OsrsMap.Sync.OtherTurn
import Mathlib.Data.List.Flatten
import Mathlib.Data.List.Perm.Basic

/-!
# The data columns as a mirror of the hub

The sync sends what changed of an account's sections into the channel; the batcher
(`background_worker`, `server/src/update_batcher.rs`) collects it in buffers and stores each buffer
chunk by chunk. What the columns come to once everything that was sent is stored changes in the turn
of an account and when a chunk fails, and at no other time.
-/

namespace OsrsMap.Sync

open Overlay

/-! ## The batcher -/

/-- What the batcher is at: a buffer it collects, or the chunks of one that are not stored yet. -/
inductive Stage where
  | collecting (buffer : List MemberData)
  | storing (chunks : List (List MemberData))

namespace Stage

/-- The updates it holds. -/
def updates : Stage → List MemberData
  | collecting buffer => buffer
  | storing chunks => chunks.flatten

/-- When no chunk is left, the next buffer is collected. -/
def ofChunks (chunks : List (List MemberData)) : Stage :=
  if chunks.isEmpty then collecting [] else storing chunks

@[simp]
theorem updates_ofChunks (chunks : List (List MemberData)) :
    (ofChunks chunks).updates = chunks.flatten := by
  unfold ofChunks
  split_ifs with h
  · rw [List.isEmpty_iff.mp h]
    rfl
  · rfl

end Stage

/-- What the sync and the batcher share: the outbox is the channel, of which the batcher received the
first `received` updates. -/
structure Mirror where
  world : World
  received : ℕ
  stage : Stage

/-- What may happen: an account has its turn, a full snapshot is through, time passes, the batcher
receives an update, ends its buffer, stores a chunk, or fails to. The chunks of a buffer run next to
each other, so any of them may be the next to be stored. -/
inductive MirrorEvent where
  | turn (report : HubReport)
  | left (reports : List HubReport)
  | elapse (now : ℤ)
  | receive
  | flush
  | store (i : ℕ)
  | fail (i : ℕ)

namespace Mirror

/-- The updates in the channel. -/
def queued (mirror : Mirror) : List MemberData :=
  (mirror.world.outbox.drop mirror.received).map Prod.snd

/-- The updates that are not stored yet. -/
def pending (mirror : Mirror) : List MemberData := mirror.stage.updates ++ mirror.queued

/-- Everything that was sent is stored. -/
def Drained (mirror : Mirror) : Prop := mirror.pending = []

def receive (mirror : Mirror) : Mirror :=
  match mirror.stage, mirror.queued.head? with
  | .collecting buffer, some update =>
    if buffer.length < batchSize then
      { mirror with
        received := mirror.received + 1
        stage := .collecting (buffer ++ [update]) }
    else mirror
  | _, _ => mirror

def flush (mirror : Mirror) : Mirror :=
  match mirror.stage with
  | .collecting buffer => { mirror with stage := .ofChunks (chunksOf (deduplicateBatch buffer)) }
  | .storing _ => mirror

def storeChunk (mirror : Mirror) (chunk : List MemberData) : Mirror :=
  { mirror with
    world :=
      { mirror.world with
        members := (mirror.world.members.storeChunk chunk mirror.world.clock).getD
          mirror.world.members } }

/-- A chunk is done with, whether it is stored or not. -/
def dropChunk (mirror : Mirror) (i : ℕ) : Mirror :=
  match mirror.stage with
  | .collecting _ => mirror
  | .storing chunks => { mirror with stage := .ofChunks (chunks.eraseIdx i) }

/-- The chunk at a place. -/
def chunkAt (mirror : Mirror) (i : ℕ) : List MemberData :=
  match mirror.stage with
  | .collecting _ => []
  | .storing chunks => chunks[i]?.getD []

@[simp]
theorem world_receive (mirror : Mirror) : mirror.receive.world = mirror.world := by
  unfold receive
  split
  · split_ifs <;> rfl
  · rfl

@[simp]
theorem world_flush (mirror : Mirror) : mirror.flush.world = mirror.world := by
  unfold flush
  split <;> rfl

@[simp]
theorem world_dropChunk (mirror : Mirror) (i : ℕ) : (mirror.dropChunk i).world = mirror.world := by
  unfold dropChunk
  split <;> rfl

def step (mirror : Mirror) : MirrorEvent → Mirror
  | .turn report => { mirror with world := mirror.world.processAccount report.account }
  | .left reports => { mirror with world := mirror.world.finishFull (reports.map HubReport.account) }
  | .elapse now => { mirror with world := { mirror.world with clock := now } }
  | .receive => mirror.receive
  | .flush => mirror.flush
  | .store i => (mirror.storeChunk (mirror.chunkAt i)).dropChunk i
  | .fail i => mirror.dropChunk i

end Mirror

/-- The server starts over a members table. -/
def Mirror.boot (members : Members) (clock : ℤ) : Mirror where
  world := { World.start with members, directory := HubDirectory.load members, clock }
  received := 0
  stage := .collecting []

/-- A member is neither renamed nor hidden: an account that has its turn either has nothing to do with
it, or is neither renamed nor hidden itself. -/
def MirrorEvent.Spares (name : String) (world : World) : MirrorEvent → Prop
  | turn report => validName report.name = true →
    Foreign name world report.account ∨ Plain world report.account
  | _ => True

/-- No chunk fails. -/
def MirrorEvent.succeeds : MirrorEvent → Prop
  | fail _ => False
  | _ => True

instance (name : String) (world : World) : DecidablePred (MirrorEvent.Spares name world)
  | .turn report => inferInstanceAs (Decidable (validName report.name = true →
    Foreign name world report.account ∨ Plain world report.account))
  | .left _ | .elapse _ | .receive | .flush | .store _ | .fail _ => inferInstanceAs (Decidable True)

instance : DecidablePred MirrorEvent.succeeds
  | .fail _ => inferInstanceAs (Decidable False)
  | .turn _ | .left _ | .elapse _ | .receive | .flush | .store _ => inferInstanceAs (Decidable True)

instance (mirror : Mirror) : Decidable mirror.Drained := decidable_of_iff _ List.isEmpty_iff

/-! ## Values by name -/

/-- What the columns of the row with a name hold. -/
def Members.valuesOf (members : Members) (name : String) : MemberSections :=
  (members.find (MemberRow.named name)).elim (fun _ ↦ none) MemberRow.values

section Values

variable {members members' : Members} {chunk updates : List MemberData} {row : MemberRow}
  {name : String} {now : ℤ}

theorem valuesOf_of_mem (hrow : row ∈ members) (hname : fold name = fold row.memberName) :
    members.valuesOf name = row.values := by
  rw [Members.valuesOf, Members.find_named_eq hrow hname.symm]
  rfl

theorem valuesOf_of_fresh (h : ∀ row ∈ members, fold row.memberName ≠ fold name) :
    members.valuesOf name = fun _ ↦ none := by
  rw [Members.valuesOf]
  cases hfind : members.find (MemberRow.named name) with
  | none => rfl
  | some row =>
    obtain ⟨hrow, hnamed⟩ := Table.mem_of_find hfind
    exact absurd (Members.named_eq_true.mp hnamed) (h row hrow)

theorem KeepsColumns.valuesOf (h : KeepsColumns members members') (name : String) :
    members'.valuesOf name = members.valuesOf name := by
  by_cases hsome : ∃ row ∈ members, fold row.memberName = fold name
  · obtain ⟨row, hrow, hname⟩ := hsome
    obtain ⟨after, hafter, hsame, hcolumn⟩ := h.kept row hrow
    have hvalues : after.values = row.values := by
      unfold MemberRow.values
      rw [hcolumn]
    rw [valuesOf_of_mem hafter (by rw [hsame, hname]), valuesOf_of_mem hrow hname.symm, hvalues]
  · have hfresh : ∀ row ∈ members, fold row.memberName ≠ fold name :=
      fun row hrow hname ↦ hsome ⟨row, hrow, hname⟩
    rw [valuesOf_of_fresh hfresh]
    by_cases hsome' : ∃ after ∈ members', fold after.memberName = fold name
    · obtain ⟨after, hafter, hname⟩ := hsome'
      rw [valuesOf_of_mem hafter hname.symm]
      obtain ⟨row, hrow, hsame, -⟩ | ⟨hnew, -⟩ := h.origin after hafter
      · exact absurd (by rw [← hsame, hname]) (hfresh row hrow)
      · unfold MemberRow.values
        rw [hnew]
        rfl
    · exact valuesOf_of_fresh fun after hafter hname ↦ hsome' ⟨after, hafter, hname⟩

theorem SameRows.valuesOf (h : SameRows name members members') :
    members'.valuesOf name = members.valuesOf name := by
  by_cases hsome : ∃ row ∈ members, fold row.memberName = fold name
  · obtain ⟨row, hrow, hname⟩ := hsome
    obtain ⟨after, hafter, hsame, hcolumn⟩ := (h row hname).mpr ⟨row, hrow, rfl, rfl⟩
    have hvalues : after.values = row.values := by
      unfold MemberRow.values
      rw [hcolumn]
    rw [valuesOf_of_mem hafter (by rw [hsame, hname]), valuesOf_of_mem hrow hname.symm, hvalues]
  · rw [valuesOf_of_fresh fun row hrow hname ↦ hsome ⟨row, hrow, hname⟩]
    apply valuesOf_of_fresh
    intro after hafter hname
    obtain ⟨row, hrow, hsame, -⟩ := (h after hname).mp ⟨after, hafter, rfl, rfl⟩
    exact hsome ⟨row, hrow, by rw [hsame, hname]⟩

/-- An update for the row with a name goes by the row's name, letter for letter. -/
def NamedAt (name : String) (members : Members) (updates : List MemberData) : Prop :=
  ∀ update ∈ updates, fold name = fold update.name → HasRow members update.name

theorem NamedAt.append {second : List MemberData} (h : NamedAt name members updates)
    (h' : NamedAt name members second) : NamedAt name members (updates ++ second) := by
  intro update hupdate
  obtain hupdate | hupdate := List.mem_append.mp hupdate
  · exact h update hupdate
  · exact h' update hupdate

theorem NamedAt.mono {second : List MemberData} (h : NamedAt name members updates)
    (hsubset : ∀ update ∈ second, ∃ other ∈ updates, other.name = update.name) :
    NamedAt name members second := by
  intro update hupdate hname
  obtain ⟨other, hother, hsame⟩ := hsubset update hupdate
  rw [← hsame] at hname ⊢
  exact h other hother hname

theorem NamedAt.later (h : NamedAt name members updates)
    (hkept : ∀ exact, fold exact = fold name → HasRow members exact → HasRow members' exact) :
    NamedAt name members' updates :=
  fun update hupdate hname ↦ hkept update.name hname.symm (h update hupdate hname)

/-- The updates for a row go by one name. -/
theorem NamedAt.exists_exact (h : NamedAt name members updates) :
    ∃ exact, fold name = fold exact ∧
      ∀ update ∈ updates, fold name = fold update.name → update.name = exact := by
  by_cases hsome : ∃ row ∈ members, fold row.memberName = fold name
  · obtain ⟨row, hrow, hname⟩ := hsome
    refine ⟨row.memberName, hname.symm, fun update hupdate hsame ↦ ?_⟩
    obtain ⟨other, hother, hotherName⟩ := h update hupdate hsame
    rw [← hotherName, Members.eq_of_name hother hrow (by rw [hotherName, ← hsame, hname])]
  · refine ⟨name, rfl, fun update hupdate hsame ↦ ?_⟩
    obtain ⟨other, hother, hotherName⟩ := h update hupdate hsame
    exact absurd ⟨other, hother, by rw [hotherName, hsame]⟩ hsome

/-- Of updates with different names a row has one, or none. -/
theorem NamedAt.length_layersFor (h : NamedAt name members updates)
    (hnodup : (updates.map MemberData.name).Nodup) : (layersFor name updates).length ≤ 1 := by
  obtain ⟨exact, hexact, honly⟩ := h.exists_exact
  rw [layersFor, filter_fold hexact honly, List.length_map]
  by_cases hsome : ∃ update ∈ updates, update.name = exact
  · obtain ⟨update, hupdate, rfl⟩ := hsome
    rw [filter_name_of_nodup hnodup hupdate]
    rfl
  · rw [List.filter_eq_nil_iff.mpr]
    · exact Nat.zero_le 1
    · intro update hupdate
      simpa using fun hname ↦ hsome ⟨update, hupdate, hname⟩

theorem valuesOf_storeChunk (h : members.storeChunk chunk now = some members')
    (hnamed : NamedAt name members chunk) (hone : (layersFor name chunk).length ≤ 1) :
    members'.valuesOf name = stack (members.valuesOf name) (layersFor name chunk) := by
  have hname (before : MemberRow) : (assignOf chunk now before).memberName = before.memberName := by
    obtain ⟨column, hcolumn⟩ := assignOf_eq chunk now before
    rw [hcolumn]
  by_cases hsome : ∃ row ∈ members, fold row.memberName = fold name
  · obtain ⟨row, hrow, hrowname⟩ := hsome
    have hlayers : layersFor row.memberName chunk = layersFor name chunk := by
      simp only [layersFor, hrowname]
    have hafter : assignOf chunk now row ∈ members' := (mem_storeChunk h).mpr ⟨row, hrow, rfl⟩
    rw [valuesOf_of_mem hafter (by rw [hname, hrowname]), valuesOf_of_mem hrow hrowname.symm,
      values_assignOf row now (hlayers ▸ hone), hlayers]
  · have hnone : layersFor name chunk = [] := by
      rw [layersFor, List.filter_eq_nil_iff.mpr]
      · rfl
      · intro update hupdate
        rw [decide_eq_true_eq]
        intro hsame
        obtain ⟨row, hrow, hrowname⟩ := hnamed update hupdate hsame
        exact hsome ⟨row, hrow, by rw [hrowname, hsame]⟩
    rw [hnone, stack_nil, valuesOf_of_fresh fun row hrow hrowname ↦ hsome ⟨row, hrow, hrowname⟩]
    apply valuesOf_of_fresh
    intro after hafter hsame
    obtain ⟨row, hrow, rfl⟩ := (mem_storeChunk h).mp hafter
    exact hsome ⟨row, hrow, by rw [← hsame, hname]⟩

end Values

/-! ## What a statement stores -/

/-- A `_last_update` is set where another value than before is stored, and nowhere else. -/
structure Stamps (now : ℤ) (members members' : Members) : Prop where
  kept : ∀ row ∈ members, ∃ after ∈ members', after.memberName = row.memberName ∧ ∀ part,
    (after.column part).lastUpdate =
      if (after.column part).value = (row.column part).value then (row.column part).lastUpdate
      else some now
  origin : ∀ after ∈ members', HasRow members after.memberName ∨
    after.column = (newRow after.memberName).column

theorem KeepsColumns.stamps {members members' : Members} (h : KeepsColumns members members') (now : ℤ) :
    Stamps now members members' where
  kept row hrow := by
    obtain ⟨after, hafter, hname, hcolumn⟩ := h.kept row hrow
    refine ⟨after, hafter, hname, fun part ↦ ?_⟩
    rw [hcolumn, if_pos rfl]
  origin after hafter := by
    obtain ⟨row, hrow, hname, -⟩ | ⟨hnew, -⟩ := h.origin after hafter
    · exact .inl ⟨row, hrow, hname.symm⟩
    · exact .inr hnew

theorem stamps_storeChunk {members members' : Members} {chunk : List MemberData} {now : ℤ}
    (h : members.storeChunk chunk now = some members') : Stamps now members members' where
  kept row hrow := by
    refine ⟨_, (mem_storeChunk h).mpr ⟨row, hrow, rfl⟩, ?_, fun part ↦ ?_⟩
    · obtain ⟨column, hcolumn⟩ := assignOf_eq chunk now row
      rw [hcolumn]
    · unfold assignOf
      split
      · exact (row.column part).cell.changed_write _ now
      · rw [if_pos rfl]
  origin after hafter := by
    obtain ⟨row, hrow, rfl⟩ := (mem_storeChunk h).mp hafter
    obtain ⟨column, hcolumn⟩ := assignOf_eq chunk now row
    rw [hcolumn]
    exact .inl ⟨row, hrow, rfl⟩

/-! ## What the columns come to -/

namespace Mirror

variable {mirror : Mirror} {chunks : List (List MemberData)} {buffer : List MemberData} {name : String}

/-- The columns of a row once everything that was sent is stored. -/
def awaited (mirror : Mirror) (name : String) : MemberSections :=
  stack (mirror.world.members.valuesOf name) (layersFor name mirror.pending)

/-- What the sync and the batcher keep to for a member: no more was received than sent, its updates go
by its name, the chunks have one for a name, and an account that is known by its name is not hidden. -/
structure Sound (mirror : Mirror) (name : String) : Prop where
  arrived : mirror.received ≤ mirror.world.outbox.length
  named : NamedAt name mirror.world.members mirror.pending
  single : ∀ chunks, mirror.stage = .storing chunks → (chunks.flatten.map MemberData.name).Nodup
  shown : ∀ id, ∀ known ∈ mirror.world.known id, fold known.memberName = fold name →
    known.hidden = false
  hasRow : ∀ id, ∀ known ∈ mirror.world.known id, fold known.memberName = fold name →
    HasRow mirror.world.members known.memberName

/-- What the batcher keeps to: no more was received than sent, and the chunks have one update for a
name. -/
structure Batched (mirror : Mirror) : Prop where
  arrived : mirror.received ≤ mirror.world.outbox.length
  single : ∀ chunks, mirror.stage = .storing chunks → (chunks.flatten.map MemberData.name).Nodup

theorem Sound.batched (h : mirror.Sound name) : mirror.Batched := ⟨h.arrived, h.single⟩

theorem batched_boot (members : Members) (clock : ℤ) : (boot members clock).Batched where
  arrived := le_rfl
  single _ hstage := Stage.noConfusion hstage

theorem sound_boot (members : Members) (clock : ℤ) (name : String) : (boot members clock).Sound name where
  arrived := le_rfl
  named _ hupdate := absurd hupdate List.not_mem_nil
  single _ hstage := Stage.noConfusion hstage
  shown _ _ hknown := absurd hknown (by simp [boot, World.start])
  hasRow _ _ hknown := absurd hknown (by simp [boot, World.start])

/-- What is sent is pending last. -/
theorem pending_of_outbox {world : World} {sent : List (String × MemberData)} (h : mirror.Batched)
    (houtbox : world.outbox = mirror.world.outbox ++ sent) :
    pending { mirror with world } = mirror.pending ++ sent.map Prod.snd := by
  unfold pending queued
  dsimp only
  rw [houtbox, List.drop_append_of_le_length h.arrived, List.map_append, List.append_assoc]

theorem batched_of_outbox {world : World} {sent : List (String × MemberData)} (h : mirror.Batched)
    (houtbox : world.outbox = mirror.world.outbox ++ sent) : Batched { mirror with world } := by
  refine ⟨?_, h.single⟩
  dsimp only
  rw [houtbox, List.length_append]
  exact h.arrived.trans (Nat.le_add_right _ _)

/-- The batcher receives the next update, or nothing. -/
theorem receive_cases (mirror : Mirror) : mirror.receive = mirror ∨
    ∃ buffer update, mirror.stage = .collecting buffer ∧ mirror.queued.head? = some update ∧
      mirror.receive =
        { mirror with
          received := mirror.received + 1
          stage := .collecting (buffer ++ [update]) } := by
  unfold receive
  split
  · next buffer update hstage hhead =>
    split_ifs
    · exact .inr ⟨buffer, update, hstage, hhead, rfl⟩
    · exact .inl rfl
  · exact .inl rfl

theorem queued_eq_cons {update : MemberData} (h : mirror.queued.head? = some update) (stage : Stage) :
    mirror.queued =
      update :: queued { mirror with received := mirror.received + 1, stage := stage } := by
  obtain ⟨later, hlater⟩ := List.head?_eq_some_iff.mp h
  have htail : queued { mirror with received := mirror.received + 1, stage := stage } = later := by
    unfold queued at hlater ⊢
    rw [← List.tail_drop, List.map_tail, hlater, List.tail_cons]
  rw [htail, hlater]

theorem pending_receive (mirror : Mirror) : mirror.receive.pending = mirror.pending := by
  obtain hsame | ⟨buffer, update, hstage, hhead, hreceive⟩ := mirror.receive_cases
  · rw [hsame]
  · rw [hreceive]
    unfold pending
    rw [queued_eq_cons hhead (.collecting (buffer ++ [update])), hstage]
    simp [Stage.updates]

theorem pending_flush (h : mirror.stage = .collecting buffer) :
    mirror.flush.pending = deduplicateBatch buffer ++ mirror.queued := by
  unfold flush
  rw [h]
  simp only [pending, Stage.updates_ofChunks, flatten_chunksOf]
  rfl

theorem pending_dropChunk (h : mirror.stage = .storing chunks) (i : ℕ) :
    (mirror.dropChunk i).pending = (chunks.eraseIdx i).flatten ++ mirror.queued := by
  unfold dropChunk
  rw [h]
  simp only [pending, Stage.updates_ofChunks]
  rfl

theorem ofChunks_eq_storing {left : List (List MemberData)}
    (h : Stage.ofChunks chunks = .storing left) : left = chunks := by
  unfold Stage.ofChunks at h
  split_ifs at h
  exact (Stage.storing.inj h).symm

theorem Batched.receive (h : mirror.Batched) : mirror.receive.Batched := by
  obtain hsame | ⟨buffer, update, hstage, hhead, hreceive⟩ := mirror.receive_cases
  · rwa [hsame]
  · rw [hreceive]
    refine ⟨?_, fun chunks hchunks ↦ Stage.noConfusion hchunks⟩
    have hlength : 0 < mirror.queued.length := by
      obtain ⟨later, hlater⟩ := List.head?_eq_some_iff.mp hhead
      rw [hlater]
      exact Nat.succ_pos later.length
    rw [queued, List.length_map, List.length_drop] at hlength
    dsimp only
    omega

theorem Sound.receive (h : mirror.Sound name) : mirror.receive.Sound name := by
  have hbatched := h.batched.receive
  have hnamed := h.named
  rw [← pending_receive] at hnamed
  refine ⟨hbatched.arrived, ?_, hbatched.single, ?_, ?_⟩
  all_goals rw [world_receive]
  exacts [hnamed, h.shown, h.hasRow]

theorem awaited_receive (mirror : Mirror) (name : String) :
    mirror.receive.awaited name = mirror.awaited name := by
  rw [awaited, pending_receive, world_receive]
  rfl

theorem Batched.flush (h : mirror.Batched) : mirror.flush.Batched := by
  cases hstage : mirror.stage with
  | storing chunks =>
    have hsame : mirror.flush = mirror := by
      rw [Mirror.flush, hstage]
    rwa [hsame]
  | collecting buffer =>
    have hflush : mirror.flush =
        { mirror with stage := .ofChunks (chunksOf (deduplicateBatch buffer)) } := by
      rw [Mirror.flush, hstage]
    rw [hflush]
    refine ⟨h.arrived, fun chunks hchunks ↦ ?_⟩
    rw [ofChunks_eq_storing hchunks, flatten_chunksOf]
    exact nodup_deduplicateBatch buffer

theorem namedAt_flush {members : Members} (h : NamedAt name members mirror.pending) :
    NamedAt name members mirror.flush.pending := by
  cases hstage : mirror.stage with
  | storing chunks =>
    have hsame : mirror.flush = mirror := by
      rw [Mirror.flush, hstage]
    rwa [hsame]
  | collecting buffer =>
    rw [pending_flush hstage]
    apply h.mono
    intro update hupdate
    rw [pending, hstage]
    obtain hupdate | hupdate := List.mem_append.mp hupdate
    · obtain ⟨⟨other, hother, hname⟩, -⟩ := mem_deduplicateBatch.mp hupdate
      exact ⟨other, List.mem_append_left _ hother, hname⟩
    · exact ⟨update, List.mem_append_right _ hupdate, rfl⟩

theorem Sound.flush (h : mirror.Sound name) : mirror.flush.Sound name := by
  have hbatched := h.batched.flush
  refine ⟨hbatched.arrived, ?_, hbatched.single, ?_, ?_⟩
  all_goals rw [world_flush]
  exacts [namedAt_flush h.named, h.shown, h.hasRow]

theorem awaited_flush (hnamed : NamedAt name mirror.world.members mirror.pending) :
    mirror.flush.awaited name = mirror.awaited name := by
  cases hstage : mirror.stage with
  | storing chunks =>
    have hsame : mirror.flush = mirror := by
      rw [Mirror.flush, hstage]
    rw [hsame]
  | collecting buffer =>
    obtain ⟨exact, hexact, honly⟩ := hnamed.exists_exact
    have hbuffer : mirror.pending = buffer ++ mirror.queued := by
      rw [pending, hstage]
      rfl
    rw [awaited, awaited, world_flush, pending_flush hstage, hbuffer, layersFor_append, layersFor_append,
      stack_append, stack_append, stack_deduplicateBatch _ hexact]
    intro update hupdate
    exact honly update (hbuffer ▸ List.mem_append_left _ hupdate)

theorem Batched.dropChunk (h : mirror.Batched) (i : ℕ) : (mirror.dropChunk i).Batched := by
  cases hstage : mirror.stage with
  | collecting buffer =>
    have hsame : mirror.dropChunk i = mirror := by
      rw [Mirror.dropChunk, hstage]
    rwa [hsame]
  | storing chunks =>
    have hdrop : mirror.dropChunk i = { mirror with stage := .ofChunks (chunks.eraseIdx i) } := by
      rw [Mirror.dropChunk, hstage]
    rw [hdrop]
    refine ⟨h.arrived, fun left hleft ↦ ?_⟩
    rw [ofChunks_eq_storing hleft]
    exact (h.single chunks hstage).sublist
      ((List.eraseIdx_sublist chunks i).flatten.map MemberData.name)

theorem namedAt_dropChunk {members : Members} (h : NamedAt name members mirror.pending) (i : ℕ) :
    NamedAt name members (mirror.dropChunk i).pending := by
  cases hstage : mirror.stage with
  | collecting buffer =>
    have hsame : mirror.dropChunk i = mirror := by
      rw [Mirror.dropChunk, hstage]
    rwa [hsame]
  | storing chunks =>
    have hsublist : List.Sublist (chunks.eraseIdx i).flatten chunks.flatten :=
      (List.eraseIdx_sublist chunks i).flatten
    rw [pending_dropChunk hstage]
    apply h.mono
    intro update hupdate
    rw [pending, hstage]
    obtain hupdate | hupdate := List.mem_append.mp hupdate
    · exact ⟨update, List.mem_append_left _ (hsublist.subset hupdate), rfl⟩
    · exact ⟨update, List.mem_append_right _ hupdate, rfl⟩

theorem Sound.dropChunk (h : mirror.Sound name) (i : ℕ) : (mirror.dropChunk i).Sound name := by
  have hbatched := h.batched.dropChunk i
  refine ⟨hbatched.arrived, ?_, hbatched.single, ?_, ?_⟩
  all_goals rw [world_dropChunk]
  exacts [namedAt_dropChunk h.named i, h.shown, h.hasRow]

/-- Storing a chunk changes values and nothing else. -/
theorem storeChunk_eq (mirror : Mirror) (chunk : List MemberData) :
    ∃ members, mirror.world.members.storeChunk chunk mirror.world.clock = some members ∧
      mirror.storeChunk chunk = { mirror with world := { mirror.world with members } } := by
  obtain ⟨members, hstore⟩ := exists_storeChunk mirror.world.members chunk mirror.world.clock
  refine ⟨members, hstore, ?_⟩
  rw [storeChunk, hstore]
  rfl

/-- What storing a chunk does to what is shared. -/
theorem world_store (mirror : Mirror) (i : ℕ) : ∃ members,
    mirror.world.members.storeChunk (mirror.chunkAt i) mirror.world.clock = some members ∧
      (mirror.step (.store i)).world = { mirror.world with members } := by
  obtain ⟨members, hstore, heq⟩ := mirror.storeChunk_eq (mirror.chunkAt i)
  refine ⟨members, hstore, ?_⟩
  rw [step, world_dropChunk, heq]

theorem hasRow_of_storeChunk {members members' : Members} {chunk : List MemberData} {now : ℤ}
    (hstore : members.storeChunk chunk now = some members') (h : HasRow members' name) :
    HasRow members name := by
  obtain ⟨after, hafter, rfl⟩ := h
  obtain ⟨row, hrow, rfl⟩ := (mem_storeChunk hstore).mp hafter
  obtain ⟨column, hcolumn⟩ := assignOf_eq chunk now row
  rw [hcolumn]
  exact ⟨row, hrow, rfl⟩

theorem hasRow_storeChunk {members members' : Members} {chunk : List MemberData} {now : ℤ}
    (hstore : members.storeChunk chunk now = some members') (h : HasRow members name) :
    HasRow members' name := by
  obtain ⟨row, hrow, hname⟩ := h
  obtain ⟨column, hcolumn⟩ := assignOf_eq chunk now row
  refine ⟨_, (mem_storeChunk hstore).mpr ⟨row, hrow, rfl⟩, ?_⟩
  rw [hcolumn]
  exact hname

theorem owns_storeChunk {members members' : Members} {chunk : List MemberData} {now : ℤ} {id : String}
    (hstore : members.storeChunk chunk now = some members') :
    Owns members' id name ↔ Owns members id name := by
  apply owns_of_map (fun row ↦ mem_storeChunk hstore)
  all_goals
    intro row
    obtain ⟨column, hcolumn⟩ := assignOf_eq chunk now row
    rw [hcolumn]

theorem Batched.storeChunk (h : mirror.Batched) (chunk : List MemberData) :
    (mirror.storeChunk chunk).Batched := ⟨h.arrived, h.single⟩

theorem namedAt_store (hnamed : NamedAt name mirror.world.members mirror.pending) (i : ℕ) :
    NamedAt name (mirror.step (.store i)).world.members (mirror.step (.store i)).pending := by
  obtain ⟨members, hstore, hworld⟩ := mirror.world_store i
  have hpending : (mirror.step (.store i)).pending = (mirror.dropChunk i).pending := by
    unfold step Mirror.dropChunk
    dsimp only [Mirror.storeChunk]
    split <;> rfl
  rw [hpending, hworld]
  exact (namedAt_dropChunk hnamed i).later fun exact _ ↦ hasRow_storeChunk hstore

theorem Sound.storeChunk (h : mirror.Sound name) (chunk : List MemberData) :
    (mirror.storeChunk chunk).Sound name := by
  obtain ⟨members, hstore, heq⟩ := mirror.storeChunk_eq chunk
  rw [heq]
  refine ⟨h.arrived, h.named.later fun exact _ ↦ hasRow_storeChunk hstore, h.single, h.shown, ?_⟩
  exact fun id known hknown hname ↦ hasRow_storeChunk hstore (h.hasRow id known hknown hname)

/-- A chunk and the chunks without it have the updates of all. -/
theorem chunk_append_perm (chunks : List (List MemberData)) (i : ℕ) :
    List.Perm (chunks[i]?.getD [] ++ (chunks.eraseIdx i).flatten) chunks.flatten := by
  by_cases hi : i < chunks.length
  · rw [List.getElem?_eq_getElem hi, Option.getD_some, ← List.flatten_cons]
    exact (List.getElem_cons_eraseIdx_perm hi).flatten
  · rw [List.getElem?_eq_none (by omega), List.eraseIdx_of_length_le (by omega)]
    exact .refl _

theorem layersFor_eq_of_perm {first second : List MemberData} (h : first.Perm second)
    (hone : (layersFor name second).length ≤ 1) : layersFor name first = layersFor name second := by
  have hperm : (layersFor name first).Perm (layersFor name second) := (h.filter _).map _
  generalize layersFor name second = layers at hone hperm
  match layers, hone with
  | [], _ => exact hperm.eq_nil
  | [layer], _ => exact List.perm_singleton.mp hperm

/-- Taking a chunk out of the others changes nothing for a row, and the chunk has one update for it
at most. -/
theorem layersFor_chunk {members : Members} (h : NamedAt name members chunks.flatten)
    (hsingle : (chunks.flatten.map MemberData.name).Nodup) (i : ℕ) :
    layersFor name (chunks[i]?.getD [] ++ (chunks.eraseIdx i).flatten) =
        layersFor name chunks.flatten ∧
      (layersFor name (chunks[i]?.getD [])).length ≤ 1 := by
  have hall := h.length_layersFor hsingle
  have hlayers := layersFor_eq_of_perm (chunk_append_perm chunks i) hall
  refine ⟨hlayers, ?_⟩
  rw [← hlayers, layersFor_append, List.length_append] at hall
  omega

/-- A chunk that is stored is done with: the columns come to the same. -/
theorem awaited_store (h : mirror.Batched) (hpending : NamedAt name mirror.world.members mirror.pending)
    (i : ℕ) : ((mirror.storeChunk (mirror.chunkAt i)).dropChunk i).awaited name = mirror.awaited name := by
  obtain ⟨members, hstore, heq⟩ := mirror.storeChunk_eq (mirror.chunkAt i)
  let stored : Mirror := { mirror with world := { mirror.world with members } }
  have hgoal : (stored.dropChunk i).awaited name = mirror.awaited name := by
    cases hstage : mirror.stage with
    | collecting buffer =>
      have hempty : mirror.chunkAt i = [] := by
        rw [chunkAt, hstage]
      rw [hempty] at hstore
      have hvalues : members.valuesOf name = mirror.world.members.valuesOf name :=
        valuesOf_storeChunk hstore (fun _ hupdate ↦ absurd hupdate List.not_mem_nil) (Nat.zero_le 1)
      have hsame : stored.dropChunk i = stored := by
        rw [Mirror.dropChunk, show stored.stage = .collecting buffer from hstage]
      rw [hsame]
      unfold awaited
      rw [← hvalues]
      rfl
    | storing chunks =>
      have hchunk : mirror.chunkAt i = chunks[i]?.getD [] := by
        rw [chunkAt, hstage]
      rw [hchunk] at hstore
      have hflatten : mirror.pending = chunks.flatten ++ mirror.queued := by
        rw [pending, hstage]
        rfl
      have hnamed : NamedAt name mirror.world.members chunks.flatten := by
        apply hpending.mono
        intro update hupdate
        exact ⟨update, hflatten ▸ List.mem_append_left _ hupdate, rfl⟩
      obtain ⟨hlayers, hone⟩ := layersFor_chunk hnamed (h.single chunks hstage) i
      have hvalues : members.valuesOf name =
          stack (mirror.world.members.valuesOf name) (layersFor name (chunks[i]?.getD [])) := by
        apply valuesOf_storeChunk hstore _ hone
        apply hnamed.mono
        intro update hupdate
        exact ⟨update, (chunk_append_perm chunks i).subset (List.mem_append_left _ hupdate), rfl⟩
      have hleft : (stored.dropChunk i).pending = (chunks.eraseIdx i).flatten ++ mirror.queued :=
        pending_dropChunk (show stored.stage = .storing chunks from hstage) i
      unfold awaited
      rw [hleft, world_dropChunk, hvalues, hflatten]
      calc stack (stack (mirror.world.members.valuesOf name) (layersFor name (chunks[i]?.getD [])))
            (layersFor name ((chunks.eraseIdx i).flatten ++ mirror.queued))
          = stack (mirror.world.members.valuesOf name) (layersFor name
              ((chunks[i]?.getD [] ++ (chunks.eraseIdx i).flatten) ++ mirror.queued)) := by
            rw [← stack_append, ← layersFor_append, List.append_assoc]
        _ = stack (mirror.world.members.valuesOf name)
              (layersFor name (chunks.flatten ++ mirror.queued)) := by
            rw [layersFor_append, hlayers, ← layersFor_append]
  rw [heq]
  exact hgoal

/-! ## A turn -/

section Turn

variable {report : HubReport}

/-- What the turn of an account does: a row of its name is there, the sync knows what was sent, and
over what its columns come to lies what changed. -/
structure Turned (mirror : Mirror) (report : HubReport) (after : Mirror) : Prop where
  stage : after.stage = mirror.stage
  arrived : mirror.received ≤ mirror.world.outbox.length → after.received ≤ after.world.outbox.length
  pending : ∃ sent, after.pending = mirror.pending ++ sent ∧ ∀ update ∈ sent, update.name = report.name
  columns : KeepsColumns mirror.world.members after.world.members
  hasRow : HasRow after.world.members report.name
  owns : StillOwns mirror.world report.account → Owns after.world.members report.id report.name
  others : ∀ id ≠ report.id, ∀ name,
    Owns after.world.members id name → Owns mirror.world.members id name
  known : ∃ presence, after.world.known = Function.update mirror.world.known report.id
    (some { memberName := report.name
            hidden := false
            sent := some (report.fromAccount (mirror.world.lastSent report.id))
            presence })
  awaited : ∀ name, after.awaited name =
    if fold name = fold report.name then
      overlay (diff (mirror.world.lastSent report.id)
        (report.fromAccount (mirror.world.lastSent report.id))) (mirror.awaited name)
    else mirror.awaited name

theorem Turned.sound {after : Mirror} (h : Turned mirror report after) (hsound : mirror.Sound name) :
    after.Sound name := by
  obtain ⟨sent, hpending, hsent⟩ := h.pending
  obtain ⟨presence, hknown⟩ := h.known
  -- Who the sync knows after the turn: the account, or somebody it knew before.
  have hcases : ∀ id, ∀ known ∈ after.world.known id,
      known.memberName = report.name ∧ known.hidden = false ∨ known ∈ mirror.world.known id := by
    intro id known hfound
    rw [hknown] at hfound
    by_cases hid : id = report.id
    · rw [hid, Function.update_self, Option.mem_some_iff] at hfound
      exact .inl (hfound ▸ ⟨rfl, rfl⟩)
    · rw [Function.update_of_ne hid] at hfound
      exact .inr hfound
  refine ⟨h.arrived hsound.arrived, ?_, h.stage ▸ hsound.single, fun id known hfound hname ↦ ?_,
    fun id known hfound hname ↦ ?_⟩
  · rw [hpending]
    apply NamedAt.append
    · exact hsound.named.later fun exact _ ↦ h.columns.hasRow
    · intro update hupdate _
      rw [hsent update hupdate]
      exact h.hasRow
  · obtain ⟨-, hshown⟩ | hbefore := hcases id known hfound
    · exact hshown
    · exact hsound.shown id known hbefore hname
  · obtain ⟨hsame, -⟩ | hbefore := hcases id known hfound
    · rw [hsame]
      exact h.hasRow
    · exact h.columns.hasRow (hsound.hasRow id known hbefore hname)

theorem layersFor_updateFor (account : HubAccount) (previous : Option MemberSections) (name : String) :
    layersFor name ((updateFor account previous).map Prod.snd) =
      if fold name = fold account.name then
        (updateFor account previous).map fun sent ↦ sent.2.sections
      else [] := by
  unfold updateFor layersFor
  split_ifs with hsame hname hname <;> simp [hname]

theorem name_of_mem_updateFor {account : HubAccount} {previous : Option MemberSections}
    {update : MemberData} (h : update ∈ (updateFor account previous).map Prod.snd) :
    update.name = account.name := by
  unfold updateFor at h
  split_ifs at h
  · exact absurd h List.not_mem_nil
  · rw [List.mem_singleton.mp h]

theorem Sound.turn (h : mirror.Sound report.name) (hvalid : validName report.name = true)
    (hplain : Plain mirror.world report.account) :
    Turned mirror report (mirror.step (.turn report)) := by
  have hkept : Kept mirror.world report.id := by
    have hname : ∀ known ∈ mirror.world.known report.id, known.memberName = report.name := by
      intro known hknown
      apply hplain.named
      simp [World.currentName, HubReport.account, Option.mem_def.mp hknown]
    exact ⟨fun known hknown ↦ h.shown _ known hknown (congrArg fold (hname known hknown)),
      fun known hknown ↦ h.hasRow _ known hknown (congrArg fold (hname known hknown))⟩
  obtain ⟨members, directory, presence, heq, hsettled⟩ := processAccount_plain hvalid hplain hkept
  let previous := mirror.world.lastSent report.id
  let sent := (updateFor report.account previous).map Prod.snd
  let after : Mirror :=
    { mirror with
      world :=
        { mirror.world with
          members
          directory
          known := Function.update mirror.world.known report.id
            (some { memberName := report.name
                    hidden := false
                    sent := some (report.fromAccount previous)
                    presence })
          outbox := mirror.world.outbox ++ updateFor report.account previous } }
  have hafter : mirror.step (.turn report) = after :=
    congrArg (fun world ↦ ({ mirror with world } : Mirror)) heq
  have hpending : after.pending = mirror.pending ++ sent := pending_of_outbox h.batched rfl
  rw [hafter]
  refine ⟨rfl, fun _ ↦ ?_, ⟨sent, hpending, fun update hupdate ↦ ?_⟩, hsettled.columns,
    hsettled.hasRow, hsettled.owns, hsettled.others, ⟨presence, rfl⟩, fun name ↦ ?_⟩
  · exact h.arrived.trans (List.length_append ▸ Nat.le_add_right _ _)
  · exact name_of_mem_updateFor hupdate
  · have hvalues : after.awaited name =
        stack (stack (mirror.world.members.valuesOf name) (layersFor name mirror.pending))
          (layersFor name sent) := by
      rw [awaited, hpending, layersFor_append, stack_append]
      exact congrArg (fun values ↦ stack (stack values _) _) (hsettled.columns.valuesOf name)
    have hlayers : layersFor name sent =
        if fold name = fold report.name then
          (updateFor report.account previous).map fun sent ↦ sent.2.sections
        else [] := layersFor_updateFor report.account previous name
    rw [hvalues, hlayers]
    split_ifs with hname
    · exact stack_updateFor report.account previous _
    · rfl

/-- The turn of an account that has nothing to do with the member. -/
theorem Sound.foreign (h : mirror.Sound name) (hforeign : Foreign name mirror.world report.account) :
    (mirror.step (.turn report)).Sound name ∧
      (mirror.step (.turn report)).awaited name = mirror.awaited name := by
  have hapart := apart_processAccount hforeign
  obtain ⟨sent, houtbox, hothers⟩ := hapart.outbox
  have hpending : (mirror.step (.turn report)).pending = mirror.pending ++ sent.map Prod.snd :=
    pending_of_outbox h.batched houtbox
  have hnone : ∀ update ∈ sent.map Prod.snd, fold name ≠ fold update.name := by
    intro update hupdate
    obtain ⟨pair, hpair, rfl⟩ := List.mem_map.mp hupdate
    exact hothers pair hpair
  refine ⟨⟨?_, ?_, h.single, ?_, ?_⟩, ?_⟩
  · exact (batched_of_outbox h.batched houtbox).arrived
  · rw [hpending]
    apply NamedAt.append
    · exact h.named.later fun exact hname ↦ (hapart.rows.hasRow hname).mpr
    · exact fun update hupdate hname ↦ absurd hname (hnone update hupdate)
  · exact fun id known hknown hname ↦ h.shown id known (hapart.known id known hknown hname) hname
  · intro id known hknown hname
    apply (hapart.rows.hasRow hname).mpr
    exact h.hasRow id known (hapart.known id known hknown hname) hname
  · have hlayers : layersFor name (sent.map Prod.snd) = [] := by
      rw [layersFor, List.filter_eq_nil_iff.mpr]
      · rfl
      · intro update hupdate
        rw [decide_eq_true_eq]
        exact hnone update hupdate
    rw [awaited, hpending, layersFor_append, hlayers, List.append_nil]
    exact congrArg (fun values ↦ stack values _) hapart.rows.valuesOf

end Turn

/-! ## A step -/

/-- An account with a name the map cannot store is passed over. -/
theorem step_turn_of_invalid {report : HubReport} (h : validName report.name = false) :
    mirror.step (.turn report) = mirror := by
  rw [step, processAccount_of_invalid h]

theorem lastSent_finishFull (world : World) (accounts : List HubAccount) (id : String) :
    (world.finishFull accounts).lastSent id =
      if id ∈ accounts.map (·.id) then world.lastSent id else none := by
  unfold World.lastSent World.finishFull
  dsimp only
  split_ifs <;> rfl

theorem Sound.left (h : mirror.Sound name) (accounts : List HubAccount) :
    Sound { mirror with world := mirror.world.finishFull accounts } name := by
  have hcolumns := keepsColumns_finishFull mirror.world accounts
  refine ⟨h.arrived, h.named.later fun exact _ ↦ hcolumns.hasRow, h.single,
    fun id known hknown ↦ ?_, fun id known hknown hname ↦ ?_⟩
  · exact h.shown id known (known_finishFull.mp hknown).2
  · exact hcolumns.hasRow (h.hasRow id known (known_finishFull.mp hknown).2 hname)

theorem Sound.congr {other : String} (h : mirror.Sound name) (hname : fold name = fold other) :
    mirror.Sound other := by
  refine ⟨h.arrived, ?_, h.single, ?_, ?_⟩
  · exact fun update hupdate hsame ↦ h.named update hupdate (hname.trans hsame)
  · exact fun id known hknown hsame ↦ h.shown id known hknown (hsame.trans hname.symm)
  · exact fun id known hknown hsame ↦ h.hasRow id known hknown (hsame.trans hname.symm)

theorem Sound.step (h : mirror.Sound name) {event : MirrorEvent} (hspares : event.Spares name mirror.world) :
    (mirror.step event).Sound name := by
  cases event with
  | turn report =>
    cases hvalid : validName report.name with
    | false => rwa [step_turn_of_invalid hvalid]
    | true =>
      obtain hforeign | hplain := hspares hvalid
      · exact (h.foreign hforeign).1
      · by_cases hname : fold report.name = fold name
        · exact ((h.congr hname.symm).turn hvalid hplain).sound h
        · exact (h.foreign (hplain.foreign hname)).1
  | left reports => exact h.left _
  | elapse now => exact ⟨h.arrived, h.named, h.single, h.shown, h.hasRow⟩
  | receive => exact h.receive
  | flush => exact h.flush
  | store i => exact (h.storeChunk _).dropChunk i
  | fail i => exact h.dropChunk i

end Mirror

/-- The account that has its turn, unless it is passed over. -/
def MirrorEvent.account : MirrorEvent → Option HubReport
  | turn report => if validName report.name then some report else none
  | _ => none

theorem MirrorEvent.eq_turn {event : MirrorEvent} {report : HubReport} (h : event.account = some report) :
    event = .turn report ∧ validName report.name = true := by
  cases event with
  | turn other =>
    dsimp only [MirrorEvent.account] at h
    split_ifs at h with hvalid
    exact ⟨congrArg MirrorEvent.turn (Option.some.inj h), (Option.some.inj h) ▸ hvalid⟩
  | _ => exact absurd h (by simp [MirrorEvent.account])

/-- The turn of an account lays what changed over the columns of its member. -/
theorem Mirror.Sound.awaited_turn {mirror : Mirror} {name : String} (h : mirror.Sound name)
    {event : MirrorEvent} (hspares : event.Spares name mirror.world) {report : HubReport}
    (hevent : event.account = some report) :
    (mirror.step event).awaited name =
      if fold report.name = fold name then
        overlay (diff (mirror.world.lastSent report.id)
          (report.fromAccount (mirror.world.lastSent report.id))) (mirror.awaited name)
      else mirror.awaited name := by
  obtain ⟨rfl, hvalid⟩ := MirrorEvent.eq_turn hevent
  by_cases hname : fold report.name = fold name
  · have hplain : Plain mirror.world report.account := by
      obtain hforeign | hplain := hspares hvalid
      · exact absurd hname hforeign.1
      · exact hplain
    rw [((h.congr hname.symm).turn hvalid hplain).awaited name, if_pos hname.symm, if_pos hname]
  · rw [if_neg hname]
    obtain hforeign | hplain := hspares hvalid
    · exact (h.foreign hforeign).2
    · exact (h.foreign (hplain.foreign hname)).2

/-- Nothing but a turn and a failing chunk changes what the columns come to. -/
theorem Mirror.Sound.awaited_step {mirror : Mirror} {name : String} (h : mirror.Sound name)
    {event : MirrorEvent} (hfine : event.succeeds) (hother : event.account = none) :
    (mirror.step event).awaited name = mirror.awaited name := by
  cases event with
  | turn report =>
    have hvalid : validName report.name = false := by
      simpa [MirrorEvent.account] using hother
    rw [Mirror.step_turn_of_invalid hvalid]
  | left reports =>
    exact congrArg (fun values ↦ stack values _)
      ((keepsColumns_finishFull mirror.world (reports.map HubReport.account)).valuesOf name)
  | elapse now => rfl
  | receive => exact mirror.awaited_receive name
  | flush => exact Mirror.awaited_flush h.named
  | store i => exact Mirror.awaited_store h.batched h.named i
  | fail i => exact hfine.elim

end OsrsMap.Sync
