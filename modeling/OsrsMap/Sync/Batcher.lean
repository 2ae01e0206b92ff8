import OsrsMap.Library.Cursor
import OsrsMap.Library.Keyed
import OsrsMap.Library.Overlay
import OsrsMap.Sync.Account
import Mathlib.Order.RelClasses

/-!
# The update batcher

What `server/src/update_batcher.rs` does with the updates the sync sends: a buffer's updates are
merged member by member, and each chunk of them is one `UPDATE`.

For a row whose updates all go by one name, a buffer that is merged and stored chunk by chunk comes
to the same as its updates one by one.
-/

namespace OsrsMap.Sync

open Cursor (Cell)
open Overlay

/-! ## Batches -/

/-- `BATCH_SIZE`. -/
def batchSize : ℕ := 5000

/-- `CHUNK_SIZE`. -/
def chunkSize : ℕ := 50

/-- Puts what a later update has over what an earlier one has. -/
def mergeUpdate (earlier later : MemberData) : MemberData :=
  { earlier with sections := overlay later.sections earlier.sections }

/-- The loop of `deduplicate_batch` for one update. -/
def addUpdate (update : MemberData) (earlier : Option MemberData) : Option MemberData :=
  some (earlier.elim update fun earlier ↦ mergeUpdate earlier update)

/-- The updates of a buffer, merged by name. -/
def byName (buffer : List MemberData) : Keyed.Map String MemberData :=
  Keyed.alterEach MemberData.name addUpdate buffer ∅

/-- One update per member, in the order of their names. -/
def deduplicateBatch (buffer : List MemberData) : List MemberData :=
  ((byName buffer).entries.map Sigma.snd).mergeSort fun a b ↦ a.name ≤ b.name

/-- The chunks of a batch. -/
def chunksOf (remaining : List MemberData) : List (List MemberData) :=
  if remaining.isEmpty then []
  else remaining.take chunkSize :: chunksOf (remaining.drop chunkSize)
termination_by remaining.length
decreasing_by
  have hpos : 0 < remaining.length := by
    rw [List.length_pos_iff]
    simpa using ‹¬ remaining.isEmpty = true›
  rw [List.length_drop, chunkSize]
  omega

/-! ## The statement -/

/-- A column as a cell that a cursor can follow. -/
def Column.cell (column : Column) : Cell Payload ℤ :=
  { value := column.value, changed := column.lastUpdate }

/-- What the statement makes of a row: `COALESCE(b.column, a.column)`, and the column's
`_last_update` is `NOW()` when `b.column IS NOT NULL AND b.column IS DISTINCT FROM a.column`. -/
def assign (update : MemberData) (now : ℤ) (row : MemberRow) : MemberRow :=
  { row with
    column := fun part ↦
      { value := (update.sections part).or (row.column part).value
        lastUpdate :=
          if (update.sections part).isSome ∧ update.sections part ≠ (row.column part).value then
            some now
          else (row.column part).lastUpdate } }

/-- What the statement makes of a row when the chunk may have nothing for it. The database takes
one of the updates that match a row; here it is the first. -/
def assignOf (chunk : List MemberData) (now : ℤ) (row : MemberRow) : MemberRow :=
  match chunk.find? fun update ↦ row.named update.name with
  | some update => assign update now row
  | none => row

/-- `UPDATE guildmap.members AS a SET ... FROM (VALUES ...) AS b WHERE
a.member_name = b.member_name::citext`. -/
def Members.storeChunk (members : Members) (chunk : List MemberData) (now : ℤ) : Option Members :=
  members.update (fun row ↦ chunk.any fun update ↦ row.named update.name) (assignOf chunk now)

variable {members members' : Members} {chunk : List MemberData} {update : MemberData} {now : ℤ}
  {row : MemberRow} {part : Section}

theorem cell_assign : ((assign update now row).column part).cell =
    (row.column part).cell.write (update.sections part) now := rfl

@[simp]
theorem keys_assignOf : (assignOf chunk now row).keys = row.keys := by
  unfold assignOf
  split <;> rfl

/-- A chunk changes nothing of a row but its columns. -/
theorem assignOf_eq (chunk : List MemberData) (now : ℤ) (row : MemberRow) :
    ∃ column, assignOf chunk now row = { row with column } := by
  unfold assignOf
  split
  · exact ⟨_, rfl⟩
  · exact ⟨_, rfl⟩

theorem mem_storeChunk (h : members.storeChunk chunk now = some members') :
    row ∈ members' ↔ ∃ before ∈ members, assignOf chunk now before = row := by
  have hrow (before : MemberRow) :
      (if chunk.any fun update ↦ before.named update.name then assignOf chunk now before
        else before) = assignOf chunk now before := by
    split
    · rfl
    · next hnone =>
      rw [assignOf, List.find?_eq_none.mpr]
      simpa using hnone
  refine (Table.mem_update h).trans ?_
  simp only [hrow]

/-- A chunk is never refused: it touches no unique column. -/
theorem exists_storeChunk (members : Members) (chunk : List MemberData) (now : ℤ) :
    ∃ members', members.storeChunk chunk now = some members' :=
  Table.exists_update_of_subset fun row _ k hk ↦ by simpa using hk

/-! ## What a batch comes to -/

theorem flatten_chunksOf (updates : List MemberData) : (chunksOf updates).flatten = updates := by
  induction updates using chunksOf.induct with
  | case1 updates hempty =>
    rw [chunksOf, if_pos hempty, List.isEmpty_iff.mp hempty]
    rfl
  | case2 updates hsome ih =>
    rw [chunksOf, if_neg hsome, List.flatten_cons, ih, List.take_append_drop]

/-- The updates of one name, merged. -/
theorem foldl_addUpdate {name : String} {updates : List MemberData}
    (h : ∀ update ∈ updates, update.name = name) (hsome : updates ≠ []) :
    updates.foldl (fun earlier update ↦ addUpdate update earlier) none =
      some { name, sections := stack (fun _ ↦ none) (updates.map MemberData.sections) } := by
  induction updates using List.reverseRecOn with
  | nil => exact absurd rfl hsome
  | append_singleton updates update ih =>
    have hname : update.name = name := h update (by simp)
    rw [List.foldl_append, List.map_append, List.map_singleton, stack_concat]
    by_cases hfirst : updates = []
    · rw [hfirst, List.map_nil, stack_nil, overlay_none, ← hname]
      rfl
    · rw [ih (fun other hother ↦ h other (List.mem_append_left _ hother)) hfirst]
      rfl

theorem lookup_byName {buffer : List MemberData} {name : String} :
    update ∈ (byName buffer).lookup name ↔
      update.name = name ∧ (∃ other ∈ buffer, other.name = name) ∧ update.sections =
        stack (fun _ ↦ none) ((buffer.filter (·.name = name)).map MemberData.sections) := by
  rw [byName, Keyed.lookup_alterEach, AList.lookup_empty, Option.mem_def]
  have hnames : ∀ other ∈ buffer.filter (·.name = name), other.name = name :=
    fun other hother ↦ by simpa using (List.mem_filter.mp hother).2
  by_cases hsome : ∃ other ∈ buffer, other.name = name
  · obtain ⟨other, hother, hname⟩ := hsome
    have hfilter : buffer.filter (·.name = name) ≠ [] :=
      List.ne_nil_of_mem (List.mem_filter.mpr ⟨hother, decide_eq_true hname⟩)
    rw [foldl_addUpdate hnames hfilter, Option.some.injEq]
    constructor
    · rintro rfl
      exact ⟨rfl, ⟨other, hother, hname⟩, rfl⟩
    · rintro ⟨rfl, -, hsections⟩
      rw [← hsections]
  · have hfilter : buffer.filter (·.name = name) = [] :=
      List.filter_eq_nil_iff.mpr fun other hother ↦ by simpa using fun hname ↦ hsome ⟨other, hother, hname⟩
    simp [hfilter, hsome]

theorem mem_deduplicateBatch {buffer : List MemberData} : update ∈ deduplicateBatch buffer ↔
    (∃ other ∈ buffer, other.name = update.name) ∧ update.sections =
      stack (fun _ ↦ none) ((buffer.filter (·.name = update.name)).map MemberData.sections) := by
  rw [deduplicateBatch, List.mem_mergeSort, List.mem_map]
  constructor
  · rintro ⟨⟨name, found⟩, hentry, rfl⟩
    obtain ⟨rfl, hfound⟩ := lookup_byName.mp (AList.mem_lookup_iff.mpr hentry)
    exact hfound
  · intro h
    exact ⟨⟨update.name, update⟩, AList.mem_lookup_iff.mp (lookup_byName.mpr ⟨rfl, h⟩), rfl⟩

/-- No two updates of a batch have one name. -/
theorem nodup_deduplicateBatch (buffer : List MemberData) :
    ((deduplicateBatch buffer).map MemberData.name).Nodup := by
  have hkeys : ∀ entry ∈ (byName buffer).entries, (MemberData.name ∘ Sigma.snd) entry = entry.1 :=
    fun entry hentry ↦ (lookup_byName.mp (AList.mem_lookup_iff.mpr hentry)).1
  have hperm := (List.mergeSort_perm ((byName buffer).entries.map Sigma.snd)
    fun a b ↦ decide (a.name ≤ b.name)).map MemberData.name
  apply hperm.nodup_iff.mpr
  rw [List.map_map, List.map_congr_left hkeys]
  exact (byName buffer).keys_nodup

/-- What the data columns of a row hold. -/
def MemberRow.values (row : MemberRow) : MemberSections := fun part ↦ (row.column part).value

/-- What updates have for the row with a name. -/
def layersFor (name : String) (updates : List MemberData) : List MemberSections :=
  (updates.filter fun update ↦ fold name = fold update.name).map MemberData.sections

@[simp]
theorem layersFor_nil (name : String) : layersFor name [] = [] := rfl

theorem layersFor_append (name : String) (first second : List MemberData) :
    layersFor name (first ++ second) = layersFor name first ++ layersFor name second := by
  rw [layersFor, List.filter_append, List.map_append]
  rfl

/-- The one update of a name. -/
theorem filter_name_of_nodup {updates : List MemberData} (h : (updates.map MemberData.name).Nodup)
    (hupdate : update ∈ updates) : updates.filter (·.name = update.name) = [update] := by
  induction updates with
  | nil => exact absurd hupdate List.not_mem_nil
  | cons first rest ih =>
    rw [List.map_cons, List.nodup_cons] at h
    obtain rfl | hrest := List.mem_cons.mp hupdate
    · rw [List.filter_cons_of_pos (by simp), List.filter_eq_nil_iff.mpr]
      intro other hother
      have hne : other.name ≠ update.name := fun hname ↦ h.1 (hname ▸ List.mem_map_of_mem hother)
      simpa using hne
    · have hne : first.name ≠ update.name := fun hname ↦ h.1 (hname ▸ List.mem_map_of_mem hrest)
      rw [List.filter_cons_of_neg (by simpa using hne), ih h.2 hrest]

/-- Where the updates for a row go by one name, they are those of that name. -/
theorem filter_fold {updates : List MemberData} {name exact : String} (hexact : fold name = fold exact)
    (h : ∀ update ∈ updates, fold name = fold update.name → update.name = exact) :
    (updates.filter fun update ↦ fold name = fold update.name) = updates.filter (·.name = exact) := by
  apply List.filter_congr
  intro update hupdate
  simp only [decide_eq_decide]
  constructor
  · exact h update hupdate
  · rintro rfl
    exact hexact

/-- A batch has for a row what its buffer has, when the row's updates go by one name. -/
theorem stack_deduplicateBatch {buffer : List MemberData} (base : MemberSections)
    {name exact : String} (hexact : fold name = fold exact)
    (h : ∀ update ∈ buffer, fold name = fold update.name → update.name = exact) :
    stack base (layersFor name (deduplicateBatch buffer)) = stack base (layersFor name buffer) := by
  have hbatch : ∀ update ∈ deduplicateBatch buffer,
      fold name = fold update.name → update.name = exact := by
    intro update hupdate hnamed
    obtain ⟨⟨other, hother, hname⟩, -⟩ := mem_deduplicateBatch.mp hupdate
    rw [← hname] at hnamed ⊢
    exact h other hother hnamed
  unfold layersFor
  rw [filter_fold hexact h, filter_fold hexact hbatch]
  by_cases hsome : ∃ other ∈ buffer, other.name = exact
  · let merged : MemberData :=
      { name := exact
        sections := stack (fun _ ↦ none)
          ((buffer.filter (·.name = exact)).map MemberData.sections) }
    have hmerged : merged ∈ deduplicateBatch buffer := mem_deduplicateBatch.mpr ⟨hsome, rfl⟩
    have hone := filter_name_of_nodup (nodup_deduplicateBatch buffer) hmerged
    change (deduplicateBatch buffer).filter (·.name = exact) = [merged] at hone
    rw [hone]
    exact (stack_eq_overlay base _).symm
  · have hbuffer : buffer.filter (·.name = exact) = [] := by
      apply List.filter_eq_nil_iff.mpr
      intro update hupdate
      simpa using fun hname ↦ hsome ⟨update, hupdate, hname⟩
    have hbatch : (deduplicateBatch buffer).filter (·.name = exact) = [] := by
      apply List.filter_eq_nil_iff.mpr
      intro update hupdate
      obtain ⟨⟨other, hother, hname⟩, -⟩ := mem_deduplicateBatch.mp hupdate
      simpa using fun hexact ↦ hsome ⟨other, hother, hname.trans hexact⟩
    rw [hbuffer, hbatch]

/-- What a chunk makes of a row for which it has one update, or none. -/
theorem values_assignOf (row : MemberRow) (now : ℤ) {updates : List MemberData}
    (h : (layersFor row.memberName updates).length ≤ 1) :
    (assignOf updates now row).values = stack row.values (layersFor row.memberName updates) := by
  rw [layersFor, List.length_map] at h
  unfold assignOf layersFor MemberRow.named
  rw [← List.head?_filter]
  generalize updates.filter (fun update ↦ fold row.memberName = fold update.name) = found at h ⊢
  match found, h with
  | [], _ => rfl
  | [update], _ => rfl

end OsrsMap.Sync
