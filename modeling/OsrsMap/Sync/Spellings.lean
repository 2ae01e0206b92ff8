import OsrsMap.Library.Picked
import OsrsMap.Sync.Batcher
import Mathlib.Data.List.Dedup
import Mathlib.Data.String.Basic

/-!
# Spellings of a name

`deduplicate_batch` (`server/src/update_batcher.rs`) merges a buffer's updates by their exact name,
and the statement finds rows by a name that ignores case. Two spellings of a name are two updates of
one row: when they are in one chunk the database takes either, and when they are in two chunks either
may be stored last.
-/

namespace OsrsMap.Sync

open Overlay

/-! ## What the database may do -/

/-- A row after the statement of a chunk: the database takes one of the updates that match. -/
inductive StoredAs (chunk : List MemberData) (now : ℤ) (row : MemberRow) : MemberRow → Prop
  | untouched (h : ∀ update ∈ chunk, row.named update.name = false) : StoredAs chunk now row row
  | taken {update : MemberData} (hupdate : update ∈ chunk) (hnamed : row.named update.name = true) :
    StoredAs chunk now row (assign update now row)

namespace Members

/-- The statement of a chunk, at some time. -/
def Stores (chunk : List MemberData) (members members' : Members) : Prop :=
  ∃ now, List.Forall₂ (StoredAs chunk now) members.rows members'.rows

/-- The statements of chunks, one after the other. -/
inductive StoresAll : List (List MemberData) → Members → Members → Prop
  | nil (members : Members) : StoresAll [] members members
  | cons {chunk : List MemberData} {chunks : List (List MemberData)} {members between members' : Members}
    (hfirst : Stores chunk members between) (hrest : StoresAll chunks between members') :
    StoresAll (chunk :: chunks) members members'

/-- The statements of a batch, in any order, leave every row with the columns it has when the updates
of the buffer are applied one after the other. -/
def MergesAsOneByOne (members : Members) (buffer : List MemberData) : Prop :=
  ∀ order, order.Perm (chunksOf (deduplicateBatch buffer)) → ∀ merged applied,
    StoresAll order members merged → StoresAll (buffer.map ([·])) members applied →
      merged.rows.map MemberRow.values = applied.rows.map MemberRow.values

end Members

/-! ## What it hangs on -/

/-- The last value that updates have for a column. -/
def lastValue (updates : List MemberData) (part : Section) : Option Payload :=
  updates.reverse.findSome? fun update ↦ update.sections part

/-- How many names of the buffer come before a name, in chunks. -/
def chunkNumber (buffer : List MemberData) (name : String) : ℕ :=
  ((buffer.map MemberData.name).dedup.filter (· < name)).length / chunkSize

/-- When the updates for a row have something for a column, every spelling of its name that has
something comes to what the last of them all has; and the row has that already, or there is a chunk in
which every spelling has something. -/
def SpellingsAgree (buffer : List MemberData) (row : MemberRow) (part : Section) : Prop :=
  ∀ value, lastValue (buffer.filter fun update ↦ row.named update.name) part = some value →
    (∀ update ∈ buffer, row.named update.name = true → ∀ other,
      lastValue (buffer.filter (·.name = update.name)) part = some other → other = value) ∧
    (row.values part = some value ∨
      ∃ update ∈ buffer, row.named update.name = true ∧ ∀ other ∈ buffer,
        row.named other.name = true → chunkNumber buffer other.name = chunkNumber buffer update.name →
          (lastValue (buffer.filter (·.name = other.name)) part).isSome = true)

variable {members members' merged : Members} {chunk : List MemberData} {order : List (List MemberData)}
  {buffer updates : List MemberData} {update : MemberData} {now : ℤ} {row row' : MemberRow}
  {part : Section} {layers : List MemberSections}

/-! ## What a statement leaves -/

theorem StoredAs.keys_eq (h : StoredAs chunk now row row') : row'.keys = row.keys := by
  cases h with
  | untouched h => rfl
  | taken hupdate hnamed => rfl

theorem StoredAs.memberName_eq (h : StoredAs chunk now row row') : row'.memberName = row.memberName := by
  cases h with
  | untouched h => rfl
  | taken hupdate hnamed => rfl

theorem mem_layersFor {name : String} {layer : MemberSections} : layer ∈ layersFor name updates ↔
    ∃ update ∈ updates, fold name = fold update.name ∧ update.sections = layer := by
  simp [layersFor, and_assoc]

theorem values_assign (update : MemberData) (now : ℤ) (row : MemberRow) :
    (assign update now row).values = overlay update.sections row.values := rfl

/-- A statement lays one of the chunk's updates for a row over it. -/
theorem StoredAs.exists_picked (h : StoredAs chunk now row row') : ∃ taken,
    Picked [layersFor row.memberName chunk] taken ∧ row'.values = stack row.values taken := by
  cases h with
  | untouched h =>
    have hnone : layersFor row.memberName chunk = [] := by
      apply List.eq_nil_iff_forall_not_mem.mpr
      intro layer hlayer
      obtain ⟨update, hupdate, hnamed, -⟩ := mem_layersFor.mp hlayer
      exact absurd (Members.named_eq_true.mpr hnamed) (by simp [h update hupdate])
    rw [hnone]
    exact ⟨[], .skip .nil, rfl⟩
  | @taken update hupdate hnamed =>
    have hlayer : update.sections ∈ layersFor row.memberName chunk :=
      mem_layersFor.mpr ⟨update, hupdate, Members.named_eq_true.mp hnamed, rfl⟩
    exact ⟨[update.sections], .pick hlayer .nil, values_assign update now row⟩

/-- Of the chunk's updates for a row any may be the one. -/
theorem exists_storedAs (h : Picked [layersFor row.memberName chunk] layers) (now : ℤ) :
    ∃ row', StoredAs chunk now row row' ∧ row'.values = stack row.values layers := by
  generalize hlayers : layersFor row.memberName chunk = found at h
  cases h with
  | skip h =>
    cases h
    refine ⟨row, .untouched fun update hupdate ↦ ?_, rfl⟩
    rw [← Bool.not_eq_true]
    intro hnamed
    have hlayer : update.sections ∈ layersFor row.memberName chunk :=
      mem_layersFor.mpr ⟨update, hupdate, Members.named_eq_true.mp hnamed, rfl⟩
    rw [hlayers] at hlayer
    exact absurd hlayer List.not_mem_nil
  | pick hlayer h =>
    cases h
    rw [← hlayers] at hlayer
    obtain ⟨update, hupdate, hnamed, rfl⟩ := mem_layersFor.mp hlayer
    exact ⟨assign update now row, .taken hupdate (Members.named_eq_true.mpr hnamed), values_assign update now row⟩

/-- The first update that matches is one the database may take. -/
theorem storedAs_assignOf (chunk : List MemberData) (now : ℤ) (row : MemberRow) :
    StoredAs chunk now row (assignOf chunk now row) := by
  unfold assignOf
  split
  · next update hfind =>
    exact .taken (List.mem_of_find?_eq_some hfind)
      (List.find?_some (p := fun other : MemberData ↦ row.named other.name) hfind)
  · next hnone =>
    exact .untouched fun update hupdate ↦
      (Bool.not_eq_true _).mp (List.find?_eq_none.mp hnone update hupdate)

/-! ## What statements leave -/

namespace Members

theorem stores_storeChunk (h : members.storeChunk chunk now = some members') :
    Stores chunk members members' := by
  refine ⟨now, ?_⟩
  rw [Table.rows_of_ofRows h, List.forall₂_map_right_iff, List.forall₂_same]
  intro row _
  split
  · exact storedAs_assignOf chunk now row
  · next hnone =>
    refine .untouched fun update hupdate ↦ ?_
    rw [Bool.not_eq_true, List.any_eq_false] at hnone
    exact (Bool.not_eq_true _).mp (hnone update hupdate)

/-- A statement leaves a row what it may, and the others what they happen to get. -/
theorem exists_stores (h : StoredAs chunk now row row') (members : Members) : ∃ members' : Members,
    Stores chunk members members' ∧
      ∀ i : ℕ, members.rows[i]? = some row → members'.rows[i]? = some row' := by
  classical
  let stored (other : MemberRow) : MemberRow := if other = row then row' else assignOf chunk now other
  have hkeys (other : MemberRow) : (stored other).keys = other.keys := by
    by_cases hother : other = row
    · rw [hother]
      simp only [stored, if_pos rfl]
      exact h.keys_eq
    · simp only [stored, if_neg hother]
      exact keys_assignOf
  refine ⟨members.map hkeys, ⟨now, ?_⟩, fun i hi ↦ ?_⟩
  · change List.Forall₂ (StoredAs chunk now) members.rows (members.rows.map stored)
    rw [List.forall₂_map_right_iff, List.forall₂_same]
    intro other _
    by_cases hother : other = row
    · rw [hother]
      simpa only [stored, if_pos rfl] using h
    · simpa only [stored, if_neg hother] using storedAs_assignOf chunk now other
  · change (members.rows.map stored)[i]? = some row'
    rw [List.getElem?_map, hi, Option.map_some]
    simp only [stored, if_pos rfl]

/-- The statements of chunks pick an update of every chunk that has some for a row. -/
theorem StoresAll.exists_picked (h : StoresAll order members merged) {i : ℕ}
    (hrow : members.rows[i]? = some row) : ∃ row' layers, merged.rows[i]? = some row' ∧
      Picked (order.map (layersFor row.memberName)) layers ∧ row'.values = stack row.values layers := by
  induction h generalizing row with
  | nil members => exact ⟨row, [], hrow, .nil, rfl⟩
  | @cons chunk chunks members between merged hfirst hrest ih =>
    obtain ⟨now, hstored⟩ := hfirst
    obtain ⟨hi, rfl⟩ := List.getElem?_eq_some_iff.mp hrow
    have hi' : i < between.rows.length := hstored.length_eq ▸ hi
    have hone : StoredAs chunk now members.rows[i] between.rows[i] := hstored.get hi hi'
    obtain ⟨taken, htaken, hvalues⟩ := hone.exists_picked
    obtain ⟨row', layers, hrow', hpicked, hlayers⟩ := ih (List.getElem?_eq_getElem hi')
    refine ⟨row', taken ++ layers, hrow', ?_, ?_⟩
    · rw [List.map_cons, ← List.singleton_append]
      exact htaken.append (hone.memberName_eq ▸ hpicked)
    · rw [stack_append, ← hvalues]
      exact hlayers

/-- And they may pick any. -/
theorem exists_storesAll {i : ℕ} (hrow : members.rows[i]? = some row)
    (h : Picked (order.map (layersFor row.memberName)) layers) : ∃ merged row',
      StoresAll order members merged ∧ merged.rows[i]? = some row' ∧
        row'.values = stack row.values layers := by
  induction order generalizing members row layers with
  | nil =>
    cases h
    exact ⟨members, row, .nil members, hrow, rfl⟩
  | cons chunk order ih =>
    obtain ⟨taken, rest, htaken, hrest, rfl⟩ := h.exists_append
    obtain ⟨between, hbetween, hvalues⟩ := exists_storedAs htaken 0
    obtain ⟨members', hstores, hall⟩ := exists_stores hbetween members
    obtain ⟨merged, row', hmerged, hrow', hlayers⟩ :=
      ih (hall i hrow) (hbetween.memberName_eq.symm ▸ hrest)
    refine ⟨merged, row', .cons hstores hmerged, hrow', ?_⟩
    rw [hlayers, hvalues, stack_append]

theorem StoresAll.length_eq (h : StoresAll order members merged) :
    merged.rows.length = members.rows.length := by
  induction h with
  | nil members => rfl
  | cons hfirst hrest ih =>
    obtain ⟨now, hstored⟩ := hfirst
    exact ih.trans hstored.length_eq.symm

end Members

/-! ## One by one -/

theorem layersFor_singleton (name : String) (update : MemberData) : layersFor name [update] =
    if fold name = fold update.name then [update.sections] else [] := by
  unfold layersFor
  split
  · next hnamed => rw [List.filter_cons_of_pos (by simpa using hnamed), List.filter_nil, List.map_singleton]
  · next hnamed => rw [List.filter_cons_of_neg (by simpa using hnamed), List.filter_nil, List.map_nil]

/-- Of updates that are stored one by one every one is picked. -/
theorem picked_singletons {name : String} :
    Picked ((buffer.map ([·])).map (layersFor name)) layers ↔ layers = layersFor name buffer := by
  induction buffer generalizing layers with
  | nil =>
    refine ⟨fun h ↦ ?_, fun h ↦ h ▸ .nil⟩
    cases h
    rfl
  | cons update buffer ih =>
    rw [List.map_cons, List.map_cons, ← List.singleton_append (l := buffer), layersFor_append,
      layersFor_singleton]
    split
    · constructor
      · rintro (⟨⟩ | ⟨h⟩ | ⟨hlayer, h⟩)
        rw [List.mem_singleton.mp hlayer, ih.mp h]
        rfl
      · rintro rfl
        exact .pick (List.mem_singleton_self _) (ih.mpr rfl)
    · constructor
      · rintro (⟨⟩ | ⟨h⟩ | ⟨hlayer, h⟩)
        · exact ih.mp h
        · exact absurd hlayer List.not_mem_nil
      · rintro rfl
        exact .skip (ih.mpr rfl)

/-- Where the statements leave what the updates leave one by one, that is so of every row, in every
order and for every pick. -/
theorem mergesAsOneByOne_iff_picked : members.MergesAsOneByOne buffer ↔ ∀ row ∈ members,
    ∀ order : List (List MemberData), order.Perm (chunksOf (deduplicateBatch buffer)) →
      ∀ layers, Picked (order.map (layersFor row.memberName)) layers →
        stack row.values layers = stack row.values (layersFor row.memberName buffer) := by
  constructor
  · intro h row hrow order hperm layers hlayers
    obtain ⟨i, hi, hget⟩ := List.getElem_of_mem hrow
    have hi : members.rows[i]? = some row := List.getElem?_eq_some_iff.mpr ⟨hi, hget⟩
    obtain ⟨merged, row', hmerged, hrow', hvalues⟩ := Members.exists_storesAll hi hlayers
    obtain ⟨applied, other, happlied, hother, hothers⟩ :=
      Members.exists_storesAll hi (picked_singletons.mpr rfl)
    have hsame := congrArg (fun rows : List MemberSections ↦ rows[i]?)
      (h order hperm merged applied hmerged happlied)
    simp only [List.getElem?_map, hrow', hother, Option.map_some, Option.some.injEq] at hsame
    rw [← hvalues, hsame, hothers]
  · intro h order hperm merged applied hmerged happlied
    apply List.ext_getElem?
    intro i
    rw [List.getElem?_map, List.getElem?_map]
    cases hrow : members.rows[i]? with
    | none =>
      rw [List.getElem?_eq_none_iff] at hrow
      rw [List.getElem?_eq_none (hmerged.length_eq ▸ hrow), List.getElem?_eq_none (happlied.length_eq ▸ hrow)]
    | some row =>
      obtain ⟨row', layers, hrow', hpicked, hvalues⟩ := hmerged.exists_picked hrow
      obtain ⟨other, all, hother, hall, hothers⟩ := happlied.exists_picked hrow
      rw [picked_singletons.mp hall] at hothers
      rw [hrow', hother, Option.map_some, Option.map_some, hvalues, hothers,
        h row (List.mem_of_getElem? hrow) order hperm layers hpicked]

/-! ## Chunks of a batch -/

theorem stack_map_sections (base : MemberSections) (updates : List MemberData) (part : Section) :
    stack base (updates.map MemberData.sections) part = (lastValue updates part).or (base part) := by
  induction updates using List.reverseRecOn with
  | nil => rfl
  | append_singleton updates update ih =>
    rw [List.map_append, List.map_singleton, stack_concat, overlay_apply, ih]
    unfold lastValue
    rw [List.reverse_append, List.reverse_singleton, List.singleton_append, List.findSome?_cons]
    cases update.sections part <;> rfl

/-- The chunks are the batch in pieces. -/
theorem mem_chunksOf : chunk ∈ chunksOf updates ↔
    ∃ k, k * chunkSize < updates.length ∧ chunk = (updates.drop (k * chunkSize)).take chunkSize := by
  induction updates using chunksOf.induct with
  | case1 updates hempty =>
    rw [chunksOf, if_pos hempty, List.isEmpty_iff.mp hempty]
    simp
  | case2 updates hsome ih =>
    rw [chunksOf, if_neg hsome, List.mem_cons, ih]
    constructor
    · rintro (rfl | ⟨k, hk, rfl⟩)
      · refine ⟨0, ?_, by simp⟩
        rw [Nat.zero_mul, List.length_pos_iff]
        simpa using hsome
      · refine ⟨k + 1, ?_, ?_⟩
        · rw [List.length_drop] at hk
          rw [Nat.succ_mul]
          omega
        · rw [List.drop_drop, Nat.succ_mul, Nat.add_comm]
    · rintro ⟨k, hk, rfl⟩
      cases k with
      | zero => exact .inl (by simp)
      | succ k =>
        refine .inr ⟨k, ?_, ?_⟩
        · rw [Nat.succ_mul] at hk
          rw [List.length_drop]
          omega
        · rw [List.drop_drop, Nat.succ_mul, Nat.add_comm]

/-- In a sorted list as many are smaller as come before. -/
theorem length_filter_lt {α : Type*} [Preorder α] [DecidableLT α] {names : List α}
    (h : names.Pairwise (· < ·)) {i : ℕ} (hi : i < names.length) :
    (names.filter (· < names[i])).length = i := by
  induction names generalizing i with
  | nil => exact absurd hi (Nat.not_lt_zero i)
  | cons name names ih =>
    obtain ⟨hfirst, hrest⟩ := List.pairwise_cons.mp h
    cases i with
    | zero =>
      rw [List.length_eq_zero_iff, List.filter_eq_nil_iff]
      intro other hother
      rw [decide_eq_true_iff, List.getElem_cons_zero]
      obtain rfl | hother := List.mem_cons.mp hother
      · exact lt_irrefl other
      · exact lt_asymm (hfirst other hother)
    | succ i =>
      have hi : i < names.length := Nat.lt_of_succ_lt_succ hi
      rw [List.getElem_cons_succ, List.filter_cons_of_pos, List.length_cons, ih hrest hi]
      exact decide_eq_true (hfirst _ (List.getElem_mem hi))

theorem pairwise_deduplicateBatch (buffer : List MemberData) :
    ((deduplicateBatch buffer).map MemberData.name).Pairwise (· < ·) := by
  have hsorted : (deduplicateBatch buffer).Pairwise fun a b ↦ a.name ≤ b.name := by
    refine (List.pairwise_mergeSort (fun a b c hab hbc ↦ ?_) (fun a b ↦ ?_) _).imp fun h ↦ of_decide_eq_true h
    · exact decide_eq_true (le_trans (of_decide_eq_true hab) (of_decide_eq_true hbc))
    · simpa using le_total a.name b.name
  have hnames := List.pairwise_map.mpr hsorted
  exact hnames.and (nodup_deduplicateBatch buffer) |>.imp fun h ↦ lt_of_le_of_ne h.1 h.2

/-- Every update of a buffer is merged into one of its name. -/
theorem exists_merged (hupdate : update ∈ buffer) :
    ∃ merged ∈ deduplicateBatch buffer, merged.name = update.name := by
  let merged : MemberData :=
    { name := update.name
      sections := stack (fun _ ↦ none)
        ((buffer.filter (·.name = update.name)).map MemberData.sections) }
  exact ⟨merged, mem_deduplicateBatch.mpr ⟨⟨update, hupdate, rfl⟩, rfl⟩, rfl⟩

theorem sections_merged {merged : MemberData} (h : merged ∈ deduplicateBatch buffer) (part : Section) :
    merged.sections part = lastValue (buffer.filter (·.name = merged.name)) part := by
  rw [(mem_deduplicateBatch.mp h).2, stack_map_sections, Option.or_none]

/-- Where an update of a batch stands tells the number of its chunk. -/
theorem chunkNumber_of_getElem? {i : ℕ} (h : (deduplicateBatch buffer)[i]? = some update) :
    chunkNumber buffer update.name = i / chunkSize := by
  obtain ⟨hi, rfl⟩ := List.getElem?_eq_some_iff.mp h
  have hperm : (buffer.map MemberData.name).dedup.Perm ((deduplicateBatch buffer).map MemberData.name) := by
    refine (List.perm_ext_iff_of_nodup (List.nodup_dedup _) (nodup_deduplicateBatch buffer)).mpr fun name ↦ ?_
    rw [List.mem_dedup, List.mem_map, List.mem_map]
    constructor
    · rintro ⟨update, hupdate, rfl⟩
      exact exists_merged hupdate
    · rintro ⟨merged, hmerged, rfl⟩
      exact (mem_deduplicateBatch.mp hmerged).1
  have hi' : i < ((deduplicateBatch buffer).map MemberData.name).length := by rwa [List.length_map]
  have hcount := length_filter_lt (pairwise_deduplicateBatch buffer) hi'
  rw [List.getElem_map] at hcount
  rw [chunkNumber, (hperm.filter _).length_eq, hcount]

/-- The updates of a chunk are those of the batch with its number. -/
theorem mem_of_mem_chunksOf (hchunk : chunk ∈ chunksOf (deduplicateBatch buffer)) {merged : MemberData}
    (hmerged : merged ∈ chunk) : update ∈ chunk ↔ update ∈ deduplicateBatch buffer ∧
      chunkNumber buffer update.name = chunkNumber buffer merged.name := by
  obtain ⟨k, -, rfl⟩ := mem_chunksOf.mp hchunk
  have hnumber (other : MemberData) :
      other ∈ ((deduplicateBatch buffer).drop (k * chunkSize)).take chunkSize ↔
        other ∈ deduplicateBatch buffer ∧ chunkNumber buffer other.name = k := by
    rw [List.mem_iff_getElem?, List.mem_iff_getElem?]
    constructor
    · rintro ⟨i, hi⟩
      rw [List.getElem?_take] at hi
      split at hi
      · next hlt =>
        rw [List.getElem?_drop] at hi
        refine ⟨⟨_, hi⟩, (chunkNumber_of_getElem? hi).trans ?_⟩
        rw [Nat.mul_comm, Nat.mul_add_div (by decide), Nat.div_eq_of_lt hlt, Nat.add_zero]
      · cases hi
    · rintro ⟨⟨i, hi⟩, hk⟩
      rw [chunkNumber_of_getElem? hi] at hk
      refine ⟨i % chunkSize, ?_⟩
      rw [List.getElem?_take, if_pos (Nat.mod_lt i (by decide)), List.getElem?_drop, ← hk,
        Nat.mul_comm, Nat.div_add_mod, hi]
  rw [hnumber, ((hnumber merged).mp hmerged).2]

theorem isSome_lastValue : (lastValue updates part).isSome = true ↔
    ∃ update ∈ updates, (update.sections part).isSome = true := by
  simp [lastValue]

/-! ## When a batch merges as its updates one by one -/

/-- A chunk has a layer for every spelling that is in the buffer. -/
theorem exists_chunk (hupdate : update ∈ buffer) (hnamed : row.named update.name = true) :
    ∃ chunk ∈ chunksOf (deduplicateBatch buffer), ∃ merged ∈ chunk,
      merged.name = update.name ∧ merged.sections ∈ layersFor row.memberName chunk := by
  obtain ⟨merged, hmerged, hname⟩ := exists_merged hupdate
  rw [← flatten_chunksOf (deduplicateBatch buffer)] at hmerged
  obtain ⟨chunk, hchunk, hmem⟩ := List.mem_flatten.mp hmerged
  have hfold : fold row.memberName = fold merged.name := hname ▸ Members.named_eq_true.mp hnamed
  exact ⟨chunk, hchunk, merged, hmem, hname, mem_layersFor.mpr ⟨merged, hmem, hfold, rfl⟩⟩

/-- And every layer of a chunk is that of a spelling. -/
theorem exists_spelling (hchunk : chunk ∈ chunksOf (deduplicateBatch buffer)) {layer : MemberSections}
    (hlayer : layer ∈ layersFor row.memberName chunk) : ∃ update ∈ buffer,
      row.named update.name = true ∧ ∃ merged ∈ chunk, merged.name = update.name ∧
        merged.sections = layer := by
  obtain ⟨merged, hmem, hnamed, hsections⟩ := mem_layersFor.mp hlayer
  have hmerged : merged ∈ deduplicateBatch buffer := by
    rw [← flatten_chunksOf (deduplicateBatch buffer)]
    exact List.mem_flatten_of_mem hchunk hmem
  obtain ⟨update, hupdate, hname⟩ := (mem_deduplicateBatch.mp hmerged).1
  refine ⟨update, hupdate, ?_, merged, hmem, hname.symm, hsections⟩
  rw [hname]
  exact Members.named_eq_true.mpr hnamed

/-- What the merged update of a name has for a column. -/
theorem sections_of_mem_chunk (hchunk : chunk ∈ chunksOf (deduplicateBatch buffer)) {merged : MemberData}
    (hmem : merged ∈ chunk) (part : Section) :
    merged.sections part = lastValue (buffer.filter (·.name = merged.name)) part :=
  sections_merged ((mem_of_mem_chunksOf hchunk hmem).mp hmem).1 part

theorem stack_layersFor (buffer : List MemberData) (row : MemberRow) (part : Section) :
    stack row.values (layersFor row.memberName buffer) part =
      (lastValue (buffer.filter fun update ↦ row.named update.name) part).or (row.values part) :=
  stack_map_sections _ _ _

/-- When a spelling has something for a column, the updates for the row have. -/
theorem exists_lastValue (hnamed : row.named update.name = true) {other : Payload}
    (h : lastValue (buffer.filter (·.name = update.name)) part = some other) :
    ∃ value, lastValue (buffer.filter fun update ↦ row.named update.name) part = some value := by
  obtain ⟨found, hfound, hvalue⟩ := isSome_lastValue.mp (Option.isSome_of_eq_some h)
  obtain ⟨hmem, hsame⟩ := List.mem_filter.mp hfound
  apply Option.isSome_iff_exists.mp
  refine isSome_lastValue.mpr ⟨found, List.mem_filter.mpr ⟨hmem, ?_⟩, hvalue⟩
  rwa [of_decide_eq_true hsame]

theorem spellingsAgree_of_comesTo
    (h : ComesTo row.values (stack row.values (layersFor row.memberName buffer))
      ((chunksOf (deduplicateBatch buffer)).map (layersFor row.memberName)) part) :
    SpellingsAgree buffer row part := by
  intro value hvalue
  have htarget := stack_layersFor buffer row part
  rw [hvalue, Option.some_or] at htarget
  constructor
  · intro update hupdate hnamed other hother
    obtain ⟨chunk, hchunk, merged, hmem, hname, hlayer⟩ := exists_chunk hupdate hnamed
    have hsections : merged.sections part = some other := by
      rw [sections_of_mem_chunk hchunk hmem, hname, hother]
    have hsame := h.values _ (List.mem_map_of_mem hchunk) _ hlayer other hsections
    exact Option.some.inj (hsame.symm.trans htarget)
  · refine h.sure.imp (fun hbase ↦ hbase.trans htarget) ?_
    rintro ⟨group, hgroup, hsome, hall⟩
    obtain ⟨chunk, hchunk, rfl⟩ := List.mem_map.mp hgroup
    obtain ⟨update, hupdate, hnamed, merged, hmem, hname, -⟩ := exists_spelling hchunk (List.head_mem hsome)
    refine ⟨update, hupdate, hnamed, fun other hother hnamed' hnumber ↦ ?_⟩
    -- The update of the other spelling is in this chunk too.
    obtain ⟨merged', hmerged', hname'⟩ := exists_merged hother
    rw [← hname, ← hname'] at hnumber
    have hmem' : merged' ∈ chunk := (mem_of_mem_chunksOf hchunk hmem).mpr ⟨hmerged', hnumber⟩
    have hfold : fold row.memberName = fold merged'.name := hname' ▸ Members.named_eq_true.mp hnamed'
    have hlayer := hall _ (mem_layersFor.mpr ⟨merged', hmem', hfold, rfl⟩)
    rwa [sections_of_mem_chunk hchunk hmem', hname'] at hlayer

theorem comesTo_of_spellingsAgree (h : SpellingsAgree buffer row part) :
    ComesTo row.values (stack row.values (layersFor row.memberName buffer))
      ((chunksOf (deduplicateBatch buffer)).map (layersFor row.memberName)) part where
  values group hgroup layer hlayer other hother := by
    obtain ⟨chunk, hchunk, rfl⟩ := List.mem_map.mp hgroup
    obtain ⟨update, hupdate, hnamed, merged, hmem, hname, rfl⟩ := exists_spelling hchunk hlayer
    rw [sections_of_mem_chunk hchunk hmem, hname] at hother
    obtain ⟨value, hvalue⟩ := exists_lastValue hnamed hother
    rw [stack_layersFor, hvalue, (h value hvalue).1 update hupdate hnamed other hother, Option.some_or]
  sure := by
    rw [stack_layersFor]
    cases hvalue : lastValue (buffer.filter fun update ↦ row.named update.name) part with
    | none => exact .inl (Option.none_or).symm
    | some value =>
      rw [Option.some_or]
      refine (h value hvalue).2.imp id ?_
      rintro ⟨update, hupdate, hnamed, hall⟩
      obtain ⟨chunk, hchunk, merged, hmem, hname, hlayer⟩ := exists_chunk hupdate hnamed
      refine ⟨_, List.mem_map_of_mem hchunk, List.ne_nil_of_mem hlayer, fun layer hlayer' ↦ ?_⟩
      obtain ⟨other, hother, hnamed', merged', hmem', hname', rfl⟩ := exists_spelling hchunk hlayer'
      have hnumber := ((mem_of_mem_chunksOf hchunk hmem).mp hmem').2
      rw [hname, hname'] at hnumber
      rw [sections_of_mem_chunk hchunk hmem', hname']
      exact hall other hother hnamed' hnumber

theorem mergesAsOneByOne_iff_comesTo : members.MergesAsOneByOne buffer ↔ ∀ row ∈ members, ∀ part,
    ComesTo row.values (stack row.values (layersFor row.memberName buffer))
      ((chunksOf (deduplicateBatch buffer)).map (layersFor row.memberName)) part := by
  rw [mergesAsOneByOne_iff_picked]
  exact forall₂_congr fun row _ ↦ forall_picked_iff

/-- Merging a buffer comes to the same as its updates one by one exactly if the spellings of every
row's name agree. -/
theorem mergesAsOneByOne_iff (members : Members) (buffer : List MemberData) :
    members.MergesAsOneByOne buffer ↔ ∀ row ∈ members, ∀ part, SpellingsAgree buffer row part := by
  rw [mergesAsOneByOne_iff_comesTo]
  exact forall₂_congr fun row _ ↦
    forall_congr' fun part ↦ ⟨spellingsAgree_of_comesTo, comesTo_of_spellingsAgree⟩

/-- An update of the stats under one spelling and one of the skills under another: one statement
stores only one of them. -/
theorem not_mergesAsOneByOne_spellings : ¬ Members.MergesAsOneByOne
    ⟨[newRow "Alice"], List.pairwise_singleton _ _⟩
    [{ name := "Alice", sections := fun part ↦ if part = .stats then some (.array [1]) else none },
      { name := "alice", sections := fun part ↦ if part = .skills then some (.array [2]) else none }] := by
  intro h
  have hagree := spellingsAgree_of_comesTo
    (mergesAsOneByOne_iff_comesTo.mp h (newRow "Alice") (List.mem_singleton_self _) .stats)
  obtain hrow | ⟨update, hupdate, -, hall⟩ := (hagree (.array [1]) (by decide +kernel)).2
  · exact absurd hrow (by decide)
  · -- Both names are in the first chunk, and the second has nothing for the stats.
    have hnone := hall _ (List.mem_cons_of_mem _ (List.mem_singleton_self _)) (by decide +kernel)
    obtain rfl | hupdate := List.mem_cons.mp hupdate
    · exact absurd (hnone (by decide +kernel)) (by decide +kernel)
    · obtain rfl := List.mem_singleton.mp hupdate
      exact absurd (hnone (by decide +kernel)) (by decide +kernel)

end OsrsMap.Sync
