import Mathlib.Data.List.Find
import Mathlib.Data.List.Sort
import Mathlib.Order.Lattice

/-!
# The newest of a list of records

Records that come newest first are read as of a date: the newest one that is not after it. Between
two dates with no record in between nothing changes. A record that is left out is not missed as of a date that
a newer one is there for. Two lists of them that are told apart by a property are still there, each in its
order, when they are sorted into one.
-/

namespace OsrsMap.Newest

variable {ι α : Type*} [LinearOrder α] {key : ι → α} {records : List ι} {date : α}

/-- Records in the order from the newest to the oldest. -/
def NewestFirst (key : ι → α) (records : List ι) : Prop :=
  records.Pairwise fun newer older ↦ key older ≤ key newer

/-- The newest record as of a date. -/
def newest (key : ι → α) (records : List ι) (date : α) : Option ι :=
  records.find? fun record ↦ key record ≤ date

theorem newest_eq_none_iff : newest key records date = none ↔ ∀ record ∈ records, date < key record := by
  simp [newest]

/-- What is found is not after the date, and no other record that is not is newer. -/
theorem newest_spec (h : NewestFirst key records) {record : ι}
    (hrecord : newest key records date = some record) :
    record ∈ records ∧ key record ≤ date ∧
      ∀ other ∈ records, key other ≤ date → key other ≤ key record := by
  obtain ⟨hle, before, after, rfl, hbefore⟩ := List.find?_eq_some_iff_append.mp hrecord
  refine ⟨by simp, by simpa using hle, fun other hother hdate ↦ ?_⟩
  obtain hother | hother := List.mem_append.mp hother
  · have hnot := hbefore other hother
    simp [hdate] at hnot
  · obtain rfl | hother := List.mem_cons.mp hother
    · exact le_rfl
    · have hafter := (List.pairwise_append.mp h).2.1
      exact List.rel_of_pairwise_cons hafter hother

/-- The first record with the date itself is the newest as of that date. -/
theorem newest_of_find? (h : NewestFirst key records) {record : ι}
    (hrecord : records.find? (fun record ↦ key record = date) = some record) :
    newest key records date = some record := by
  induction records with
  | nil => cases hrecord
  | cons first rest ih =>
    by_cases hfirst : key first = date
    · rw [List.find?_cons_of_pos (by simpa using hfirst)] at hrecord
      rwa [newest, List.find?_cons_of_pos (by simpa using le_of_eq hfirst)]
    · rw [List.find?_cons_of_neg (by simpa using hfirst)] at hrecord
      have hdate : key record = date := by simpa using List.find?_some hrecord
      have hlater : date ≤ key first :=
        hdate ▸ List.rel_of_pairwise_cons h (List.mem_of_find?_eq_some hrecord)
      have hafter : ¬ key first ≤ date := not_le.mpr (lt_of_le_of_ne hlater (Ne.symm hfirst))
      rw [newest, List.find?_cons_of_neg (by simpa using hafter)]
      exact ih h.of_cons hrecord

/-- As of two dates with no record between them, the same one is found. -/
theorem newest_congr {earlier : α}
    (hbetween : ∀ record ∈ records, key record ≤ date ↔ key record ≤ earlier) :
    newest key records date = newest key records earlier :=
  List.find?_congr fun record hrecord ↦ decide_eq_decide.mpr (hbetween record hrecord)

/-! ## Records left out -/

section LeftOut

variable {β : Type*} [LinearOrder β] {time : ι → β} {kept : List ι}

/-- What is found is the last of the records that are not after the date. -/
theorem le_of_newest (h : NewestFirst time records) {record : ι}
    (hrecord : newest key records date = some record) {other : ι} (hother : other ∈ records)
    (hdate : key other ≤ date) : time other ≤ time record := by
  obtain ⟨-, before, after, rfl, hbefore⟩ := List.find?_eq_some_iff_append.mp hrecord
  obtain hother | hother := List.mem_append.mp hother
  · have hnot := hbefore other hother
    simp [hdate] at hnot
  · obtain rfl | hother := List.mem_cons.mp hother
    · exact le_rfl
    · exact List.rel_of_pairwise_cons (List.pairwise_append.mp h).2.1 hother

/-- Records of different times, of which some were left out: each for a newer one that is there, and that is
not after the date either. -/
theorem newest_of_leftOut (hall : NewestFirst time records) (hkept : NewestFirst time kept)
    (hapart : ∀ a ∈ records, ∀ b ∈ records, time a = time b → a = b) (hsub : ∀ record ∈ kept, record ∈ records)
    (hleft : ∀ record ∈ records, record ∈ kept ∨ ∃ newer ∈ kept, time record < time newer ∧ key newer ≤ date) :
    newest key kept date = newest key records date := by
  cases hfind : newest key records date with
  | none =>
    exact newest_eq_none_iff.mpr fun record hrecord ↦ newest_eq_none_iff.mp hfind record (hsub record hrecord)
  | some record =>
    have hmem : record ∈ records := List.mem_of_find?_eq_some hfind
    have hdate : key record ≤ date := by simpa using List.find?_some hfind
    have hthere : record ∈ kept := by
      obtain hthere | ⟨newer, hnewer, hlater, hstill⟩ := hleft record hmem
      · exact hthere
      · exact absurd hlater (not_lt.mpr (le_of_newest hall hfind (hsub newer hnewer) hstill))
    cases hother : newest key kept date with
    | none => exact absurd hdate (not_le.mpr (newest_eq_none_iff.mp hother record hthere))
    | some other =>
      have hotherMem : other ∈ kept := List.mem_of_find?_eq_some hother
      have hotherDate : key other ≤ date := by simpa using List.find?_some hother
      have htime : time other = time record :=
        le_antisymm (le_of_newest hall hfind (hsub other hotherMem) hotherDate)
          (le_of_newest hkept hother hthere hdate)
      rw [hapart other (hsub other hotherMem) record hmem htime]

end LeftOut

/-! ## Two lists in one -/

/-- The records from the newest to the oldest; those of one date stay in their order. -/
def sortNewest (key : ι → α) (records : List ι) : List ι :=
  records.mergeSort fun newer older ↦ key older ≤ key newer

theorem sortNewest_perm (key : ι → α) (records : List ι) : (sortNewest key records).Perm records :=
  List.mergeSort_perm _ _

theorem newestFirst_sortNewest (key : ι → α) (records : List ι) : NewestFirst key (sortNewest key records) := by
  refine (List.pairwise_mergeSort (fun a b c hab hbc ↦ ?_) (fun a b ↦ ?_) records).imp of_decide_eq_true
  · exact decide_eq_true ((of_decide_eq_true hbc).trans (of_decide_eq_true hab))
  · simpa using le_total (key b) (key a)

/-- A part of a list that is in order already stays as it is. -/
theorem sublist_sortNewest {part : List ι} (h : NewestFirst key part) (hpart : part.Sublist records) :
    part.Sublist (sortNewest key records) := by
  refine List.sublist_mergeSort (fun a b c hab hbc ↦ ?_) (fun a b ↦ ?_) (h.imp decide_eq_true) hpart
  · exact decide_eq_true ((of_decide_eq_true hbc).trans (of_decide_eq_true hab))
  · simpa using le_total (key b) (key a)

variable {p : ι → Bool} {first second : List ι}

/-- Of two lists sorted into one, what has the property is the first list as it was. -/
theorem filter_sortNewest_append (hfirst : NewestFirst key first) (hyes : ∀ record ∈ first, p record = true)
    (hno : ∀ record ∈ second, p record = false) :
    (sortNewest key (first ++ second)).filter p = first := by
  have hsub : first.Sublist ((sortNewest key (first ++ second)).filter p) := by
    have h := (sublist_sortNewest hfirst (List.sublist_append_left first second)).filter p
    rwa [List.filter_eq_self.mpr hyes] at h
  have hnone : second.filter p = [] := List.filter_eq_nil_iff.mpr (by simpa using hno)
  have hcount : ((sortNewest key (first ++ second)).filter p).Perm first := by
    have h := (sortNewest_perm key (first ++ second)).filter p
    rwa [List.filter_append, List.filter_eq_self.mpr hyes, hnone, List.append_nil] at h
  exact (hsub.eq_of_length hcount.length_eq.symm).symm

/-- And what has it not is the second. -/
theorem filter_not_sortNewest_append (hsecond : NewestFirst key second)
    (hyes : ∀ record ∈ first, p record = true) (hno : ∀ record ∈ second, p record = false) :
    ((sortNewest key (first ++ second)).filter fun record ↦ !p record) = second := by
  have hall : (second.filter fun record ↦ !p record) = second := List.filter_eq_self.mpr (by simpa using hno)
  have hnone : (first.filter fun record ↦ !p record) = [] := List.filter_eq_nil_iff.mpr (by simpa using hyes)
  have hsub : second.Sublist ((sortNewest key (first ++ second)).filter fun record ↦ !p record) := by
    have h := (sublist_sortNewest hsecond (List.sublist_append_right first second)).filter fun record ↦ !p record
    rwa [hall] at h
  have hcount : ((sortNewest key (first ++ second)).filter fun record ↦ !p record).Perm second := by
    have h := (sortNewest_perm key (first ++ second)).filter fun record ↦ !p record
    rwa [List.filter_append, hnone, hall, List.nil_append] at h
  exact (hsub.eq_of_length hcount.length_eq.symm).symm

end OsrsMap.Newest
