import OsrsMap.Sync.Members
import Mathlib.Logic.Function.Basic

/-!
# The directory

`HubDirectory` (`server/src/hub/directory.rs`): which hub account is which member, which accounts an
admin hid and which share their hiscores, kept in memory. A method holds the lock, so each is one
step.
-/

namespace OsrsMap.Sync

/-- `Bindings`. -/
structure HubDirectory where
  nameById : String → Option String
  idByName : String → Option String
  hidden : String → Bool
  hiscores : List String

namespace HubDirectory

variable (directory : HubDirectory)

def empty : HubDirectory where
  nameById _ := none
  idByName _ := none
  hidden _ := false
  hiscores := []

/-- Forgets the binding of an account. -/
def unbindId (id : String) : HubDirectory :=
  match directory.nameById id with
  | some name =>
    { directory with
      nameById := Function.update directory.nameById id none
      idByName := Function.update directory.idByName (fold name) none }
  | none => directory

/-- Forgets a member (deleted or hidden). -/
def removeMember (name : String) : HubDirectory :=
  match directory.idByName (fold name) with
  | some id =>
    { directory with
      nameById := Function.update directory.nameById id none
      idByName := Function.update directory.idByName (fold name) none }
  | none => directory

/-- Binds a hub account to a member, replacing earlier bindings of either. -/
def bind (id name : String) : HubDirectory :=
  let free := (directory.unbindId id).removeMember name
  { free with
    nameById := Function.update free.nameById id (some name)
    idByName := Function.update free.idByName (fold name) (some id) }

/-- Records whether the member of a hub account is hidden. -/
def setHidden (id : String) (hidden : Bool) : HubDirectory :=
  { directory with hidden := Function.update directory.hidden id hidden }

/-- Whether the member of a hub account is hidden. -/
def isHidden (id : String) : Bool := directory.hidden id

def setSharesHiscores (id : String) (shares : Bool) : HubDirectory :=
  let others := directory.hiscores.filter (· ≠ id)
  { directory with hiscores := if shares then id :: others else others }

/-- Whether the latest sync saw the hub account share its hiscores. -/
def sharesHiscores (id : String) : Bool := id ∈ directory.hiscores

/-- The member name for a hub account. -/
def memberName (id : String) : Option String := directory.nameById id

/-- The hub account of a member. -/
def hubId (name : String) : Option String := directory.idByName (fold name)

/-- What `load` notes of a row. -/
def loadRow (row : MemberRow) : HubDirectory :=
  match row.hubAccountId with
  | none => directory
  | some id =>
    let directory := directory.setHidden id row.hidden
    if row.hidden then directory else directory.bind id row.memberName

/-- The directory of the bound members, at start-up. -/
def load (members : Members) : HubDirectory := members.rows.foldl loadRow empty

/-- The two maps say the same. -/
def Inverse : Prop :=
  ∀ id folded, directory.idByName folded = some id ↔
    ∃ name, directory.nameById id = some name ∧ fold name = folded

variable {directory} {id id' name name' : String}

theorem inverse_empty : empty.Inverse := by simp [Inverse, empty]

theorem nameById_unbindId : (directory.unbindId id).nameById id' =
    if id' = id then none else directory.nameById id' := by
  unfold unbindId
  split
  · by_cases h : id' = id <;> simp [h]
  · next hnone =>
    by_cases h : id' = id
    · simp [h, hnone]
    · simp [h]

theorem Inverse.nameById_removeMember (h : directory.Inverse) :
    (directory.removeMember name).nameById id' =
      (directory.nameById id').filter fun other ↦ fold other ≠ fold name := by
  unfold removeMember
  split
  · next id hid =>
    obtain ⟨bound, hbound, hfold⟩ := (h id (fold name)).mp hid
    by_cases hsame : id' = id
    · simp [hsame, hbound, hfold, Option.filter]
    · simp only [Function.update_of_ne hsame]
      cases hother : directory.nameById id' with
      | none => rfl
      | some other =>
        have hne : fold other ≠ fold name := by
          intro heq
          have hid' := (h id' (fold name)).mpr ⟨other, hother, heq⟩
          exact hsame (Option.some.inj (hid'.symm.trans hid))
        simp [hne, Option.filter]
  · next hnone =>
    cases hother : directory.nameById id' with
    | none => rfl
    | some other =>
      have hne : fold other ≠ fold name := by
        intro heq
        have hid' := (h id' (fold name)).mpr ⟨other, hother, heq⟩
        rw [hnone] at hid'
        exact absurd hid' (by simp)
      simp [hne, Option.filter]

/-- Of a removed binding neither side is left. -/
theorem Inverse.erase (h : directory.Inverse) (hname : directory.nameById id = some name) :
    ({ directory with
      nameById := Function.update directory.nameById id none
      idByName := Function.update directory.idByName (fold name) none } : HubDirectory).Inverse := by
  intro other folded
  dsimp only
  have hid := (h id (fold name)).mpr ⟨name, hname, rfl⟩
  by_cases hother : other = id
  · subst hother
    by_cases hfolded : folded = fold name
    · simp [hfolded]
    · simp only [Function.update_of_ne hfolded, Function.update_self]
      refine iff_of_false (fun hbound ↦ ?_) (by simp)
      obtain ⟨name', hname', rfl⟩ := (h other folded).mp hbound
      exact hfolded (congrArg fold (Option.some.inj (hname'.symm.trans hname)))
  · by_cases hfolded : folded = fold name
    · subst hfolded
      simp only [Function.update_of_ne hother, Function.update_self]
      refine iff_of_false (by simp) fun hbound ↦ ?_
      exact hother (Option.some.inj (((h other (fold name)).mpr hbound).symm.trans hid))
    · simp only [Function.update_of_ne hother, Function.update_of_ne hfolded]
      exact h other folded

theorem Inverse.unbindId (h : directory.Inverse) (id : String) : (directory.unbindId id).Inverse := by
  unfold HubDirectory.unbindId
  split
  · next name hname => exact h.erase hname
  · exact h

theorem Inverse.removeMember (h : directory.Inverse) (name : String) :
    (directory.removeMember name).Inverse := by
  unfold HubDirectory.removeMember
  split
  · next id hid =>
    obtain ⟨bound, hbound, hfold⟩ := (h id (fold name)).mp hid
    have herase := h.erase hbound
    rwa [hfold] at herase
  · exact h

/-- What an account is bound to after a binding. -/
theorem Inverse.nameById_bind (h : directory.Inverse) : (directory.bind id name).nameById id' =
    if id' = id then some name
    else (directory.nameById id').filter fun other ↦ fold other ≠ fold name := by
  unfold HubDirectory.bind
  dsimp only
  by_cases hid : id' = id
  · simp [hid]
  · rw [Function.update_of_ne hid, (h.unbindId id).nameById_removeMember, nameById_unbindId,
      if_neg hid, if_neg hid]

theorem Inverse.bind (h : directory.Inverse) (id name : String) :
    (directory.bind id name).Inverse := by
  have hfree := (h.unbindId id).removeMember name
  have hnoId : ((directory.unbindId id).removeMember name).nameById id = none := by
    rw [(h.unbindId id).nameById_removeMember, nameById_unbindId, if_pos rfl]
    rfl
  have hnoFolded (other bound : String)
      (hbound : ((directory.unbindId id).removeMember name).nameById other = some bound) :
      fold bound ≠ fold name := by
    rw [(h.unbindId id).nameById_removeMember] at hbound
    simpa using (Option.filter_eq_some_iff.mp hbound).2
  intro other folded
  unfold HubDirectory.bind
  dsimp only
  by_cases hother : other = id
  · subst hother
    by_cases hfolded : folded = fold name
    · simp [hfolded]
    · simp only [Function.update_of_ne hfolded, Function.update_self]
      refine iff_of_false (fun hbound ↦ ?_) ?_
      · obtain ⟨bound, hbound, -⟩ := (hfree other folded).mp hbound
        rw [hnoId] at hbound
        exact absurd hbound (by simp)
      · rintro ⟨bound, hbound, hfold⟩
        exact hfolded (hfold.symm.trans (congrArg fold (Option.some.inj hbound).symm))
  · by_cases hfolded : folded = fold name
    · subst hfolded
      simp only [Function.update_of_ne hother, Function.update_self]
      refine iff_of_false (fun heq ↦ hother (Option.some.inj heq).symm) ?_
      rintro ⟨bound, hbound, hfold⟩
      exact hnoFolded other bound hbound hfold
    · simp only [Function.update_of_ne hother, Function.update_of_ne hfolded]
      exact hfree other folded

theorem Inverse.loadRow (h : directory.Inverse) (row : MemberRow) :
    (directory.loadRow row).Inverse := by
  unfold HubDirectory.loadRow
  split
  · exact h
  · next id _ =>
    have hset : (directory.setHidden id row.hidden).Inverse := h
    dsimp only
    split
    · exact hset
    · exact hset.bind _ _

theorem inverse_load (members : Members) : (load members).Inverse := by
  have hfold (rows : List MemberRow) (directory : HubDirectory) (h : directory.Inverse) :
      (rows.foldl HubDirectory.loadRow directory).Inverse := by
    induction rows generalizing directory with
    | nil => exact h
    | cons row rows ih => exact ih _ (h.loadRow row)
  exact hfold members.rows empty inverse_empty

/-- Removing a member binds nobody. -/
theorem memberName_removeMember_none (h : directory.memberName id = none) :
    (directory.removeMember name).memberName id = none := by
  unfold removeMember
  split
  · next other _ =>
    by_cases hother : id = other
    · simp [memberName, hother]
    · simpa [memberName, hother] using h
  · exact h

@[simp]
theorem hidden_unbindId : (directory.unbindId id).hidden = directory.hidden := by
  unfold unbindId
  split <;> rfl

@[simp]
theorem hidden_removeMember : (directory.removeMember name).hidden = directory.hidden := by
  unfold removeMember
  split <;> rfl

@[simp]
theorem hidden_bind : (directory.bind id name).hidden = directory.hidden := by
  simp [bind]

@[simp]
theorem hiscores_unbindId : (directory.unbindId id).hiscores = directory.hiscores := by
  unfold unbindId
  split <;> rfl

@[simp]
theorem hiscores_removeMember : (directory.removeMember name).hiscores = directory.hiscores := by
  unfold removeMember
  split <;> rfl

@[simp]
theorem hiscores_bind : (directory.bind id name).hiscores = directory.hiscores := by
  simp [bind]

theorem mem_setSharesHiscores {shares : Bool} :
    id' ∈ (directory.setSharesHiscores id shares).hiscores ↔
      if id' = id then shares = true else id' ∈ directory.hiscores := by
  unfold setSharesHiscores
  by_cases h : id' = id <;> cases shares <;> simp [h]

end HubDirectory

end OsrsMap.Sync
