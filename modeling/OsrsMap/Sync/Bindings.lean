import OsrsMap.Library.Run
import OsrsMap.Sync.Directory

/-!
# The two maps of the directory

`bind` and `remove_member` keep `name_by_id` and `id_by_name` inverse to each other, over any run of
them: a name is bound ignoring case, with the spelling it was last bound with.
-/

namespace OsrsMap.Sync.HubDirectory

/-- A call that changes the bindings. -/
inductive Change where
  | bind (id name : String)
  | removeMember (name : String)
deriving DecidableEq, Repr

def change (directory : HubDirectory) : Change → HubDirectory
  | .bind id name => directory.bind id name
  | .removeMember name => directory.removeMember name

variable {directory : HubDirectory} {id id' name name' : String}

theorem Inverse.change (h : directory.Inverse) (call : Change) : (directory.change call).Inverse := by
  cases call with
  | bind id name => exact h.bind id name
  | removeMember name => exact h.removeMember name

theorem always_inverse (calls : List Change) :
    Run.Always HubDirectory.change Inverse empty calls := by
  apply Run.always_of_along (fun _ call h _ ↦ h.change call) inverse_empty
  exact Run.along_true empty calls

/-- A name is that of one account, however it is spelled. -/
theorem Inverse.id_unique (h : directory.Inverse) (hname : directory.nameById id = some name)
    (hname' : directory.nameById id' = some name') (hfold : fold name = fold name') : id = id' := by
  have hid := (h id (fold name)).mpr ⟨name, hname, rfl⟩
  have hid' := (h id' (fold name)).mpr ⟨name', hname', hfold.symm⟩
  exact Option.some.inj (hid.symm.trans hid')

theorem Inverse.memberName_bind (h : directory.Inverse) (id name : String) :
    (directory.bind id name).memberName id = some name := by
  unfold memberName
  rw [h.nameById_bind, if_pos rfl]

theorem Inverse.hubId_bind (h : directory.Inverse) (id name : String) :
    (directory.bind id name).hubId name = some id :=
  (h.bind id name id (fold name)).mpr ⟨name, h.memberName_bind id name, rfl⟩

/-- A binding leaves the names of other accounts alone, but for the name it takes. -/
theorem Inverse.memberName_bind_of_ne (h : directory.Inverse) (hid : id' ≠ id)
    (hname : fold name' ≠ fold name) :
    (directory.bind id name).memberName id' = some name' ↔ directory.memberName id' = some name' := by
  unfold memberName
  rw [h.nameById_bind, if_neg hid, Option.filter_eq_some_iff]
  simp [hname]

theorem Inverse.hubId_bind_of_ne (h : directory.Inverse) (hid : id' ≠ id)
    (hname : fold name' ≠ fold name) :
    (directory.bind id name).hubId name' = some id' ↔ directory.hubId name' = some id' := by
  unfold hubId
  rw [h.bind id name id' (fold name'), h id' (fold name')]
  refine exists_congr fun other ↦ and_congr_left fun hfold ↦ ?_
  exact h.memberName_bind_of_ne hid (hfold ▸ hname)

/-- After any calls the two maps say the same: `id_by_name` has the lower case of the names of
`name_by_id` and nothing else, so that a name is that of one account. The next binding is what both
say of its account and its name, and they say the same as before of every other pair. -/
theorem bindings_stay_inverse (calls : List Change) :
    let directory := calls.foldl change empty
    (∀ id folded, directory.idByName folded = some id ↔
      ∃ name, directory.nameById id = some name ∧ fold name = folded) ∧
    (∀ id id' name name', directory.nameById id = some name → directory.nameById id' = some name' →
      fold name = fold name' → id = id') ∧
    ∀ id name, (directory.bind id name).memberName id = some name ∧
      (directory.bind id name).hubId name = some id ∧
      ∀ id' name', id' ≠ id → fold name' ≠ fold name →
        ((directory.bind id name).memberName id' = some name' ↔
          directory.memberName id' = some name') ∧
        ((directory.bind id name).hubId name' = some id' ↔ directory.hubId name' = some id') := by
  intro directory
  have h : directory.Inverse := (always_inverse calls).final
  refine ⟨h, fun id id' name name' ↦ h.id_unique, fun id name ↦ ?_⟩
  refine ⟨h.memberName_bind id name, h.hubId_bind id name, fun id' name' hid hname ↦ ?_⟩
  exact ⟨h.memberName_bind_of_ne hid hname, h.hubId_bind_of_ne hid hname⟩

end OsrsMap.Sync.HubDirectory
