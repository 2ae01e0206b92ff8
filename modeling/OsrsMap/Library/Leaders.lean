import Mathlib.Data.List.Perm.Basic
import Mathlib.Tactic.TypeStar

/-!
# Groups around their first members

A pass over items puts each of them in a group whose first member is near, or begins a group with it.
Where the groups are does not depend on which of the near ones is chosen: an item begins a group just
when no group before it is near.
-/

namespace OsrsMap.Leaders

variable {α β : Type*}

/-- The members of a group, and where the first of them is. -/
structure Group (β α : Type*) where
  anchor : β
  members : List α
deriving DecidableEq, Repr

def Group.join (group : Group β α) (item : α) : Group β α :=
  { group with members := group.members ++ [item] }

section Pass

variable (anchorOf : α → β) (near : β → β → Prop) [DecidableRel near]

/-- Where the groups are: an item is compared with every group before it. -/
def leaders (items : List α) : List β :=
  items.foldl (fun found item ↦
    if ∃ leader ∈ found, near leader (anchorOf item) then found else found ++ [anchorOf item]) []

/-- Puts an item in the group that was picked, or in a new one. -/
def add (picked : Option ℕ) (groups : List (Group β α)) (item : α) : List (Group β α) :=
  match picked with
  | some i => groups.modify i fun group ↦ group.join item
  | none => groups ++ [{ anchor := anchorOf item, members := [item] }]

omit [DecidableRel near] in
/-- What is picked for an item is a group that is near, if there is one. -/
def Picks (groups : List (Group β α)) (item : α) (picked : Option ℕ) : Prop :=
  match picked with
  | some i => ∃ group, groups[i]? = some group ∧ near group.anchor (anchorOf item)
  | none => ∀ group ∈ groups, ¬ near group.anchor (anchorOf item)

/-- The groups of a pass over items. -/
structure Grouped (items : List α) (groups : List (Group β α)) : Prop where
  anchors : groups.map Group.anchor = leaders anchorOf near items
  members : (groups.flatMap Group.members).Perm items
  around : ∀ group ∈ groups, ∀ member ∈ group.members, near group.anchor (anchorOf member)
  first : ∀ group ∈ groups, group.members.head?.map anchorOf = some group.anchor
  apart : (groups.map Group.anchor).Pairwise fun a b ↦ ¬ near a b

end Pass

variable {anchorOf : α → β} {near : β → β → Prop} [DecidableRel near] {items : List α} {item : α}
  {groups : List (Group β α)} {picked : Option ℕ}

theorem leaders_concat (items : List α) (item : α) : leaders anchorOf near (items ++ [item]) =
    if ∃ leader ∈ leaders anchorOf near items, near leader (anchorOf item) then
      leaders anchorOf near items
    else leaders anchorOf near items ++ [anchorOf item] := by
  unfold leaders
  rw [List.foldl_append, List.foldl_cons, List.foldl_nil]

theorem grouped_nil : Grouped anchorOf near [] [] where
  anchors := rfl
  members := List.Perm.nil
  around _ hgroup := absurd hgroup List.not_mem_nil
  first _ hgroup := absurd hgroup List.not_mem_nil
  apart := List.Pairwise.nil

theorem map_anchor_modify (groups : List (Group β α)) (i : ℕ) (item : α) :
    (groups.modify i fun group ↦ group.join item).map Group.anchor = groups.map Group.anchor := by
  induction groups generalizing i with
  | nil => rw [List.modify_nil]
  | cons group groups ih =>
    cases i with
    | zero => rfl
    | succ i => rw [List.modify_succ_cons, List.map_cons, List.map_cons, ih]

theorem flatMap_members_modify {i : ℕ} (h : i < groups.length) (item : α) :
    ((groups.modify i fun group ↦ group.join item).flatMap Group.members).Perm
      (groups.flatMap Group.members ++ [item]) := by
  induction groups generalizing i with
  | nil => exact absurd h (Nat.not_lt_zero i)
  | cons group groups ih =>
    cases i with
    | zero =>
      have hjoin : (group.join item).members = group.members ++ [item] := rfl
      rw [List.modify_zero_cons, List.flatMap_cons, List.flatMap_cons, hjoin, List.append_assoc,
        List.append_assoc]
      exact List.Perm.append_left _ List.perm_append_comm
    | succ i =>
      rw [List.modify_succ_cons, List.flatMap_cons, List.flatMap_cons, List.append_assoc]
      exact List.Perm.append_left _ (ih (Nat.lt_of_succ_lt_succ h))

theorem mem_modify_join {i : ℕ} {group : Group β α}
    (h : group ∈ groups.modify i fun group ↦ group.join item) :
    group ∈ groups ∨ ∃ before, groups[i]? = some before ∧ group = before.join item := by
  obtain ⟨j, hj⟩ := List.mem_iff_getElem?.mp h
  rw [List.getElem?_modify] at hj
  split at hj
  · next hij =>
    obtain ⟨before, hbefore, rfl⟩ := Option.map_eq_some_iff.mp hj
    exact .inr ⟨before, hij ▸ hbefore, rfl⟩
  · exact .inl (List.mem_of_getElem? (by simpa using hj))

/-- An item joins a group that is near. -/
theorem Grouped.join {i : ℕ} {joined : Group β α} (h : Grouped anchorOf near items groups)
    (hjoined : groups[i]? = some joined) (hnear : near joined.anchor (anchorOf item)) :
    Grouped anchorOf near (items ++ [item]) (groups.modify i fun group ↦ group.join item) := by
  have hmem : joined ∈ groups := List.mem_of_getElem? hjoined
  have hleader : ∃ leader ∈ leaders anchorOf near items, near leader (anchorOf item) :=
    ⟨joined.anchor, h.anchors ▸ List.mem_map_of_mem hmem, hnear⟩
  constructor
  · rw [map_anchor_modify, leaders_concat, if_pos hleader]
    exact h.anchors
  · have hlength := (List.getElem?_eq_some_iff.mp hjoined).1
    exact (flatMap_members_modify hlength item).trans (h.members.append_right _)
  · intro group hgroup member hmember
    obtain hold | ⟨before, hbefore, rfl⟩ := mem_modify_join hgroup
    · exact h.around group hold member hmember
    · obtain rfl := Option.some.inj (hbefore.symm.trans hjoined)
      obtain hmember | hmember := List.mem_append.mp hmember
      · exact h.around _ hmem member hmember
      · rw [List.mem_singleton.mp hmember]
        exact hnear
  · intro group hgroup
    obtain hold | ⟨before, hbefore, rfl⟩ := mem_modify_join hgroup
    · exact h.first group hold
    · obtain rfl := Option.some.inj (hbefore.symm.trans hjoined)
      have hfirst := h.first _ hmem
      unfold Group.join
      cases hmembers : before.members with
      | nil => simp [hmembers] at hfirst
      | cons first rest => simpa [hmembers] using hfirst
  · rw [map_anchor_modify]
    exact h.apart

/-- An item that no group is near begins one. -/
theorem Grouped.begins (h : Grouped anchorOf near items groups) (hrefl : ∀ anchor, near anchor anchor)
    (hfar : ∀ group ∈ groups, ¬ near group.anchor (anchorOf item)) :
    Grouped anchorOf near (items ++ [item])
      (groups ++ [{ anchor := anchorOf item, members := [item] }]) := by
  have hnone : ¬ ∃ leader ∈ leaders anchorOf near items, near leader (anchorOf item) := by
    rintro ⟨leader, hleader, hnear⟩
    rw [← h.anchors] at hleader
    obtain ⟨group, hgroup, rfl⟩ := List.mem_map.mp hleader
    exact hfar group hgroup hnear
  constructor
  · rw [leaders_concat, if_neg hnone, List.map_append, h.anchors]
    rfl
  · rw [List.flatMap_append, List.flatMap_singleton]
    exact h.members.append_right _
  · intro group hgroup member hmember
    obtain hold | hnew := List.mem_append.mp hgroup
    · exact h.around group hold member hmember
    · rw [List.mem_singleton] at hnew
      subst hnew
      rw [List.mem_singleton.mp hmember]
      exact hrefl _
  · intro group hgroup
    obtain hold | hnew := List.mem_append.mp hgroup
    · exact h.first group hold
    · rw [List.mem_singleton] at hnew
      subst hnew
      rfl
  · rw [List.map_append]
    apply List.pairwise_append.mpr
    refine ⟨h.apart, List.pairwise_singleton _ _, fun a ha b hb ↦ ?_⟩
    obtain rfl := List.mem_singleton.mp hb
    obtain ⟨group, hgroup, rfl⟩ := List.mem_map.mp ha
    exact hfar group hgroup

/-- An item joins a group that is near, or begins one that none is near. -/
theorem Grouped.add (h : Grouped anchorOf near items groups) (hrefl : ∀ anchor, near anchor anchor)
    (hpicked : Picks anchorOf near groups item picked) :
    Grouped anchorOf near (items ++ [item]) (add anchorOf picked groups item) := by
  cases picked with
  | some i =>
    obtain ⟨joined, hjoined, hnear⟩ := hpicked
    exact h.join hjoined hnear
  | none => exact h.begins hrefl hpicked

end OsrsMap.Leaders
