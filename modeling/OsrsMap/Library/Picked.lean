import OsrsMap.Library.Overlay
import Mathlib.Data.List.Basic

/-!
# One layer of every group

Groups of layers are laid down one after the other, and of every group that has any one layer is
picked. What comes out does not depend on the order of the groups and on what is picked exactly when,
place by place, all layers that have a value have the same one, and some group has a layer with a
value whatever is picked of it, or the value is there already.
-/

namespace OsrsMap.Overlay

variable {ι α : Type*}

/-- What may be picked of groups of layers. -/
inductive Picked : List (List (ι → Option α)) → List (ι → Option α) → Prop
  | nil : Picked [] []
  | skip {groups : List (List (ι → Option α))} {layers : List (ι → Option α)}
    (h : Picked groups layers) : Picked ([] :: groups) layers
  | pick {group : List (ι → Option α)} {groups : List (List (ι → Option α))} {layer : ι → Option α}
    {layers : List (ι → Option α)} (hlayer : layer ∈ group) (h : Picked groups layers) :
    Picked (group :: groups) (layer :: layers)

variable {groups : List (List (ι → Option α))} {layers : List (ι → Option α)}
  {layer base target : ι → Option α} {i : ι}

theorem Picked.exists_group (h : Picked groups layers) (hlayer : layer ∈ layers) :
    ∃ group ∈ groups, layer ∈ group := by
  induction h with
  | nil => cases hlayer
  | skip h ih =>
    obtain ⟨group, hgroup, hmem⟩ := ih hlayer
    exact ⟨group, List.mem_cons_of_mem _ hgroup, hmem⟩
  | pick hpick h ih =>
    obtain rfl | hlayer := List.mem_cons.mp hlayer
    · exact ⟨_, List.mem_cons_self, hpick⟩
    · obtain ⟨group, hgroup, hmem⟩ := ih hlayer
      exact ⟨group, List.mem_cons_of_mem _ hgroup, hmem⟩

/-- Of a group that has any layers one is picked. -/
theorem Picked.exists_layer (h : Picked groups layers) {group : List (ι → Option α)}
    (hgroup : group ∈ groups) (hsome : group ≠ []) : ∃ layer ∈ layers, layer ∈ group := by
  induction h with
  | nil => cases hgroup
  | skip h ih =>
    obtain rfl | hgroup := List.mem_cons.mp hgroup
    · exact absurd rfl hsome
    · exact ih hgroup
  | pick hpick h ih =>
    obtain rfl | hgroup := List.mem_cons.mp hgroup
    · exact ⟨_, List.mem_cons_self, hpick⟩
    · obtain ⟨layer, hlayer, hmem⟩ := ih hgroup
      exact ⟨layer, List.mem_cons_of_mem _ hlayer, hmem⟩

theorem Picked.append {more : List (List (ι → Option α))} {others : List (ι → Option α)}
    (h : Picked groups layers) (hmore : Picked more others) :
    Picked (groups ++ more) (layers ++ others) := by
  induction h with
  | nil => exact hmore
  | skip h ih => exact .skip ih
  | pick hpick h ih => exact .pick hpick ih

/-- What is picked of groups is what is picked of the first and what is picked of the others. -/
theorem Picked.exists_append {group : List (ι → Option α)} (h : Picked (group :: groups) layers) :
    ∃ taken rest, Picked [group] taken ∧ Picked groups rest ∧ layers = taken ++ rest := by
  cases h with
  | skip h => exact ⟨[], layers, .skip .nil, h, rfl⟩
  | @pick _ _ layer rest hlayer h => exact ⟨[layer], rest, .pick hlayer .nil, h, rfl⟩

/-- One layer of every group can be picked, with what every group has one of. -/
theorem exists_picked {P : (ι → Option α) → Prop}
    (h : ∀ group ∈ groups, group ≠ [] → ∃ layer ∈ group, P layer) :
    ∃ layers, Picked groups layers ∧ ∀ layer ∈ layers, P layer := by
  induction groups with
  | nil => exact ⟨[], .nil, fun _ hlayer ↦ absurd hlayer List.not_mem_nil⟩
  | cons group groups ih =>
    obtain ⟨layers, hlayers, hall⟩ :=
      ih fun other hother ↦ h other (List.mem_cons_of_mem _ hother)
    by_cases hsome : group = []
    · exact ⟨layers, hsome ▸ .skip hlayers, hall⟩
    · obtain ⟨layer, hlayer, hP⟩ := h group List.mem_cons_self hsome
      exact ⟨layer :: layers, .pick hlayer hlayers, List.forall_mem_cons.mpr ⟨hP, hall⟩⟩

/-! ## What comes out -/

/-- Layers of which none has another value than the target come to it, if one has a value or the base
has it. -/
theorem stack_apply_eq (hvalues : ∀ layer ∈ layers, ∀ value, layer i = some value → target i = some value)
    (hsome : base i = target i ∨ ∃ layer ∈ layers, (layer i).isSome) :
    stack base layers i = target i := by
  induction layers using List.reverseRecOn with
  | nil => exact hsome.resolve_right fun ⟨_, hlayer, _⟩ ↦ absurd hlayer List.not_mem_nil
  | append_singleton layers layer ih =>
    rw [stack_concat, overlay_apply]
    cases hlayer : layer i with
    | some value =>
      rw [Option.some_or]
      exact (hvalues layer (List.mem_append_right _ (List.mem_singleton_self _)) value hlayer).symm
    | none =>
      rw [Option.none_or]
      refine ih (fun other hother ↦ hvalues other (List.mem_append_left _ hother)) ?_
      refine hsome.imp_right fun ⟨other, hother, hvalue⟩ ↦ ?_
      obtain hother | hother := List.mem_append.mp hother
      · exact ⟨other, hother, hvalue⟩
      · rw [List.mem_singleton.mp hother, hlayer] at hvalue
        exact absurd hvalue Bool.false_ne_true

theorem stack_apply_of_none (hnone : ∀ layer ∈ layers, layer i = none) : stack base layers i = base i := by
  induction layers using List.reverseRecOn with
  | nil => rfl
  | append_singleton layers layer ih =>
    rw [stack_concat, overlay_apply,
      hnone layer (List.mem_append_right _ (List.mem_singleton_self _)), Option.none_or]
    exact ih fun other hother ↦ hnone other (List.mem_append_left _ hother)

/-- At a place, groups come to a target whatever their order and whatever is picked. -/
structure ComesTo (base target : ι → Option α) (groups : List (List (ι → Option α))) (i : ι) : Prop where
  values : ∀ group ∈ groups, ∀ layer ∈ group, ∀ value, layer i = some value → target i = some value
  sure : base i = target i ∨ ∃ group ∈ groups, group ≠ [] ∧ ∀ layer ∈ group, (layer i).isSome

section Order

variable {γ : Type*} {chunks : List γ} {layersOf : γ → List (ι → Option α)}

theorem stack_eq_of_comesTo {order : List γ} (hperm : order.Perm chunks)
    (h : ∀ i, ComesTo base target (chunks.map layersOf) i) (hpicked : Picked (order.map layersOf) layers) :
    stack base layers = target := by
  have hgroups : (order.map layersOf).Perm (chunks.map layersOf) := hperm.map layersOf
  funext i
  apply stack_apply_eq
  · intro layer hlayer value hvalue
    obtain ⟨group, hgroup, hmem⟩ := hpicked.exists_group hlayer
    exact (h i).values group (hgroups.mem_iff.mp hgroup) layer hmem value hvalue
  · refine (h i).sure.imp_right fun ⟨group, hgroup, hsome, hall⟩ ↦ ?_
    obtain ⟨layer, hlayer, hmem⟩ := hpicked.exists_layer (hgroups.mem_iff.mpr hgroup) hsome
    exact ⟨layer, hlayer, hall layer hmem⟩

theorem comesTo_of_stack_eq (h : ∀ order : List γ, order.Perm chunks → ∀ layers,
    Picked (order.map layersOf) layers → stack base layers = target) (i : ι) :
    ComesTo base target (chunks.map layersOf) i where
  values group hgroup layer hlayer value hvalue := by
    -- The chunk is stored last, and this layer of it.
    obtain ⟨chunk, hchunk, rfl⟩ := List.mem_map.mp hgroup
    obtain ⟨before, after, rfl⟩ := List.append_of_mem hchunk
    obtain ⟨layers, hlayers, -⟩ := @exists_picked ι α ((before ++ after).map layersOf) (fun _ ↦ True)
      fun other _ hsome ↦ ⟨_, List.head_mem hsome, trivial⟩
    have hperm : (before ++ after ++ [chunk]).Perm (before ++ chunk :: after) := by
      rw [List.append_assoc]
      exact (List.perm_append_singleton chunk after).append_left before
    have hpicked : Picked ((before ++ after ++ [chunk]).map layersOf) (layers ++ [layer]) := by
      rw [List.map_append, List.map_singleton]
      exact hlayers.append (.pick hlayer .nil)
    rw [← h _ hperm _ hpicked, stack_concat, overlay_apply, hvalue, Option.some_or]
  sure := by
    by_contra hnot
    obtain ⟨hbase, hnone⟩ := not_or.mp hnot
    obtain ⟨layers, hlayers, hlacks⟩ := @exists_picked ι α (chunks.map layersOf)
      (fun layer ↦ layer i = none) (by
        intro group hgroup hsome
        by_contra hall
        refine hnone ⟨group, hgroup, hsome, fun layer hlayer ↦ ?_⟩
        rw [Option.isSome_iff_ne_none]
        exact fun hlayerNone ↦ hall ⟨layer, hlayer, hlayerNone⟩)
    have hstack := congrFun (h chunks (List.Perm.refl _) layers hlayers) i
    rw [stack_apply_of_none hlacks] at hstack
    exact hbase hstack

/-- Chunks come to a target in every order and with every pick exactly if they do at every place. -/
theorem forall_picked_iff : (∀ order : List γ, order.Perm chunks → ∀ layers,
    Picked (order.map layersOf) layers → stack base layers = target) ↔
      ∀ i, ComesTo base target (chunks.map layersOf) i :=
  ⟨comesTo_of_stack_eq, fun h _ hperm _ hpicked ↦ stack_eq_of_comesTo hperm h hpicked⟩

end Order

end OsrsMap.Overlay
