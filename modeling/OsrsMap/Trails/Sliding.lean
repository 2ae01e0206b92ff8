import OsrsMap.Trails.Thinning

/-!
# Thinning as the window slides

What a trail's stays weigh from one jump to a later one is a matter of these stays alone, whatever
lies before and after them and wherever in the trail they stand.
-/

namespace OsrsMap.Trails

variable (off : TrailPoint → TrailPoint → TrailPoint → ℚ)

/-- A part of a trail: it starts at a jump and ends right before one. -/
structure Shared (part points : List TrailPoint) (index : ℕ) : Prop where
  here : (points.drop index).take part.length = part
  starts : (pointAt points index).jump = true
  ends : (pointAt points (index + part.length)).jump = true
  goesOn : index + part.length < points.length

/-- What stands where a part does. -/
def window {α : Type*} (index count : ℕ) (list : List α) : List α := (list.drop index).take count

/-- What the stays of a part weigh, when a jump comes after it. -/
def weighShared (part : List TrailPoint) : List ℕ :=
  let (start, weights) := (List.range' 1 (part.length - 1)).foldl (weighTo off part part.length)
    (0, (List.replicate part.length 0).set 0 always)
  weighWalk off part start (part.length - 1) (weights.set (part.length - 1) always)

/-! ## Windows -/

section Window

variable {α : Type*} {index count i : ℕ} {list : List α}

theorem window_set_inside (x : α) :
    window index count (list.set (index + i) x) = (window index count list).set i x := by
  unfold window
  rw [List.drop_set, if_neg (by omega), List.take_set, Nat.add_sub_cancel_left]

theorem window_set_outside (h : i < index ∨ index + count ≤ i) (x : α) :
    window index count (list.set i x) = window index count list := by
  unfold window
  rw [List.drop_set]
  split_ifs with hi
  · rfl
  · rw [List.take_set_of_le (by omega)]

theorem getElem?_window (h : i < count) : (window index count list)[i]? = list[index + i]? := by
  unfold window
  rw [List.getElem?_take_of_lt h, List.getElem?_drop]

end Window

variable {off} {part points : List TrailPoint} {index : ℕ}

theorem Shared.pointAt_add (h : Shared part points index) {i : ℕ} (hi : i < part.length) :
    pointAt points (index + i) = pointAt part i := by
  unfold pointAt
  rw [List.getD_eq_getElem?_getD, List.getD_eq_getElem?_getD, ← getElem?_window hi, window, h.here]

/-- The stays between two of a part. -/
theorem Shared.between (h : Shared part points index) {i j : ℕ} (hj : j ≤ part.length) :
    (points.take (index + j)).drop (index + i) = (part.take j).drop i := by
  calc (points.take (index + j)).drop (index + i)
      = ((points.drop index).take j).drop i := by
        rw [List.drop_take, List.drop_take, List.drop_drop]
        congr 1
        omega
    _ = (part.take j).drop i := by
        conv_rhs => rw [← h.here, List.take_take, min_eq_left hj]

/-! ## A walk -/

/-- A loop over indices and the same loop from another index on. -/
theorem foldl_range'_related {β γ : Type*} {R : β → γ → Prop} {f : β → ℕ → β} {g : γ → ℕ → γ}
    {index first count : ℕ} {x : β} {y : γ}
    (h : ∀ k, first ≤ k → k < first + count → ∀ x y, R x y → R (f x (index + k)) (g y k))
    (hstart : R x y) :
    R ((List.range' (index + first) count).foldl f x) ((List.range' first count).foldl g y) := by
  induction count generalizing first x y with
  | zero => exact hstart
  | succ count ih =>
    rw [List.range'_succ, List.range'_succ, List.foldl_cons, List.foldl_cons]
    rw [add_assoc]
    apply ih
    · intro k hfirst hcount
      exact h k (by omega) (by omega)
    · exact h first le_rfl (by omega) x y hstart

theorem Shared.furthest_add (h : Shared part points index) {a b : ℕ} (ha : a < part.length)
    (hb : b < part.length) :
    furthest off points (index + a) (index + b) =
      (index + (furthest off part a b).1, (furthest off part a b).2) := by
  have hcount : index + b - (index + a + 1) = b - (a + 1) := by omega
  unfold furthest
  rw [hcount, add_assoc]
  apply foldl_range'_related (R := fun x y : ℕ × ℚ ↦ x = (index + y.1, y.2))
  · intro k hk hkb x y hxy
    dsimp only
    rw [hxy, h.pointAt_add ha, h.pointAt_add hb, h.pointAt_add (i := k) (by omega)]
    split_ifs <;> rfl
  · rfl

theorem Shared.halfway_add (h : Shared part points index) {a b : ℕ} (hab : a + 2 ≤ b)
    (hb : b < part.length) (long : ℤ) :
    halfway points (index + a) (index + b) long = index + halfway part a b long := by
  unfold halfway
  dsimp only
  rw [h.pointAt_add (by omega), add_assoc index a 1, h.between hb.le]
  omega

/-- A task where the part stands in the trail. -/
def Part.shift (index : ℕ) (task : Part) : Part := ⟨index + task.a, index + task.b, task.limit⟩

theorem Shared.weighPart_shift (h : Shared part points index) {task : Part}
    (hb : task.b < part.length) (weights : List ℕ) :
    (weighPart off points (task.shift index) weights).1 =
        (weighPart off part task (window index part.length weights)).1.map (Part.shift index) ∧
      window index part.length (weighPart off points (task.shift index) weights).2 =
        (weighPart off part task (window index part.length weights)).2 := by
  have hsize : index + task.b - (index + task.a) = task.b - task.a := by omega
  unfold weighPart
  dsimp only [Part.shift]
  rw [hsize]
  by_cases hshort : task.b - task.a < 2
  · rw [if_pos hshort, if_pos hshort]
    exact ⟨rfl, rfl⟩
  · have ha : task.a < part.length := by omega
    rw [if_neg hshort, if_neg hshort, h.furthest_add ha hb, h.pointAt_add ha, h.pointAt_add hb,
      h.halfway_add (by omega) hb, add_assoc]
    dsimp only
    split_ifs
    · rw [window_set_inside]
      exact ⟨rfl, rfl⟩
    · exact ⟨rfl, rfl⟩
    · rw [window_set_inside]
      exact ⟨rfl, rfl⟩
    · rw [window_set_inside]
      exact ⟨rfl, rfl⟩

theorem weighPart_within {points : List TrailPoint} {P : Part → Prop} {task : Part}
    (hleft : ∀ split weight, task.a < split → split < task.b → P ⟨task.a, split, weight⟩)
    (hright : ∀ split weight, task.a < split → split < task.b → P ⟨split, task.b, weight⟩)
    (weights : List ℕ) : ∀ next ∈ (weighPart off points task weights).1, P next := by
  obtain hnone | ⟨split, weight, ha, hb, -, hsplit⟩ := weighPart_cases off points task weights
  · simp [hnone]
  · simp [hsplit, hleft split weight ha hb, hright split weight ha hb]

/-- Weighing a walk within the part. -/
theorem Shared.window_weighWalk (h : Shared part points index) {a b : ℕ} (hb : b < part.length)
    (weights : List ℕ) :
    window index part.length (weighWalk off points (index + a) (index + b) weights) =
      weighWalk off part a b (window index part.length weights) := by
  have hstep : ∀ task state, task.b < part.length →
      (∀ next ∈ (weighPart off part task (window index part.length state)).1,
        next.b < part.length) ∧
      (weighPart off points (task.shift index) state).1 =
        (weighPart off part task (window index part.length state)).1.map (Part.shift index) ∧
      window index part.length (weighPart off points (task.shift index) state).2 =
        (weighPart off part task (window index part.length state)).2 := by
    intro task state htask
    refine ⟨?_, h.weighPart_shift htask state⟩
    apply weighPart_within
    · exact fun split _ _ hsplit ↦ hsplit.trans htask
    · exact fun _ _ _ _ ↦ htask
  have hwithin : ∀ task ∈ [(⟨a, b, always⟩ : Part)], task.b < part.length := by
    simpa using hb
  exact (weighParts off points).drain_map (weighParts off part) (Part.shift index)
    (window index part.length) hstep hwithin

/-- Weighing a walk outside of the part. -/
theorem window_weighWalk_outside {count a b : ℕ} (h : b ≤ index ∨ index + count ≤ a)
    (weights : List ℕ) :
    window index count (weighWalk off points a b weights) = window index count weights := by
  apply (weighParts off points).drain_keeps
    (fun task ↦ task.b ≤ index ∨ index + count ≤ task.a)
    (fun after ↦ window index count after = window index count weights)
  · intro task after htask hafter
    refine ⟨?_, ?_⟩
    · apply weighPart_within
      · exact fun split _ _ hsplit ↦ htask.imp hsplit.le.trans id
      · exact fun split _ hsplit _ ↦ htask.imp id fun hle ↦ hle.trans hsplit.le
    · change window index count (weighPart off points task after).2 = window index count weights
      obtain hnone | ⟨split, weight, ha, hb, -, hsplit⟩ := weighPart_cases off points task after
      · rw [hnone, hafter]
      · rw [hsplit, window_set_outside (by omega), hafter]
  · simpa using h
  · rfl

/-! ## A trail -/

theorem weighTo_jump {last next : ℕ} (h : (pointAt points next).jump = true)
    (state : ℕ × List ℕ) : weighTo off points last state next =
      (next, weighWalk off points state.1 (next - 1)
        ((state.2.set (next - 1) always).set next always)) := by
  obtain ⟨start, weights⟩ := state
  unfold weighTo
  exact if_pos (.inl h)

/-- A step of the loop outside of the part. -/
theorem window_weighTo_outside {count last next : ℕ} {state : ℕ × List ℕ}
    (h : next < index ∨ index + count ≤ state.1 ∧ index + count < next) :
    window index count (weighTo off points last state next).2 = window index count state.2 ∧
      ((weighTo off points last state next).1 = state.1 ∨
        (weighTo off points last state next).1 = next) := by
  obtain ⟨start, weights⟩ := state
  dsimp only at h
  unfold weighTo
  split_ifs
  · refine ⟨?_, .inr rfl⟩
    dsimp only
    rw [window_weighWalk_outside (by omega), window_set_outside (by omega),
      window_set_outside (by omega)]
  · exact ⟨window_weighWalk_outside (by omega) weights, .inl rfl⟩
  · exact ⟨rfl, .inl rfl⟩

/-- What comes before the part changes nothing in it. -/
theorem window_foldl_before {count last first : ℕ} {state : ℕ × List ℕ} (hfirst : first ≤ index) :
    window index count
        ((List.range' first (index - first)).foldl (weighTo off points last) state).2 =
      window index count state.2 := by
  apply List.foldlRecOn 
    (motive := fun after : ℕ × List ℕ ↦ window index count after.2 = window index count state.2)
  · rfl
  · intro after hafter next hnext
    have hnext := List.mem_range'_1.mp hnext
    rw [(window_weighTo_outside (.inl (by omega))).1, hafter]

/-- What comes after the part changes nothing in it. -/
theorem window_foldl_after {count last after : ℕ} {state : ℕ × List ℕ}
    (hstate : index + count ≤ state.1) :
    window index count
        ((List.range' (index + count + 1) after).foldl (weighTo off points last) state).2 =
      window index count state.2 := by
  have hkeeps : index + count ≤
        ((List.range' (index + count + 1) after).foldl (weighTo off points last) state).1 ∧
      window index count
          ((List.range' (index + count + 1) after).foldl (weighTo off points last) state).2 =
        window index count state.2 := by
    apply List.foldlRecOn (motive := fun after : ℕ × List ℕ ↦
      index + count ≤ after.1 ∧ window index count after.2 = window index count state.2)
    · exact ⟨hstate, rfl⟩
    · intro after ⟨hstart, hafter⟩ next hnext
      have hnext := List.mem_range'_1.mp hnext
      have hstep := @window_weighTo_outside off points index count last next after
        (.inr ⟨hstart, by omega⟩)
      obtain ⟨hsame, hmoved⟩ := hstep
      refine ⟨?_, hsame.trans hafter⟩
      obtain hmoved | hmoved := hmoved <;> omega
  exact hkeeps.2

/-- A step of the loop within the part is what it is on the part alone. -/
theorem Shared.weighTo_within (h : Shared part points index) {last start next : ℕ}
    (hlast : index + part.length ≤ last) (hpos : 0 < next) (hnext : next < part.length)
    (weights : List ℕ) :
    (weighTo off points last (index + start, weights) (index + next)).1 =
        index + (weighTo off part part.length (start, window index part.length weights) next).1 ∧
      window index part.length (weighTo off points last (index + start, weights) (index + next)).2 =
        (weighTo off part part.length (start, window index part.length weights) next).2 := by
  have hbefore : index + next - 1 = index + (next - 1) := by omega
  unfold weighTo
  dsimp only
  rw [h.pointAt_add hnext, hbefore, h.pointAt_add (by omega)]
  split_ifs
  · refine ⟨rfl, ?_⟩
    dsimp only
    rw [h.window_weighWalk (by omega), window_set_inside, window_set_inside]
  · omega
  · omega
  · omega
  · exact ⟨rfl, rfl⟩

variable (off) in
theorem Shared.foldl_within (h : Shared part points index) (last : ℕ)
    (hlast : index + part.length ≤ last) (weights : List ℕ) :
    ((List.range' (index + 1) (part.length - 1)).foldl (weighTo off points last)
        (index, weights)).1 = index + ((List.range' 1 (part.length - 1)).foldl
          (weighTo off part part.length) (0, window index part.length weights)).1 ∧
      window index part.length ((List.range' (index + 1) (part.length - 1)).foldl
        (weighTo off points last) (index, weights)).2 = ((List.range' 1 (part.length - 1)).foldl
          (weighTo off part part.length) (0, window index part.length weights)).2 := by
  apply foldl_range'_related (R := fun x y : ℕ × List ℕ ↦
    x.1 = index + y.1 ∧ window index part.length x.2 = y.2)
  · intro next hpos hnext ⟨_, weights⟩ ⟨start, _⟩ ⟨hstart, hweights⟩
    dsimp only at hstart hweights
    subst hstart hweights
    exact h.weighTo_within hlast hpos (by omega) weights
  · exact ⟨rfl, rfl⟩

theorem getElem?_resize {older : List ℕ} {length i : ℕ} (h : older.length ≤ i) (hi : i < length) :
    (resize older length)[i]? = some 0 := by
  unfold resize
  rw [List.take_of_length_le (by omega), List.getElem?_append_right h, List.getElem?_replicate,
    if_pos (by omega)]

/-- Nothing was weighed where the part stands, but for its first stay perhaps. -/
theorem window_resize {older : List ℕ} {length count : ℕ} (holder : older.length ≤ index + 1)
    (hcount : 0 < count) (hlength : index + count ≤ length) :
    (window index count (resize older length)).set 0 always =
      (List.replicate count 0).set 0 always := by
  have hresized : (window index count (resize older length)).length = count := by
    rw [window, List.length_take, List.length_drop, length_resize older (by omega)]
    omega
  apply List.ext_getElem?
  intro i
  by_cases hi : i < count
  · cases i with
    | zero =>
      rw [List.getElem?_set_self (by omega), List.getElem?_set_self (by simpa using hi)]
    | succ i =>
      rw [List.getElem?_set_ne (by omega), List.getElem?_set_ne (by omega), getElem?_window hi,
        getElem?_resize (by omega) (by omega), List.getElem?_replicate, if_pos hi]
  · rw [List.getElem?_eq_none (by rw [List.length_set]; omega),
      List.getElem?_eq_none (by simpa using hi)]

variable (off) in
/-- When the loop comes to the part, it starts anew. -/
theorem Shared.foldl_upTo (h : Shared part points index) (last : ℕ) {start : ℕ} (weights : List ℕ)
    (hstart : start ≤ index)
    (hweights : (window index part.length weights).set 0 always =
      (List.replicate part.length 0).set 0 always)
    (hat : start = index → window index part.length weights =
      (List.replicate part.length 0).set 0 always) :
    ((List.range' (start + 1) (index - start)).foldl (weighTo off points last)
        (start, weights)).1 = index ∧
      window index part.length ((List.range' (start + 1) (index - start)).foldl
        (weighTo off points last) (start, weights)).2 =
          (List.replicate part.length 0).set 0 always := by
  obtain rfl | hlt := hstart.eq_or_lt
  · rw [Nat.sub_self]
    exact ⟨rfl, hat rfl⟩
  · have hcount : index - start = index - (start + 1) + 1 := by omega
    have hindex : start + 1 + 1 * (index - (start + 1)) = index := by omega
    have hbefore := @window_foldl_before off points index part.length last (start + 1)
      (start, weights) hlt
    rw [hcount, List.range'_concat, List.foldl_append, List.foldl_cons, List.foldl_nil, hindex,
      weighTo_jump h.starts]
    generalize (List.range' (start + 1) (index - (start + 1))).foldl (weighTo off points last)
      (start, weights) = state at hbefore
    refine ⟨rfl, ?_⟩
    have hset := @window_set_inside ℕ index part.length 0 (state.2.set (index - 1) always) always
    rw [add_zero] at hset
    dsimp only at hbefore ⊢
    rw [window_weighWalk_outside (by omega), hset, window_set_outside (by omega), hbefore, hweights]

/-- What the part weighs is what it weighs alone. -/
theorem Shared.window_weigh (h : Shared part points index) (hpart : 0 < part.length) {start : ℕ}
    {older : List ℕ} (hstart : start ≤ index) (holder : older.length ≤ start + 1) :
    window index part.length (weigh off points start older) = weighShared off part := by
  have hgoesOn := h.goesOn
  obtain ⟨last, hlast⟩ : ∃ last, points.length = last + 1 := ⟨points.length - 1, by omega⟩
  -- The loop up to the part, in it, at the jump after it, and from there on.
  have hcount : last - start =
      (index - start) + ((part.length - 1) + (1 + (last - (index + part.length)))) := by
    omega
  have hsecond : start + 1 + 1 * (index - start) = index + 1 := by omega
  have hthird : index + 1 + 1 * (part.length - 1) = index + part.length := by omega
  have hblank := window_resize (holder.trans (Nat.add_le_add_right hstart 1)) hpart hgoesOn.le
  have hset (weights : List ℕ) : window index part.length (weights.set index always) =
      (window index part.length weights).set 0 always :=
    @window_set_inside ℕ index part.length 0 weights always
  have hupTo := h.foldl_upTo off last
    (((resize older points.length).set start always).set last always) hstart
    (by
      rw [window_set_outside (by omega)]
      obtain rfl | hlt := hstart.eq_or_lt
      · rw [hset, List.set_set, hblank]
      · rw [window_set_outside (.inl hlt), hblank])
    (by
      rintro rfl
      rw [window_set_outside (by omega), hset, hblank])
  unfold weigh
  rw [hlast] at hupTo ⊢
  dsimp only
  rw [hcount, ← List.range'_append, hsecond, ← List.range'_append, hthird, ← List.range'_append,
    List.foldl_append, List.foldl_append, List.foldl_append, mul_one]
  generalize (List.range' (start + 1) (index - start)).foldl (weighTo off points last)
    (start, ((resize older (last + 1)).set start always).set last always) = upTo at hupTo ⊢
  obtain ⟨begins, weights⟩ := upTo
  obtain ⟨rfl, hweights⟩ : begins = index ∧ window index part.length weights =
    (List.replicate part.length 0).set 0 always := hupTo
  have hwithin := h.foldl_within off last (by omega) weights
  rw [hweights] at hwithin
  generalize (List.range' (begins + 1) (part.length - 1)).foldl (weighTo off points last)
    (begins, weights) = within at hwithin ⊢
  rw [List.range'_one, List.foldl_cons, List.foldl_nil, weighTo_jump h.ends,
    window_foldl_after le_rfl]
  have hbefore : begins + part.length - 1 = begins + (part.length - 1) := by omega
  dsimp only
  rw [hwithin.1, hbefore, h.window_weighWalk (by omega), window_set_outside (by omega),
    window_set_inside, hwithin.2]
  rfl

theorem window_zip {α β : Type*} {index count : ℕ} (first : List α) (second : List β) :
    window index count (first.zip second) =
      (window index count first).zip (window index count second) := by
  unfold window List.zip
  rw [List.drop_zipWith, List.take_zipWith]

/-- Between the same two jumps the same stays weigh the same, and the same ones are kept at any
level, whatever else the two trails have and wherever the weighing of each starts before. -/
theorem weigh_stable (off : TrailPoint → TrailPoint → TrailPoint → ℚ)
    {part points points' : List TrailPoint} {index index' start start' : ℕ} {older older' : List ℕ}
    (h : Shared part points index) (h' : Shared part points' index')
    (hstart : start ≤ index) (holder : older.length ≤ start + 1)
    (hstart' : start' ≤ index') (holder' : older'.length ≤ start' + 1) :
    window index part.length (weigh off points start older) =
        window index' part.length (weigh off points' start' older') ∧
      ∀ level, ((window index part.length (points.zip (weigh off points start older))).filter
          fun pair ↦ level < pair.2) =
        (window index' part.length (points'.zip (weigh off points' start' older'))).filter
          fun pair ↦ level < pair.2 := by
  have hsame : window index part.length (weigh off points start older) =
      window index' part.length (weigh off points' start' older') := by
    obtain hnone | hpart := Nat.eq_zero_or_pos part.length
    · rw [hnone, window, window, List.take_zero, List.take_zero]
    · rw [h.window_weigh hpart hstart holder, h'.window_weigh hpart hstart' holder']
  have hpoints : window index part.length points = window index' part.length points' :=
    h.here.trans h'.here.symm
  refine ⟨hsame, fun level ↦ ?_⟩
  rw [window_zip, window_zip, hsame, hpoints]

/-- A stay of ten seconds. -/
def stayAt (x first : ℤ) (jump : Bool) : TrailPoint :=
  { x, y := 3200, plane := 0, first, last := first + 10, boat := false, world := none, via := none,
    jump }

/-- A walk between two jumps that took long once. -/
def longWalk : List TrailPoint := [stayAt 10 0 true, stayAt 11 20 false, stayAt 12 200 false]

theorem weigh_stable_longWalk :
    window 2 3 (weigh (fun _ _ _ ↦ 0)
        (stayAt 0 (-50) false :: stayAt 1 (-30) false :: longWalk ++ [stayAt 90 300 true]) 0 []) =
      window 0 3 (weigh (fun _ _ _ ↦ 0)
        (longWalk ++ [stayAt 90 300 true, stayAt 91 400 false]) 0 []) := by
  have hlater : Shared longWalk
      (stayAt 0 (-50) false :: stayAt 1 (-30) false :: longWalk ++ [stayAt 90 300 true]) 2 :=
    ⟨by decide, by decide, by decide, by decide⟩
  have hfirst : Shared longWalk
      (longWalk ++ [stayAt 90 300 true, stayAt 91 400 false]) 0 :=
    ⟨by decide, by decide, by decide, by decide⟩
  have hsame := weigh_stable (fun _ _ _ ↦ 0) hlater hfirst (Nat.zero_le 2)
    (show ([] : List ℕ).length ≤ 0 + 1 by decide) le_rfl (show ([] : List ℕ).length ≤ 0 + 1 by decide)
  exact hsame.1

end OsrsMap.Trails
