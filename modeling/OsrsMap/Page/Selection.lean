import OsrsMap.Library.Run
import Mathlib.Data.List.Nodup
import Mathlib.Data.List.Perm.Subperm

/-!
# Whose trails are shown

`Selection` (`site/src/data/selection.js`): the players whose trails are on, at most eight. They are
remembered in the browser (`remember`, `remembered` in `site/src/data/storage.js`) and published as the
topic "trails-changed". What is remembered is read once, when somebody has signed in
(`AppInitializer.loadSignedIn`), and may be anything: another page of the site may have written it.
-/

namespace OsrsMap.Page

open Run

/-- `MAX_TRAILS`. -/
def maxTrails : ℕ := 8

/-- What the browser has under the key of the trails, as `restore` tells it apart: nothing or nothing
readable, something that is no array, or an array, of which only the strings count. -/
inductive Remembered where
  | nothing
  | notArray
  | array (values : List (Option String))
deriving DecidableEq, Repr

/-- The trails, what is remembered of them and what was published last. A `Set` is its elements in the
order in which they were added. -/
structure Selection where
  trails : List String
  stored : Remembered
  published : Option (List String)
deriving DecidableEq, Repr

inductive SelectionEvent where
  | toggleTrail (name : String)
  | clearTrails
  | retainTrails (names : List String)
deriving DecidableEq, Repr

/-- The trails that `restore` makes of what is remembered. -/
def Remembered.trails : Remembered → List String
  | .nothing | .notArray => []
  | .array values => ((values.filterMap id).take maxTrails).eraseDups

namespace Selection

/-- Before anybody has signed in. -/
def signedOut (stored : Remembered) : Selection where
  trails := []
  stored
  published := none

/-- Shows the trails that were on before the page was reloaded. -/
def restore (selection : Selection) : Selection :=
  let trails := selection.stored.trails
  { selection with
    trails
    published := if trails = [] then selection.published else some trails }

def hasTrail (selection : Selection) (name : String) : Bool := name ∈ selection.trails

@[simp]
theorem hasTrail_iff {selection : Selection} {name : String} :
    selection.hasTrail name = true ↔ name ∈ selection.trails := decide_eq_true_iff

/-- `trailsChanged`, with the trails as they are now: they are remembered and published. -/
def trailsChanged (trails : List String) : Selection where
  trails
  stored := .array (trails.map some)
  published := some trails

/-- Shows or hides a player's trail, and whether the limit let it. -/
def toggleTrail (selection : Selection) (name : String) : Selection × Bool :=
  if selection.hasTrail name then (trailsChanged (selection.trails.erase name), true)
  else if maxTrails ≤ selection.trails.length then (selection, false)
  else (trailsChanged (selection.trails ++ [name]), true)

def clearTrails : Selection := trailsChanged []

/-- Forgets players that left the roster; an empty roster is one that hasn't loaded yet. -/
def retainTrails (selection : Selection) (names : List String) : Selection :=
  let kept := selection.trails.filter (· ∈ names)
  if names = [] ∨ kept = selection.trails then selection else trailsChanged kept

def step (selection : Selection) : SelectionEvent → Selection
  | .toggleTrail name => (selection.toggleTrail name).1
  | .clearTrails => clearTrails
  | .retainTrails names => selection.retainTrails names

/-- Whether an event publishes "trails-changed". -/
def tells (selection : Selection) : SelectionEvent → Bool
  | .toggleTrail name => (selection.toggleTrail name).2
  | .clearTrails => true
  | .retainTrails names => ¬ (names = [] ∨ selection.trails.filter (· ∈ names) = selection.trails)

/-- `cleanup` and then `loadSignedIn` of a page that is loaded anew. -/
def reloaded (selection : Selection) : Selection := (signedOut selection.stored).restore

/-! ## Invariants -/

/-- No trail is on twice, no more than the limit are on, and what was published is what is on. -/
structure Told (selection : Selection) : Prop where
  nodup : selection.trails.Nodup
  short : selection.trails.length ≤ maxTrails
  published : selection.published = none ∧ selection.trails = [] ∨
    selection.published = some selection.trails

/-- And a page that is loaded anew shows the same in the same order. -/
structure Sound (selection : Selection) : Prop extends Told selection where
  reloaded : selection.reloaded.trails = selection.trails

variable {selection : Selection} {trails : List String}

theorem nodup_eraseDups (names : List String) : names.eraseDups.Nodup := by
  generalize hlength : names.length = count
  induction count using Nat.strong_induction_on generalizing names with
  | _ count ih =>
    cases names with
    | nil => exact .nil
    | cons name names =>
      have hshorter : (names.filter fun other ↦ !other == name).length < count := by
        rw [← hlength, List.length_cons]
        exact Nat.lt_succ_of_le (List.length_filter_le _ _)
      rw [List.eraseDups_cons, List.nodup_cons]
      refine ⟨fun hmem ↦ ?_, ih _ hshorter _ rfl⟩
      simpa using (List.mem_filter.mp (List.mem_eraseDups.mp hmem)).2

theorem eraseDups_of_nodup {names : List String} (h : names.Nodup) : names.eraseDups = names := by
  induction names with
  | nil => rfl
  | cons name names ih =>
    obtain ⟨hname, hnames⟩ := List.nodup_cons.mp h
    rw [List.eraseDups_cons, List.filter_eq_self.mpr, ih hnames]
    intro other hother
    simpa using fun hsame : other = name ↦ hname (hsame ▸ hother)

/-- What `trailsChanged` remembers is read back as it was. -/
theorem trails_array (hnodup : trails.Nodup) (hshort : trails.length ≤ maxTrails) :
    (Remembered.array (trails.map some)).trails = trails := by
  have hread : (trails.map some).filterMap id = trails := by
    rw [List.filterMap_map]
    exact List.filterMap_some
  rw [Remembered.trails, hread, List.take_of_length_le hshort, eraseDups_of_nodup hnodup]

theorem nodup_trails (stored : Remembered) : stored.trails.Nodup := by
  cases stored with
  | nothing | notArray => exact .nil
  | array values => exact nodup_eraseDups _

theorem length_trails_le (stored : Remembered) : stored.trails.length ≤ maxTrails := by
  cases stored with
  | nothing | notArray => exact Nat.zero_le _
  | array values =>
    have hsub : (Remembered.array values).trails ⊆ (values.filterMap id).take maxTrails :=
      fun name hname ↦ List.mem_eraseDups.mp hname
    exact (List.Nodup.subperm (nodup_eraseDups _) hsub).length_le.trans (List.length_take_le _ _)

/-- What is restored before anything was published is told. -/
theorem told_restore (h : selection.published = none) : selection.restore.Told where
  nodup := nodup_trails selection.stored
  short := length_trails_le selection.stored
  published := by
    by_cases htrails : selection.stored.trails = []
    · exact .inl ⟨by simp [restore, htrails, h], htrails⟩
    · exact .inr (by simp [restore, htrails])

theorem told_trailsChanged (hnodup : trails.Nodup) (hshort : trails.length ≤ maxTrails) :
    (trailsChanged trails).Told where
  nodup := hnodup
  short := hshort
  published := .inr rfl

/-- An event leaves everything as it was and tells nobody, or it sets other trails and tells everyone. -/
theorem step_cases (h : selection.Told) (event : SelectionEvent) :
    selection.step event = selection ∧ selection.tells event = false ∨
      ∃ trails, selection.step event = trailsChanged trails ∧ selection.tells event = true ∧
        trails.Nodup ∧ trails.length ≤ maxTrails := by
  cases event with
  | toggleTrail name =>
    rw [step, tells, toggleTrail]
    split_ifs with hhas hfull
    · exact .inr ⟨_, rfl, rfl, h.nodup.erase name, List.length_erase_le.trans h.short⟩
    · exact .inl ⟨rfl, rfl⟩
    · have hnew : name ∉ selection.trails := by simpa using hhas
      refine .inr ⟨_, rfl, rfl, List.concat_eq_append ▸ h.nodup.concat hnew, ?_⟩
      rw [List.length_append, List.length_singleton]
      omega
  | clearTrails => exact .inr ⟨[], rfl, rfl, .nil, Nat.zero_le _⟩
  | retainTrails names =>
    rw [step, tells, retainTrails]
    split_ifs with hkept
    · exact .inl ⟨rfl, decide_eq_false (not_not_intro hkept)⟩
    · refine .inr ⟨_, rfl, decide_eq_true hkept, h.nodup.filter _, ?_⟩
      exact (List.length_filter_le _ _).trans h.short

/-- A trail that is on was on before, or was switched on. -/
theorem mem_trails_step {event : SelectionEvent} {name : String} (h : name ∈ (selection.step event).trails) :
    name ∈ selection.trails ∨ event = .toggleTrail name := by
  cases event with
  | toggleTrail toggled =>
    rw [step, toggleTrail] at h
    split_ifs at h
    · exact .inl (List.mem_of_mem_erase h)
    · exact .inl h
    · obtain hold | hnew := List.mem_append.mp h
      · exact .inl hold
      · exact .inr (congrArg SelectionEvent.toggleTrail (List.mem_singleton.mp hnew).symm)
  | clearTrails => cases h
  | retainTrails names =>
    rw [step, retainTrails] at h
    split_ifs at h
    · exact .inl h
    · exact .inl (List.mem_filter.mp h).1

theorem sound_step (h : selection.Sound) (event : SelectionEvent) : (selection.step event).Sound := by
  obtain ⟨hsame, -⟩ | ⟨trails, hstep, -, hnodup, hshort⟩ := step_cases h.toTold event
  · rw [hsame]
    exact h
  · rw [hstep]
    exact ⟨told_trailsChanged hnodup hshort, trails_array hnodup hshort⟩

/-- Whatever was remembered and whatever is switched on and off since: at most eight trails are on, none
of them twice, everyone was told of exactly those, and a page that is loaded anew shows the same in the
same order. -/
theorem always_sound (stored : Remembered) (events : List SelectionEvent) :
    Always step Sound (signedOut stored).restore events := by
  have hstart : (signedOut stored).restore.Sound := ⟨told_restore rfl, rfl⟩
  exact always_of_along (fun _ event h _ ↦ sound_step h event) hstart (along_true _ events)

end Selection

end OsrsMap.Page
