import OsrsMap.Page.TrailRequests

/-!
# Runs of the map page

What holds all along while somebody is signed in, whatever they do, in whatever order answers come and
whichever of them fail: what the map shows, that the page goes on asking, and what it asks for.

Every change of what is asked for goes through `loadTrails`, which overtakes the requests under way. So
the invariants come in two parts: `Base`, which holds even of a page that has not heard of a change yet,
and what `loadTrails` makes of any such page.
-/

namespace OsrsMap.Page

open Run
open Trails (Span TrailJson)
open Site (SessionOption sessionOptions Dates PlaySession)

/-! ## The menu -/

/-- The value of an option for a session. -/
def SessionValue (value : String) : Prop := ∃ start : ℤ, value = "session:" ++ toString start

theorem not_sessionValue_of_mem {value : String} (h : value ∈ trailLengths) : ¬ SessionValue value := by
  rintro ⟨start, rfl⟩
  simp only [trailLengths, List.mem_cons, List.not_mem_nil, or_false] at h
  obtain h | h := h
  all_goals
    have hlength := congrArg String.length h
    rw [String.length_append] at hlength
    have hprefix : "session:".length = 8 := by decide
    have hshort : "1".length = 1 ∧ "7".length = 1 := by decide
    omega

/-- What is offered below the lengths are the sessions the page knows, and what is remembered is not one of
them. -/
structure SessionMenu.Listed (menu : SessionMenu) : Prop where
  choices : ∀ choice ∈ menu.sessionChoices, SessionValue choice.value
  group : ∀ value ∈ menu.group, ∃ choice ∈ menu.sessionChoices, choice.value = value
  remembered : ¬ SessionValue menu.rememberedDays
  offered : ∀ choice ∈ menu.sessionChoices, (menu.sessionsOf, choice) ∈ menu.offered

/-- And without a session that was picked a length is selected; one that was picked was offered. -/
structure SessionMenu.Ok (menu : SessionMenu) : Prop extends Listed menu where
  length : menu.pickedSession = none → menu.value ∈ trailLengths
  picked : ∀ picked ∈ menu.pickedSession, (picked.member, picked.choice) ∈ menu.offered

theorem sessionValue_of_mem_sessionOptions {dates : Dates} {sessions : Option (List PlaySession)}
    {nowMs : ℤ} {picked : Option ℤ} {choice : SessionOption}
    (h : choice ∈ sessionOptions dates sessions nowMs picked) : SessionValue choice.value := by
  obtain ⟨_, _, times, _, _, rfl⟩ := Site.exists_of_mem_sessionOptions h
  exact ⟨times.start, rfl⟩

namespace SessionMenu

variable {menu : SessionMenu}

theorem not_mem_group (h : menu.Listed) {value : String} (hvalue : ¬ SessionValue value) :
    value ∉ menu.group := by
  intro hmem
  obtain ⟨choice, hchoice, rfl⟩ := h.group value hmem
  exact hvalue (h.choices choice hchoice)

/-- The length that is remembered is one of the lengths. -/
theorem storedTrailDays_mem (h : menu.Listed) : menu.storedTrailDays ∈ trailLengths := by
  rw [storedTrailDays]
  split_ifs with hoffered
  · obtain hlength | hgroup := List.mem_append.mp hoffered
    · exact hlength
    · exact absurd hgroup (not_mem_group h h.remembered)
  · decide

theorem value_select {value : String} (h : value ∈ trailLengths) : (menu.select value).value = value :=
  if_pos (List.mem_append_left _ h)

theorem value_select_stored (h : menu.Listed) :
    (menu.select menu.storedTrailDays).value ∈ trailLengths := by
  rw [value_select (storedTrailDays_mem h)]
  exact storedTrailDays_mem h

theorem ok_dropSession (h : menu.Listed) : menu.dropSession.Ok where
  toListed := { h with }
  length _ := by
    rw [dropSession, value_select (storedTrailDays_mem h)]
    exact storedTrailDays_mem h
  picked := by simp [dropSession, select]

theorem ok_rendered (h : menu.Ok) : menu.rendered.Ok where
  toListed := { h with group := by simp [rendered, select] }
  length _ := value_select_stored { h.toListed with group := by simp }
  picked := h.picked

/-- Listing sessions changes what is offered and may change what is selected; a length stays. -/
theorem exists_showSessions (menu : SessionMenu) (owner : Option String) (choices : List SessionOption) :
    ∃ value, menu.showSessions owner choices =
        { menu with
          sessionsOf := owner
          sessionChoices := choices
          group := choices.map SessionOption.value
          offered := menu.offered ++ choices.map fun choice ↦ (owner, choice)
          value } ∧
      (menu.pickedSession = none → menu.value ∈ trailLengths → value = menu.value) := by
  refine ⟨(menu.showSessions owner choices).value, ?_, fun hpicked hlength ↦ ?_⟩
  · rw [showSessions]
    dsimp only
    split_ifs <;> rfl
  · have hsome : menu.value ≠ "" := by
      intro hempty
      rw [hempty] at hlength
      revert hlength
      decide
    simp [showSessions, hpicked, hsome, value_select hlength]

/-- A session that was picked is one that was offered, or one that is listed now. -/
theorem ok_showSessions {owner : Option String} {choices : List SessionOption}
    (hremembered : ¬ SessionValue menu.rememberedDays)
    (hlength : menu.pickedSession = none → menu.value ∈ trailLengths)
    (hpicked : ∀ picked ∈ menu.pickedSession, (picked.member, picked.choice) ∈ menu.offered ∨
      picked.member = owner ∧ picked.choice ∈ choices)
    (hchoices : ∀ choice ∈ choices, SessionValue choice.value) : (menu.showSessions owner choices).Ok := by
  obtain ⟨value, hshown, hvalue⟩ := exists_showSessions menu owner choices
  rw [hshown]
  exact
    { choices := hchoices
      group := fun value hmem ↦ List.mem_map.mp hmem
      remembered := hremembered
      offered := fun choice hchoice ↦
        List.mem_append_right _ (List.mem_map.mpr ⟨choice, hchoice, rfl⟩)
      length := fun hnone ↦ by
        rw [hvalue hnone (hlength hnone)]
        exact hlength hnone
      picked := fun picked hmem ↦ by
        obtain hold | ⟨howner, hnew⟩ := hpicked picked hmem
        · exact List.mem_append_left _ hold
        · exact List.mem_append_right _ (List.mem_map.mpr ⟨picked.choice, hnew, by rw [howner]⟩) }

/-- Nothing that was offered is forgotten. -/
theorem offered_showSessions (menu : SessionMenu) (owner : Option String) (choices : List SessionOption) :
    menu.offered ⊆ (menu.showSessions owner choices).offered := by
  obtain ⟨value, hshown, -⟩ := exists_showSessions menu owner choices
  rw [hshown]
  exact List.subset_append_left _ _

@[simp]
theorem pickedSession_showSessions (owner : Option String) (choices : List SessionOption) :
    (menu.showSessions owner choices).pickedSession = menu.pickedSession := by
  obtain ⟨value, hshown, -⟩ := exists_showSessions menu owner choices
  rw [hshown]

section Load

variable (owner : Option String) (now : ℕ)

theorem ok_load (h : menu.Ok) : (menu.load owner now).Ok := by
  cases owner with
  | none =>
    refine ok_showSessions h.remembered h.length (fun picked hpicked ↦ ?_) (by simp)
    exact .inl (h.picked picked hpicked)
  | some name =>
    rw [load]
    dsimp only
    split_ifs <;> exact { h with }

theorem pickedSession_load : (menu.load owner now).pickedSession = menu.pickedSession := by
  cases owner with
  | none => exact pickedSession_showSessions none []
  | some name =>
    rw [load]
    dsimp only
    split_ifs <;> rfl

theorem offered_load : menu.offered ⊆ (menu.load owner now).offered := by
  cases owner with
  | none => exact offered_showSessions { menu with sessionsWanted := none, sessionsRequestId := _ } none []
  | some name =>
    rw [load]
    dsimp only
    split_ifs <;> exact fun _ hmem ↦ hmem

end Load

end SessionMenu

/-! ## Invariants -/

/-- A request asks for a length of the menu, or for a session that was offered of a player it asks for. -/
def TrailRequest.Askable (request : TrailRequest) (offered : List (Option String × SessionOption)) : Prop :=
  (∃ days, (days = 1 ∨ days = 7) ∧ request.span = some (.days days)) ∨
    ∃ name ∈ request.names, ∃ choice, (some name, choice) ∈ offered ∧
      request.span = some (.between choice.fromSecs choice.toSecs)

/-- And for one to eight players, none of them twice. -/
structure TrailRequest.Few (request : TrailRequest) : Prop where
  nonempty : request.names ≠ []
  nodup : request.names.Nodup
  short : request.names.length ≤ maxTrails

/-- Over what the trails of an answer are drawn. -/
def Taken.window (taken : Taken) : Option SpanWindow := taken.request.span.map (spanWindow · taken.nowS)

/-- A trail on the map is one of the answer, of a player that was asked for. -/
structure Taken.Shows (taken : Taken) (name : String) (shown : ShownTrail) : Prop where
  asked : name ∈ taken.request.names
  entry : ∃ entry ∈ taken.answer.trails, entry.member = name ∧ entry.trail = some shown.trail
  window : shown.window = taken.window

/-- The map shows of the players that were asked for just what the answer says, and nothing of anybody else. -/
structure Taken.IsDrawn (taken : Taken) (onMap : OrderedMap String ShownTrail) : Prop where
  about : taken.answer.trails.map TrailEntry.member = taken.request.names
  entries : ∀ entry ∈ taken.answer.trails,
    onMap.get entry.member = entry.trail.map fun trail ↦ ⟨trail, taken.window⟩
  others : ∀ name, name ∉ taken.request.names → onMap.get name = none

theorem TrailRequest.Askable.mono {request : TrailRequest} {before after : List (Option String × SessionOption)}
    (h : request.Askable before) (hgrown : before ⊆ after) : request.Askable after := by
  obtain hlength | ⟨name, hname, choice, hoffered, hspan⟩ := h
  · exact .inl hlength
  · exact .inr ⟨name, hname, choice, hgrown hoffered, hspan⟩

/-- How long the timer waits at most, by how many requests failed since the last answer. -/
def waitMs (failures : ℕ) : ℕ := if failures = 0 then trailRefreshMs else retryIn failures

namespace Visit

/-- The request with the newest number is under way. -/
def Awaiting (visit : Visit) : Prop := ∃ request ∈ visit.page.requests, request.id = visit.page.trailRequestId

/-- What holds of a page whether or not it has heard of the last change. -/
structure Base (visit : Visit) : Prop where
  told : visit.selection.Told
  ids : ∀ request ∈ visit.page.requests, request.id ≤ visit.page.trailRequestId
  distinct : (visit.page.requests.map TrailRequest.id).Nodup
  unheard : visit.selection.published = none → visit.page.requests = [] ∧ visit.page.taken = none
  takenId : ∀ taken ∈ visit.page.taken, taken.request.id ≤ visit.page.trailRequestId
  shown : ∀ name shown, visit.page.onMap.get name = some shown →
    visit.page.isConnected = true ∧ ∃ taken ∈ visit.page.taken, taken.Shows name shown
  timer : ∀ due ∈ visit.page.trailRefresh, visit.page.isConnected = true ∧
    due ≤ visit.now + waitMs visit.page.trailFailures ∧ ¬ visit.Awaiting
  menu : visit.page.menu.Ok
  few : ∀ request ∈ visit.page.requests, request.Few
  askable : ∀ request ∈ visit.page.requests, request.Askable visit.page.menu.offered

/-- What holds of a page that is open and has heard of all changes. -/
structure Heard (visit : Visit) : Prop where
  selected : ∀ name ∈ visit.page.onMap.keys, name ∈ visit.selection.trails
  current : ∀ request ∈ visit.page.requests, request.id = visit.page.trailRequestId →
    request.names = visit.selection.trails
  complete : ∀ taken ∈ visit.page.taken, taken.request.id = visit.page.trailRequestId →
    taken.request.names = visit.selection.trails ∧ taken.IsDrawn visit.page.onMap
  picked : ∀ picked ∈ visit.page.menu.pickedSession, ∃ name ∈ visit.selection.trails,
    picked.member = some name

/-- The answer to the request with the newest number is the one that was taken last. -/
def Settled (visit : Visit) : Prop := ∃ taken ∈ visit.page.taken, taken.request.id = visit.page.trailRequestId

/-- And that has seen to it that it asks again; with nothing under way and no failure since, the answer is
there. -/
structure Fresh (visit : Visit) : Prop extends Heard visit where
  awaited : visit.Wanting → visit.page.trailRefresh.isSome = true ∨ visit.Awaiting
  settled : visit.Wanting → ¬ visit.Awaiting → visit.page.trailFailures = 0 → visit.Settled

structure Inv (visit : Visit) : Prop extends Base visit where
  fresh : visit.page.isConnected = true → visit.Fresh
  unpicked : visit.selection.published = none → visit.page.menu.pickedSession = none

variable {visit : Visit}

theorem ok_menuKept (h : visit.page.menu.Ok) : visit.menuKept.Ok := by
  rw [menuKept]
  split_ifs
  · exact SessionMenu.ok_dropSession h.toListed
  · exact h

theorem offered_menuKept : visit.menuKept.offered = visit.page.menu.offered := by
  rw [menuKept]
  split_ifs <;> rfl

/-- A session that is kept is one of a player whose trail is on. -/
theorem picked_menuKept {picked : PickedSession} (h : picked ∈ visit.menuKept.pickedSession) :
    ∃ name ∈ visit.selection.trails, picked.member = some name := by
  rw [menuKept] at h
  split_ifs at h with hdropped
  · cases h
  · obtain hpicked := Option.mem_def.mp h
    simp only [hpicked, Option.any_some, Bool.not_eq_true', Bool.not_eq_false, Option.any_eq_true,
      Selection.hasTrail_iff] at hdropped
    obtain ⟨name, hname, hon⟩ := hdropped
    exact ⟨name, hon, hname⟩

/-! ## Asking for trails -/

section LoadTrails

variable (visit)

theorem loadTrails_eq : visit.loadTrails =
    { visit with
      page :=
        { visit.page with
          trailRefresh := none
          trailRequestId := visit.page.trailRequestId + 1
          onMap := visit.page.onMap.retain visit.selection.hasTrail
          menu := visit.overtaken.page.menu
          trailError := if visit.Wanting then visit.page.trailError else none
          trailFailures := if visit.Wanting then visit.page.trailFailures else 0
          requests := visit.page.requests ++
            if visit.Wanting then
              [{ id := visit.page.trailRequestId + 1
                 names := visit.selection.trails
                 span := visit.overtaken.page.trailSpan }]
            else [] } } := by
  have hwanting : visit.overtaken.Wanting ↔ visit.Wanting := Iff.rfl
  unfold loadTrails
  by_cases h : visit.Wanting
  · simp only [hwanting, if_pos h]
    rfl
  · simp only [hwanting, if_neg h, List.append_nil]
    rfl

theorem pickedSession_overtaken :
    visit.overtaken.page.menu.pickedSession = visit.menuKept.pickedSession :=
  SessionMenu.pickedSession_load _ _

theorem offered_overtaken : visit.page.menu.offered ⊆ visit.overtaken.page.menu.offered := by
  rw [← visit.offered_menuKept]
  exact SessionMenu.offered_load _ _

variable {visit}

theorem ok_overtaken (h : visit.page.menu.Ok) : visit.overtaken.page.menu.Ok :=
  SessionMenu.ok_load _ _ (ok_menuKept h)

/-- What is selected in the menu is asked for. -/
theorem askable_trailSpan (h : visit.page.menu.Ok) :
    TrailRequest.Askable
      ⟨visit.page.trailRequestId + 1, visit.selection.trails, visit.overtaken.page.trailSpan⟩
      visit.overtaken.page.menu.offered := by
  have hok := ok_overtaken h
  unfold MapPage.trailSpan
  cases hpicked : visit.overtaken.page.menu.pickedSession with
  | none =>
    left
    have hlength := hok.length hpicked
    simp only [trailLengths, List.mem_cons, List.not_mem_nil, or_false] at hlength
    obtain hlength | hlength := hlength
    · exact ⟨1, .inl rfl, by rw [hlength]; rfl⟩
    · exact ⟨7, .inr rfl, by rw [hlength]; rfl⟩
  | some picked =>
    right
    have hkept : picked ∈ visit.menuKept.pickedSession := by
      rw [← visit.pickedSession_overtaken, hpicked]
      rfl
    obtain ⟨name, hname, hmember⟩ := picked_menuKept hkept
    refine ⟨name, hname, picked.choice, ?_, rfl⟩
    rw [← hmember]
    exact hok.picked picked hpicked

theorem base_loadTrails (h : visit.Base) : visit.loadTrails.Base := by
  rw [loadTrails_eq]
  have hfresh : ∀ request ∈ visit.page.requests, request.id ≠ visit.page.trailRequestId + 1 := by
    intro request hrequest hsame
    have := h.ids request hrequest
    omega
  constructor
  case told => exact h.told
  case ids =>
    intro request hrequest
    obtain hold | hnew := List.mem_append.mp hrequest
    · exact (h.ids request hold).trans (Nat.le_succ _)
    · split_ifs at hnew
      · rw [List.mem_singleton.mp hnew]
      · cases hnew
  case distinct =>
    dsimp only
    split_ifs
    · rw [List.map_append, List.map_singleton, ← List.concat_eq_append]
      refine h.distinct.concat fun hmem ↦ ?_
      obtain ⟨request, hrequest, hid⟩ := List.mem_map.mp hmem
      exact hfresh request hrequest hid
    · rw [List.append_nil]
      exact h.distinct
  case unheard =>
    intro hunheard
    have hnothing : ¬ visit.Wanting := by
      obtain ⟨-, hnone⟩ | hsome := h.told.published
      · exact fun hwanting ↦ hwanting.1 hnone
      · rw [hunheard] at hsome
        cases hsome
    dsimp only
    rw [if_neg hnothing, List.append_nil]
    exact h.unheard hunheard
  case takenId => exact fun taken htaken ↦ (h.takenId taken htaken).trans (Nat.le_succ _)
  case shown =>
    intro name shown hget
    dsimp only at hget
    rw [OrderedMap.get_retain] at hget
    split_ifs at hget
    exact h.shown name shown hget
  case timer => rintro due ⟨⟩
  case menu => exact ok_overtaken h.menu
  case few =>
    intro request hrequest
    obtain hold | hnew := List.mem_append.mp hrequest
    · exact h.few request hold
    · split_ifs at hnew with hwanting
      · rw [List.mem_singleton.mp hnew]
        exact ⟨hwanting.1, h.told.nodup, h.told.short⟩
      · cases hnew
  case askable =>
    intro request hrequest
    obtain hold | hnew := List.mem_append.mp hrequest
    · exact (h.askable request hold).mono visit.offered_overtaken
    · split_ifs at hnew
      · rw [List.mem_singleton.mp hnew]
        exact askable_trailSpan h.menu
      · cases hnew

theorem fresh_loadTrails (h : visit.Base) : visit.loadTrails.Fresh := by
  have hawaiting (hwanting : visit.Wanting) : visit.loadTrails.Awaiting := by
    rw [loadTrails_eq]
    refine ⟨⟨visit.page.trailRequestId + 1, visit.selection.trails, visit.overtaken.page.trailSpan⟩, ?_, rfl⟩
    dsimp only
    rw [if_pos hwanting]
    exact List.mem_append_right _ (List.mem_singleton_self _)
  rw [loadTrails_eq] at hawaiting ⊢
  refine ⟨⟨?selected, ?current, ?complete, ?picked⟩, ?awaited, ?settled⟩
  case selected =>
    intro name hname
    rw [OrderedMap.keys_retain] at hname
    exact Selection.hasTrail_iff.mp (List.mem_filter.mp hname).2
  case current =>
    intro request hrequest hid
    obtain hold | hnew := List.mem_append.mp hrequest
    · have := h.ids request hold
      dsimp only at hid
      omega
    · split_ifs at hnew
      · rw [List.mem_singleton.mp hnew]
      · cases hnew
  case complete =>
    intro taken htaken hid
    have := h.takenId taken htaken
    dsimp only at hid
    omega
  case picked =>
    intro picked hpicked
    dsimp only at hpicked
    rw [pickedSession_overtaken] at hpicked
    obtain ⟨name, hname, hmember⟩ := picked_menuKept hpicked
    exact ⟨name, hname, hmember⟩
  case awaited => exact fun hwanting ↦ .inr (hawaiting hwanting)
  case settled => exact fun hwanting hidle ↦ absurd (hawaiting hwanting) hidle

theorem inv_loadTrails (h : visit.Base) : visit.loadTrails.Inv where
  toBase := base_loadTrails h
  fresh _ := fresh_loadTrails h
  unpicked hunheard := by
    have hkept : visit.menuKept.pickedSession = none := by
      by_contra hsome
      obtain ⟨picked, hpicked⟩ := Option.ne_none_iff_exists'.mp hsome
      obtain ⟨name, hname, -⟩ := picked_menuKept hpicked
      obtain ⟨-, hnone⟩ | htold := h.told.published
      · rw [hnone] at hname
        cases hname
      · have hpublished : visit.selection.published = none := by
          rw [loadTrails_eq] at hunheard
          exact hunheard
        rw [hpublished] at htold
        cases htold
    rw [loadTrails_eq]
    dsimp only
    rw [pickedSession_overtaken]
    exact hkept

end LoadTrails

/-! ## Smaller changes -/

section WithMenu

variable {menu : SessionMenu}

/-- Another menu, that still knows all that was offered. -/
theorem Base.withMenu (h : visit.Base) (hok : menu.Ok) (hoffered : visit.page.menu.offered ⊆ menu.offered) :
    ({ visit with page := { visit.page with menu } } : Visit).Base :=
  { h with
    menu := hok
    askable := fun request hrequest ↦ (h.askable request hrequest).mono hoffered }

theorem Heard.withMenu (h : visit.Heard) (hpicked : menu.pickedSession = visit.page.menu.pickedSession) :
    ({ visit with page := { visit.page with menu } } : Visit).Heard :=
  { h with picked := fun picked hmem ↦ h.picked picked (hpicked ▸ hmem) }

/-- Another menu, with the session that was picked as it was. -/
theorem Inv.withMenu (h : visit.Inv) (hok : menu.Ok) (hoffered : visit.page.menu.offered ⊆ menu.offered)
    (hpicked : menu.pickedSession = visit.page.menu.pickedSession) :
    ({ visit with page := { visit.page with menu } } : Visit).Inv where
  toBase := h.toBase.withMenu hok hoffered
  fresh hconnected :=
    { (h.fresh hconnected).toHeard.withMenu hpicked with
      awaited := (h.fresh hconnected).awaited
      settled := (h.fresh hconnected).settled }
  unpicked hunheard := hpicked.trans (h.unpicked hunheard)

end WithMenu

theorem base_loadSessions (h : visit.Base) : visit.loadSessions.Base :=
  h.withMenu (SessionMenu.ok_load _ _ h.menu) (SessionMenu.offered_load _ _)

theorem heard_loadSessions (h : visit.Heard) : visit.loadSessions.Heard :=
  h.withMenu (SessionMenu.pickedSession_load _ _)

theorem inv_loadSessions (h : visit.Inv) : visit.loadSessions.Inv :=
  h.withMenu (SessionMenu.ok_load _ _ h.menu) (SessionMenu.offered_load _ _)
    (SessionMenu.pickedSession_load _ _)

/-- Nobody was told of any trails. -/
theorem fresh_of_nothing (h : visit.Base) (htrails : visit.selection.trails = [])
    (hrequests : visit.page.requests = []) (htaken : visit.page.taken = none)
    (hpicked : visit.page.menu.pickedSession = none) : visit.Fresh where
  selected name hname := by
    obtain ⟨shown, hget⟩ := OrderedMap.mem_keys.mp hname
    obtain ⟨-, taken, hsome, -⟩ := h.shown name shown hget
    rw [htaken] at hsome
    cases hsome
  current request hrequest := by
    rw [hrequests] at hrequest
    cases hrequest
  complete taken hsome := by
    rw [htaken] at hsome
    cases hsome
  picked picked hsome := by
    rw [hpicked] at hsome
    cases hsome
  awaited hwanting := absurd htrails hwanting.1
  settled hwanting := absurd htrails hwanting.1

theorem base_handleFeatures (h : visit.Base) (history : Bool) : (visit.handleFeatures history).Base := by
  have hset : ({ visit with page := { visit.page with historyEnabled := some history } } : Visit).Base :=
    { h with }
  rw [handleFeatures]
  dsimp only
  split_ifs
  · exact base_loadTrails hset
  · exact hset

theorem inv_handleFeatures (h : visit.Inv) (history : Bool) : (visit.handleFeatures history).Inv := by
  have hset : ({ visit with page := { visit.page with historyEnabled := some history } } : Visit).Base :=
    { h with }
  rw [handleFeatures]
  dsimp only
  split_ifs with hswitched
  · exact inv_loadTrails hset
  · refine { hset with fresh := fun hconnected ↦ ?_, unpicked := h.unpicked }
    -- The history was on before, or the page would have asked now.
    have hwanted (hwanting : visit.selection.trails ≠ [] ∧ some history ≠ some false) : visit.Wanting := by
      refine ⟨hwanting.1, fun hoff ↦ ?_⟩
      have hon : history = true := by
        cases history with
        | true => rfl
        | false => exact absurd rfl hwanting.2
      simp [hon, hoff] at hswitched
    exact
      { h.fresh hconnected with
        awaited := fun hwanting ↦ (h.fresh hconnected).awaited (hwanted hwanting)
        settled := fun hwanting ↦ (h.fresh hconnected).settled (hwanted hwanting) }

theorem inv_leavePage (h : visit.Inv) : visit.leavePage.Inv where
  toBase :=
    { h with
      shown := fun name shown hget ↦ by
        rw [leavePage, OrderedMap.get_empty] at hget
        cases hget
      timer := by rintro due ⟨⟩ }
  fresh hconnected := by cases hconnected
  unpicked := h.unpicked

theorem selection_handleFeatures (history : Bool) :
    (visit.handleFeatures history).selection = visit.selection := by
  rw [handleFeatures]
  dsimp only
  split_ifs
  · rw [loadTrails_eq]
  · rfl

theorem inv_openPage (h : visit.Inv) (hclosed : visit.page.isConnected = false) : visit.openPage.Inv := by
  let opened : Visit :=
    { visit with page := { visit.page with isConnected := true, menu := visit.page.menu.rendered } }
  have hopened : opened.Base :=
    { h with
      shown := fun name shown hget ↦ ⟨rfl, (h.shown name shown hget).2⟩
      timer := fun due hdue ↦ absurd (h.timer due hdue).1 (by simp [hclosed])
      menu := SessionMenu.ok_rendered h.menu }
  let played := visit.features.elim opened opened.handleFeatures
  have hselection : played.selection = visit.selection := by
    cases hfeatures : visit.features with
    | none => simp [played, opened, hfeatures]
    | some history => simp [played, opened, hfeatures, selection_handleFeatures]
  have hopen : visit.openPage =
      let heard := if visit.selection.published.isSome then played.loadTrails else played
      if heard.selectedPublished then heard.loadSessions else heard := by
    rw [← hselection]
    rfl
  have hheard : (if visit.selection.published.isSome then played.loadTrails else played).Inv := by
    cases hpublished : visit.selection.published with
    | none =>
      -- No trails are on and none were: whatever is played back finds nothing to ask for.
      have htrails : visit.selection.trails = [] := by
        obtain ⟨-, hnone⟩ | htold := h.told.published
        · exact hnone
        · rw [hpublished] at htold
          cases htold
      have hfresh : opened.Fresh :=
        fresh_of_nothing hopened htrails (h.unheard hpublished).1 (h.unheard hpublished).2
          (h.unpicked hpublished)
      have hinv : opened.Inv := { hopened with fresh := fun _ ↦ hfresh, unpicked := h.unpicked }
      cases hfeatures : visit.features with
      | none => simpa [played, hfeatures] using hinv
      | some history => simpa [played, hfeatures] using inv_handleFeatures hinv history
    | some trails =>
      apply inv_loadTrails
      cases hfeatures : visit.features with
      | none => simpa [played, hfeatures] using hopened
      | some history => simpa [played, hfeatures] using base_handleFeatures hopened history
  rw [hopen]
  dsimp only
  split_ifs at hheard ⊢
  all_goals first | exact inv_loadSessions hheard | exact hheard

/-- Another option of the menu is selected. -/
theorem inv_handleTrailDaysChange (h : visit.Base) {value : String}
    (hvalue : value ∈ visit.page.menu.options) : (visit.handleTrailDaysChange value).Inv := by
  rw [handleTrailDaysChange]
  apply inv_loadTrails
  cases hfind : visit.page.menu.sessionChoices.find? fun choice ↦ choice.value = value with
  | some choice =>
    have hchoice := List.mem_of_find?_eq_some hfind
    refine { h with menu := { h.menu with length := by simp, picked := ?_ }, askable := ?_ }
    · rintro _ ⟨⟩
      exact h.menu.offered choice hchoice
    · simpa only [hfind] using h.askable
  | none =>
    have hlength : value ∈ trailLengths := by
      obtain hlength | hgroup := List.mem_append.mp hvalue
      · exact hlength
      · obtain ⟨choice, hchoice, hsame⟩ := h.menu.group value hgroup
        exact absurd (decide_eq_true hsame) (List.find?_eq_none.mp hfind choice hchoice)
    refine { h with menu := ?_, askable := ?_ }
    · exact
        { h.menu with
          remembered := not_sessionValue_of_mem hlength
          length := fun _ ↦ hlength
          picked := by simp }
    · simpa only [hfind] using h.askable

/-! ## Answers -/

section SetTrail

variable {window : Option SpanWindow} {entries : List TrailEntry} {onMap : OrderedMap String ShownTrail}
  {name : String}

theorem get_setTrail (entry : TrailEntry) : (MapPage.setTrail window onMap entry).get name =
    if name = entry.member then entry.trail.map fun trail ↦ ⟨trail, window⟩ else onMap.get name := by
  unfold MapPage.setTrail
  cases entry.trail with
  | none => exact OrderedMap.get_delete
  | some trail => exact OrderedMap.get_set

/-- Players the answer is not about keep what they have on the map. -/
theorem get_foldl_setTrail_of_notMem (h : name ∉ entries.map TrailEntry.member) :
    (entries.foldl (MapPage.setTrail window) onMap).get name = onMap.get name := by
  induction entries generalizing onMap with
  | nil => rfl
  | cons entry entries ih =>
    obtain ⟨hentry, hrest⟩ : name ≠ entry.member ∧ name ∉ entries.map TrailEntry.member := by
      simpa using h
    rw [List.foldl_cons, ih hrest, get_setTrail, if_neg hentry]

theorem get_foldl_setTrail (h : (entries.map TrailEntry.member).Nodup) {entry : TrailEntry}
    (hentry : entry ∈ entries) : (entries.foldl (MapPage.setTrail window) onMap).get entry.member =
      entry.trail.map fun trail ↦ ⟨trail, window⟩ := by
  induction entries generalizing onMap with
  | nil => cases hentry
  | cons first entries ih =>
    obtain ⟨hfirst, hrest⟩ := List.nodup_cons.mp h
    rw [List.foldl_cons]
    obtain rfl | hentry := List.mem_cons.mp hentry
    · rw [get_foldl_setTrail_of_notMem hfirst, get_setTrail, if_pos rfl]
    · exact ih hrest hentry

end SetTrail

/-- A request that is under way no more; without the one that was made last the page waits for nothing. -/
theorem Base.eraseRequest (h : visit.Base) (n : ℕ) :
    ({ visit with page := { visit.page with requests := visit.page.requests.eraseIdx n } } : Visit).Base :=
  { h with
    ids := fun request hrequest ↦ h.ids request (List.mem_of_mem_eraseIdx hrequest)
    distinct := ((List.eraseIdx_sublist _ n).map TrailRequest.id).nodup h.distinct
    unheard := fun hunheard ↦ by
      obtain ⟨hrequests, htaken⟩ := h.unheard hunheard
      exact ⟨by simp [hrequests], htaken⟩
    timer := fun due hdue ↦
      ⟨(h.timer due hdue).1, (h.timer due hdue).2.1, fun ⟨request, hrequest, hid⟩ ↦
        (h.timer due hdue).2.2 ⟨request, List.mem_of_mem_eraseIdx hrequest, hid⟩⟩
    few := fun request hrequest ↦ h.few request (List.mem_of_mem_eraseIdx hrequest)
    askable := fun request hrequest ↦ h.askable request (List.mem_of_mem_eraseIdx hrequest) }

/-- No other request under way has the number of the one that is answered. -/
theorem Base.ne_of_mem_eraseIdx (h : visit.Base) {n : ℕ} {request other : TrailRequest}
    (hrequest : visit.page.requests[n]? = some request) (hother : other ∈ visit.page.requests.eraseIdx n) :
    other.id ≠ request.id := by
  obtain ⟨hlt, rfl⟩ := List.getElem?_eq_some_iff.mp hrequest
  have hperm := (List.getElem_cons_eraseIdx_perm hlt).map TrailRequest.id
  have hnodup := hperm.nodup_iff.mpr h.distinct
  rw [List.map_cons, List.nodup_cons] at hnodup
  exact fun hsame ↦ hnodup.1 (List.mem_map.mpr ⟨other, hother, hsame⟩)

/-- The answer to a request is about the players it asked for. -/
def Answers (request : TrailRequest) : Except Failure TrailsAnswer → Prop
  | .error _ => True
  | .ok answer => answer.trails.map TrailEntry.member = request.names

variable {dates : Dates} {n : ℕ} {request : TrailRequest}

/-- A page with its timer on, once the request that was made last is under way no more: it failed, or its
answer was taken. -/
theorem inv_armed (h : visit.Base) (hheard : visit.Heard) (hconnected : visit.page.isConnected = true)
    (htold : visit.selection.published ≠ none) (hidle : ¬ visit.Awaiting) {due failures : ℕ}
    (hdue : due ≤ visit.now + waitMs failures) (hsettled : failures = 0 → visit.Settled)
    (error : Option String) :
    ({ visit with
      page :=
        { visit.page with
          trailFailures := failures
          trailError := error
          trailRefresh := some due } } : Visit).Inv where
  toBase :=
    { h with
      timer := by
        rintro _ ⟨⟩
        exact ⟨hconnected, hdue, hidle⟩ }
  fresh _ := { hheard with awaited := fun _ ↦ .inl rfl, settled := fun _ _ ↦ hsettled }
  unpicked hunheard := absurd hunheard htold

/-- The trails of an answer are all that is on the map: what else was there was asked for as well. -/
theorem base_heard_shown (h : visit.Base) (hheard : visit.Heard) (hconnected : visit.page.isConnected = true)
    (htold : visit.selection.published ≠ none) (hid : request.id = visit.page.trailRequestId)
    (hnames : request.names = visit.selection.trails) {answer : TrailsAnswer}
    (hanswers : Answers request (.ok answer)) (nowS : ℤ) :
    ({ visit with page := visit.page.shown request answer nowS } : Visit).Base ∧
      ({ visit with page := visit.page.shown request answer nowS } : Visit).Heard := by
  have hmembers : answer.trails.map TrailEntry.member = visit.selection.trails := hanswers.trans hnames
  have hnodup : (answer.trails.map TrailEntry.member).Nodup := hmembers ▸ h.told.nodup
  have hentry (name : String) (hname : name ∈ (visit.page.shown request answer nowS).onMap.keys) :
      ∃ entry ∈ answer.trails, entry.member = name := by
    rw [← List.mem_map]
    by_contra hother
    obtain ⟨shown, hget⟩ := OrderedMap.mem_keys.mp hname
    rw [MapPage.shown, get_foldl_setTrail_of_notMem hother] at hget
    rw [hmembers] at hother
    exact hother (hheard.selected name (OrderedMap.mem_keys_of_get hget))
  constructor
  · refine
      { h with
        unheard := fun hunheard ↦ absurd hunheard htold
        takenId := ?_
        shown := fun name shown hget ↦ ⟨hconnected, _, rfl, ?_⟩ }
    · rintro _ ⟨⟩
      exact hid.le
    · obtain ⟨entry, hmem, rfl⟩ := hentry name (OrderedMap.mem_keys_of_get hget)
      rw [MapPage.shown, get_foldl_setTrail hnodup hmem] at hget
      obtain ⟨trail, htrail, rfl⟩ := Option.map_eq_some_iff.mp hget
      have hasked : entry.member ∈ request.names := by
        rw [← hanswers]
        exact List.mem_map_of_mem hmem
      exact ⟨hasked, ⟨entry, hmem, rfl, htrail⟩, rfl⟩
  · refine { hheard with selected := fun name hname ↦ ?_, complete := ?_ }
    · obtain ⟨entry, hmem, rfl⟩ := hentry name hname
      rw [← hmembers]
      exact List.mem_map_of_mem hmem
    · rintro _ ⟨⟩ -
      refine ⟨hnames, hanswers, fun entry hmem ↦ get_foldl_setTrail hnodup hmem, fun name hother ↦ ?_⟩
      by_contra hsome
      obtain ⟨shown, hget⟩ := Option.ne_none_iff_exists'.mp hsome
      obtain ⟨entry, hmem, rfl⟩ := hentry name (OrderedMap.mem_keys_of_get hget)
      refine hother ?_
      rw [← hanswers]
      exact List.mem_map_of_mem hmem

/-- An answer that is about what was asked for, or none, whichever request it is to. -/
theorem inv_trailsAnswered (h : visit.Inv) (hrequest : visit.page.requests[n]? = some request)
    {answer : Except Failure TrailsAnswer} (hanswers : Answers request answer) :
    (({ visit with page := { visit.page with requests := visit.page.requests.eraseIdx n } } :
      Visit).trailsAnswered dates request answer).Inv := by
  have hmem := List.mem_of_getElem? hrequest
  have hbase := h.toBase.eraseRequest n
  have htold : visit.selection.published ≠ none := by
    intro hunheard
    rw [(h.unheard hunheard).1] at hmem
    cases hmem
  have hheard (hconnected : visit.page.isConnected = true) :
      ({ visit with page := { visit.page with requests := visit.page.requests.eraseIdx n } } : Visit).Heard :=
    { (h.fresh hconnected).toHeard with
      current := fun other hother ↦ (h.fresh hconnected).current other (List.mem_of_mem_eraseIdx hother) }
  unfold trailsAnswered
  split_ifs with hdropped
  · -- What the page waits for is another request.
    have hawaiting (hconnected : visit.page.isConnected = true) (hlast : visit.Awaiting) :
        ({ visit with page := { visit.page with requests := visit.page.requests.eraseIdx n } } :
          Visit).Awaiting := by
      obtain ⟨last, hlast, hid⟩ := hlast
      refine ⟨last, ?_, hid⟩
      obtain ⟨hlt, hget⟩ := List.getElem?_eq_some_iff.mp hrequest
      obtain hsame | hother := List.mem_cons.mp ((List.getElem_cons_eraseIdx_perm hlt).mem_iff.mpr hlast)
      · have hidle : request.id ≠ visit.page.trailRequestId :=
          hdropped.resolve_left (not_not_intro hconnected)
        rw [hget] at hsame
        exact absurd (hsame ▸ hid) hidle
      · exact hother
    exact
      { hbase with
        fresh := fun hconnected ↦
          { hheard hconnected with
            awaited := fun hwanting ↦ ((h.fresh hconnected).awaited hwanting).imp_right (hawaiting hconnected)
            settled := fun hwanting hidle ↦
              (h.fresh hconnected).settled hwanting fun hlast ↦ hidle (hawaiting hconnected hlast) }
        unpicked := h.unpicked }
  · obtain ⟨hconnected, hid⟩ : visit.page.isConnected = true ∧ request.id = visit.page.trailRequestId := by
      simpa using hdropped
    have hidle : ¬ ({ visit with page := { visit.page with requests := visit.page.requests.eraseIdx n } } :
        Visit).Awaiting := by
      rintro ⟨other, hother, hsame⟩
      exact h.toBase.ne_of_mem_eraseIdx hrequest hother (hsame.trans hid.symm)
    cases answer with
    | error failure =>
      exact inv_armed hbase (hheard hconnected) hconnected htold hidle le_rfl (by simp) _
    | ok answer =>
      have hnames := (h.fresh hconnected).current request hmem hid
      obtain ⟨hshown, hdrawn⟩ := base_heard_shown hbase (hheard hconnected) hconnected htold hid hnames
        hanswers (visit.now / 1000)
      have hsettled : ({ visit with
          page := { visit.page with requests := visit.page.requests.eraseIdx n }.shown request answer
            (visit.now / 1000) } : Visit).Settled := ⟨_, rfl, hid⟩
      dsimp only
      split_ifs
      · exact inv_armed (base_loadSessions hshown) (heard_loadSessions hdrawn) hconnected htold hidle le_rfl
          (fun _ ↦ hsettled) _
      · exact inv_armed hshown hdrawn hconnected htold hidle le_rfl (fun _ ↦ hsettled) _

/-- The sessions that came in are what the menu offers; unless the session that was picked changed with
them, the page goes on with it. -/
theorem menuAnswered_spec (dates : Dates) (h : visit.page.menu.Ok) (owner : String) (sessions : List PlaySession) :
    (visit.menuAnswered dates owner sessions).1.Ok ∧
      visit.page.menu.offered ⊆ (visit.menuAnswered dates owner sessions).1.offered ∧
      ((visit.menuAnswered dates owner sessions).2 = false →
        (visit.menuAnswered dates owner sessions).1.pickedSession = visit.page.menu.pickedSession) := by
  let menu : SessionMenu := { visit.page.menu with sessionsAt := visit.now }
  let choices := sessionOptions dates (some sessions) visit.now ((menu.pickedOf owner).map SessionOption.start)
  have hchoices : ∀ choice ∈ choices, SessionValue choice.value :=
    fun choice hchoice ↦ sessionValue_of_mem_sessionOptions hchoice
  have hok : (menu.showSessions (some owner) choices).Ok :=
    SessionMenu.ok_showSessions h.remembered h.length
      (fun picked hpicked ↦ .inl (h.picked picked hpicked)) hchoices
  have hoffered := SessionMenu.offered_showSessions menu (some owner) choices
  unfold menuAnswered
  dsimp only
  split
  · exact ⟨hok, hoffered, fun _ ↦ SessionMenu.pickedSession_showSessions _ _⟩
  · split
    · exact ⟨SessionMenu.ok_dropSession hok.toListed, hoffered, by simp⟩
    · rename_i choice hfind
      split_ifs
      · exact ⟨hok, hoffered, fun _ ↦ SessionMenu.pickedSession_showSessions _ _⟩
      · refine ⟨?_, SessionMenu.offered_showSessions
          { menu with pickedSession := some ⟨some owner, choice⟩ } (some owner) choices, by simp⟩
        -- The session went on since it was picked: it is offered as it is now.
        refine SessionMenu.ok_showSessions h.remembered (by simp) ?_ hchoices
        rintro _ ⟨⟩
        exact .inr ⟨rfl, List.mem_of_find?_eq_some hfind⟩

theorem inv_sessionsAnswered (h : visit.Inv) (request : SessionRequest)
    (answer : Except Failure (List PlaySession)) : (visit.sessionsAnswered dates request answer).Inv := by
  unfold sessionsAnswered
  dsimp only
  split
  · exact h
  · rename_i sessions _
    split_ifs with hdropped hchanged
    · exact h
    · obtain ⟨hok, hoffered, -⟩ := menuAnswered_spec dates h.menu request.owner sessions
      exact inv_loadTrails (h.toBase.withMenu hok hoffered)
    · obtain ⟨hok, hoffered, hpicked⟩ := menuAnswered_spec dates h.menu request.owner sessions
      exact h.withMenu hok hoffered (hpicked (by simpa using hchanged))

/-! ## Steps -/

/-- Other trails are on, and everyone was told. -/
theorem inv_trailsChanged (h : visit.Base) {selection : Selection} (htold : selection.Told)
    (hpublished : selection.published ≠ none) :
    (({ visit with selection } : Visit).trailsChanged true).Inv := by
  have hbase : ({ visit with selection } : Visit).Base :=
    { h with told := htold, unheard := fun hunheard ↦ absurd hunheard hpublished }
  unfold trailsChanged
  split_ifs with hconnected
  · exact inv_loadTrails hbase
  · refine { hbase with fresh := fun hopen ↦ ?_, unpicked := fun hunheard ↦ absurd hunheard hpublished }
    exact absurd hopen (by simpa using hconnected)

theorem inv_restore (h : visit.Inv) (hunheard : visit.selection.published = none) :
    (visit.step dates .restore).Inv := by
  have hnone : visit.selection.trails = [] := by
    obtain ⟨-, hnone⟩ | htold := h.told.published
    · exact hnone
    · rw [hunheard] at htold
      cases htold
  dsimp only [step]
  by_cases htrails : visit.selection.stored.trails = []
  · have hsame : visit.selection.restore = visit.selection := by
      rw [Selection.restore]
      simp [htrails, ← hnone]
    rw [hsame, hnone]
    exact h
  · have hrestored : visit.selection.restore.trails ≠ [] := htrails
    rw [decide_eq_true hrestored]
    refine inv_trailsChanged h.toBase (Selection.told_restore hunheard) ?_
    simp [Selection.restore, htrails]

theorem inv_select (h : visit.Inv) (event : SelectionEvent) : (visit.step dates (.select event)).Inv := by
  dsimp only [step]
  obtain ⟨hsame, htells⟩ | ⟨trails, hstep, htells, hnodup, hshort⟩ :=
    Selection.step_cases h.told event
  · rw [hsame, htells]
    exact h
  · rw [hstep, htells]
    exact inv_trailsChanged h.toBase (Selection.told_trailsChanged hnodup hshort) (by simp [Selection.trailsChanged])

theorem inv_selectedChanged (h : visit.Inv) (name : Option String) : (visit.selectedChanged name).Inv := by
  have hset : ({ visit with selected := name, selectedPublished := true } : Visit).Inv :=
    { h with fresh := fun hconnected ↦ { h.fresh hconnected with } }
  unfold selectedChanged
  dsimp only
  split_ifs
  · exact inv_loadSessions hset
  · exact hset

instance decidableAnswers (request : TrailRequest) : DecidablePred (Answers request)
  | .error _ => inferInstanceAs (Decidable True)
  | .ok answer => inferInstanceAs (Decidable (answer.trails.map TrailEntry.member = request.names))

/-- What was remembered is read before anything was switched on, and an answer is about the players its
request asked for. -/
def Allowed (visit : Visit) : VisitEvent → Prop
  | .restore => visit.selection.published = none
  | .trailsAnswered n answer => ∀ request ∈ visit.page.requests[n]?, Answers request answer
  | _ => True

instance decidableAllowed : (visit : Visit) → (event : VisitEvent) → Decidable (Allowed visit event)
  | visit, .restore => inferInstanceAs (Decidable (visit.selection.published = none))
  | visit, .trailsAnswered n answer =>
    inferInstanceAs (Decidable (∀ request ∈ visit.page.requests[n]?, Answers request answer))
  | _, .select _ | _, .selectPlayer _ | _, .clearPlayer | _, .featuresLoaded _ | _, .openPage | _, .leavePage
  | _, .pickSpan _ | _, .sessionsAnswered _ _ | _, .elapse _ | _, .refresh => inferInstanceAs (Decidable True)

theorem inv_step (h : visit.Inv) (event : VisitEvent) (hallowed : visit.Allowed event) :
    (visit.step dates event).Inv := by
  cases event with
  | restore => exact inv_restore h hallowed
  | select event => exact inv_select h event
  | selectPlayer name => exact inv_selectedChanged h (some name)
  | clearPlayer =>
    dsimp only [step]
    split_ifs
    · exact inv_selectedChanged h none
    · exact h
  | featuresLoaded hubHistory =>
    have hset : ({ visit with features := some hubHistory } : Visit).Inv :=
      { h with fresh := fun hconnected ↦ { h.fresh hconnected with } }
    dsimp only [step]
    split_ifs
    · exact inv_handleFeatures hset hubHistory
    · exact hset
  | openPage =>
    dsimp only [step]
    split_ifs with hopen
    · exact h
    · exact inv_openPage h (by simpa using hopen)
  | leavePage =>
    dsimp only [step]
    split_ifs
    · exact inv_leavePage h
    · exact h
  | pickSpan value =>
    dsimp only [step]
    split_ifs with hoffered
    · exact inv_handleTrailDaysChange h.toBase hoffered.2
    · exact h
  | trailsAnswered n answer =>
    dsimp only [step]
    cases hrequest : visit.page.requests[n]? with
    | none => exact h
    | some request => exact inv_trailsAnswered h hrequest (hallowed request hrequest)
  | sessionsAnswered n answer =>
    dsimp only [step]
    cases hrequest : visit.page.menu.requests[n]? with
    | none => exact h
    | some request =>
      have hok : ({ visit.page.menu with requests := visit.page.menu.requests.eraseIdx n } : SessionMenu).Ok :=
        { h.menu with }
      exact inv_sessionsAnswered (h.withMenu hok (fun _ hmem ↦ hmem) rfl) request answer
  | elapse ms =>
    refine { h with timer := fun due hdue ↦ ?_, fresh := fun hconnected ↦ { h.fresh hconnected with } }
    obtain ⟨hconnected, hsoon, hlast⟩ := h.timer due hdue
    refine ⟨hconnected, ?_, hlast⟩
    dsimp only [step]
    omega
  | refresh =>
    dsimp only [step]
    split_ifs
    · exact inv_loadTrails h.toBase
    · exact h

theorem inv_start (stored : Remembered) {rememberedDays : String} (h : ¬ SessionValue rememberedDays) :
    (start stored rememberedDays).Inv where
  told := ⟨.nil, Nat.zero_le _, .inl ⟨rfl, rfl⟩⟩
  ids := by simp [start, MapPage.new]
  distinct := .nil
  unheard _ := ⟨rfl, rfl⟩
  takenId := by simp [start, MapPage.new]
  shown name shown hget := by cases hget
  timer := by simp [start, MapPage.new]
  menu :=
    { choices := by simp [start, MapPage.new, SessionMenu.new]
      group := by simp [start, MapPage.new, SessionMenu.new]
      remembered := h
      offered := by simp [start, MapPage.new, SessionMenu.new]
      length := fun _ ↦ List.mem_cons_self
      picked := by simp [start, MapPage.new, SessionMenu.new] }
  few := by simp [start, MapPage.new]
  askable := by simp [start, MapPage.new]
  fresh hconnected := by cases hconnected
  unpicked _ := rfl

theorem always_inv (stored : Remembered) {rememberedDays : String} (h : ¬ SessionValue rememberedDays)
    {events : List VisitEvent} (hallowed : Along (step dates) Allowed (start stored rememberedDays) events) :
    Always (step dates) Inv (start stored rememberedDays) events :=
  always_of_along (fun _ event hinv hevent ↦ inv_step hinv event hevent) (inv_start stored h) hallowed

/-! ## What holds all along -/

/-- What is drawn are trails that are on, all of one answer and over its time. Once the answer to the newest
request was taken, the map shows just what it says of every player whose trail is on, and so it is whenever
something is to be asked for, nothing of it is under way and nothing failed since the last answer. -/
structure Drawn (visit : Visit) : Prop where
  on : ∀ name ∈ visit.page.onMap.keys, visit.page.isConnected = true ∧ name ∈ visit.selection.trails
  answered : ∀ name shown, visit.page.onMap.get name = some shown →
    ∃ taken ∈ visit.page.taken, taken.Shows name shown
  complete : visit.page.isConnected = true → ∀ taken ∈ visit.page.taken,
    taken.request.id = visit.page.trailRequestId →
      taken.request.names = visit.selection.trails ∧ taken.IsDrawn visit.page.onMap
  settled : visit.page.isConnected = true → visit.Wanting → ¬ visit.Awaiting → visit.page.trailFailures = 0 →
    ∃ taken ∈ visit.page.taken, taken.request.id = visit.page.trailRequestId ∧
      taken.request.names = visit.selection.trails ∧ taken.IsDrawn visit.page.onMap

/-- One to eight players are asked for, none of them twice, over one of the two lengths or a session that was
offered of a player whose trail is asked for; a session that is picked in an open page is one of a player whose
trail is on, and what the browser remembers for the next visit is no session. -/
structure Asking (visit : Visit) : Prop where
  few : ∀ request ∈ visit.page.requests, request.Few
  askable : ∀ request ∈ visit.page.requests, request.Askable visit.page.menu.offered
  picked : visit.page.isConnected = true → ∀ picked ∈ visit.page.menu.pickedSession,
    (picked.member, picked.choice) ∈ visit.page.menu.offered ∧
      ∃ name ∈ visit.selection.trails, picked.member = some name
  remembered : ¬ SessionValue visit.page.menu.rememberedDays

theorem Inv.drawn (h : visit.Inv) : visit.Drawn where
  on name hname := by
    obtain ⟨shown, hget⟩ := OrderedMap.mem_keys.mp hname
    have hconnected := (h.shown name shown hget).1
    exact ⟨hconnected, (h.fresh hconnected).selected name hname⟩
  answered name shown hget := (h.shown name shown hget).2
  complete hconnected := (h.fresh hconnected).complete
  settled hconnected hwanting hidle hfailures := by
    obtain ⟨taken, htaken, hid⟩ := (h.fresh hconnected).settled hwanting hidle hfailures
    exact ⟨taken, htaken, hid, (h.fresh hconnected).complete taken htaken hid⟩

section Answered

variable (dates)

end Answered

theorem Inv.asking (h : visit.Inv) : visit.Asking where
  few := h.few
  askable := h.askable
  picked hconnected picked hpicked :=
    ⟨h.menu.picked picked hpicked, (h.fresh hconnected).picked picked hpicked⟩
  remembered := h.menu.remembered

/-- Ann's trail is on from the last visit. Bob's is switched on while it is asked for, so that the answer
comes too late; the server is busy then, and is asked again. -/
def twoTrails : List VisitEvent :=
  [.openPage, .restore, .select (.toggleTrail "Bob"), .trailsAnswered 0 (.ok ⟨1, [⟨"Ann", none⟩]⟩),
    .trailsAnswered 0 (.error (some 503)), .elapse 5000, .refresh,
    .trailsAnswered 0 (.ok ⟨1, [⟨"Ann", some ⟨"Ann", true, 1, false, 1, [], []⟩⟩, ⟨"Bob", none⟩]⟩), .elapse 1000]

theorem along_twoTrails :
    Along (step Site.utcDates) Allowed (start (.array [some "Ann"]) "7") twoTrails := by decide +kernel

theorem not_sessionValue_seven : ¬ SessionValue "7" := not_sessionValue_of_mem (by decide)

section Runs

variable (stored : Remembered) {rememberedDays : String} {events : List VisitEvent}

/-- Whatever is selected, in whatever order the answers come and whichever of them fail. -/
theorem always_drawn (h : ¬ SessionValue rememberedDays)
    (hallowed : Along (step dates) Allowed (start stored rememberedDays) events) :
    Always (step dates) Drawn (start stored rememberedDays) events :=
  (always_inv stored h hallowed).mono fun _ ↦ Inv.drawn

theorem always_drawn_twoTrails :
    Always (step Site.utcDates) Drawn (start (.array [some "Ann"]) "7") twoTrails ∧
      (twoTrails.foldl (step Site.utcDates) (start (.array [some "Ann"]) "7")).page.onMap.keys = ["Ann"] :=
  ⟨always_drawn _ not_sessionValue_seven along_twoTrails, by decide +kernel⟩

theorem always_asking (h : ¬ SessionValue rememberedDays)
    (hallowed : Along (step dates) Allowed (start stored rememberedDays) events) :
    Always (step dates) Asking (start stored rememberedDays) events :=
  (always_inv stored h hallowed).mono fun _ ↦ Inv.asking

theorem always_asking_twoTrails :
    Always (step Site.utcDates) Asking (start (.array [some "Ann"]) "7") (twoTrails.take 3) ∧
      ((twoTrails.take 3).foldl (step Site.utcDates) (start (.array [some "Ann"]) "7")).page.requests =
        [⟨1, ["Ann"], some (.days 7)⟩, ⟨2, ["Ann", "Bob"], some (.days 7)⟩] :=
  ⟨always_asking _ not_sessionValue_seven (by decide +kernel), by decide +kernel⟩

end Runs

end Visit

end OsrsMap.Page
