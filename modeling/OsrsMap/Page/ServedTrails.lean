import OsrsMap.Page.TrailRuns
import OsrsMap.Trails.GetTrails

/-!
# The map page and the server

A request of the page (`Api.getTrails`, `site/src/data/api.js`) goes to the handler `get_trails` of the server.
Whatever the hub says and whenever it says it, the handler answers about just the players the page asked for,
so the page never draws another player's trail as theirs, nor one that is not on.
-/

namespace OsrsMap.Page

open Run
open Trails (Span Listable TrailsQuery TrailsJson MemberTrail HubContext HistoryError getTrails memberAnswer trailJson)
open Site (Dates)

/-! ## Requests and answers -/

/-- `getTrails` of the page: what is asked of the server. -/
def TrailRequest.query (request : TrailRequest) (span : Span) : TrailsQuery where
  members := some (",".intercalate request.names)
  days := span.params.1
  fromSecs := span.params.2.1
  toSecs := span.params.2.2

/-- A trail of the answer, as the page reads it. -/
def TrailEntry.ofJson : MemberTrail → TrailEntry
  | .shared trail => { member := trail.member, trail := some trail }
  | .notShared member => { member, trail := none }

def TrailsAnswer.ofJson (json : TrailsJson) : TrailsAnswer where
  asOf := json.asOf
  trails := json.trails.map TrailEntry.ofJson

/-- The server's answer to a request; a number of days that is no number is not even read. -/
def TrailRequest.served (request : TrailRequest) (context : HubContext) (now later : ℤ) :
    Except Failure TrailsAnswer :=
  match request.span with
  | none => .error (some 400)
  | some span =>
    match getTrails context now later (request.query span) with
    | .error err => .error (some err.statusCode)
    | .ok json => .ok (.ofJson json)

variable {request : TrailRequest} {context : HubContext} {now later : ℤ}

@[simp]
theorem listParam_query (span : Span) (hne : request.names ≠ []) (h : ∀ name ∈ request.names, Listable name) :
    Trails.listParam (request.query span).members = request.names := Trails.listParam_intercalate hne h

theorem map_member_ofJson (json : TrailsJson) :
    (TrailsAnswer.ofJson json).trails.map TrailEntry.member = json.trails.map MemberTrail.member := by
  have hread : TrailEntry.member ∘ TrailEntry.ofJson = MemberTrail.member := by
    funext trail
    cases trail <;> rfl
  rw [TrailsAnswer.ofJson, List.map_map, hread]

/-- A length of the menu and a session are asked for as they are. -/
theorem TrailRequest.Askable.clamped_eq {offered : List (Option String × Site.SessionOption)} {span : Span}
    (h : request.Askable offered) (hspan : request.span = some span) : span.clamped = span := by
  obtain ⟨days, hdays, hlength⟩ | ⟨_, _, choice, _, hsession⟩ := h
  · obtain rfl := Option.some.inj (hspan.symm.trans hlength)
    obtain rfl | rfl := hdays <;> rfl
  · obtain rfl := Option.some.inj (hspan.symm.trans hsession)
    rfl

/-- What the server answers: of every player that was asked for, in their order, the trail that it has of the
player over the span. -/
theorem served_spec (hne : request.names ≠ []) (h : ∀ name ∈ request.names, Listable name)
    {answer : TrailsAnswer} (hserved : request.served context now later = .ok answer) :
    ∃ span, request.span = some span ∧ span.clamped.Showable (now / 1000) ∧
      answer.trails.map TrailEntry.member = request.names ∧ ∀ entry ∈ answer.trails,
        ∃ known, memberAnswer context span.clamped entry.member = .ok known ∧
          entry.trail = known.map fun trail ↦ trailJson entry.member trail.1 trail.2 := by
  unfold TrailRequest.served at hserved
  split at hserved
  · cases hserved
  · rename_i span hspan
    split at hserved
    · cases hserved
    · rename_i json hjson
      obtain rfl := Except.ok.inj hserved
      obtain ⟨hread, oldest, -, -, htells⟩ := Trails.getTrails_spec hjson
      obtain ⟨hsame, hshowable⟩ := Span.of_params_iff.mp hread
      rw [listParam_query span hne h, hsame] at htells
      refine ⟨span, hspan, hsame ▸ hshowable, (map_member_ofJson json).trans (Trails.map_member_eq htells), ?_⟩
      intro entry hentry
      obtain ⟨trail, htrail, rfl⟩ := List.mem_map.mp hentry
      obtain ⟨name, -, htell⟩ := Trails.exists_tells_of_mem htells htrail
      cases htell with
      | shared known _ => exact ⟨_, known, rfl⟩
      | notShared unknown => exact ⟨_, unknown, rfl⟩

/-- The server answers about the players that were asked for. -/
theorem answers_served (hne : request.names ≠ []) (h : ∀ name ∈ request.names, Listable name) :
    Visit.Answers request (request.served context now later) := by
  cases hserved : request.served context now later with
  | error failure => trivial
  | ok answer =>
    obtain ⟨_, _, _, hmembers, _⟩ := served_spec hne h hserved
    exact hmembers

/-! ## What the server knows -/

/-- The trail that is drawn of a player is the one that the server has of the player's account over the span. -/
def KnownTrail (context : HubContext) (span : Span) (nowS : ℤ) (name : String) (shown : ShownTrail) : Prop :=
  ∃ account trail asOf, context.hubId name = some account ∧
    context.accountTrail account span = .ok (some (trail, asOf)) ∧
    shown = { trail := trailJson name trail asOf, window := some (spanWindow span nowS) }

/-- The server does not know the player, or has no trail of the player's account. -/
def KnownWithout (context : HubContext) (span : Span) (name : String) : Prop :=
  ∀ account, context.hubId name = some account → context.accountTrail account span = .ok none

/-- An answer says of every player what the server knew at some time of the player, over the span that was asked
for, when a trail of it could be shown. -/
def Taken.Known (knows : ℤ → HubContext → Prop) (taken : Taken) : Prop :=
  ∃ span now context, taken.request.span = some span ∧ span.Showable (now / 1000) ∧ knows now context ∧
    ∀ entry ∈ taken.answer.trails, ∃ known, memberAnswer context span entry.member = .ok known ∧
      entry.trail = known.map fun trail ↦ trailJson entry.member trail.1 trail.2

theorem knownTrail_of_memberAnswer {span : Span} {name : String} {built : Trails.BuiltTrail} {asOf : ℤ}
    (h : memberAnswer context span name = .ok (some (built, asOf))) (nowS : ℤ) :
    KnownTrail context span nowS name ⟨trailJson name built asOf, some (spanWindow span nowS)⟩ := by
  unfold memberAnswer at h
  split at h
  · next account haccount => exact ⟨account, built, asOf, haccount, h, rfl⟩
  · cases h

theorem knownWithout_of_memberAnswer {span : Span} {name : String}
    (h : memberAnswer context span name = .ok none) : KnownWithout context span name := by
  intro account haccount
  rw [memberAnswer, haccount] at h
  exact h

/-! ## What the page asks for -/

namespace Visit

/-- A change of the page alone: the selection is as it was, what is asked for anew are the trails that are on,
and an answer that is taken is the one that came in. -/
structure Asks (arrived : Taken → Prop) (before after : Visit) : Prop where
  selection : after.selection = before.selection
  requests : ∀ request ∈ after.page.requests, request ∈ before.page.requests ∨
    request.names = before.selection.trails ∧ request.names ≠ []
  taken : ∀ taken ∈ after.page.taken, taken ∈ before.page.taken ∨ arrived taken

variable {visit before between after : Visit} {dates : Dates} {arrived : Taken → Prop}

theorem Asks.of_sublist (hselection : after.selection = before.selection)
    (hrequests : after.page.requests ⊆ before.page.requests) (htaken : after.page.taken = before.page.taken) :
    Asks arrived before after :=
  ⟨hselection, fun _ hrequest ↦ .inl (hrequests hrequest), fun _ hmem ↦ .inl (htaken ▸ hmem)⟩

theorem Asks.refl (visit : Visit) : Asks arrived visit visit := .of_sublist rfl (List.Subset.refl _) rfl

theorem Asks.trans (h : Asks arrived before between) (h' : Asks arrived between after) :
    Asks arrived before after where
  selection := h'.selection.trans h.selection
  requests request hrequest := by
    obtain hold | hnew := h'.requests request hrequest
    · exact h.requests request hold
    · exact .inr (h.selection ▸ hnew)
  taken taken htaken := by
    obtain hold | hnew := h'.taken taken htaken
    · exact h.taken taken hold
    · exact .inr hnew

theorem asks_loadTrails (visit : Visit) : Asks arrived visit visit.loadTrails := by
  rw [loadTrails_eq]
  refine ⟨rfl, fun request hrequest ↦ ?_, fun _ htaken ↦ .inl htaken⟩
  obtain hold | hnew := List.mem_append.mp hrequest
  · exact .inl hold
  · split_ifs at hnew with hwanting
    · obtain rfl := List.mem_singleton.mp hnew
      exact .inr ⟨rfl, hwanting.1⟩
    · cases hnew

theorem asks_loadSessions (visit : Visit) : Asks arrived visit visit.loadSessions :=
  .of_sublist rfl (List.Subset.refl _) rfl

theorem Asks.ite {c : Prop} [Decidable c] {other : Visit} (h : Asks arrived before after)
    (h' : Asks arrived before other) : Asks arrived before (if c then after else other) := by
  split_ifs
  · exact h
  · exact h'

theorem asks_handleFeatures (visit : Visit) (history : Bool) :
    Asks arrived visit (visit.handleFeatures history) := by
  have hset : Asks arrived visit { visit with page := { visit.page with historyEnabled := some history } } :=
    .of_sublist rfl (List.Subset.refl _) rfl
  exact .ite (hset.trans (asks_loadTrails _)) hset

theorem asks_openPage (visit : Visit) : Asks arrived visit visit.openPage := by
  let opened : Visit :=
    { visit with page := { visit.page with isConnected := true, menu := visit.page.menu.rendered } }
  have hopened : Asks arrived visit opened := .of_sublist rfl (List.Subset.refl _) rfl
  let played := visit.features.elim opened opened.handleFeatures
  have hplayed : Asks arrived visit played := by
    unfold played
    cases visit.features with
    | none => exact hopened
    | some history => exact hopened.trans (asks_handleFeatures opened history)
  have hheard : Asks arrived visit (if played.selection.published.isSome then played.loadTrails else played) :=
    .ite (hplayed.trans (asks_loadTrails played)) hplayed
  exact .ite (hheard.trans (asks_loadSessions _)) hheard

theorem asks_handleTrailDaysChange (visit : Visit) (value : String) :
    Asks arrived visit (visit.handleTrailDaysChange value) := by
  unfold handleTrailDaysChange
  refine Asks.trans ?_ (asks_loadTrails _)
  exact .of_sublist rfl (List.Subset.refl _) rfl

theorem asks_trailsAnswered (visit : Visit) (request : TrailRequest) (answer : Except Failure TrailsAnswer)
    (h : ∀ taken, taken.request = request → .ok taken.answer = answer → arrived taken) :
    Asks arrived visit (visit.trailsAnswered dates request answer) := by
  unfold trailsAnswered
  refine .ite (.refl visit) ?_
  cases answer with
  | error failure => exact .of_sublist rfl (List.Subset.refl _) rfl
  | ok answer =>
    have hshown : Asks arrived visit { visit with page := visit.page.shown request answer (visit.now / 1000) } := by
      refine ⟨rfl, fun _ hrequest ↦ .inl hrequest, ?_⟩
      rintro _ ⟨⟩
      exact .inr (h _ rfl rfl)
    exact (Asks.ite (hshown.trans (asks_loadSessions _)) hshown).trans (.of_sublist rfl (List.Subset.refl _) rfl)

theorem asks_sessionsAnswered (visit : Visit) (request : SessionRequest)
    (answer : Except Failure (List Site.PlaySession)) :
    Asks arrived visit (visit.sessionsAnswered dates request answer) := by
  unfold sessionsAnswered
  dsimp only
  split
  · exact .refl visit
  · refine .ite (.refl visit) ?_
    have hset (menu : SessionMenu) : Asks arrived visit { visit with page := { visit.page with menu } } :=
      .of_sublist rfl (List.Subset.refl _) rfl
    exact .ite ((hset _).trans (asks_loadTrails _)) (hset _)

theorem asks_selectedChanged (visit : Visit) (name : Option String) :
    Asks arrived visit (visit.selectedChanged name) := by
  have hset : Asks arrived visit { visit with selected := name, selectedPublished := true } :=
    .of_sublist rfl (List.Subset.refl _) rfl
  exact .ite (hset.trans (asks_loadSessions _)) hset

/-- The answer comes in with an event. -/
def Arrived (visit : Visit) (event : VisitEvent) (taken : Taken) : Prop :=
  ∃ n, visit.page.requests[n]? = some taken.request ∧ event = .trailsAnswered n (.ok taken.answer)

/-- Whatever happens but to the selection. -/
theorem asks_step (visit : Visit) {event : VisitEvent} (hrestore : event ≠ .restore)
    (hselect : ∀ change, event ≠ .select change) : Asks (visit.Arrived event) visit (visit.step dates event) := by
  cases event with
  | restore => exact absurd rfl hrestore
  | select change => exact absurd rfl (hselect change)
  | selectPlayer name => exact asks_selectedChanged visit (some name)
  | clearPlayer => exact .ite (asks_selectedChanged visit none) (.refl visit)
  | featuresLoaded hubHistory =>
    have hset : Asks (visit.Arrived (.featuresLoaded hubHistory)) visit { visit with features := some hubHistory } :=
      .of_sublist rfl (List.Subset.refl _) rfl
    exact .ite (hset.trans (asks_handleFeatures _ hubHistory)) hset
  | openPage => exact .ite (.refl visit) (asks_openPage visit)
  | leavePage => exact .ite (.of_sublist rfl (List.Subset.refl _) rfl) (.refl visit)
  | pickSpan value => exact .ite (asks_handleTrailDaysChange visit value) (.refl visit)
  | trailsAnswered n answer =>
    dsimp only [step]
    cases hrequest : visit.page.requests[n]? with
    | none => exact .refl visit
    | some request =>
      refine Asks.trans ?_ (asks_trailsAnswered _ request answer ?_)
      · exact .of_sublist rfl List.eraseIdx_subset rfl
      · rintro taken rfl rfl
        exact ⟨n, hrequest, rfl⟩
  | sessionsAnswered n answer =>
    dsimp only [step]
    cases visit.page.menu.requests[n]? with
    | none => exact .refl visit
    | some request =>
      refine Asks.trans ?_ (asks_sessionsAnswered _ request answer)
      exact .of_sublist rfl (List.Subset.refl _) rfl
  | elapse ms => exact .of_sublist rfl (List.Subset.refl _) rfl
  | refresh => exact .ite (asks_loadTrails visit) (.refl visit)

/-! ## Runs -/

section Runs

variable (knows : ℤ → HubContext → Prop)

/-- What is on, what was remembered and what is asked for are names that can stand in a list, and the answer that
was taken last is the server's. -/
structure Named (visit : Visit) : Prop where
  on : ∀ name ∈ visit.selection.trails, Listable name
  stored : ∀ name ∈ visit.selection.stored.trails, Listable name
  asked : ∀ request ∈ visit.page.requests, request.names ≠ [] ∧ ∀ name ∈ request.names, Listable name
  known : ∀ taken ∈ visit.page.taken, taken.Known knows

/-- What was remembered is read before anything was switched on, names that are switched on can stand in a
list, and trails that come in are what the server answers to the request, knowing what it may know then. -/
def Served (visit : Visit) : VisitEvent → Prop
  | .restore => visit.selection.published = none
  | .select (.toggleTrail name) => Listable name
  | .trailsAnswered n (.ok answer) => ∀ request ∈ visit.page.requests[n]?, ∃ context now later,
      knows now context ∧ request.served context now later = .ok answer
  | _ => True

variable {knows} {event : VisitEvent}

theorem Named.of_asks (h : before.Named knows) (hasks : Asks arrived before after)
    (harrived : ∀ taken, arrived taken → taken.Known knows) : after.Named knows where
  on := hasks.selection ▸ h.on
  stored := hasks.selection ▸ h.stored
  asked request hrequest := by
    obtain hold | ⟨hnames, hne⟩ := hasks.requests request hrequest
    · exact h.asked request hold
    · exact ⟨hne, hnames ▸ h.on⟩
  known taken htaken := by
    obtain hold | hnew := hasks.taken taken htaken
    · exact h.known taken hold
    · exact harrived taken hnew

/-- Other trails are on, with names that can stand in a list. -/
theorem Named.trailsChanged (h : visit.Named knows) {selection : Selection}
    (hon : ∀ name ∈ selection.trails, Listable name) (hstored : ∀ name ∈ selection.stored.trails, Listable name)
    (told : Bool) : (({ visit with selection } : Visit).trailsChanged told).Named knows := by
  have hset : ({ visit with selection } : Visit).Named knows := ⟨hon, hstored, h.asked, h.known⟩
  unfold Visit.trailsChanged
  split_ifs
  · exact @Named.of_asks _ _ (fun _ ↦ False) _ hset (asks_loadTrails _) fun _ hnone ↦ hnone.elim
  · exact hset

/-- An answer that comes in is the server's, over the span that was asked for. -/
theorem known_of_arrived (hinv : visit.Inv) (h : visit.Named knows) (hserved : visit.Served knows event)
    {taken : Taken} (harrived : visit.Arrived event taken) : taken.Known knows := by
  obtain ⟨n, hrequest, rfl⟩ := harrived
  have hmem := List.mem_of_getElem? hrequest
  obtain ⟨context, now, later, hknows, hanswer⟩ := hserved taken.request hrequest
  obtain ⟨hne, hnames⟩ := h.asked taken.request hmem
  obtain ⟨span, hspan, hshowable, -, hknown⟩ := served_spec hne hnames hanswer
  rw [(hinv.askable taken.request hmem).clamped_eq hspan] at hshowable hknown
  exact ⟨span, now, context, hspan, hshowable, hknows, hknown⟩

theorem allowed_of_served (h : visit.Named knows) (hserved : visit.Served knows event) : visit.Allowed event := by
  cases event with
  | restore => exact hserved
  | trailsAnswered n answer =>
    intro request hrequest
    cases answer with
    | error failure => trivial
    | ok answer =>
      obtain ⟨context, now, later, -, hanswer⟩ := hserved request hrequest
      obtain ⟨hne, hnames⟩ := h.asked request (List.mem_of_getElem? hrequest)
      rw [← hanswer]
      exact answers_served hne hnames
  | _ => trivial

theorem named_select (h : visit.Named knows) (htold : visit.selection.Told) {change : SelectionEvent}
    (hserved : visit.Served knows (.select change)) : (visit.step dates (.select change)).Named knows := by
  have hon : ∀ name ∈ (visit.selection.step change).trails, Listable name := by
    intro name hname
    obtain hold | rfl := Selection.mem_trails_step hname
    · exact h.on name hold
    · exact hserved
  obtain ⟨hsame, -⟩ | ⟨trails, hstep, -, hnodup, hshort⟩ := Selection.step_cases htold change
  · refine h.trailsChanged hon ?_ _
    rw [hsame]
    exact h.stored
  · refine h.trailsChanged hon ?_ _
    rw [hstep] at hon ⊢
    rw [Selection.trailsChanged, Selection.trails_array hnodup hshort]
    exact hon

theorem named_step (hinv : visit.Inv) (h : visit.Named knows) (hserved : visit.Served knows event) :
    (visit.step dates event).Named knows := by
  by_cases hrestore : event = .restore
  · obtain rfl := hrestore
    have hrestored : ∀ name ∈ visit.selection.restore.trails, Listable name := h.stored
    exact h.trailsChanged hrestored h.stored _
  · by_cases hselect : ∃ change, event = .select change
    · obtain ⟨change, rfl⟩ := hselect
      exact named_select h hinv.told hserved
    · exact h.of_asks (asks_step visit hrestore fun change hsame ↦ hselect ⟨change, hsame⟩)
        fun _ harrived ↦ known_of_arrived hinv h hserved harrived

/-! ## What holds all along -/

/-- The server reads every request as it was meant: it asks for one to eight players, those that it names and none
of them twice, over the span that is picked as long as a trail of it can be shown. -/
def Readable (visit : Visit) : Prop := ∀ request ∈ visit.page.requests, ∃ span, request.span = some span ∧
  Trails.listParam (request.query span).members = request.names ∧ request.Few ∧
  ∀ now read, Span.of (request.query span).days (request.query span).fromSecs (request.query span).toSecs now =
    .ok read ↔ read = span ∧ span.Showable now

variable (knows) in
/-- What is drawn of a player is what the server knew of that very player's account, over the span that was asked
for; and of a player whose trail is on but not drawn once the newest answer is there it knew none. -/
structure DrawnAsKnown (visit : Visit) : Prop where
  drawn : ∀ name shown, visit.page.onMap.get name = some shown → name ∈ visit.selection.trails ∧
    ∃ taken ∈ visit.page.taken, ∃ span now context, name ∈ taken.request.names ∧
      taken.request.span = some span ∧ span.Showable (now / 1000) ∧ knows now context ∧
      KnownTrail context span taken.nowS name shown
  missing : visit.page.isConnected = true → ∀ taken ∈ visit.page.taken,
    taken.request.id = visit.page.trailRequestId → ∀ name ∈ visit.selection.trails,
      visit.page.onMap.get name = none → ∃ span now context, taken.request.span = some span ∧
        span.Showable (now / 1000) ∧ knows now context ∧ KnownWithout context span name

theorem Named.readable (hinv : visit.Inv) (h : visit.Named knows) : visit.Readable := by
  intro request hrequest
  have haskable := hinv.askable request hrequest
  obtain ⟨hne, hnames⟩ := h.asked request hrequest
  obtain ⟨span, hspan⟩ : ∃ span, request.span = some span := by
    obtain ⟨_, _, hlength⟩ | ⟨_, _, _, _, hsession⟩ := haskable
    · exact ⟨_, hlength⟩
    · exact ⟨_, hsession⟩
  refine ⟨span, hspan, listParam_query span hne hnames, hinv.few request hrequest, fun now read ↦ ?_⟩
  have hread := @Span.of_params_iff now read span
  rw [haskable.clamped_eq hspan] at hread
  refine hread.trans (and_congr_right ?_)
  rintro rfl
  exact Iff.rfl

theorem Named.drawnAsKnown (hinv : visit.Inv) (h : visit.Named knows) : visit.DrawnAsKnown knows where
  drawn name shown hget := by
    obtain ⟨hconnected, taken, htaken, hshows⟩ := hinv.shown name shown hget
    obtain ⟨span, now, context, hspan, hshowable, hknows, hknown⟩ := h.known taken htaken
    refine ⟨(hinv.fresh hconnected).selected name (OrderedMap.mem_keys_of_get hget), taken, htaken, span, now,
      context, hshows.asked, hspan, hshowable, hknows, ?_⟩
    obtain ⟨entry, hentry, rfl, htrail⟩ := hshows.entry
    obtain ⟨known, hanswer, hentryTrail⟩ := hknown entry hentry
    rw [htrail] at hentryTrail
    obtain ⟨⟨built, asOf⟩, rfl, hjson⟩ := Option.map_eq_some_iff.mp hentryTrail.symm
    have hshown : shown = ⟨trailJson entry.member built asOf, some (spanWindow span taken.nowS)⟩ := by
      have hwindow := hshows.window
      rw [Taken.window, hspan] at hwindow
      exact congrArg₂ ShownTrail.mk hjson.symm hwindow
    rw [hshown]
    exact knownTrail_of_memberAnswer hanswer taken.nowS
  missing hconnected taken htaken hid name hname hget := by
    obtain ⟨span, now, context, hspan, hshowable, hknows, hknown⟩ := h.known taken htaken
    refine ⟨span, now, context, hspan, hshowable, hknows, ?_⟩
    obtain ⟨hnames, hdrawn⟩ := (hinv.fresh hconnected).complete taken htaken hid
    rw [← hnames, ← hdrawn.about] at hname
    obtain ⟨entry, hentry, rfl⟩ := List.mem_map.mp hname
    have hentries := hdrawn.entries entry hentry
    rw [hget] at hentries
    obtain ⟨known, hanswer, htrail⟩ := hknown entry hentry
    rw [Option.map_eq_none_iff.mp hentries.symm] at htrail
    rw [Option.map_eq_none_iff.mp htrail.symm] at hanswer
    exact knownWithout_of_memberAnswer hanswer

/-- What the map shows comes from answers of the server about the trails that are on, whatever the server knows and
whenever it learns it and in whatever order the answers come. -/
theorem always_drawn_served (knows : ℤ → HubContext → Prop) (stored : Remembered) {rememberedDays : String}
    {events : List VisitEvent} (hstored : ∀ name ∈ stored.trails, Listable name)
    (h : ¬ SessionValue rememberedDays)
    (hserved : Along (step dates) (Served knows) (start stored rememberedDays) events) :
    Always (step dates) (fun visit ↦ visit.Drawn ∧ visit.DrawnAsKnown knows ∧ visit.Readable)
      (start stored rememberedDays) events := by
  have hnamed : (start stored rememberedDays).Named knows :=
    ⟨by simp [start, Selection.signedOut], hstored, by simp [start, MapPage.new], by simp [start, MapPage.new]⟩
  have hall : Always (step dates) (fun visit ↦ visit.Inv ∧ visit.Named knows) (start stored rememberedDays) events :=
    always_of_along (fun _ event hvisit hevent ↦
      ⟨inv_step hvisit.1 event (allowed_of_served hvisit.2 hevent), named_step hvisit.1 hvisit.2 hevent⟩)
      ⟨inv_start stored h, hnamed⟩ hserved
  exact hall.mono fun _ hvisit ↦
    ⟨hvisit.1.drawn, hvisit.2.drawnAsKnown hvisit.1, hvisit.2.readable hvisit.1⟩

/-- A server that knows Ann and has a trail of her with nothing in it. -/
def annsServer : HubContext where
  historyEnabled := true
  hubId name := if name = "Ann" then some "1" else none
  accountTrail _ _ := .ok (some (⟨[], 60, false⟩, 2000))

theorem always_drawn_annsServer :
    Always (step Site.utcDates)
      (fun visit ↦ visit.Drawn ∧ visit.DrawnAsKnown (fun _ context ↦ context = annsServer) ∧ visit.Readable)
      (start (.array [some "Ann"]) "7")
      [.openPage, .restore, .select (.toggleTrail "Bob B"), .trailsAnswered 1
        (.ok ⟨2, [⟨"Ann", some ⟨"Ann", true, 60, false, 2, [], []⟩⟩, ⟨"Bob B", none⟩]⟩)] := by
  refine always_drawn_served _ _ (by decide +kernel) not_sessionValue_seven
    ⟨trivial, (rfl : Option.none = none), (by decide : Listable "Bob B"), ?_, trivial⟩
  intro request hrequest
  obtain rfl : request = ⟨2, ["Ann", "Bob B"], some (.days 7)⟩ :=
    Option.some.inj (hrequest.symm.trans (by decide +kernel))
  exact ⟨annsServer, 3000, 3000, rfl, by decide +kernel⟩

end Runs

end Visit

end OsrsMap.Page
