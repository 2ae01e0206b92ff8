import OsrsMap.Library.Ordered
import OsrsMap.Page.Selection
import OsrsMap.Site.TrailSessions
import OsrsMap.Trails.TrailJson

/-!
# The trails the map page asks for

`MapPage` (`site/src/map-page/map-page.js`): the page asks the server for the trails that are on, over
the time picked in its menu, and again every minute. What is picked is a number of days or a play session,
and the sessions in the menu are asked for too. The user goes on while requests are under way: their
answers come in any order, late, as an error, or never, and an answer that was overtaken is dropped.

What is marked on the trails and the chips that name them are left out.
-/

namespace OsrsMap.Page

open Run
open Trails (Span TrailJson)
open Site (SessionOption sessionOptions Dates PlaySession)

/-- `TRAIL_REFRESH_MS`. -/
def trailRefreshMs : ℕ := 60000

/-- `TRAIL_RETRY_MS`: the first retry after a failed request. -/
def trailRetryMs : ℕ := 5000

/-- `TRAIL_STALE_S`: hub data older than this is the server's stale copy. -/
def trailStaleS : ℤ := 180

/-! ## Answers -/

/-- A trail of an answer; one that is not shared has none. -/
structure TrailEntry where
  member : String
  trail : Option TrailJson
deriving DecidableEq, Repr

/-- `{as_of, trails}`, the time in unix seconds. -/
structure TrailsAnswer where
  asOf : ℤ
  trails : List TrailEntry
deriving DecidableEq, Repr

/-- `error.status`; a request that got no answer has none. -/
abbrev Failure := Option ℕ

/-- How a trail over a span is drawn. -/
structure SpanWindow where
  windowS : ℤ
  untilS : Option ℤ
  fromS : ℤ
deriving DecidableEq, Repr

def spanWindow (span : Span) (nowS : ℤ) : SpanWindow :=
  match span with
  | .days count => { windowS := count * 86400, untilS := none, fromS := nowS - count * 86400 }
  | .between fromSecs toSecs =>
    { windowS := toSecs.getD nowS - fromSecs, untilS := toSecs, fromS := fromSecs }

def staleNotice (dates : Dates) (asOf now : ℤ) : Option String :=
  if asOf = 0 ∨ now - asOf * 1000 < trailStaleS * 1000 then none
  else some ("Hub data from " ++ dates.clockTime (asOf * 1000))

/-! ## The menu -/

/-- The session that was picked; the player is whose sessions the menu had. -/
structure PickedSession where
  member : Option String
  choice : SessionOption
deriving DecidableEq, Repr

/-- A request for the sessions of a player. -/
structure SessionRequest where
  id : ℕ
  owner : String
deriving DecidableEq, Repr

/-- The select of the time of the trails, with what the page knows of sessions. `value` is what is selected,
`group` what is offered below the lengths; `rememberedDays` is in the browser. Not of the code: every
session that was offered so far, and whose. -/
structure SessionMenu where
  value : String
  group : List String
  rememberedDays : String
  sessionChoices : List SessionOption
  sessionsOf : Option String
  sessionsAt : ℤ
  pickedSession : Option PickedSession
  sessionsWanted : Option String
  sessionsRequestId : ℕ
  requests : List SessionRequest
  offered : List (Option String × SessionOption)
deriving DecidableEq, Repr

/-- `parseInt(text, 10)` of a text without blanks and signs in front: the number that its first digits are, or
none for NaN. -/
def parseInt (text : String) : Option ℤ :=
  let digits := text.toList.takeWhile Char.isDigit
  if digits = [] then none else some (digits.foldl (fun number digit ↦ number * 10 + (digit.toNat - 48)) 0)

/-- The lengths in the markup. -/
def trailLengths : List String := ["1", "7"]

namespace SessionMenu

/-- Of a page that was just made. -/
def new (rememberedDays : String) : SessionMenu where
  value := "1"
  group := []
  rememberedDays
  sessionChoices := []
  sessionsOf := none
  sessionsAt := 0
  pickedSession := none
  sessionsWanted := none
  sessionsRequestId := 0
  requests := []
  offered := []

variable (menu : SessionMenu)

def options : List String := trailLengths ++ menu.group

/-- `select.value = value`: nothing is selected when it is not offered. -/
def select (value : String) : SessionMenu :=
  { menu with value := if value ∈ menu.options then value else "" }

/-- The length chosen last time, when the select still offers it; else its first. -/
def storedTrailDays : String := if menu.rememberedDays ∈ menu.options then menu.rememberedDays else "1"

/-- Back to the length the menu remembers: the session that was picked is no more. -/
def dropSession : SessionMenu := { menu with pickedSession := none }.select menu.storedTrailDays

/-- Lists a player's sessions below the lengths in the menu, or none. -/
def showSessions (owner : Option String) (choices : List SessionOption) : SessionMenu :=
  let days := if menu.pickedSession.isSome then "" else menu.value
  let listed :=
    { menu with
      sessionsOf := owner
      sessionChoices := choices
      group := choices.map SessionOption.value
      offered := menu.offered ++ choices.map fun choice ↦ (owner, choice) }
  let picked := menu.pickedSession.filter fun picked ↦ picked.choice.value ∈ listed.group
  let shown :=
    listed.select (picked.elim (if days = "" then listed.storedTrailDays else days) (·.choice.value))
  if shown.value = "" then shown.select shown.storedTrailDays else shown

/-- The sessions of a player are wanted: they are asked for, unless the menu has them since less than a
minute. -/
def load (owner : Option String) (now : ℕ) : SessionMenu :=
  let menu := { menu with sessionsWanted := owner, sessionsRequestId := menu.sessionsRequestId + 1 }
  match owner with
  | none => menu.showSessions none []
  | some name =>
    if some name = menu.sessionsOf ∧ now - menu.sessionsAt < Site.sessionsRefreshMs then menu
    else { menu with requests := menu.requests ++ [{ id := menu.sessionsRequestId, owner := name }] }

/-- The session that was picked, when it is a player's. -/
def pickedOf (owner : String) : Option SessionOption :=
  (menu.pickedSession.filter fun picked ↦ picked.member = some owner).map PickedSession.choice

/-- The markup is new: the lengths only. -/
def rendered : SessionMenu :=
  let menu := { menu with group := [] }
  menu.select menu.storedTrailDays

end SessionMenu

/-! ## The page -/

/-- A request for trails; a length that is no number makes no span. -/
structure TrailRequest where
  id : ℕ
  names : List String
  span : Option Span
deriving DecidableEq, Repr

/-- A trail on the map, and over what it is drawn. -/
structure ShownTrail where
  trail : TrailJson
  window : Option SpanWindow

/-- An answer that was taken. -/
structure Taken where
  request : TrailRequest
  answer : TrailsAnswer
  nowS : ℤ

/-- The page, the trails it has on the map and its requests under way. `trailRefresh` is when its timer
goes off. Not of the code: the answer that was taken last. -/
structure MapPage where
  isConnected : Bool
  historyEnabled : Option Bool
  trailRequestId : ℕ
  trailFailures : ℕ
  trailError : Option String
  trailRefresh : Option ℕ
  onMap : OrderedMap String ShownTrail
  menu : SessionMenu
  requests : List TrailRequest
  taken : Option Taken

/-- What the page and the rest of the site have in common: the topics "player-selected" (and whether it was
published) and "features", and the clock, in milliseconds. -/
structure Visit where
  selection : Selection
  selected : Option String
  selectedPublished : Bool
  features : Option Bool
  now : ℕ
  page : MapPage

/-- `Math.min(TRAIL_RETRY_MS * 2 ** (failures - 1), TRAIL_REFRESH_MS)`. -/
def retryIn (failures : ℕ) : ℕ := min (trailRetryMs * 2 ^ (failures - 1)) trailRefreshMs

namespace MapPage

def new (rememberedDays : String) : MapPage where
  isConnected := false
  historyEnabled := none
  trailRequestId := 0
  trailFailures := 0
  trailError := none
  trailRefresh := none
  onMap := .empty
  menu := .new rememberedDays
  requests := []
  taken := none

variable (page : MapPage)

/-- The time the trails are asked for. -/
def trailSpan : Option Span :=
  match page.menu.pickedSession with
  | some picked => some (.between picked.choice.fromSecs picked.choice.toSecs)
  | none => (parseInt page.menu.value).map .days

/-- Puts a trail of an answer on the map, or takes it off. -/
def setTrail (window : Option SpanWindow) (onMap : OrderedMap String ShownTrail) (entry : TrailEntry) :
    OrderedMap String ShownTrail :=
  match entry.trail with
  | some trail => onMap.set entry.member { trail, window }
  | none => onMap.delete entry.member

/-- A request that failed: what is drawn stays. -/
def failed (failure : Failure) (now : ℕ) : MapPage :=
  { page with
    trailError := some (if failure = some 503 then "Hub busy" else "Trails unavailable")
    trailFailures := page.trailFailures + 1
    trailRefresh := some (now + retryIn (page.trailFailures + 1)) }

/-- The trails of an answer, on the map. -/
def shown (request : TrailRequest) (answer : TrailsAnswer) (nowS : ℤ) : MapPage :=
  { page with
    onMap := answer.trails.foldl (setTrail (request.span.map (spanWindow · nowS))) page.onMap
    taken := some ⟨request, answer, nowS⟩ }

end MapPage

namespace Visit

def start (stored : Remembered) (rememberedDays : String) : Visit where
  selection := .signedOut stored
  selected := none
  selectedPublished := false
  features := none
  now := 0
  page := .new rememberedDays

variable (visit : Visit)

/-- Whose sessions the menu offers. -/
def sessionOwner : Option String :=
  let asked := visit.selection.trails
  match (visit.page.menu.pickedSession.bind PickedSession.member).filter (· ∈ asked) with
  | some member => some member
  | none =>
    let drawn := visit.page.onMap.keys.filter visit.selection.hasTrail
    let names := if drawn = [] then asked else drawn
    match visit.selected.filter (· ∈ names) with
    | some name => some name
    | none => names.head?

/-- `loadSessions` up to its answer. -/
def menuLoading : SessionMenu :=
  visit.page.menu.load (if visit.page.historyEnabled = some false then none else visit.sessionOwner) visit.now

def loadSessions : Visit := { visit with page := { visit.page with menu := visit.menuLoading } }

/-- With its trail taken off a session is nobody's. -/
def menuKept : SessionMenu :=
  if visit.page.menu.pickedSession.any fun picked ↦ !picked.member.any visit.selection.hasTrail then
    visit.page.menu.dropSession
  else visit.page.menu

/-- `loadTrails` up to its request: the timer is off, requests that are under way are overtaken, and a
trail that was switched off goes at once. -/
def overtaken : Visit :=
  let visit : Visit :=
    { visit with
      page :=
        { visit.page with
          trailRefresh := none
          trailRequestId := visit.page.trailRequestId + 1
          menu := visit.menuKept } }
  let visit := visit.loadSessions
  { visit with page := { visit.page with onMap := visit.page.onMap.retain visit.selection.hasTrail } }

/-- There is something to ask for, as far as the page knows. -/
def Wanting : Prop := visit.selection.trails ≠ [] ∧ visit.page.historyEnabled ≠ some false

instance decidableWanting : Decidable visit.Wanting :=
  inferInstanceAs (Decidable (visit.selection.trails ≠ [] ∧ visit.page.historyEnabled ≠ some false))

/-- `loadTrails` up to its answer. -/
def loadTrails : Visit :=
  let visit := visit.overtaken
  if visit.Wanting then
    { visit with
      page :=
        { visit.page with
          requests := visit.page.requests ++
            [{ id := visit.page.trailRequestId
               names := visit.selection.trails
               span := visit.page.trailSpan }] } }
  else { visit with page := { visit.page with trailError := none, trailFailures := 0 } }

/-- `handleFeatures`. -/
def handleFeatures (history : Bool) : Visit :=
  let switchedOn := history && visit.page.historyEnabled == some false
  let visit : Visit := { visit with page := { visit.page with historyEnabled := some history } }
  if switchedOn then visit.loadTrails else visit

/-- `handleTrailDaysChange`, with another option selected. -/
def handleTrailDaysChange (value : String) : Visit :=
  let menu := { visit.page.menu with value }
  let menu :=
    match menu.sessionChoices.find? fun choice ↦ choice.value = value with
    | some choice => { menu with pickedSession := some { member := menu.sessionsOf, choice } }
    | none => { menu with pickedSession := none, rememberedDays := value }
  ({ visit with page := { visit.page with menu } } : Visit).loadTrails

/-- `connectedCallback`: the last value of every topic is played back. -/
def openPage : Visit :=
  let visit : Visit :=
    { visit with page := { visit.page with isConnected := true, menu := visit.page.menu.rendered } }
  let visit := visit.features.elim visit visit.handleFeatures
  let visit := if visit.selection.published.isSome then visit.loadTrails else visit
  if visit.selectedPublished then visit.loadSessions else visit

/-- `disconnectedCallback`. -/
def leavePage : Visit :=
  { visit with page := { visit.page with isConnected := false, trailRefresh := none, onMap := .empty } }

/-! ## Answers -/

/-- An answer about trails, or none. -/
def trailsAnswered (dates : Dates) (request : TrailRequest) (answer : Except Failure TrailsAnswer) : Visit :=
  if ¬ visit.page.isConnected ∨ request.id ≠ visit.page.trailRequestId then visit
  else
    match answer with
    | .error failure => { visit with page := visit.page.failed failure visit.now }
    | .ok answer =>
      let visit : Visit := { visit with page := visit.page.shown request answer (visit.now / 1000) }
      -- Other trails may be on the map now, and the replay may watch another player.
      let visit := if visit.sessionOwner ≠ visit.page.menu.sessionsWanted then visit.loadSessions else visit
      { visit with
        page :=
          { visit.page with
            trailFailures := 0
            trailError := staleNotice dates answer.asOf visit.now
            trailRefresh := some (visit.now + trailRefreshMs) } }

/-- The sessions of a player came in: the menu, and whether the session that was picked changed with it. -/
def menuAnswered (dates : Dates) (owner : String) (sessions : List PlaySession) : SessionMenu × Bool :=
  let menu := { visit.page.menu with sessionsAt := visit.now }
  let picked := menu.pickedOf owner
  let choices := sessionOptions dates (some sessions) visit.now (picked.map SessionOption.start)
  match picked with
  | none => (menu.showSessions (some owner) choices, false)
  | some picked =>
    match choices.find? fun choice ↦ choice.start = picked.start with
    | none => ((menu.showSessions (some owner) choices).dropSession, true)
    | some choice =>
      if choice.toSecs = picked.toSecs then (menu.showSessions (some owner) choices, false)
      else
        ({ menu with pickedSession := some { member := some owner, choice } }.showSessions (some owner) choices,
          true)

/-- `loadSessions` from its answer on. Not shared is an answer: no sessions to offer. -/
def sessionsAnswered (dates : Dates) (request : SessionRequest)
    (answer : Except Failure (List PlaySession)) : Visit :=
  let sessions :=
    match answer with
    | .ok sessions => some sessions
    | .error failure =>
      if failure ≠ some 404 ∧ some request.owner = visit.page.menu.sessionsOf then none else some []
  match sessions with
  | none => visit
  | some sessions =>
    if ¬ visit.page.isConnected ∨ request.id ≠ visit.page.menu.sessionsRequestId then visit
    else
      let (menu, changed) := visit.menuAnswered dates request.owner sessions
      let visit : Visit := { visit with page := { visit.page with menu } }
      if changed then visit.loadTrails else visit

end Visit

/-! ## Runs -/

inductive VisitEvent where
  /-- What was remembered is read, once somebody has signed in. -/
  | restore
  | select (event : SelectionEvent)
  | selectPlayer (name : String)
  | clearPlayer
  | featuresLoaded (hubHistory : Bool)
  | openPage
  | leavePage
  | pickSpan (value : String)
  /-- One of the requests under way is answered. -/
  | trailsAnswered (request : ℕ) (answer : Except Failure TrailsAnswer)
  | sessionsAnswered (request : ℕ) (answer : Except Failure (List PlaySession))
  | elapse (ms : ℕ)
  /-- The timer goes off. -/
  | refresh

namespace Visit

variable (dates : Dates) (visit : Visit)

/-- The page hears of "trails-changed". -/
def trailsChanged (told : Bool) : Visit :=
  if told && visit.page.isConnected then visit.loadTrails else visit

/-- The topic "player-selected" is published. -/
def selectedChanged (name : Option String) : Visit :=
  let visit : Visit := { visit with selected := name, selectedPublished := true }
  if visit.page.isConnected then visit.loadSessions else visit

def step : VisitEvent → Visit
  | .restore =>
    let selection := visit.selection.restore
    ({ visit with selection } : Visit).trailsChanged (selection.trails ≠ [])
  | .select event =>
    ({ visit with selection := visit.selection.step event } : Visit).trailsChanged
      (visit.selection.tells event)
  | .selectPlayer name => visit.selectedChanged (some name)
  | .clearPlayer => if visit.selected.isSome then visit.selectedChanged none else visit
  | .featuresLoaded hubHistory =>
    let visit : Visit := { visit with features := some hubHistory }
    if visit.page.isConnected then visit.handleFeatures hubHistory else visit
  | .openPage => if visit.page.isConnected then visit else visit.openPage
  | .leavePage => if visit.page.isConnected then visit.leavePage else visit
  | .pickSpan value =>
    if visit.page.isConnected ∧ value ∈ visit.page.menu.options then visit.handleTrailDaysChange value
    else visit
  | .trailsAnswered n answer =>
    match visit.page.requests[n]? with
    | none => visit
    | some request =>
      ({ visit with page := { visit.page with requests := visit.page.requests.eraseIdx n } } :
        Visit).trailsAnswered dates request answer
  | .sessionsAnswered n answer =>
    match visit.page.menu.requests[n]? with
    | none => visit
    | some request =>
      let menu := { visit.page.menu with requests := visit.page.menu.requests.eraseIdx n }
      ({ visit with page := { visit.page with menu } } : Visit).sessionsAnswered dates request answer
  | .elapse ms => { visit with now := visit.now + ms }
  | .refresh =>
    if visit.page.trailRefresh.any (· ≤ visit.now) then visit.loadTrails else visit

end Visit

end OsrsMap.Page
