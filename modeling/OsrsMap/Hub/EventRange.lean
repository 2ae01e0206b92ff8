import OsrsMap.Library.Pages
import OsrsMap.Cache.Ttl
import Mathlib.Data.List.Infix

/-!
# The events of a time range

`read_range` (`server/src/hub/profile.rs`): the events along a trail. A hub hands out the events of a range
newest first, in pages with range cursors; a hub from before it could answers with a page of its feed,
oldest first, and a feed cursor. The hub is any server here, which may change with every request.
-/

namespace OsrsMap.Hub

open Cache (HubError)

/-- `RANGE_PAGE`: events per hub page. -/
def rangePage : ℕ := 500

/-! ## Events -/

/-- `serde_json::Value`; a number is its text. -/
inductive Value where
  | null
  | bool (value : Bool)
  | number (text : String)
  | string (text : String)
  | array (items : List Value)
  | object (fields : List (String × Value))

/-- `Value::get` with a key. -/
def Value.get (key : String) : Value → Option Value
  | .object fields => fields.lookup key
  | _ => none

/-- `Value::as_str`. -/
def Value.asStr : Value → Option String
  | .string text => some text
  | _ => none

/-- When an event occurred, with any function in place of the parser of times. -/
def occurredAt (parse : String → Option ℤ) (event : Value) : Option ℤ := do
  let field ← event.get "occurred_at"
  let text ← field.asStr
  parse text

/-- A time-range cursor of the hub: base64url of `r1:` and what follows. -/
def isRangeCursor (cursor : String) : Bool := "cjE6".toList.isPrefixOf cursor.toList

/-! ## Reading -/

/-- The hub's `/events`, page by page. -/
abbrev EventPages (σ : Type*) := Pages.Server σ String Value HubError

/-- What a reading came to. The hub, what it was asked and what it answered are not part of what the source
returns. -/
structure RangeRead (σ : Type*) where
  hub : σ
  requests : ℕ
  answers : List (List Value × Option String)
  events : Except HubError (List Value)

section Read

variable {σ : Type*} (parse : String → Option ℤ) (page : EventPages σ) (fromTime : ℤ) (max : ℕ)

/-- What is kept of the page of an older hub. -/
def fromFeed (batch : List Value) : List Value :=
  batch.reverse.filter fun event ↦ (occurredAt parse event).any fun time ↦ fromTime ≤ time

/-- The loop of `read_range`, for the requests that it may still make. -/
def readPages : ℕ → σ → Option String → List Value → RangeRead σ
  | 0, hub, _, events => { hub, requests := 0, answers := [], events := .ok events }
  | turns + 1, hub, cursor, events =>
    match page hub cursor with
    | (.error error, hub) => { hub, requests := 1, answers := [], events := .error error }
    | (.ok (batch, next), hub) =>
      if next.any fun next ↦ !isRangeCursor next then
        { hub, requests := 1, answers := [(batch, next)], events := .ok (events ++ fromFeed parse fromTime batch) }
      else if next.isNone ∨ max ≤ (events ++ batch).length then
        { hub, requests := 1, answers := [(batch, next)], events := .ok (events ++ batch) }
      else
        let read := readPages turns hub next (events ++ batch)
        { read with requests := read.requests + 1, answers := (batch, next) :: read.answers }

/-- `usize::div_ceil`. -/
def divCeil (a b : ℕ) : ℕ := (a + (b - 1)) / b

/-- Reads the pages of a time range until the last one, or until there are `max` events. -/
def readRange (hub : σ) : RangeRead σ :=
  let read := readPages parse page fromTime max (divCeil max rangePage + 1) hub none []
  { read with events := read.events.map (List.take max) }

variable {parse page fromTime max} {turns : ℕ} {hub : σ} {cursor : Option String} {events list : List Value}

theorem readPages_error {error : HubError} {after : σ} (hpage : page hub cursor = (.error error, after)) :
    readPages parse page fromTime max (turns + 1) hub cursor events =
      { hub := after, requests := 1, answers := [], events := .error error } := by
  rw [readPages, hpage]

/-- A page of an older hub. -/
theorem readPages_feed {batch : List Value} {feed : String} {after : σ}
    (hpage : page hub cursor = (.ok (batch, some feed), after)) (hfeed : isRangeCursor feed = false) :
    readPages parse page fromTime max (turns + 1) hub cursor events =
      { hub := after, requests := 1, answers := [(batch, some feed)]
        events := .ok (events ++ fromFeed parse fromTime batch) } := by
  rw [readPages, hpage]
  dsimp only
  rw [Option.any_some, hfeed, Bool.not_false, if_pos rfl]

/-- The last page there is, or the last one that is needed. -/
theorem readPages_last {batch : List Value} {next : Option String} {after : σ}
    (hpage : page hub cursor = (.ok (batch, next), after)) (hrange : ∀ cursor ∈ next, isRangeCursor cursor = true)
    (hstop : next = none ∨ max ≤ (events ++ batch).length) :
    readPages parse page fromTime max (turns + 1) hub cursor events =
      { hub := after, requests := 1, answers := [(batch, next)], events := .ok (events ++ batch) } := by
  have hfeed : (next.any fun next ↦ !isRangeCursor next) = false := by
    rw [Option.any_eq_false]
    exact fun cursor hcursor ↦ by rw [hrange cursor hcursor, Bool.not_true]
  rw [readPages, hpage]
  dsimp only
  rw [hfeed, if_neg Bool.false_ne_true, if_pos (by rwa [Option.isNone_iff_eq_none])]

/-- A page after which there is more to read. -/
theorem readPages_next {batch : List Value} {next : String} {after : σ}
    (hpage : page hub cursor = (.ok (batch, some next), after)) (hrange : isRangeCursor next = true)
    (hmore : (events ++ batch).length < max) :
    readPages parse page fromTime max (turns + 1) hub cursor events =
      let read := readPages parse page fromTime max turns after (some next) (events ++ batch)
      { read with requests := read.requests + 1, answers := (batch, some next) :: read.answers } := by
  rw [readPages, hpage]
  dsimp only
  rw [Option.any_some, hrange, Bool.not_true, if_neg Bool.false_ne_true,
    if_neg (not_or.mpr ⟨by simp, not_le.mpr hmore⟩)]

/-- How a turn of the loop goes: an error, a page of an older hub, the last page or enough of them, or a page
after which it goes on. -/
theorem readPages_cases (turns : ℕ) (hub : σ) (cursor : Option String) (events : List Value) :
    (∃ error after, readPages parse page fromTime max (turns + 1) hub cursor events =
      { hub := after, requests := 1, answers := [], events := .error error }) ∨
    (∃ batch feed after, readPages parse page fromTime max (turns + 1) hub cursor events =
      { hub := after, requests := 1, answers := [(batch, some feed)]
        events := .ok (events ++ fromFeed parse fromTime batch) }) ∨
    (∃ batch next after, (∀ cursor ∈ next, isRangeCursor cursor = true) ∧
      readPages parse page fromTime max (turns + 1) hub cursor events =
        { hub := after, requests := 1, answers := [(batch, next)], events := .ok (events ++ batch) }) ∨
    ∃ batch next after, isRangeCursor next = true ∧
      readPages parse page fromTime max (turns + 1) hub cursor events =
        let read := readPages parse page fromTime max turns after (some next) (events ++ batch)
        { read with requests := read.requests + 1, answers := (batch, some next) :: read.answers } := by
  rcases hpage : page hub cursor with ⟨error | ⟨batch, next⟩, after⟩
  · exact .inl ⟨error, after, readPages_error hpage⟩
  · apply Or.inr
    cases next with
    | none => exact .inr (.inl ⟨batch, none, after, by simp, readPages_last hpage (by simp) (.inl rfl)⟩)
    | some next =>
      cases hrange : isRangeCursor next with
      | false => exact .inl ⟨batch, next, after, readPages_feed hpage hrange⟩
      | true =>
        have hall : ∀ cursor ∈ some next, isRangeCursor cursor = true := by simpa using hrange
        obtain hmore | henough := lt_or_ge (events ++ batch).length max
        · exact .inr (.inr ⟨batch, next, after, hrange, readPages_next hpage hrange hmore⟩)
        · exact .inr (.inl ⟨batch, some next, after, hall, readPages_last hpage hall (.inr henough)⟩)

/-- Whatever the hub answers, it is asked no more often than may be. -/
theorem requests_readPages_le :
    (readPages parse page fromTime max turns hub cursor events).requests ≤ turns := by
  induction turns generalizing hub cursor events with
  | zero => exact le_rfl
  | succ turns ih =>
    obtain ⟨_, _, hread⟩ | ⟨_, _, _, hread⟩ | ⟨_, _, _, -, hread⟩ | ⟨_, _, _, -, hread⟩ :=
      @readPages_cases σ parse page fromTime max turns hub cursor events
    · rw [hread]
      exact Nat.le_add_left 1 turns
    · rw [hread]
      exact Nat.le_add_left 1 turns
    · rw [hread]
      exact Nat.le_add_left 1 turns
    · rw [hread]
      exact Nat.succ_le_succ ih

/-- A page with a feed cursor is the last one, and follows what was read before it. -/
theorem events_readPages_feed {before : List (List Value × Option String)} {batch : List Value} {feed : String}
    (hanswers : (readPages parse page fromTime max turns hub cursor events).answers =
      before ++ [(batch, some feed)])
    (hfeed : isRangeCursor feed = false) :
    (readPages parse page fromTime max turns hub cursor events).events =
      .ok (events ++ before.flatMap Prod.fst ++ fromFeed parse fromTime batch) := by
  induction turns generalizing hub cursor events before with
  | zero => cases before <;> cases hanswers
  | succ turns ih =>
    obtain ⟨_, _, hread⟩ | ⟨first, _, _, hread⟩ | ⟨first, next, _, hrange, hread⟩ |
        ⟨first, next, _, hrange, hread⟩ :=
      @readPages_cases σ parse page fromTime max turns hub cursor events
    · rw [hread] at hanswers
      cases before <;> cases hanswers
    · rw [hread] at hanswers ⊢
      obtain ⟨rfl, hlast⟩ := List.append_eq_singleton_iff.mp hanswers.symm |>.resolve_right (by simp)
      obtain ⟨rfl, -⟩ := Prod.mk.inj (List.cons.inj hlast).1
      rw [List.flatMap_nil, List.append_nil]
    · rw [hread] at hanswers
      obtain ⟨-, hlast⟩ := List.append_eq_singleton_iff.mp hanswers.symm |>.resolve_right (by simp)
      obtain ⟨-, hnext⟩ := Prod.mk.inj (List.cons.inj hlast).1
      exact absurd (hrange feed hnext.symm) (by simp [hfeed])
    · rw [hread] at hanswers ⊢
      dsimp only at hanswers ⊢
      cases before with
      | nil =>
        obtain ⟨-, hnext⟩ := Prod.mk.inj (List.cons.inj hanswers).1
        obtain rfl := Option.some.inj hnext
        exact absurd hrange (by simp [hfeed])
      | cons answer before =>
        obtain ⟨rfl, hrest⟩ := List.cons.inj hanswers
        rw [ih hrest, List.flatMap_cons, List.append_assoc events]

/-- From a hub that hands out a list the beginning of it is read: all of it, or enough, or as many pages as
there may be requests. -/
theorem events_readPages_of_serves {size : ℕ}
    (h : Pages.Serves page (fun batch next ↦ isRangeCursor next = true ∧ size ≤ batch.length) hub cursor list) :
    ∃ taken, (readPages parse page fromTime max turns hub cursor events).events = .ok (events ++ taken) ∧
      taken <+: list ∧
      (taken = list ∨ max ≤ (events ++ taken).length ∨ turns * size ≤ taken.length) := by
  induction turns generalizing hub cursor events list with
  | zero => exact ⟨[], by rw [List.append_nil]; rfl, List.nil_prefix, .inr (.inr (by simp))⟩
  | succ turns ih =>
    obtain ⟨after, hpage⟩ | ⟨batch, next, after, rest, hpage, ⟨hrange, hfull⟩, rfl, hrest⟩ := h.next
    · refine ⟨list, ?_, List.prefix_refl list, .inl rfl⟩
      rw [readPages_last hpage (by simp) (.inl rfl)]
    · obtain hmore | henough := lt_or_ge (events ++ batch).length max
      · obtain ⟨taken, hread, hprefix, htaken⟩ := @ih after (some next) (events ++ batch) rest hrest
        refine ⟨batch ++ taken, ?_, (List.prefix_append_right_inj batch).mpr hprefix, ?_⟩
        · rw [readPages_next hpage hrange hmore, ← List.append_assoc]
          exact hread
        · rw [← List.append_assoc, @List.length_append _ batch taken]
          obtain rfl | henough | hall := htaken
          · exact .inl rfl
          · exact .inr (.inl henough)
          · apply Or.inr
            apply Or.inr
            rw [Nat.succ_mul]
            omega
      · refine ⟨batch, ?_, List.prefix_append batch rest, .inr (.inl henough)⟩
        exact congrArg RangeRead.events (readPages_last hpage (by simpa using hrange) (.inr henough))

theorem le_divCeil_mul (max : ℕ) {size : ℕ} (hsize : 0 < size) : max ≤ divCeil max size * size := by
  have hlt := Nat.lt_div_mul_add (a := max + (size - 1)) hsize
  unfold divCeil
  omega

variable (parse fromTime max) in
/-- From a hub that hands out a list the beginning of it is read. -/
theorem events_readRange_of_serves {size : ℕ}
    (h : Pages.Serves page (fun batch next ↦ isRangeCursor next = true ∧ size ≤ batch.length) hub none list) :
    ∃ taken, (readRange parse page fromTime max hub).events = .ok (taken.take max) ∧ taken <+: list ∧
      (taken = list ∨ max ≤ taken.length ∨ (divCeil max rangePage + 1) * size ≤ taken.length) := by
  obtain ⟨taken, hread, hprefix, htaken⟩ :=
    @events_readPages_of_serves σ parse page fromTime max (divCeil max rangePage + 1) hub none [] list size h
  rw [List.nil_append] at hread htaken
  refine ⟨taken, ?_, hprefix, htaken⟩
  unfold readRange
  dsimp only
  rw [hread]
  rfl

/-- Every hub is asked once more than full pages take, at most. One that hands out a list in full pages has the
newest events of it read, as many as may be; with pages of any size it is the newest of them still. A page of
an older hub comes last, from its end, without what is older than the range or has no time. -/
theorem readRange_newest (parse : String → Option ℤ) (page : EventPages σ) (fromTime : ℤ) (max : ℕ) (hub : σ) :
    (readRange parse page fromTime max hub).requests ≤ divCeil max rangePage + 1 ∧
    (∀ list, Pages.Serves page (fun batch next ↦ isRangeCursor next = true ∧ batch.length = rangePage) hub none
      list → (readRange parse page fromTime max hub).events = .ok (list.take max)) ∧
    (∀ list, Pages.Serves page (fun _ next ↦ isRangeCursor next = true) hub none list →
      ∃ events, (readRange parse page fromTime max hub).events = .ok events ∧ events <+: list ∧
        events.length ≤ max) ∧
    ∀ before batch feed, (readRange parse page fromTime max hub).answers = before ++ [(batch, some feed)] →
      isRangeCursor feed = false → (readRange parse page fromTime max hub).events =
        .ok ((before.flatMap Prod.fst ++ batch.reverse.filter fun event ↦
          (occurredAt parse event).any fun time ↦ fromTime ≤ time).take max) := by
  refine ⟨requests_readPages_le, fun list hfull ↦ ?_, fun list hserves ↦ ?_, fun before batch feed hanswers hfeed ↦ ?_⟩
  · obtain ⟨taken, hread, hprefix, htaken⟩ :=
      events_readRange_of_serves parse fromTime max (hfull.mono fun _ _ h ↦ ⟨h.1, h.2.ge⟩)
    rw [hread]
    obtain rfl | hmany := htaken
    · rfl
    · -- With one page more than `max` takes there is enough in any case.
      have henough : max ≤ taken.length := by
        obtain henough | hall := hmany
        · exact henough
        · have hpages := le_divCeil_mul max (show 0 < rangePage by decide)
          rw [Nat.succ_mul] at hall
          omega
      rw [List.prefix_iff_eq_take.mp hprefix, List.take_take, min_eq_left henough]
  · obtain ⟨taken, hread, hprefix, -⟩ :=
      @events_readRange_of_serves σ parse page fromTime max hub list 0
        (hserves.mono fun _ _ h ↦ ⟨h, Nat.zero_le _⟩)
    exact ⟨taken.take max, hread, (List.take_prefix max taken).trans hprefix, List.length_take_le max taken⟩
  · have hread := events_readPages_feed hanswers hfeed
    unfold readRange
    dsimp only
    rw [hread, List.nil_append]
    rfl

end Read

/-! ## Two hubs -/

/-- A cursor that names a position in the list. -/
def rangeCursor (position : ℕ) : String := String.ofList ("cjE6".toList ++ List.replicate position 'A')

def cursorPosition (cursor : String) : ℕ := cursor.toList.length - 4

theorem cursorPosition_rangeCursor (position : ℕ) : cursorPosition (rangeCursor position) = position := by
  unfold cursorPosition rangeCursor
  rw [String.toList_ofList, List.length_append, List.length_replicate]
  exact Nat.add_sub_cancel_left 4 position

theorem isRangeCursor_rangeCursor (position : ℕ) : isRangeCursor (rangeCursor position) = true := by
  have hlist : (rangeCursor position).toList = "cjE6".toList ++ List.replicate position 'A' :=
    String.toList_ofList
  rw [isRangeCursor, hlist, List.isPrefixOf_iff_prefix]
  exact List.prefix_append _ _

/-- A hub that hands out a list in full pages. -/
def rangeHub (list : List Value) : EventPages Unit := Pages.cutting rangePage cursorPosition rangeCursor list

theorem serves_rangeHub (list : List Value) : Pages.Serves (rangeHub list)
    (fun batch next ↦ isRangeCursor next = true ∧ batch.length = rangePage) () none list := by
  apply (Pages.serves_cutting cursorPosition_rangeCursor list).mono
  rintro page _ ⟨hfull, position, rfl⟩
  exact ⟨isRangeCursor_rangeCursor position, hfull⟩

/-- A hub from before the range read, which answers with its feed's newest events, oldest first. -/
def feedHub (feed : List Value) : EventPages Unit := fun _ _ ↦ (.ok (feed, some "djE6MTA"), ())

def parseTime (text : String) : Option ℤ :=
  if text = "2026-10-05T14:10:30Z" then some 1791209430
  else if text = "2026-10-05T19:05:00Z" then some 1791227100
  else none

def eventAt (text : String) : Value := .object [("type", .string "death"), ("occurred_at", .string text)]

/-- An event without a time. -/
def undated : Value := .object [("type", .string "death"), ("occurred_at", .null)]

theorem readRange_newest_twoHubs :
    (readRange parseTime (rangeHub (List.replicate 1001 undated)) 0 1000 ()).events =
      .ok ((List.replicate 1001 undated).take 1000) ∧
    (∃ events, (readRange parseTime (rangeHub (List.replicate 1001 undated)) 0 700 ()).events = .ok events ∧
      events <+: List.replicate 1001 undated ∧ events.length ≤ 700) ∧
    (readRange parseTime (feedHub [eventAt "2026-10-05T14:10:30Z", eventAt "2026-10-05T19:05:00Z", undated])
      1791220000 2000 ()).events = .ok [eventAt "2026-10-05T19:05:00Z"] :=
  ⟨(readRange_newest parseTime _ 0 1000 ()).2.1 _ (serves_rangeHub _),
    (readRange_newest parseTime _ 0 700 ()).2.2.1 _ ((serves_rangeHub _).mono fun _ _ h ↦ h.1),
    (readRange_newest parseTime _ 1791220000 2000 ()).2.2.2 []
      [eventAt "2026-10-05T14:10:30Z", eventAt "2026-10-05T19:05:00Z", undated] "djE6MTA" rfl (by decide)⟩

/-- An event without a time is left out, though it is not older than the range. -/
theorem not_readRange_feed_undated :
    (readRange parseTime (feedHub [undated]) 0 2000 ()).answers = [] ++ [([undated], some "djE6MTA")] ∧
    isRangeCursor "djE6MTA" = false ∧
    (readRange parseTime (feedHub [undated]) 0 2000 ()).events ≠
      .ok (([] ++ [undated].reverse.filter fun event ↦
        !(occurredAt parseTime event).any fun time ↦ time < 0).take 2000) := by
  refine ⟨rfl, by decide, ?_⟩
  change Except.ok [] ≠ Except.ok [undated]
  simp

end OsrsMap.Hub
