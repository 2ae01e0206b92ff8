import OsrsMap.Library.Run
import OsrsMap.Hub.Events
import Mathlib.Data.List.Nodup

/-!
# The page's feed of events

`LiveEvents` (`site/src/data/live-events.js`), which polls `get_events`: the first poll asks for all
that the page keeps, later ones for the newest after the cursor. The feed stays whole in the runs in
which nothing is buffered between the two reads of the first answer, no later answer leaves out
events that came since the one before, and no id comes a second time that the page still has.
-/

namespace OsrsMap.Page

open Hub Run

/-- `KEEP`. -/
def keep : ℕ := 300

/-- What a later poll asks for. -/
def laterLimit : ℕ := 200

/-- What is published as "live-events". -/
structure News where
  events : List BufferedEvent
  added : List BufferedEvent
  initial : Bool

structure LiveEvents where
  events : List BufferedEvent
  latest : Option ℕ

namespace LiveEvents

def new : LiveEvents where
  events := []
  latest := none

def limit (live : LiveEvents) : ℕ := if live.latest.isNone then keep else laterLimit

def newestSeq (batch : List BufferedEvent) : ℕ :=
  batch.foldl (fun most buffered ↦ max most buffered.seq) 0

/-- The page has an event with the id. -/
def knows (live : LiveEvents) (id : String) : Bool := live.events.any fun known ↦ known.event.id == id

def apply (live : LiveEvents) (batch : List BufferedEvent) (serverLatest : Option ℕ) :
    LiveEvents × Option News :=
  let initial := live.latest.isNone
  let latest := max (max (live.latest.getD 0) (newestSeq batch)) (if initial then serverLatest.getD 0 else 0)
  if !initial && batch.isEmpty then ({ live with latest := some latest }, none)
  else
    let fresh := batch.filter fun buffered ↦ !live.knows buffered.event.id
    let events := (fresh ++ live.events).take keep
    ({ events, latest := some latest },
      some { events, added := if initial then [] else fresh, initial })

end LiveEvents

/-! ## Runs -/

/-- Where a poll is: on its way, after the events are read, and after the newest number is. -/
inductive EventPoll where
  | asked (limit : ℕ) (after : Option ℕ)
  | answered (events : List BufferedEvent)
  | complete (events : List BufferedEvent) (latest : ℕ)

/-- The buffer and one page that polls. Not of the code: the buffer at each moment since the last
poll started, and at those of the last poll that succeeded; the newest number of the first answer;
and what each poll added, the last first. -/
structure Follower where
  feed : Feed
  live : LiveEvents
  poll : Option EventPoll
  moments : List EventBuffer
  shown : List EventBuffer
  loaded : ℕ
  added : List (List BufferedEvent)

inductive FeedEvent where
  | extend (events : List HubEvent)
  | poll
  | query
  | latestSeq
  | receive
  | fail

namespace Follower

def start : Follower where
  feed := .empty
  live := .new
  poll := none
  moments := []
  shown := []
  loaded := 0
  added := []

/-- The page gets an answer. One that is behind it is of a backend that restarted: it starts over. -/
def receive (follower : Follower) (events : List BufferedEvent) (latest : ℕ) : Follower :=
  if follower.live.latest.any (latest < ·) then
    { follower with live := .new, poll := some (.asked LiveEvents.new.limit none) }
  else
    let (live, news) := follower.live.apply events (some latest)
    { follower with
      live
      poll := none
      shown := follower.moments
      loaded := if follower.live.latest.isNone then LiveEvents.newestSeq events else follower.loaded
      added := (news.map News.added).toList ++ follower.added }

def step (follower : Follower) : FeedEvent → Follower
  | .extend events =>
    let feed := follower.feed.extend events
    { follower with feed, moments := feed.buffer :: follower.moments }
  | .poll =>
    match follower.poll with
    | none =>
      { follower with
        poll := some (.asked follower.live.limit follower.live.latest)
        moments := [follower.feed.buffer] }
    | some _ => follower
  | .query =>
    match follower.poll with
    | some (.asked limit after) =>
      let events := getEvents (fun _ ↦ false) follower.feed.buffer (some limit) after
      { follower with poll := some (.answered events) }
    | _ => follower
  | .latestSeq =>
    match follower.poll with
    | some (.answered events) =>
      { follower with poll := some (.complete events follower.feed.buffer.latestSeq) }
    | _ => follower
  | .receive =>
    match follower.poll with
    | some (.complete events latest) => follower.receive events latest
    | _ => follower
  | .fail => { follower with poll := none }

/-- The page has the newest events of some moment of its last poll, each id once; and each event that
was buffered since the first one is in what exactly one poll added. -/
def Followed (follower : Follower) : Prop :=
  follower.live.latest ≠ none → ∃ buffer ∈ follower.shown,
    follower.live.events = buffer.newest keep ∧
      (follower.live.events.map (·.event.id)).Nodup ∧
      ∀ buffered ∈ follower.feed.all, follower.loaded < buffered.seq → buffered.seq ≤ buffer.nextSeq →
        (follower.added.countP fun added ↦ decide (buffered ∈ added)) = 1

/-- Nothing was buffered between the two reads of the first answer, a later answer has room for all
that came since, and no id in an answer is there twice or is known to the page. -/
def KeepsUp (follower : Follower) : FeedEvent → Prop
  | .receive =>
    match follower.poll with
    | some (.complete events latest) =>
      match follower.live.latest with
      | none => latest = LiveEvents.newestSeq events ∧ (events.map (·.event.id)).Nodup
      | some after => LiveEvents.newestSeq events ≤ after + laterLimit ∧
          ∀ buffered ∈ events, follower.live.knows buffered.event.id = false
    | _ => True
  | _ => True

end Follower

/-! ## What an answer is -/

variable {feed : Feed} {follower : Follower}

/-- One of the buffers is as it was after so many events. -/
def SeenAt (all : List BufferedEvent) (buffers : List EventBuffer) (count : ℕ) : Prop :=
  ∃ buffer ∈ buffers, buffer.nextSeq = count ∧ buffer.newest keep = Log.newest keep (all.take count)

theorem seenAt_buffer (h : feed.Sound) {buffers : List EventBuffer} (hbuffer : feed.buffer ∈ buffers) :
    SeenAt feed.all buffers feed.all.length := by
  refine ⟨feed.buffer, hbuffer, h.nextSeq, ?_⟩
  rw [List.take_length, h.newest (by decide)]

theorem newestSeq_le_iff (batch : List BufferedEvent) (most : ℕ) :
    LiveEvents.newestSeq batch ≤ most ↔ ∀ buffered ∈ batch, buffered.seq ≤ most := by
  have hfold (first : ℕ) : batch.foldl (fun most buffered ↦ max most buffered.seq) first ≤ most ↔
      first ≤ most ∧ ∀ buffered ∈ batch, buffered.seq ≤ most := by
    induction batch generalizing first with
    | nil => simp
    | cons buffered batch ih => rw [List.foldl_cons, ih, Nat.max_le, List.forall_mem_cons, and_assoc]
  exact (hfold 0).trans (and_iff_right (Nat.zero_le most))

/-- After an answer the cursor is at the last event there was. -/
theorem max_newestSeq {log : List BufferedEvent} (h : Log.Numbered BufferedEvent.seq log)
    {limit last : ℕ} (hlimit : 0 < limit) (hlast : last ≤ log.length) :
    max last (LiveEvents.newestSeq (Log.newest limit (log.drop last))) = log.length := by
  apply le_antisymm
  · refine max_le hlast ((newestSeq_le_iff _ _).mpr fun buffered hbuffered ↦ ?_)
    have hdrop : buffered ∈ log.drop last := List.mem_reverse.mp (List.mem_of_mem_take hbuffered)
    exact (h.number_mem (List.mem_of_mem_drop hdrop)).2
  · by_cases hmore : last < log.length
    · have hindex : log.length - 1 - last < (log.drop last).length := by
        rw [List.length_drop]
        omega
      have hnewest : (log.drop last)[log.length - 1 - last] ∈ Log.newest limit (log.drop last) := by
        apply Log.mem_newest hindex
        rw [List.length_drop]
        omega
      have hle := (newestSeq_le_iff _ _).mp le_rfl _ hnewest
      rw [List.getElem_drop, h] at hle
      omega
    · omega

/-- What is in lists that share nothing is in one of them. -/
theorem countP_mem_eq_one {α : Type*} [DecidableEq α] {lists : List (List α)} {entry : α}
    (hnodup : lists.flatten.Nodup) (hentry : entry ∈ lists.flatten) :
    (lists.countP fun list ↦ decide (entry ∈ list)) = 1 := by
  induction lists with
  | nil => exact absurd hentry List.not_mem_nil
  | cons list lists ih =>
    rw [List.flatten_cons] at hnodup hentry
    obtain ⟨-, hrest, hdisjoint⟩ := List.nodup_append.mp hnodup
    by_cases hfirst : entry ∈ list
    · have hnone : (lists.countP fun list ↦ decide (entry ∈ list)) = 0 := by
        refine List.countP_eq_zero.mpr fun other hother hmem ↦ ?_
        have hlater : entry ∈ lists.flatten := List.mem_flatten.mpr ⟨other, hother, of_decide_eq_true hmem⟩
        exact hdisjoint entry hfirst entry hlater rfl
      rw [List.countP_cons, hnone, if_pos (decide_eq_true hfirst)]
    · rw [List.countP_cons, if_neg (by simpa using hfirst)]
      exact ih hrest ((List.mem_append.mp hentry).resolve_left hfirst)

/-! ## What each step keeps -/

namespace Follower

variable {events : List BufferedEvent} {count last latest : ℕ}

/-- The page is where the feed was after so many events. -/
structure Caught (follower : Follower) (last : ℕ) : Prop where
  le_length : last ≤ follower.feed.all.length
  loaded : follower.loaded ≤ last
  events : follower.live.events = Log.newest keep (follower.feed.all.take last)
  distinct : (follower.live.events.map (·.event.id)).Nodup
  added : follower.added.flatten = ((follower.feed.all.take last).drop follower.loaded).reverse
  shown : SeenAt follower.feed.all follower.shown last

/-- The events are what there was for the page after so many of them. -/
structure Answers (follower : Follower) (events : List BufferedEvent) (count : ℕ) : Prop where
  cursor : follower.live.latest.getD 0 ≤ count
  le_length : count ≤ follower.feed.all.length
  events : events =
    Log.newest follower.live.limit ((follower.feed.all.take count).drop (follower.live.latest.getD 0))
  moments : SeenAt follower.feed.all follower.moments count

def Polling (follower : Follower) : Option EventPoll → Prop
  | none => True
  | some (.asked limit after) => limit = follower.live.limit ∧ after = follower.live.latest ∧
      follower.feed.buffer ∈ follower.moments
  | some (.answered events) => ∃ count, Answers follower events count
  | some (.complete events latest) => ∃ count ≤ latest, Answers follower events count

structure Sound (follower : Follower) : Prop where
  feed : follower.feed.Sound
  caught : ∀ last, follower.live.latest = some last → Caught follower last
  blank : follower.live.latest = none → follower.live.events = [] ∧ follower.added = []
  polling : Polling follower follower.poll

theorem Sound.cursor_le (h : Sound follower) :
    follower.live.latest.getD 0 ≤ follower.feed.all.length := by
  cases hlatest : follower.live.latest with
  | none => exact Nat.zero_le _
  | some last => exact (h.caught last hlatest).le_length

theorem all_extend (feed : Feed) (events : List HubEvent) : feed.all <+: (feed.extend events).all := by
  unfold Feed.extend
  induction events generalizing feed with
  | nil => exact List.prefix_rfl
  | cons event events ih =>
    refine List.IsPrefix.trans ?_ (ih (feed.push event))
    unfold Feed.push
    split
    · exact List.prefix_rfl
    · exact List.prefix_append _ _

theorem Sound.extend (h : Sound follower) (events : List HubEvent) :
    Sound (follower.step (.extend events)) := by
  obtain ⟨more, hmore⟩ := all_extend follower.feed events
  have htake {count : ℕ} (hcount : count ≤ follower.feed.all.length) :
      (follower.feed.extend events).all.take count = follower.feed.all.take count := by
    rw [← hmore, List.take_append_of_le_length hcount]
  have hlength : follower.feed.all.length ≤ (follower.feed.extend events).all.length := by
    rw [← hmore, List.length_append]
    exact Nat.le_add_right _ _
  have hseen {buffers buffers' : List EventBuffer} {count : ℕ} (hcount : count ≤ follower.feed.all.length)
      (hsub : buffers ⊆ buffers') (hseen : SeenAt follower.feed.all buffers count) :
      SeenAt (follower.feed.extend events).all buffers' count := by
    obtain ⟨buffer, hbuffer, hnext, hnewest⟩ := hseen
    exact ⟨buffer, hsub hbuffer, hnext, by rw [htake hcount, hnewest]⟩
  have hanswers {batch : List BufferedEvent} {count : ℕ} (hanswer : Answers follower batch count) :
      Answers (follower.step (.extend events)) batch count := by
    refine ⟨hanswer.cursor, hanswer.le_length.trans hlength, ?_,
      hseen hanswer.le_length (List.subset_cons_self _ _) hanswer.moments⟩
    change batch = Log.newest _ (((follower.feed.extend events).all.take count).drop _)
    rw [htake hanswer.le_length]
    exact hanswer.events
  refine ⟨h.feed.extend events, fun last hlast ↦ ?_, h.blank, ?_⟩
  · have hcaught := h.caught last hlast
    exact
      { le_length := hcaught.le_length.trans hlength
        loaded := hcaught.loaded
        events := by
          change follower.live.events = Log.newest keep ((follower.feed.extend events).all.take last)
          rw [htake hcaught.le_length]
          exact hcaught.events
        distinct := hcaught.distinct
        added := by
          change follower.added.flatten = (((follower.feed.extend events).all.take last).drop _).reverse
          rw [htake hcaught.le_length]
          exact hcaught.added
        shown := hseen hcaught.le_length (List.Subset.refl _) hcaught.shown }
  · have hpolling := h.polling
    change Polling (follower.step (.extend events)) follower.poll
    cases hpoll : follower.poll with
    | none => trivial
    | some poll =>
      rw [hpoll] at hpolling
      cases poll with
      | asked limit after => exact ⟨hpolling.1, hpolling.2.1, List.mem_cons_self⟩
      | answered batch =>
        obtain ⟨count, hanswer⟩ := hpolling
        exact ⟨count, hanswers hanswer⟩
      | complete batch latest =>
        obtain ⟨count, hcount, hanswer⟩ := hpolling
        exact ⟨count, hcount, hanswers hanswer⟩

theorem Caught.frame (h : Caught follower last) {poll : Option EventPoll} {moments : List EventBuffer} :
    Caught { follower with poll, moments } last :=
  ⟨h.le_length, h.loaded, h.events, h.distinct, h.added, h.shown⟩

/-- The cursor and what the page has do not change while a poll is on its way. -/
theorem Sound.frame (h : Sound follower) {poll : Option EventPoll} {moments : List EventBuffer}
    (hpolling : Polling { follower with poll, moments } poll) : Sound { follower with poll, moments } :=
  ⟨h.feed, fun last hlast ↦ (h.caught last hlast).frame, h.blank, hpolling⟩

theorem Sound.poll (h : Sound follower) : Sound (follower.step .poll) := by
  unfold step
  dsimp only
  split
  · exact h.frame ⟨rfl, rfl, List.mem_singleton_self _⟩
  · exact h

theorem limit_pos (live : LiveEvents) : 0 < live.limit := by
  unfold LiveEvents.limit
  split <;> decide

theorem limit_le (live : LiveEvents) : live.limit ≤ 500 := by
  unfold LiveEvents.limit
  split <;> decide

theorem Sound.query (h : Sound follower) : Sound (follower.step .query) := by
  unfold step
  have hpolling := h.polling
  cases hpoll : follower.poll with
  | none => exact h
  | some poll =>
    rw [hpoll] at hpolling
    cases poll with
    | asked limit after =>
      obtain ⟨rfl, rfl, hbuffer⟩ := hpolling
      refine h.frame ⟨follower.feed.all.length, h.cursor_le, le_rfl, ?_, seenAt_buffer h.feed hbuffer⟩
      rw [List.take_length]
      exact h.feed.getEvents_eq (limit_pos _) (limit_le _) _
    | answered batch => exact h
    | complete batch latest => exact h

theorem Sound.latestSeq (h : Sound follower) : Sound (follower.step .latestSeq) := by
  unfold step
  have hpolling := h.polling
  cases hpoll : follower.poll with
  | none => exact h
  | some poll =>
    rw [hpoll] at hpolling
    cases poll with
    | asked limit after => exact h
    | complete batch latest => exact h
    | answered batch =>
      obtain ⟨count, hanswer⟩ := hpolling
      refine h.frame ⟨count, ?_, hanswer.cursor, hanswer.le_length, hanswer.events, hanswer.moments⟩
      exact hanswer.le_length.trans h.feed.nextSeq.ge

/-! ## An answer that keeps up -/

/-- The number of events an answer was given after. -/
theorem Answers.count_eq (h : Answers follower events count) (hfeed : follower.feed.Sound) :
    max (follower.live.latest.getD 0) (LiveEvents.newestSeq events) = count := by
  have hlength : (follower.feed.all.take count).length = count := by
    rw [List.length_take]
    exact min_eq_left h.le_length
  have hmax := max_newestSeq (hfeed.numbered.take count) (limit_pos follower.live) (h.cursor.trans_eq hlength.symm)
  rw [← h.events, hlength] at hmax
  exact hmax

theorem apply_first {live : LiveEvents} (hlatest : live.latest = none) (hevents : live.events = [])
    (batch : List BufferedEvent) (latest : ℕ) : live.apply batch (some latest) =
      ({ events := batch.take keep, latest := some (max (LiveEvents.newestSeq batch) latest) },
        some { events := batch.take keep, added := [], initial := true }) := by
  have hknows (id : String) : live.knows id = false := by
    simp [LiveEvents.knows, hevents]
  have hfresh : (batch.filter fun buffered ↦ !live.knows buffered.event.id) = batch :=
    List.filter_eq_self.mpr fun buffered _ ↦ by simp [hknows]
  simp [LiveEvents.apply, hlatest, hfresh, hevents]

theorem apply_later {live : LiveEvents} {after : ℕ} (hlatest : live.latest = some after)
    (hlength : live.events.length ≤ keep) {batch : List BufferedEvent}
    (hnew : ∀ buffered ∈ batch, live.knows buffered.event.id = false) (latest : ℕ) :
    (live.apply batch (some latest)).1 =
        { events := (batch ++ live.events).take keep
          latest := some (max after (LiveEvents.newestSeq batch)) } ∧
      ((live.apply batch (some latest)).2.map News.added).toList.flatten = batch := by
  have hfresh : (batch.filter fun buffered ↦ !live.knows buffered.event.id) = batch :=
    List.filter_eq_self.mpr fun buffered hbuffered ↦ by simp [hnew buffered hbuffered]
  cases batch with
  | nil => simp [LiveEvents.apply, hlatest, List.take_of_length_le hlength]
  | cons buffered batch => simp [LiveEvents.apply, hlatest, hfresh]

/-- The first answer is all that the page has from then on. -/
theorem Sound.receive_first (h : Sound follower) (hlatest : follower.live.latest = none)
    (hanswer : Answers follower events latest) (hdistinct : (events.map (·.event.id)).Nodup) :
    Sound (follower.receive events latest) := by
  obtain ⟨hevents, hadded⟩ := h.blank hlatest
  have hnewest : LiveEvents.newestSeq events = latest := by
    simpa [hlatest] using hanswer.count_eq h.feed
  have hbatch : events = Log.newest keep (follower.feed.all.take latest) := by
    simpa [hlatest, LiveEvents.limit] using hanswer.events
  have htake : events.take keep = events := by
    rw [hbatch, Log.newest, List.take_take, min_self]
  have hreceive : follower.receive events latest =
      { follower with
        live := { events, latest := some latest }
        poll := none
        shown := follower.moments
        loaded := latest
        added := [[]] } := by
    simp [receive, hlatest, apply_first hlatest hevents, htake, hnewest, hadded]
  rw [hreceive]
  refine ⟨h.feed, fun last hlast ↦ ?_, fun hnone ↦ absurd hnone (by simp), trivial⟩
  obtain rfl : latest = last := Option.some.inj hlast
  refine ⟨hanswer.le_length, le_rfl, hbatch, hdistinct, ?_, hanswer.moments⟩
  simp

/-- Events that are told apart and of which none is known yet are told apart among those that are. -/
theorem nodup_later {buffer older : List BufferedEvent} {known : LiveEvents}
    (hbuffer : (buffer.map (·.event.id)).Nodup) (hknown : (known.events.map (·.event.id)).Nodup)
    (hnew : ∀ buffered ∈ buffer, known.knows buffered.event.id = false)
    (holder : older.Sublist (buffer ++ known.events)) : (older.map (·.event.id)).Nodup := by
  refine List.Nodup.sublist (holder.map _) ?_
  rw [List.map_append]
  refine List.nodup_append.mpr ⟨hbuffer, hknown, fun id hid other hother ↦ ?_⟩
  obtain ⟨buffered, hbuffered, rfl⟩ := List.mem_map.mp hid
  obtain ⟨event, hevent, rfl⟩ := List.mem_map.mp hother
  have hunknown := hnew buffered hbuffered
  simp only [LiveEvents.knows, List.any_eq_false, beq_iff_eq] at hunknown
  exact fun hsame ↦ hunknown event hevent hsame.symm

/-- A later answer has what came since, and the page goes on from there. -/
theorem Sound.receive_later (h : Sound follower) {after : ℕ} (hlatest : follower.live.latest = some after)
    (hcount : count ≤ latest) (hanswer : Answers follower events count)
    (hroom : LiveEvents.newestSeq events ≤ after + laterLimit)
    (hnew : ∀ buffered ∈ events, follower.live.knows buffered.event.id = false) :
    Sound (follower.receive events latest) := by
  have hcaught := h.caught after hlatest
  have hcursor : after ≤ count := by simpa [hlatest] using hanswer.cursor
  have hnewest : max after (LiveEvents.newestSeq events) = count := by
    simpa [hlatest] using hanswer.count_eq h.feed
  have hnear : count ≤ after + laterLimit := by omega
  have hlength : follower.live.events.length ≤ keep := by
    rw [hcaught.events]
    exact List.length_take_le _ _
  have hsplit : (follower.feed.all.take count).take after = follower.feed.all.take after := by
    rw [List.take_take, min_eq_left hcursor]
  -- The answer has room for all that came after the cursor.
  have hbatch : events = ((follower.feed.all.take count).drop after).reverse := by
    rw [hanswer.events]
    simp only [hlatest, Option.getD_some, LiveEvents.limit, Option.isNone_some]
    apply Log.newest_of_length_le
    rw [List.length_drop, List.length_take]
    have hlimit : (if false = true then keep else laterLimit) = laterLimit := rfl
    omega
  have hshown : (events ++ follower.live.events).take keep =
      Log.newest keep (follower.feed.all.take count) := by
    rw [hbatch, hcaught.events, ← hsplit, ← Log.newest_append, List.take_append_drop]
  obtain ⟨hlive, hadded⟩ := apply_later hlatest hlength hnew latest
  rw [hshown, hnewest] at hlive
  have hold : follower.live.latest.any (fun last ↦ decide (latest < last)) = false := by
    simp only [hlatest, Option.any_some, decide_eq_false_iff_not]
    omega
  have hreceive : follower.receive events latest =
      { follower with
        live := { events := Log.newest keep (follower.feed.all.take count), latest := some count }
        poll := none
        shown := follower.moments
        added := ((follower.live.apply events (some latest)).2.map News.added).toList ++ follower.added } := by
    unfold receive
    simp only [hold, Bool.false_eq_true, if_false, hlive]
    simp [hlatest]
  rw [hreceive]
  refine ⟨h.feed, fun last hlast ↦ ?_, fun hnone ↦ absurd hnone (by simp), trivial⟩
  obtain rfl : count = last := Option.some.inj hlast
  refine ⟨hanswer.le_length, hcaught.loaded.trans hcursor, rfl, ?_, ?_, hanswer.moments⟩
  · change ((Log.newest keep (follower.feed.all.take count)).map (·.event.id)).Nodup
    rw [← hshown]
    refine nodup_later ?_ hcaught.distinct hnew (List.take_sublist _ _)
    rw [hbatch, List.map_reverse, List.nodup_reverse]
    exact h.feed.spread.nodup hnear
  · have hlong : follower.loaded ≤ ((follower.feed.all.take count).take after).length := by
      rw [hsplit, List.length_take, min_eq_left hcaught.le_length]
      exact hcaught.loaded
    change (_ ++ follower.added).flatten = _
    rw [List.flatten_append, hadded, hcaught.added, hbatch, ← List.reverse_append, ← hsplit,
      ← List.drop_append_of_le_length hlong, List.take_append_drop]

theorem Sound.receive (h : Sound follower) (hkeeps : follower.KeepsUp .receive) :
    Sound (follower.step .receive) := by
  unfold step
  have hpolling := h.polling
  unfold KeepsUp at hkeeps
  cases hpoll : follower.poll with
  | none => exact h
  | some poll =>
    rw [hpoll] at hpolling hkeeps
    cases poll with
    | asked limit after => exact h
    | answered batch => exact h
    | complete batch latest =>
      obtain ⟨count, hcount, hanswer⟩ := hpolling
      dsimp only at hkeeps ⊢
      cases hlatest : follower.live.latest with
      | some after =>
        rw [hlatest] at hkeeps
        exact h.receive_later hlatest hcount hanswer hkeeps.1 hkeeps.2
      | none =>
        rw [hlatest] at hkeeps
        have hnewest : LiveEvents.newestSeq batch = count := by
          simpa [hlatest] using hanswer.count_eq h.feed
        obtain rfl : latest = count := hkeeps.1.trans hnewest
        exact h.receive_first hlatest hanswer hkeeps.2

/-! ## The run -/

theorem Sound.step (h : Sound follower) (event : FeedEvent) (hkeeps : follower.KeepsUp event) :
    Sound (follower.step event) := by
  cases event with
  | extend events => exact h.extend events
  | poll => exact h.poll
  | query => exact h.query
  | latestSeq => exact h.latestSeq
  | receive => exact h.receive hkeeps
  | fail => exact h.frame trivial

theorem Sound.followed (h : Sound follower) : Followed follower := by
  intro hlatest
  obtain ⟨last, hlast⟩ := Option.ne_none_iff_exists'.mp hlatest
  have hcaught := h.caught last hlast
  obtain ⟨buffer, hbuffer, hnext, hnewest⟩ := hcaught.shown
  refine ⟨buffer, hbuffer, hcaught.events.trans hnewest.symm, hcaught.distinct,
    fun buffered hbuffered hloaded hseq ↦ ?_⟩
  have htaken := h.feed.numbered.take last
  apply countP_mem_eq_one
  · rw [hcaught.added, List.nodup_reverse]
    exact htaken.nodup.sublist (List.drop_sublist _ _)
  · rw [hcaught.added, List.mem_reverse, htaken.mem_drop, h.feed.numbered.mem_take]
    exact ⟨⟨hbuffered, hseq.trans hnext.le⟩, hloaded⟩

theorem sound_start : Sound start where
  feed := Feed.sound_empty
  caught _ hlast := absurd hlast (by simp [start, LiveEvents.new])
  blank _ := ⟨rfl, rfl⟩
  polling := trivial

/-- The page follows the feed in every run in which each answer it gets lets it keep up. -/
theorem followed_of_keepsUp (events : List FeedEvent) (h : Along step KeepsUp start events) :
    Always step Followed start events := by
  have hsound : Always step Sound start events :=
    always_of_along (fun _ event hsound hkeeps ↦ hsound.step event hkeeps) sound_start h
  exact hsound.mono fun _ hstate ↦ hstate.followed

instance decidableKeepsUp (follower : Follower) :
    (event : FeedEvent) → Decidable (follower.KeepsUp event)
  | .extend _ | .poll | .query | .latestSeq | .fail => inferInstanceAs (Decidable True)
  | .receive =>
    match h : follower.poll with
    | none => decidable_of_iff True (by simp [KeepsUp, h])
    | some (.asked _ _) => decidable_of_iff True (by simp [KeepsUp, h])
    | some (.answered _) => decidable_of_iff True (by simp [KeepsUp, h])
    | some (.complete events latest) =>
      match hlatest : follower.live.latest with
      | none => decidable_of_iff
          (latest = LiveEvents.newestSeq events ∧ (events.map (·.event.id)).Nodup)
          (by simp [KeepsUp, h, hlatest])
      | some after => decidable_of_iff
          (LiveEvents.newestSeq events ≤ after + laterLimit ∧
            ∀ buffered ∈ events, follower.live.knows buffered.event.id = false)
          (by simp [KeepsUp, h, hlatest])

instance decidableFollowed (follower : Follower) : Decidable (Followed follower) :=
  inferInstanceAs (Decidable (follower.live.latest ≠ none → ∃ buffer ∈ follower.shown,
    follower.live.events = buffer.newest keep ∧
      (follower.live.events.map (·.event.id)).Nodup ∧
      ∀ buffered ∈ follower.feed.all, follower.loaded < buffered.seq → buffered.seq ≤ buffer.nextSeq →
        (follower.added.countP fun added ↦ decide (buffered ∈ added)) = 1))

def eventOf (id : String) : HubEvent where
  id := id
  eventType := "drop"
  account := "5e2f"

def whole : List FeedEvent := [.poll, .query, .latestSeq, .receive]

/-- Events come before the first poll, between polls and between the reads of a later one. -/
def quiet : List FeedEvent :=
  [.extend [eventOf "a", eventOf "b"]] ++ whole ++ [.extend [eventOf "c"], .poll, .query,
    .extend [eventOf "d", eventOf "a"], .latestSeq, .receive, .poll, .fail] ++ whole

theorem followed_quiet : Always step Followed start quiet :=
  followed_of_keepsUp quiet (by decide +kernel)

/-- An event comes between the two reads of the first answer. -/
def betweenReads : List FeedEvent :=
  [.poll, .query, .extend [eventOf "a"], .latestSeq, .receive] ++ whole

/-- The page never gets the event. -/
theorem not_followed : ¬ Always step Followed start betweenReads := by
  intro h
  have hlost : ¬ Followed (betweenReads.foldl step start) := by
    decide +kernel
  exact hlost h.final

end Follower

end OsrsMap.Page
