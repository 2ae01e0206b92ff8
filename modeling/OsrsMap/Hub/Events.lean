import OsrsMap.Library.Log

/-!
# The buffer of hub events

`EventBuffer` (`server/src/hub/events.rs`): the newest events of the hub's feed, numbered as they
come, and what `get_events` answers a page with. An answer's events and the newest number that goes
with it are read one after the other, each under the lock, so that events may come in between.
-/

namespace OsrsMap.Hub

/-- `CAPACITY`. -/
def capacity : ℕ := 1000

/-- `PAGE_SIZE`. -/
def pageSize : ℕ := 200

/-- What the buffer and its filters read of an event. -/
structure HubEvent where
  id : String
  eventType : String
  account : String
deriving DecidableEq, Repr

structure BufferedEvent where
  seq : ℕ
  event : HubEvent
deriving DecidableEq, Repr

structure EventBuffer where
  events : List BufferedEvent
  nextSeq : ℕ

structure EventFilter where
  types : List String
  after : Option ℕ

namespace EventBuffer

def empty : EventBuffer where
  events := []
  nextSeq := 0

/-- The event's id is among the last ones buffered. -/
def repeats (buffer : EventBuffer) (event : HubEvent) : Bool :=
  (buffer.events.reverse.take pageSize).any fun buffered ↦ buffered.event.id == event.id

/-- What `extend` does with an event that it does not skip. -/
def push (buffer : EventBuffer) (event : HubEvent) : EventBuffer :=
  let seq := buffer.nextSeq + 1
  let events := buffer.events ++ [{ seq := seq, event }]
  { events := events.drop (events.length - capacity), nextSeq := seq }

/-- Appends events (oldest first), skipping ids already buffered. -/
def extend (buffer : EventBuffer) (events : List HubEvent) : EventBuffer :=
  events.foldl (fun buffer event ↦ if buffer.repeats event then buffer else buffer.push event) buffer

/-- Newest first. -/
def query (buffer : EventBuffer) (filter : EventFilter) (limit : ℕ) : List BufferedEvent :=
  ((buffer.events.reverse.takeWhile fun buffered ↦
      filter.after.all fun after ↦ decide (after < buffered.seq)).filter fun buffered ↦
    filter.types.isEmpty || filter.types.any fun type ↦ type == buffered.event.eventType).take limit

/-- The sequence number of the newest buffered event (0 when empty). -/
def latestSeq (buffer : EventBuffer) : ℕ := buffer.nextSeq

/-- The newest of the buffered events. -/
def newest (buffer : EventBuffer) (count : ℕ) : List BufferedEvent := Log.newest count buffer.events

end EventBuffer

/-- The events `get_events` answers with. -/
def getEvents (isHidden : String → Bool) (buffer : EventBuffer) (limit after : Option ℕ) :
    List BufferedEvent :=
  let limit := min (max (limit.getD 100) 1) 500
  (buffer.query { types := [], after } limit).filter fun buffered ↦ !isHidden buffered.event.account

/-! ## What was ever buffered -/

/-- The buffer, and all it ever got, oldest first. -/
structure Feed where
  buffer : EventBuffer
  all : List BufferedEvent

namespace Feed

def empty : Feed where
  buffer := .empty
  all := []

def push (feed : Feed) (event : HubEvent) : Feed :=
  if feed.buffer.repeats event then feed
  else
    { buffer := feed.buffer.push event
      all := feed.all ++ [{ seq := feed.buffer.nextSeq + 1, event }] }

def extend (feed : Feed) (events : List HubEvent) : Feed := events.foldl push feed

variable {feed : Feed}

theorem buffer_push (feed : Feed) (event : HubEvent) : (feed.push event).buffer =
    if feed.buffer.repeats event then feed.buffer else feed.buffer.push event := by
  unfold push
  split <;> rfl

/-- Events that are no more than a page apart have different ids. -/
def Spread (all : List BufferedEvent) : Prop :=
  ∀ first second (hlt : first < second) (h : second < all.length), second ≤ first + pageSize →
    all[first].event.id ≠ all[second].event.id

theorem Spread.push {all : List BufferedEvent} (h : Spread all) {buffered : BufferedEvent}
    (hnew : ∀ other ∈ Log.newest pageSize all, other.event.id ≠ buffered.event.id) :
    Spread (all ++ [buffered]) := by
  intro first second hlt hsecond hnear
  rw [List.length_append, List.length_singleton] at hsecond
  have hfirst : first < all.length := by omega
  rw [List.getElem_append_left hfirst]
  by_cases hlast : second < all.length
  · rw [List.getElem_append_left hlast]
    exact h first second hlt hlast hnear
  · have heq : second = all.length := by omega
    subst heq
    rw [List.getElem_append_right le_rfl]
    simpa using hnew _ (Log.mem_newest hfirst hnear)

theorem Spread.nodup {all : List BufferedEvent} (h : Spread all) {count last : ℕ}
    (hnear : count ≤ last + pageSize) : (((all.take count).drop last).map (·.event.id)).Nodup := by
  refine List.pairwise_map.mpr (List.pairwise_iff_getElem.mpr fun first second hfirst hsecond hlt ↦ ?_)
  simp only [List.length_drop, List.length_take] at hfirst hsecond
  simp only [List.getElem_drop, List.getElem_take]
  exact h (last + first) (last + second) (by omega) (by omega) (by omega)

/-- The buffer has the newest of all events, numbered from one. -/
structure Sound (feed : Feed) : Prop where
  nextSeq : feed.buffer.nextSeq = feed.all.length
  numbered : Log.Numbered BufferedEvent.seq feed.all
  events : feed.buffer.events = feed.all.drop (feed.all.length - capacity)
  spread : Spread feed.all

theorem sound_empty : Sound empty where
  nextSeq := rfl
  numbered _ hindex := absurd hindex (Nat.not_lt_zero _)
  events := rfl
  spread _ _ _ hsecond := absurd hsecond (Nat.not_lt_zero _)

theorem Sound.newest (h : Sound feed) {count : ℕ} (hcount : count ≤ capacity) :
    feed.buffer.newest count = Log.newest count feed.all := by
  unfold EventBuffer.newest
  rw [h.events]
  exact Log.newest_drop hcount

theorem Sound.repeats_iff (h : Sound feed) (event : HubEvent) : feed.buffer.repeats event = true ↔
    ∃ buffered ∈ Log.newest pageSize feed.all, buffered.event.id = event.id := by
  rw [← h.newest (by decide)]
  unfold EventBuffer.repeats EventBuffer.newest Log.newest
  simp only [List.any_eq_true, beq_iff_eq]

theorem Sound.push (h : Sound feed) (event : HubEvent) : Sound (feed.push event) := by
  unfold Feed.push
  split
  · exact h
  · next hnew =>
    refine ⟨?_, h.numbered.append (congrArg (· + 1) h.nextSeq), ?_, h.spread.push ?_⟩
    · simp only [EventBuffer.push, h.nextSeq, List.length_append, List.length_singleton]
    · simp only [EventBuffer.push, h.events]
      exact Log.drop_kept capacity feed.all _
    · intro buffered hbuffered hsame
      exact hnew ((h.repeats_iff event).mpr ⟨buffered, hbuffered, hsame⟩)

theorem Sound.extend (h : Sound feed) (events : List HubEvent) : Sound (feed.extend events) := by
  unfold Feed.extend
  induction events generalizing feed with
  | nil => exact h
  | cons event events ih => exact ih (h.push event)

/-- A query is answered as if nothing had been dropped. -/
theorem Sound.getEvents_eq (h : Sound feed) {limit : ℕ} (hpos : 0 < limit) (hlimit : limit ≤ 500)
    (after : Option ℕ) : getEvents (fun _ ↦ false) feed.buffer (some limit) after =
      Log.newest limit (feed.all.drop (after.getD 0)) := by
  have hclamp : min (max limit 1) 500 = limit := by omega
  have hkept : limit ≤ capacity := hlimit.trans (by decide)
  have hall (events : List BufferedEvent) : (events.filter fun _ ↦ true) = events :=
    List.filter_eq_self.mpr fun _ _ ↦ rfl
  unfold getEvents EventBuffer.query
  simp only [Option.getD_some, hclamp, List.isEmpty_nil, Bool.true_or, Bool.not_false, hall, h.events]
  rw [Log.take_takeWhile_kept hkept]
  cases after with
  | none =>
    simp only [Option.all_none, Option.getD_none, List.drop_zero]
    rw [List.takeWhile_eq_self_iff.mpr fun _ _ ↦ rfl]
    rfl
  | some after => exact congrArg (List.take limit) (h.numbered.after_eq after)

end Feed

end OsrsMap.Hub
