import OsrsMap.Library.Run
import OsrsMap.Hub.Events
import Mathlib.Data.List.Nodup

/-!
# The buffer and the hub's log

What the polls of `start` (`server/src/hub/events.rs`) bring into the buffer. The hub has its events
in a log, and a poll brings a page of it: its newest events at first, then what follows the cursor,
maybe with some that came before. Ids that come again are looked for among the last page only.
-/

namespace OsrsMap.Hub

/-- The part of the log that a poll brings, by its positions. -/
structure Poll where
  start : ℕ
  stop : ℕ
deriving DecidableEq, Repr

/-- The events that the polls have brought, by their positions. -/
structure Seen where
  first : ℕ
  next : ℕ
deriving DecidableEq, Repr

def Poll.batch (log : List HubEvent) (poll : Poll) : List HubEvent := Log.window poll.start poll.stop log

namespace Seen

def none : Seen where
  first := 0
  next := 0

/-- The first events seen are those of the first poll that brings any. -/
def add (seen : Seen) (poll : Poll) : Seen :=
  if seen.first < seen.next then { first := min seen.first poll.start, next := poll.stop }
  else { first := poll.start, next := poll.stop }

def log (events : List HubEvent) (seen : Seen) : List HubEvent := Log.window seen.first seen.next events

/-- A page of the log that starts at or before the event after the newest one seen, and ends at or
after the newest one. -/
def Joins (events : List HubEvent) (seen : Seen) (poll : Poll) : Prop :=
  (poll.start ≤ poll.stop ∧ poll.stop ≤ events.length ∧ poll.stop ≤ poll.start + pageSize) ∧
    (seen.first < seen.next → poll.start ≤ seen.next ∧ seen.next ≤ poll.stop)

/-- No event comes that is older than the first one seen. -/
def StartsAfter (seen : Seen) (poll : Poll) : Prop := seen.first < seen.next → seen.first ≤ poll.start

instance (events : List HubEvent) (seen : Seen) (poll : Poll) : Decidable (seen.Joins events poll) :=
  inferInstanceAs (Decidable ((_ ∧ _ ∧ _) ∧ (_ → _ ∧ _)))

instance (seen : Seen) (poll : Poll) : Decidable (seen.StartsAfter poll) :=
  inferInstanceAs (Decidable (_ → _))

/-- A feed that begins with a full page, or with the first event of the log, gets nothing older: a
page that reaches the newest event seen does not reach back further. -/
theorem Joins.startsAfter {events : List HubEvent} {seen : Seen} {poll : Poll}
    (h : seen.Joins events poll) (hfull : seen.first = 0 ∨ seen.first + pageSize ≤ seen.next) :
    seen.StartsAfter poll := by
  intro hany
  obtain ⟨⟨-, -, hpage⟩, hoverlap⟩ := h
  obtain ⟨-, hnext⟩ := hoverlap hany
  omega

end Seen

namespace EventBuffer

/-- The buffer after polls. -/
def afterPolls (log : List HubEvent) (polls : List Poll) : EventBuffer :=
  polls.foldl (fun buffer poll ↦ buffer.extend (poll.batch log)) empty

/-- The buffer holds the newest events of a log, each once and in its order, under consecutive
numbers, and a query has the newest of those after a number, the newest one first. -/
structure HoldsNewest (log : List HubEvent) (buffer : EventBuffer) : Prop where
  distinct : (buffer.events.map (·.event.id)).Nodup
  events : buffer.events.map (·.event) = log.drop (log.length - capacity)
  seqs : buffer.events.map (·.seq) =
    List.range' (buffer.latestSeq + 1 - buffer.events.length) buffer.events.length
  query : ∀ after limit, buffer.query { types := [], after } limit =
    (buffer.events.filter fun buffered ↦ after.all (· < buffered.seq)).reverse.take limit

end EventBuffer

/-! ## What a poll adds -/

namespace Feed

variable {feed : Feed} {log : List HubEvent} {first next stop : ℕ}

theorem extend_append (feed : Feed) (events more : List HubEvent) :
    feed.extend (events ++ more) = (feed.extend events).extend more := List.foldl_append

/-- Events that are all among the last page are skipped. -/
theorem extend_of_repeats {events : List HubEvent} (h : ∀ event ∈ events, feed.buffer.repeats event) :
    feed.extend events = feed := by
  induction events with
  | nil => rfl
  | cons event events ih =>
    have hpush : feed.push event = feed := if_pos (h event List.mem_cons_self)
    rw [extend, List.foldl_cons, hpush]
    exact ih fun other hother ↦ h other (List.mem_cons_of_mem _ hother)

/-- What was seen before is among the last page, since a batch is no longer than a page. -/
theorem Sound.repeats_of_seen (h : Sound feed)
    (hall : feed.all.map (·.event) = Log.window first next log) (hnext : next ≤ log.length)
    {start : ℕ} (hstart : first ≤ start) (hpage : next ≤ start + pageSize) {event : HubEvent}
    (hevent : event ∈ Log.window start next log) : feed.buffer.repeats event := by
  obtain ⟨position, hposition, hafter, hbefore, rfl⟩ := Log.mem_window.mp hevent
  have hlength : feed.all.length = next - first := by
    rw [← Log.length_window first hnext, ← hall, List.length_map]
  have hindex : position - first < feed.all.length := by omega
  refine (h.repeats_iff _).mpr ⟨feed.all[position - first], Log.mem_newest hindex (by omega), ?_⟩
  have hinside : position - first < (feed.all.map (·.event)).length := by simpa using hindex
  have hsame : (feed.all.map (·.event))[position - first] = log[position] := by
    simp only [hall, Log.window, List.getElem_drop, List.getElem_take]
    congr 1
    omega
  rw [List.getElem_map] at hsame
  rw [hsame]

/-- The event after the newest one seen is pushed. -/
theorem Sound.push_next (h : Sound feed) (hids : (log.map (·.id)).Nodup)
    (hall : feed.all.map (·.event) = Log.window first next log) (hfirst : first ≤ next)
    (hnext : next < log.length) :
    (feed.push log[next]).all.map (·.event) = Log.window first (next + 1) log := by
  have hnew : ¬ feed.buffer.repeats log[next] := by
    intro hrepeats
    obtain ⟨buffered, hbuffered, hsame⟩ := (h.repeats_iff _).mp hrepeats
    have hseen : buffered.event ∈ Log.window first next log :=
      hall ▸ List.mem_map_of_mem (List.mem_reverse.mp (List.mem_of_mem_take hbuffered))
    obtain ⟨position, hposition, -, hbefore, hevent⟩ := Log.mem_window.mp hseen
    have hbehind : next < (log.map (·.id)).length := by simpa using hnext
    have hinside : position < (log.map (·.id)).length := hbefore.trans hbehind
    have hid : (log.map (·.id))[position] = (log.map (·.id))[next] := by simp [hevent, hsame]
    have hindex := (List.Nodup.getElem_inj_iff hids).mp hid
    omega
  unfold Feed.push
  rw [if_neg hnew, List.map_append, hall, ← Log.window_append hfirst (Nat.le_succ next) log,
    Log.window_succ hnext]
  rfl

theorem Sound.extend_next (h : Sound feed) (hids : (log.map (·.id)).Nodup)
    (hall : feed.all.map (·.event) = Log.window first next log) (hfirst : first ≤ next)
    (hstop : next ≤ stop) (hlength : stop ≤ log.length) :
    (feed.extend (Log.window next stop log)).all.map (·.event) = Log.window first stop log := by
  induction stop, hstop using Nat.le_induction with
  | base =>
    rw [Log.window_self]
    exact hall
  | succ stop hstop ih =>
    have hbefore := ih (Nat.le_of_succ_le hlength)
    have hpushed := (h.extend (Log.window next stop log)).push_next hids hbefore (hfirst.trans hstop)
      hlength
    rwa [← Log.window_append hstop (Nat.le_succ stop) log, extend_append, Log.window_succ hlength]

/-- A batch that overlaps with what was seen adds what follows it. -/
theorem Sound.extend_window (h : Sound feed) (hids : (log.map (·.id)).Nodup)
    (hall : feed.all.map (·.event) = Log.window first next log) {start : ℕ} (hfirst : first ≤ start)
    (hstart : start ≤ next) (hstop : next ≤ stop) (hlength : stop ≤ log.length)
    (hpage : stop ≤ start + pageSize) :
    (feed.extend (Log.window start stop log)).all.map (·.event) = Log.window first stop log := by
  have hskipped : feed.extend (Log.window start next log) = feed :=
    extend_of_repeats fun _ ↦
      h.repeats_of_seen hall (hstop.trans hlength) hfirst (hstop.trans hpage)
  rw [← Log.window_append hstart hstop log, extend_append, hskipped]
  exact h.extend_next hids hall (hfirst.trans hstart) hstop hlength

/-- The feed has got the part of the log that was seen. -/
structure Follows (log : List HubEvent) (seen : Seen) (feed : Feed) : Prop where
  sound : Sound feed
  all : feed.all.map (·.event) = seen.log log
  within : seen.next ≤ log.length

theorem Follows.extend {seen : Seen} (h : Follows log seen feed) (hids : (log.map (·.id)).Nodup)
    {poll : Poll} (hjoins : seen.Joins log poll) (hafter : seen.StartsAfter poll) :
    Follows log (seen.add poll) (feed.extend (poll.batch log)) := by
  obtain ⟨⟨horder, hlength, hpage⟩, hoverlap⟩ := hjoins
  have hsound := h.sound.extend (poll.batch log)
  unfold Seen.add
  split
  · next hany =>
    obtain ⟨hstart, hstop⟩ := hoverlap hany
    have hfirst := hafter hany
    refine ⟨hsound, ?_, hlength⟩
    simp only [Seen.log, Nat.min_eq_left hfirst]
    exact h.sound.extend_window hids h.all hfirst hstart hstop hlength hpage
  · next hnone =>
    have hempty : feed.all.map (·.event) = Log.window poll.start poll.start log := by
      have hshort := congrArg List.length h.all
      rw [Seen.log, Log.length_window _ h.within] at hshort
      rw [Log.window_self, ← List.length_eq_zero_iff]
      omega
    exact ⟨hsound, h.sound.extend_next hids hempty le_rfl horder hlength, hlength⟩

theorem buffer_extend (feed : Feed) (events : List HubEvent) :
    (feed.extend events).buffer = feed.buffer.extend events := by
  unfold extend EventBuffer.extend
  induction events generalizing feed with
  | nil => rfl
  | cons event events ih => rw [List.foldl_cons, List.foldl_cons, ih, buffer_push]

theorem Sound.holdsNewest (h : Sound feed) (hids : (feed.all.map (·.event.id)).Nodup) :
    feed.buffer.HoldsNewest (feed.all.map (·.event)) := by
  have hlength : feed.buffer.events.length = feed.all.length - (feed.all.length - capacity) := by
    rw [h.events, List.length_drop]
  have hseqs : feed.buffer.events.map (·.seq) =
      List.range' (feed.buffer.latestSeq + 1 - feed.buffer.events.length)
        feed.buffer.events.length := by
    have hstart : feed.buffer.latestSeq + 1 - feed.buffer.events.length =
        feed.all.length - capacity + 1 := by
      rw [EventBuffer.latestSeq, h.nextSeq, hlength]
      omega
    rw [hstart, hlength, h.events]
    exact h.numbered.map_drop _
  have hsorted : feed.buffer.events.Pairwise fun a b ↦ a.seq < b.seq := by
    rw [← List.pairwise_map (R := (· < ·)), hseqs]
    exact List.pairwise_lt_range'
  refine ⟨?_, ?_, hseqs, fun after limit ↦ ?_⟩
  · rw [h.events]
    exact hids.sublist ((List.drop_sublist _ _).map _)
  · rw [h.events, List.map_drop, List.length_map]
  · unfold EventBuffer.query
    simp only [List.isEmpty_nil, Bool.true_or, List.filter_true]
    congr 1
    cases after with
    | none => simp [List.takeWhile_eq_self_iff.mpr]
    | some after => exact Log.after_eq_filter hsorted after

end Feed

/-! ## Runs -/

/-- After any polls that each join what was seen before and start after it, the buffer holds the
newest events seen. -/
theorem holdsNewest_afterPolls (log : List HubEvent) (hids : (log.map (·.id)).Nodup)
    (polls : List Poll)
    (hpolls : Run.Along Seen.add (fun seen poll ↦ seen.Joins log poll ∧ seen.StartsAfter poll)
      .none polls) :
    (EventBuffer.afterPolls log polls).HoldsNewest ((polls.foldl Seen.add .none).log log) := by
  have hrun (polls : List Poll) (seen : Seen) (feed : Feed) (h : feed.Follows log seen)
      (hpolls : Run.Along Seen.add (fun seen poll ↦ seen.Joins log poll ∧ seen.StartsAfter poll)
        seen polls) :
      ∃ after : Feed, after.Follows log (polls.foldl Seen.add seen) ∧ after.buffer =
        polls.foldl (fun buffer poll ↦ buffer.extend (poll.batch log)) feed.buffer := by
    induction polls generalizing seen feed with
    | nil => exact ⟨feed, h, rfl⟩
    | cons poll polls ih =>
      obtain ⟨⟨hjoins, hafter⟩, hpolls⟩ := hpolls
      obtain ⟨after, hfollows, hbuffer⟩ := ih _ _ (h.extend hids hjoins hafter) hpolls
      refine ⟨after, hfollows, ?_⟩
      rw [hbuffer, Feed.buffer_extend, List.foldl_cons]
  have hstart : Feed.empty.Follows log .none := ⟨Feed.sound_empty, rfl, Nat.zero_le _⟩
  obtain ⟨after, hfollows, hbuffer⟩ := hrun polls .none .empty hstart hpolls
  have hbuffer' : EventBuffer.afterPolls log polls = after.buffer := hbuffer.symm
  rw [hbuffer', ← hfollows.all]
  apply hfollows.sound.holdsNewest
  have hsame : after.all.map (·.event.id) = ((polls.foldl Seen.add .none).log log).map (·.id) := by
    rw [← hfollows.all, List.map_map]
    rfl
  rw [hsame]
  exact hids.sublist ((Log.window_sublist _ _ _).map _)

/-- Three events of a log. -/
def threeEvents : List HubEvent :=
  [⟨"1", "loot", "a"⟩, ⟨"2", "death", "b"⟩, ⟨"3", "level_up", "a"⟩]

/-- The second event comes again with the third. -/
theorem holdsNewest_overlapping :
    (EventBuffer.afterPolls threeEvents [⟨0, 2⟩, ⟨1, 3⟩]).HoldsNewest threeEvents :=
  holdsNewest_afterPolls threeEvents (by decide) [⟨0, 2⟩, ⟨1, 3⟩] (by decide)

/-- A poll that brings an event from before the first one seen puts it behind the others. -/
theorem not_holdsNewest_olderFirst :
    (threeEvents.map (·.id)).Nodup ∧
    Run.Along Seen.add (Seen.Joins threeEvents) .none [⟨1, 2⟩, ⟨0, 3⟩] ∧
    ¬ (EventBuffer.afterPolls threeEvents [⟨1, 2⟩, ⟨0, 3⟩]).HoldsNewest
        (([⟨1, 2⟩, ⟨0, 3⟩] : List Poll).foldl Seen.add .none |>.log threeEvents) := by
  refine ⟨by decide, by decide, fun h ↦ ?_⟩
  have hevents := h.events
  revert hevents
  decide

end OsrsMap.Hub
