import OsrsMap.Trails.PagedReading
import Mathlib.Data.List.Forall2
import Mathlib.Data.List.Sort

/-!
# A trail put together out of the cache

`account_trail` (`server/src/hub/trails.rs`) keeps the older part of a trail for ten minutes and the recent part
for one, under keys of their own, and joins whatever the cache has of them: the two are read at different times,
and the recent part may have been asked for from where an earlier older part ended. Meanwhile more points come
in at the hub, some of them late, but none that is older than a quarter of an hour (`SETTLE_SECS`).
-/

namespace OsrsMap.Trails

/-- A hub's history of one account at each time, in milliseconds. Points come in and stay, and none comes in
that is older than a quarter of an hour. -/
structure LiveHub where
  seen : ℤ → Hub
  grows : ∀ {now later}, now ≤ later → (seen now).points ⊆ (seen later).points
  settled : ∀ {now later}, now ≤ later → ∀ point ∈ (seen later).points,
    point.atMs ≤ now - settleSecs * 1000 → point ∈ (seen now).points

namespace LiveHub

variable (hub : LiveHub) (span : Span)

/-- Where the older part that was read at a time ends. -/
def takesOver (readAt : ℤ) : ℤ := (hub.seen readAt).takesOver span readAt

/-- The recent part as it was answered at a time, asked for from where an older part ended. -/
def recent (older readAt : ℤ) : LocationsAnswer :=
  (hub.seen readAt).locations (hub.takesOver span older) span.stop

/-- The stays that `account_trail` joins, before anything is thinned: of the older part that was read at `older`,
and of the recent part that was read at `readAt` from where the older part of `askedWith` ended. -/
def cachedStays (older askedWith readAt : ℤ) : List TrailPoint :=
  extendStays (joinPages (fetchPages (hub.seen older).locations span older).1)
    (newSince (hub.takesOver span older) (hub.recent span askedWith readAt).points)

/-- The hub's points that make the older part. -/
def olderPoints (readAt : ℤ) : List HubLocationPoint :=
  if span.start readAt < olderUntil span readAt then
    (hub.seen readAt).inRange (span.start readAt) (some (olderUntil span readAt))
  else []

/-- The hub's points after an older part. -/
def newerPoints (older readAt : ℤ) : List HubLocationPoint :=
  ((hub.seen readAt).inRange (hub.takesOver span older) span.stop).filter fun point ↦
    hub.takesOver span older < point.atMs

end LiveHub

/-- A point as the hub has it, or without how the player got there. -/
def Unlabelled (point had : HubLocationPoint) : Prop := point = had ∨ point = { had with via := none }

variable {hub : LiveHub} {span : Span}

/-! ## Two times -/

theorem eq_of_sorted {points others : List HubLocationPoint} (h : Sorted points) (h' : Sorted others)
    (hmem : ∀ point, point ∈ points ↔ point ∈ others) : points = others := by
  have hirrefl : Std.Irrefl fun p q : HubLocationPoint ↦ p.atMs < q.atMs := ⟨fun _ ↦ lt_irrefl _⟩
  have hantisymm : Std.Antisymm fun p q : HubLocationPoint ↦ p.atMs < q.atMs :=
    ⟨fun _ _ hpq hqp ↦ absurd (hpq.trans hqp) (lt_irrefl _)⟩
  exact List.Pairwise.eq_of_mem_iff h h' hmem

/-- What is settled by a time is the same at every later one. -/
theorem inRange_settled {now later : ℤ} (hlater : now ≤ later) {fromMs toMs : ℤ}
    (hto : toMs ≤ now - settleSecs * 1000) :
    (hub.seen later).inRange fromMs (some toMs) = (hub.seen now).inRange fromMs (some toMs) := by
  refine eq_of_sorted (Hub.sorted_inRange _ _ _) (Hub.sorted_inRange _ _ _) fun point ↦ ?_
  rw [Hub.mem_inRange, Hub.mem_inRange]
  constructor
  · rintro ⟨hpoint, hfrom, huntil⟩
    exact ⟨hub.settled hlater point hpoint ((huntil toMs rfl).trans hto), hfrom, huntil⟩
  · rintro ⟨hpoint, hrange⟩
    exact ⟨hub.grows hlater hpoint, hrange⟩

theorem start_mono (span : Span) {now later : ℤ} (hlater : now ≤ later) : span.start now ≤ span.start later := by
  cases span with
  | days count => exact sub_le_sub_right hlater _
  | between _ _ => exact le_rfl

theorem olderUntil_mono (span : Span) {now later : ℤ} (hlater : now ≤ later) :
    olderUntil span now ≤ olderUntil span later := by
  unfold olderUntil
  refine max_le_max ?_ (start_mono span hlater)
  have hsettled := sub_le_sub_right hlater (settleSecs * 1000)
  cases span.stop with
  | none => exact hsettled
  | some stop => exact min_le_min_left stop hsettled

/-- An older part ends a quarter of an hour ago. -/
theorem olderUntil_settled {now : ℤ} (h : span.start now < olderUntil span now) :
    olderUntil span now ≤ now - settleSecs * 1000 := by
  unfold olderUntil at h ⊢
  cases hstop : span.stop with
  | none =>
    simp only [hstop, Option.elim_none] at h ⊢
    omega
  | some stop =>
    simp only [hstop, Option.elim_some] at h ⊢
    omega

/-! ## Where the recent part takes over -/

theorem getLast?_locations (hub : Hub) (fromMs : ℤ) (toMs : Option ℤ) :
    (hub.locations fromMs toMs).points.getLast?.map (·.atMs) = (hub.inRange fromMs toMs).getLast?.map (·.atMs) := by
  have hsize := hub.two_le_size
  unfold Hub.locations
  dsimp only
  rw [lastAt_unlabelFirst, List.getLast?_drop]
  split_ifs with hnone
  · have hempty : hub.inRange fromMs toMs = [] := List.eq_nil_of_length_eq_zero (by omega)
    rw [hempty]
    rfl
  · rfl

/-- The page that is read first is the newest one, so its last point is that of the whole older part. -/
theorem head?_readPages (locations : ℤ → Option ℤ → LocationsAnswer) (fromMs : ℤ) (pagesToRead : ℕ) (toMs : ℤ)
    (truncated : Bool) :
    (readPages locations fromMs (pagesToRead + 1) toMs truncated).1.head? = some (locations fromMs (some toMs)).points := by
  rw [readPages]
  dsimp only
  split
  · split_ifs <;> rfl
  · rfl

theorem takesOver_eq (hub : LiveHub) (span : Span) (readAt : ℤ) : hub.takesOver span readAt =
    ((hub.olderPoints span readAt).getLast?.map (·.atMs)).getD (olderUntil span readAt) := by
  unfold LiveHub.takesOver Hub.takesOver LiveHub.olderPoints fetchPages
  dsimp only
  split_ifs with holder
  · rw [show maxTrailPages = 9 + 1 from rfl, head?_readPages, Option.bind_some, getLast?_locations]
  · rfl

theorem mem_olderPoints {readAt : ℤ} {point : HubLocationPoint} : point ∈ hub.olderPoints span readAt ↔
    span.start readAt < olderUntil span readAt ∧ point ∈ (hub.seen readAt).points ∧
      span.start readAt ≤ point.atMs ∧ point.atMs ≤ olderUntil span readAt := by
  unfold LiveHub.olderPoints
  split_ifs with holder
  · rw [Hub.mem_inRange]
    simp [holder]
  · simp [holder]

/-- Where the older part ends: at the last of its points, or where it was read up to when it has none. -/
theorem takesOver_cases (hub : LiveHub) (span : Span) (readAt : ℤ) :
    (∃ last ∈ hub.olderPoints span readAt, hub.takesOver span readAt = last.atMs) ∨
      hub.olderPoints span readAt = [] ∧ hub.takesOver span readAt = olderUntil span readAt := by
  rw [takesOver_eq]
  cases hlast : (hub.olderPoints span readAt).getLast? with
  | none => exact .inr ⟨List.getLast?_eq_none_iff.mp hlast, rfl⟩
  | some last => exact .inl ⟨last, List.mem_of_getLast? hlast, rfl⟩

theorem takesOver_le_until (hub : LiveHub) (span : Span) (readAt : ℤ) :
    hub.takesOver span readAt ≤ olderUntil span readAt := by
  obtain ⟨last, hlast, hends⟩ | ⟨-, hends⟩ := takesOver_cases hub span readAt
  · rw [hends]
    exact (mem_olderPoints.mp hlast).2.2.2
  · exact hends.le

theorem start_le_takesOver (hub : LiveHub) (span : Span) (readAt : ℤ) :
    span.start readAt ≤ hub.takesOver span readAt := by
  obtain ⟨last, hlast, hends⟩ | ⟨-, hends⟩ := takesOver_cases hub span readAt
  · rw [hends]
    exact (mem_olderPoints.mp hlast).2.2.1
  · rw [hends]
    exact start_le_olderUntil span readAt

theorem takesOver_le_stop {readAt stop : ℤ} (hstart : span.start readAt < olderUntil span readAt)
    (hstop : span.stop = some stop) : hub.takesOver span readAt ≤ stop :=
  (takesOver_le_until hub span readAt).trans (olderUntil_le_stop hstart hstop)

/-- Of all points up to where the older part is read, none is after where it ends. -/
theorem le_takesOver {readAt : ℤ} {point : HubLocationPoint} (hmem : point ∈ hub.olderPoints span readAt) :
    point.atMs ≤ hub.takesOver span readAt := by
  have hsorted : Sorted (hub.olderPoints span readAt) := by
    unfold LiveHub.olderPoints
    split_ifs
    · exact Hub.sorted_inRange _ _ _
    · exact .nil
  rw [takesOver_eq]
  obtain ⟨front, last, hsplit⟩ := List.eq_nil_or_concat (hub.olderPoints span readAt) |>.resolve_left
    (List.ne_nil_of_mem hmem)
  rw [hsplit, List.concat_eq_append] at hmem hsorted ⊢
  rw [List.getLast?_append_of_ne_nil _ (List.cons_ne_nil _ _), List.getLast?_singleton, Option.map_some,
    Option.getD_some]
  obtain hfront | hlast := List.mem_append.mp hmem
  · exact ((List.pairwise_append.mp hsorted).2.2 point hfront last List.mem_cons_self).le
  · rw [List.mem_singleton.mp hlast]

/-- A later older part does not end earlier. -/
theorem takesOver_mono (hub : LiveHub) (span : Span) {now later : ℤ} (hlater : now ≤ later) :
    hub.takesOver span now ≤ hub.takesOver span later := by
  by_contra hearlier
  rw [not_le] at hearlier
  have huntil := olderUntil_mono span hlater
  obtain ⟨last, hlast, hends⟩ | ⟨-, hends⟩ := takesOver_cases hub span later
  · obtain ⟨holder, hseen, hfrom, hto⟩ := mem_olderPoints.mp hlast
    obtain ⟨first, hfirst, hended⟩ | ⟨hnone, hended⟩ := takesOver_cases hub span now
    · -- The earlier last point is in the later older part too.
      obtain ⟨-, hseen', -, hto'⟩ := mem_olderPoints.mp hfirst
      have hmem : first ∈ hub.olderPoints span later :=
        mem_olderPoints.mpr ⟨holder, hub.grows hlater hseen', by omega, by omega⟩
      have hle := le_takesOver hmem
      omega
    · -- The later last point was there already.
      have hstart := start_mono span hlater
      have hsettled : olderUntil span now ≤ now - settleSecs * 1000 := olderUntil_settled (by omega)
      have hmem : last ∈ hub.olderPoints span now :=
        mem_olderPoints.mpr ⟨by omega, hub.settled hlater last hseen (by omega), by omega, by omega⟩
      rw [hnone] at hmem
      cases hmem
  · have hle := takesOver_le_until hub span now
    omega

/-! ## What is joined -/

theorem unlabelFirst_unlabelled (points : List HubLocationPoint) :
    List.Forall₂ Unlabelled (unlabelFirst points) points := by
  have hsame (points : List HubLocationPoint) : List.Forall₂ Unlabelled points points :=
    List.forall₂_same.mpr fun _ _ ↦ .inl rfl
  cases points with
  | nil => exact .nil
  | cons first rest => exact .cons (.inr rfl) (hsame rest)

/-- What a recent answer has after a time: its points, or these without the label of the first when there is
none of it before. -/
theorem filter_unlabelFirst (points : List HubLocationPoint) (time : ℤ) :
    ((unlabelFirst points).filter fun point ↦ decide (time < point.atMs)) =
        (points.filter fun point ↦ time < point.atMs) ∨
      (∀ first ∈ points.head?, time < first.atMs) ∧
        ((unlabelFirst points).filter fun point ↦ decide (time < point.atMs)) =
          unlabelFirst (points.filter fun point ↦ time < point.atMs) := by
  cases points with
  | nil => exact .inl rfl
  | cons first rest =>
    by_cases hfirst : time < first.atMs
    · apply Or.inr
      rw [unlabelFirst, List.filter_cons_of_pos (by simpa using hfirst),
        List.filter_cons_of_pos (by simpa using hfirst)]
      exact ⟨by simpa using hfirst, rfl⟩
    · apply Or.inl
      rw [unlabelFirst, List.filter_cons_of_neg (by simpa using hfirst),
        List.filter_cons_of_neg (by simpa using hfirst)]

/-- The recent answer has the hub's points after the older part, though it was asked for from an earlier time. -/
theorem newSince_recent {older askedWith readAt : ℤ} (hasked : askedWith ≤ older)
    (hwhole : (hub.recent span askedWith readAt).truncated = false) :
    newSince (hub.takesOver span older) (hub.recent span askedWith readAt).points =
        hub.newerPoints span older readAt ∨
      (∀ point ∈ (hub.seen readAt).inRange (hub.takesOver span askedWith) span.stop,
        hub.takesOver span older < point.atMs) ∧
        newSince (hub.takesOver span older) (hub.recent span askedWith readAt).points =
          unlabelFirst (hub.newerPoints span older readAt) := by
  have hnewer : hub.newerPoints span older readAt =
      ((hub.seen readAt).inRange (hub.takesOver span askedWith) span.stop).filter fun point ↦
        hub.takesOver span older < point.atMs := by
    have hends := takesOver_mono hub span hasked
    unfold LiveHub.newerPoints Hub.inRange
    rw [List.filter_filter, List.filter_filter]
    refine List.filter_congr fun point _ ↦ ?_
    by_cases hafter : hub.takesOver span older < point.atMs
    · simp [hafter, hafter.le, hends.trans hafter.le]
    · simp [hafter]
  have hsorted := (hub.seen readAt).sorted_inRange (hub.takesOver span askedWith) span.stop
  unfold LiveHub.recent at hwhole ⊢
  rw [locations_untruncated hwhole, newSince_eq (sorted_unlabelFirst hsorted), hnewer]
  refine (filter_unlabelFirst _ _).imp_right fun ⟨hfirst, hsame⟩ ↦ ⟨fun point hpoint ↦ ?_, hsame⟩
  generalize (hub.seen readAt).inRange (hub.takesOver span askedWith) span.stop = points at hfirst hpoint hsorted
  cases points with
  | nil => cases hpoint
  | cons first rest =>
    have hfirst := hfirst first rfl
    obtain rfl | hrest := List.mem_cons.mp hpoint
    · exact hfirst
    · exact hfirst.trans ((List.pairwise_cons.mp hsorted).1 point hrest)

/-- The stays of the older part are those of its points. -/
theorem joinPages_older {older : ℤ} (hpages : (hub.seen older).FitsInPages span older maxTrailPages) :
    joinPages (fetchPages (hub.seen older).locations span older).1 =
      extendStays [] (unlabelFirst (hub.olderPoints span older)) := by
  unfold LiveHub.olderPoints fetchPages
  dsimp only
  split_ifs with holder
  · exact joinPages_eq (paging_readPages (by decide) hpages) (sorted_unlabelFirst (Hub.sorted_inRange _ _ _))
  · rfl

/-- Whatever is joined: every point that the hub had at the two times is in it once, and no other. Only how the
player got to it may be missing, of the first point and of the first one after the older part, and of the first
alone when the recent part was not read before the older one. -/
theorem cachedStays_points {older askedWith readAt : ℤ} (hasked : askedWith ≤ older)
    (hpages : (hub.seen older).FitsInPages span older maxTrailPages)
    (hwhole : (hub.recent span askedWith readAt).truncated = false) :
    ∃ points, hub.cachedStays span older askedWith readAt = extendStays [] points ∧
      List.Forall₂ Unlabelled points (hub.olderPoints span older ++ hub.newerPoints span older readAt) ∧
      (older ≤ readAt →
        points.tail = (hub.olderPoints span older ++ hub.newerPoints span older readAt).tail) := by
  refine ⟨unlabelFirst (hub.olderPoints span older) ++
    newSince (hub.takesOver span older) (hub.recent span askedWith readAt).points, ?_, ?_, fun hlater ↦ ?_⟩
  · rw [LiveHub.cachedStays, joinPages_older hpages, extendStays_append]
  · apply List.rel_append (unlabelFirst_unlabelled _)
    obtain hsame | ⟨-, hsame⟩ := newSince_recent hasked hwhole
    · rw [hsame]
      exact List.forall₂_same.mpr fun _ _ ↦ .inl rfl
    · rw [hsame]
      exact unlabelFirst_unlabelled _
  · cases hpoints : hub.olderPoints span older with
    | nil =>
      obtain hsame | ⟨-, hsame⟩ := newSince_recent hasked hwhole
      · rw [hsame]
        rfl
      · rw [hsame]
        cases hub.newerPoints span older readAt <;> rfl
    | cons first rest =>
      -- The older part's last point is in the recent answer, so nothing after it lost its label.
      obtain hsame | ⟨hafter, -⟩ := newSince_recent hasked hwhole
      · rw [hsame]
        rfl
      · obtain ⟨last, hlast, hends⟩ | ⟨hnone, -⟩ := takesOver_cases hub span older
        · obtain ⟨holder, hseen, -, -⟩ := mem_olderPoints.mp hlast
          have hmem : last ∈ (hub.seen readAt).inRange (hub.takesOver span askedWith) span.stop :=
            Hub.mem_inRange.mpr ⟨hub.grows hlater hseen, hends ▸ takesOver_mono hub span hasked,
              fun stop hstop ↦ hends ▸ takesOver_le_stop holder hstop⟩
          exact absurd (hafter last hmem) (by rw [hends]; exact lt_irrefl _)
        · rw [hnone] at hpoints
          cases hpoints

/-- What the hub had at the two times is what it has at the later one, in one answer. -/
theorem older_append_newer {older readAt : ℤ} (hlater : older ≤ readAt)
    (hstart : (hub.seen readAt).StartsClear span older) :
    hub.olderPoints span older ++ hub.newerPoints span older readAt =
      (hub.seen readAt).inRange (span.start older) span.stop := by
  unfold LiveHub.newerPoints
  by_cases holder : span.start older < olderUntil span older
  · rw [inRange_split (start_le_takesOver hub span older) fun _ hstop ↦ takesOver_le_stop holder hstop]
    congr 1
    have hsettled : (hub.seen readAt).inRange (span.start older) (some (olderUntil span older)) =
        hub.olderPoints span older := by
      rw [LiveHub.olderPoints, if_pos holder, inRange_settled hlater (olderUntil_settled holder)]
    refine eq_of_sorted (hsettled ▸ Hub.sorted_inRange _ _ _) (Hub.sorted_inRange _ _ _) fun point ↦ ?_
    rw [Hub.mem_inRange, ← hsettled]
    constructor
    · intro hpoint
      obtain ⟨hseen, hfrom, -⟩ := Hub.mem_inRange.mp hpoint
      refine ⟨hseen, hfrom, fun stop hstop ↦ ?_⟩
      obtain rfl := Option.some.inj hstop
      exact le_takesOver (hsettled ▸ hpoint)
    · rintro ⟨hseen, hfrom, hto⟩
      refine Hub.mem_inRange.mpr ⟨hseen, hfrom, fun stop hstop ↦ ?_⟩
      obtain rfl := Option.some.inj hstop
      exact (hto _ rfl).trans (takesOver_le_until hub span older)
  · have hsame : olderUntil span older = span.start older :=
      le_antisymm (not_lt.mp holder) (start_le_olderUntil span older)
    have hnone : hub.olderPoints span older = [] := if_neg holder
    have hends : hub.takesOver span older = span.start older := by
      rw [takesOver_eq, hnone, ← hsame]
      rfl
    rw [hnone, hends, List.nil_append]
    refine List.filter_eq_self.mpr fun point hpoint ↦ decide_eq_true ?_
    have hclear := (hstart.resolve_left holder) point (Hub.mem_inRange.mp hpoint).1
    exact lt_of_le_of_ne (le_of_mem_inRange hpoint) (Ne.symm hclear)

/-! ## The trail -/

theorem length_le_extendStays (stays : List TrailPoint) (points : List HubLocationPoint) :
    stays.length ≤ (extendStays stays points).length := by
  cases hlast : stays.getLast? with
  | none =>
    rw [List.getLast?_eq_none_iff.mp hlast]
    exact Nat.zero_le _
  | some last =>
    obtain ⟨front, rfl⟩ := List.getLast?_eq_some_iff.mp hlast
    obtain ⟨_, rest, hrest⟩ := extendStays_singleton last points
    rw [extendStays_frame front (List.cons_ne_nil _ _), hrest, List.length_append, List.length_append]
    exact Nat.add_le_add_left (Nat.le_add_left 1 rest.length) _

theorem cut_of_short {points : List TrailPoint} {maxPoints : ℕ} (h : points.length ≤ maxPoints) (weights : List ℕ) :
    cut points weights none maxPoints = { points, weights, level := none, truncated := false } :=
  if_pos ⟨rfl, .inl h⟩

/-- A short trail is not thinned, so it has all the stays that are joined. -/
theorem points_joinRecent (off : TrailPoint → TrailPoint → TrailPoint → ℚ) {older askedWith readAt : ℤ}
    (hshort : (hub.cachedStays span older askedWith readAt).length ≤ olderMaxPoints) :
    (joinRecent off (fetchOlder off (hub.seen older).locations span older)
      (hub.recent span askedWith readAt).points).points = hub.cachedStays span older askedWith readAt := by
  have holder : (joinPages (fetchPages (hub.seen older).locations span older).1).length ≤ olderMaxPoints :=
    (length_le_extendStays _ _).trans hshort
  have hmax : olderMaxPoints ≤ maxTrailPoints := by decide
  unfold joinRecent fetchOlder olderPart
  dsimp only
  rw [cut_of_short holder]
  exact congrArg Weighed.points (cut_of_short (hshort.trans hmax) _)

/-- Whatever the cache has: a trail that is short enough not to be thinned has every point once that the hub had
at the time the older part was read, up to where that ended, and at the time the recent part was read, from there
on. Read in this order they are the hub's points of the whole span, in one answer. The recent part may have been
asked for from where an earlier older part ended, but not a later one. -/
theorem points_accountTrail_cached (off : TrailPoint → TrailPoint → TrailPoint → ℚ) (hub : LiveHub) (span : Span)
    {older askedWith readAt : ℤ} (hasked : askedWith ≤ older)
    (hpages : (hub.seen older).FitsInPages span older maxTrailPages)
    (hwhole : (hub.recent span askedWith readAt).truncated = false)
    (hshort : (hub.cachedStays span older askedWith readAt).length ≤ olderMaxPoints) :
    ∃ points, (joinRecent off (fetchOlder off (hub.seen older).locations span older)
        (hub.recent span askedWith readAt).points).built.points = extendStays [] points ∧
      List.Forall₂ Unlabelled points (hub.olderPoints span older ++ hub.newerPoints span older readAt) ∧
      (older ≤ readAt → (hub.seen readAt).StartsClear span older →
        points.tail = ((hub.seen readAt).inRange (span.start older) span.stop).tail) := by
  obtain ⟨points, hpoints, hall, hlabels⟩ := cachedStays_points hasked hpages hwhole
  refine ⟨points, (points_joinRecent off hshort).trans hpoints, hall, fun hlater hstart ↦ ?_⟩
  rw [← older_append_newer hlater hstart]
  exact hlabels hlater

/-- A sample every second for ten seconds. -/
def tenSeconds : List HubLocationPoint := secondly 998000000 10

/-- A hub that hands out each sample ten seconds late, six at most. -/
def lateHub : LiveHub where
  seen now :=
    { points := tenSeconds.filter fun point ↦ point.atMs + 10000 ≤ now
      size := 6
      sorted := List.Pairwise.filter _ (by decide +kernel)
      two_le_size := by decide }
  grows hlater point hpoint := by
    obtain ⟨hmem, hseen⟩ := List.mem_filter.mp hpoint
    exact List.mem_filter.mpr ⟨hmem, decide_eq_true ((of_decide_eq_true hseen).trans hlater)⟩
  settled {now _} _ point hpoint hold := by
    have hseen : point.atMs + 10000 ≤ now := by
      unfold settleSecs at hold
      omega
    exact List.mem_filter.mpr ⟨(List.mem_filter.mp hpoint).1, decide_eq_true hseen⟩

/-- The recent part was asked for from where an older part ended that was read a second earlier. -/
theorem points_accountTrail_lateHub :
    ∃ points, (joinRecent (fun _ _ _ ↦ 0) (fetchOlder (fun _ _ _ ↦ 0) (lateHub.seen 998905000).locations
          (.between 997990 none) 998905000)
        (lateHub.recent (.between 997990 none) 998904000 998906000).points).built.points = extendStays [] points ∧
      points.tail = tenSeconds.tail := by
  obtain ⟨points, hpoints, -, hlabels⟩ := @points_accountTrail_cached (fun _ _ _ ↦ 0) lateHub (.between 997990 none)
    998905000 998904000 998906000 (by decide) (by decide +kernel) (by decide +kernel) (by decide +kernel)
  refine ⟨points, hpoints, (hlabels (by decide) (by decide +kernel)).trans ?_⟩
  decide +kernel

end OsrsMap.Trails
