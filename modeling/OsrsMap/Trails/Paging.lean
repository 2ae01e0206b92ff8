import OsrsMap.Trails.Thinning

/-!
# Reading a trail in two parts

A trail is read from the hub in an older part, in pages from the newest to the oldest, and a recent
part that takes over at the older part's last point (`server/src/hub/trails.rs`). The older part is
thinned on its own and keeps its weights, so that only what is new is weighed when the two are
joined.
-/

namespace OsrsMap.Trails

/-- `SETTLE_SECS`: the older part ends this long ago. -/
def settleSecs : ℤ := 15 * 60

/-- `MAX_TRAIL_PAGES`. -/
def maxTrailPages : ℕ := 10

/-- `MAX_TRAIL_POINTS`. -/
def maxTrailPoints : ℕ := 3000

/-- `OLDER_MAX_POINTS`: what the older part of a trail is cut to. -/
def olderMaxPoints : ℕ := maxTrailPoints - 300

/-! ## The span of a trail -/

/-- The time a trail is asked for. Sessions are given in unix seconds. -/
inductive Span where
  | days (days : ℤ)
  | between (fromSecs : ℤ) (toSecs : Option ℤ)
deriving DecidableEq, Repr

/-- Where the span starts, asked at `now`. -/
def Span.start (span : Span) (now : ℤ) : ℤ :=
  match span with
  | .days count => now - count * 86400 * 1000
  | .between fromSecs _ => fromSecs * 1000

/-- Where the span ends, when it doesn't run until now. -/
def Span.stop : Span → Option ℤ
  | .between _ (some toSecs) => some (toSecs * 1000)
  | _ => none

/-- Up to when the older part of a trail is read at `now`. -/
def olderUntil (span : Span) (now : ℤ) : ℤ :=
  let settled := now - settleSecs * 1000
  max (span.stop.elim settled fun stop ↦ min stop settled) (span.start now)

/-! ## Joining the parts -/

variable (off : TrailPoint → TrailPoint → TrailPoint → ℚ)

/-- The older part of a trail as it is kept in the cache. -/
structure OlderTrail where
  untilMs : ℤ
  lastAt : Option ℤ
  trail : Weighed
deriving DecidableEq, Repr

/-- One page of `join_pages`: what of it is new is added to the stays. -/
def joinPage (state : List TrailPoint × Option ℤ) (page : List HubLocationPoint) :
    List TrailPoint × Option ℤ :=
  let known := partitionPoint (fun point ↦ state.2.any fun lastAt ↦ point.atMs ≤ lastAt) page
  (extendStays state.1 (page.drop known), (page.getLast?.map (·.atMs)).or state.2)

/-- The stays of a trail read in pages, the newest page first. -/
def joinPages (pages : List (List HubLocationPoint)) : List TrailPoint :=
  (pages.reverse.foldl joinPage ([], none)).1

/-- The older part of a trail from its pages, read up to `untilMs`. `cutShort` when the hub had
more than was read. -/
def olderPart (pages : List (List HubLocationPoint)) (untilMs : ℤ) (cutShort : Bool) :
    OlderTrail :=
  let points := joinPages pages
  let trail := cut points (weigh off points 0 []) none olderMaxPoints
  { untilMs
    lastAt := (pages.head?.bind List.getLast?).map (·.atMs)
    trail := { trail with truncated := trail.truncated || cutShort } }

/-- Where the recent part takes over: the older part's last point, or its end. -/
def OlderTrail.takesOver (older : OlderTrail) : ℤ := older.lastAt.getD older.untilMs

/-- What the recent part has that the older one does not. -/
def newSince (fromMs : ℤ) (recent : List HubLocationPoint) : List HubLocationPoint :=
  recent.drop (partitionPoint (fun point ↦ decide (point.atMs ≤ fromMs)) recent)

/-- The older part followed by what the hub has had since. -/
def joinRecent (older : OlderTrail) (recent : List HubLocationPoint) : Weighed :=
  let points := extendStays older.trail.points (newSince older.takesOver recent)
  let weights := weigh off points (older.trail.points.length - 1) older.trail.weights
  let joined := cut points weights older.trail.level maxTrailPoints
  { joined with truncated := joined.truncated || older.trail.truncated }

/-! ## Asking the hub -/

/-- What the hub answers a request for locations. -/
structure LocationsAnswer where
  points : List HubLocationPoint
  truncated : Bool
deriving DecidableEq, Repr

/-- The loop of `fetch_older`: pages backwards from `toMs`, the newest first, and whether the last
one read was truncated. -/
def readPages (locations : ℤ → Option ℤ → LocationsAnswer) (fromMs : ℤ) :
    ℕ → ℤ → Bool → List (List HubLocationPoint) × Bool
  | 0, _, truncated => ([], truncated)
  | pagesToRead + 1, toMs, _ =>
    let page := locations fromMs (some toMs)
    match page.points.head? with
    | some first =>
      if page.truncated ∧ first.atMs < toMs then
        let (pages, truncated) := readPages locations fromMs pagesToRead first.atMs page.truncated
        (page.points :: pages, truncated)
      else ([page.points], page.truncated)
    | none => ([page.points], page.truncated)

/-- The pages `fetch_older` reads at `now`, and whether they were cut short. -/
def fetchPages (locations : ℤ → Option ℤ → LocationsAnswer) (span : Span) (now : ℤ) :
    List (List HubLocationPoint) × Bool :=
  let start := span.start now
  let untilMs := olderUntil span now
  readPages locations start (if start < untilMs then maxTrailPages else 0) untilMs false

def fetchOlder (locations : ℤ → Option ℤ → LocationsAnswer) (span : Span) (now : ℤ) : OlderTrail :=
  let (pages, truncated) := fetchPages locations span now
  olderPart off pages (olderUntil span now) truncated

/-- `account_trail`, without its caches: the older part, then what is asked for from where it
ends (`recent_query`). -/
def accountTrail (locations : ℤ → Option ℤ → LocationsAnswer) (span : Span) (now : ℤ) :
    BuiltTrail :=
  let older := fetchOlder off locations span now
  (joinRecent off older (locations older.takesOver span.stop).points).built

/-! ## Pages -/

/-- Pages, the newest first, of a list of points: every page but the oldest starts with the point
the page before it ends with, whatever it is labelled there. -/
inductive Paging : List (List HubLocationPoint) → List HubLocationPoint → Prop
  | none : Paging [] []
  | oldest (page : List HubLocationPoint) : Paging [page] page
  | newer {pages : List (List HubLocationPoint)} {points : List HubLocationPoint}
    (older : Paging pages points) (first : HubLocationPoint) (rest : List HubLocationPoint)
    (meets : points.getLast?.map (·.atMs) = some first.atMs) :
    Paging ((first :: rest) :: pages) (points ++ rest)

/-- Points in the order of their times, no two at the same time. -/
def Sorted (points : List HubLocationPoint) : Prop := points.Pairwise fun p q ↦ p.atMs < q.atMs

instance (points : List HubLocationPoint) : Decidable (Sorted points) :=
  inferInstanceAs (Decidable (points.Pairwise _))

/-- The page before goes on from the last point, so that is where a list with more pages ends. -/
theorem lastAt_newer {points rest : List HubLocationPoint} {first : HubLocationPoint}
    (meets : points.getLast?.map (·.atMs) = some first.atMs) :
    (first :: rest).getLast?.map (·.atMs) = (points ++ rest).getLast?.map (·.atMs) := by
  cases hrest : rest.getLast? with
  | none =>
    rw [List.getLast?_eq_none_iff.mp hrest, List.append_nil, meets]
    rfl
  | some last => simp [List.getLast?_cons, hrest]

theorem lastAt_paging {pages : List (List HubLocationPoint)} {points : List HubLocationPoint}
    (h : Paging pages points) :
    (pages.head?.bind List.getLast?).map (·.atMs) = points.getLast?.map (·.atMs) := by
  cases h with
  | none => rfl
  | oldest page => rfl
  | newer older first rest meets => exact lastAt_newer meets

/-- Of points in order, what is new since a time are the points after it. -/
theorem newSince_eq {points : List HubLocationPoint} (h : Sorted points) (time : ℤ) :
    newSince time points = points.filter fun point ↦ time < point.atMs := by
  rw [newSince, drop_partitionPoint (h.imp fun hlt hle ↦ by simp at hle ⊢; omega)]
  refine List.filter_congr fun point _ ↦ ?_
  simp [← decide_not]

theorem joinPages_state {pages : List (List HubLocationPoint)} {points : List HubLocationPoint}
    (h : Paging pages points) (hsorted : Sorted points) :
    pages.reverse.foldl joinPage ([], none) =
      (extendStays [] points, points.getLast?.map (·.atMs)) := by
  induction h with
  | none => rfl
  | oldest page =>
    have hall : page.drop (partitionPoint (fun _ ↦ false) page) = page := by
      rw [drop_partitionPoint (List.pairwise_of_forall (by simp))]
      simp
    simp [joinPage, hall]
  | @newer pages points older first rest meets ih =>
    obtain ⟨hpoints, hrest, hlater⟩ := List.pairwise_append.mp hsorted
    have hnew : ∀ point ∈ rest, first.atMs < point.atMs := by
      obtain ⟨last, hlast, hat⟩ := Option.map_eq_some_iff.mp meets
      intro point hpoint
      rw [← hat]
      exact hlater last (List.mem_of_getLast? hlast) point hpoint
    have hdrop := newSince_eq (List.pairwise_cons.mpr ⟨hnew, hrest⟩) first.atMs
    rw [newSince, List.filter_cons_of_neg (by simp),
      List.filter_eq_self.mpr (by simpa using hnew)] at hdrop
    rw [List.reverse_cons, List.foldl_append, ih hpoints, List.foldl_cons, List.foldl_nil, joinPage]
    simp only [meets, Option.any_some, hdrop, extendStays_append]
    rw [← lastAt_newer meets, List.getLast?_cons]
    rfl

/-- Reading in pages loses no point and doubles none. -/
theorem joinPages_eq {pages : List (List HubLocationPoint)} {points : List HubLocationPoint}
    (h : Paging pages points) (hsorted : Sorted points) :
    joinPages pages = extendStays [] points := by
  rw [joinPages, joinPages_state h hsorted]

end OsrsMap.Trails
