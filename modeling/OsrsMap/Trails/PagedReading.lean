import OsrsMap.Trails.ErrorBound

/-!
# Reading in pages loses nothing

A hub answers a request for locations with the newest points of the range, says whether older ones
were left out, and never labels the first point of an answer. The stays read from it in pages and
in a recent part are those of one answer with every point, as long as the pages suffice, the recent
answer holds everything it was asked for, and a span that has no older part has no point at the very
moment it starts.
-/

namespace OsrsMap.Trails

/-- A hub's history of one account, and how many points it answers with at most. -/
structure Hub where
  points : List HubLocationPoint
  size : ℕ
  sorted : Sorted points
  two_le_size : 2 ≤ size

/-- The first point of an answer has no label. -/
def unlabelFirst : List HubLocationPoint → List HubLocationPoint
  | [] => []
  | first :: rest => { first with via := none } :: rest

namespace Hub

def inRange (hub : Hub) (fromMs : ℤ) (toMs : Option ℤ) : List HubLocationPoint :=
  hub.points.filter fun point ↦ fromMs ≤ point.atMs ∧ toMs.all fun toMs ↦ point.atMs ≤ toMs

def locations (hub : Hub) (fromMs : ℤ) (toMs : Option ℤ) : LocationsAnswer where
  points := unlabelFirst ((hub.inRange fromMs toMs).drop ((hub.inRange fromMs toMs).length - hub.size))
  truncated := hub.size < (hub.inRange fromMs toMs).length

/-- Every point of the span, in one answer. -/
def oneAnswer (hub : Hub) (span : Span) (now : ℤ) : List HubLocationPoint :=
  unlabelFirst (hub.inRange (span.start now) span.stop)

/-- Where the recent part takes over from the pages. -/
def takesOver (hub : Hub) (span : Span) (now : ℤ) : ℤ :=
  (((fetchPages hub.locations span now).1.head?.bind List.getLast?).map (·.atMs)).getD
    (olderUntil span now)

/-- The stays of a trail as they are merged, before anything is thinned. -/
def mergedStays (hub : Hub) (span : Span) (now : ℤ) : List TrailPoint :=
  extendStays (joinPages (fetchPages hub.locations span now).1)
    (newSince (hub.takesOver span now) (hub.locations (hub.takesOver span now) span.stop).points)

/-- The older points fit into as many pages: after the first one, a page adds all of its points but
the one it shares. -/
def FitsInPages (hub : Hub) (span : Span) (now : ℤ) (pages : ℕ) : Prop :=
  (hub.inRange (span.start now) (some (olderUntil span now))).length ≤ pages * (hub.size - 1) + 1

/-- The recent answer holds every point from where it takes over. -/
def RecentFits (hub : Hub) (span : Span) (now : ℤ) : Prop :=
  (hub.locations (hub.takesOver span now) span.stop).truncated = false

/-- A span without an older part has no point at the moment it starts. -/
def StartsClear (hub : Hub) (span : Span) (now : ℤ) : Prop :=
  span.start now < olderUntil span now ∨ ∀ point ∈ hub.points, point.atMs ≠ span.start now

instance (hub : Hub) (span : Span) (now : ℤ) (pages : ℕ) :
    Decidable (hub.FitsInPages span now pages) := inferInstanceAs (Decidable (_ ≤ _))

instance (hub : Hub) (span : Span) (now : ℤ) : Decidable (hub.RecentFits span now) :=
  inferInstanceAs (Decidable (_ = _))

instance (hub : Hub) (span : Span) (now : ℤ) : Decidable (hub.StartsClear span now) :=
  inferInstanceAs (Decidable (_ ∨ _))

end Hub

theorem sorted_unlabelFirst {points : List HubLocationPoint} (h : Sorted points) :
    Sorted (unlabelFirst points) := by
  cases points with
  | nil => exact h
  | cons first rest => exact List.pairwise_cons.mpr (List.pairwise_cons.mp h)

@[simp]
theorem lastAt_unlabelFirst (points : List HubLocationPoint) :
    (unlabelFirst points).getLast?.map (·.atMs) = points.getLast?.map (·.atMs) := by
  cases points with
  | nil => rfl
  | cons first rest => cases h : rest.getLast? <;> simp [unlabelFirst, List.getLast?_cons, h]

theorem unlabelFirst_append {first : List HubLocationPoint} (h : first ≠ [])
    (rest : List HubLocationPoint) : unlabelFirst (first ++ rest) = unlabelFirst first ++ rest := by
  cases first with
  | nil => exact absurd rfl h
  | cons point first => rfl

variable {hub : Hub}

theorem Hub.sorted_inRange (hub : Hub) (fromMs : ℤ) (toMs : Option ℤ) :
    Sorted (hub.inRange fromMs toMs) := hub.sorted.filter _

theorem Hub.mem_inRange {fromMs : ℤ} {toMs : Option ℤ} {point : HubLocationPoint} :
    point ∈ hub.inRange fromMs toMs ↔
      point ∈ hub.points ∧ fromMs ≤ point.atMs ∧ ∀ stop, toMs = some stop → point.atMs ≤ stop := by
  cases toMs <;> simp [inRange]

/-- Going on from a point of the range: what comes up to it is the range up to it. -/
theorem inRange_upTo {fromMs toMs : ℤ} {older newer : List HubLocationPoint}
    {point : HubLocationPoint} (h : hub.inRange fromMs (some toMs) = older ++ point :: newer) :
    hub.inRange fromMs (some point.atMs) = older ++ [point] := by
  have hsorted := hub.sorted_inRange fromMs (some toMs)
  have hmem : point ∈ hub.inRange fromMs (some toMs) := by simp [h]
  have hpoint : point.atMs ≤ toMs := (Hub.mem_inRange.mp hmem).2.2 toMs rfl
  have hrange : hub.inRange fromMs (some point.atMs) =
      (hub.inRange fromMs (some toMs)).filter fun other ↦ other.atMs ≤ point.atMs := by
    unfold Hub.inRange
    rw [List.filter_filter]
    refine List.filter_congr fun other _ ↦ ?_
    simp only [Option.all_some, decide_eq_true_eq, Bool.decide_and]
    by_cases hother : other.atMs ≤ point.atMs
    · simp [hother, hother.trans hpoint]
    · simp [hother]
  rw [h] at hsorted
  obtain ⟨-, hnewer, holder⟩ := List.pairwise_append.mp hsorted
  rw [hrange, h, List.filter_append, List.filter_cons_of_pos (by simp),
    List.filter_eq_self.mpr fun other hother ↦ by
      simpa using (holder other hother point List.mem_cons_self).le,
    List.filter_eq_nil_iff.mpr fun other hother ↦ by
      simpa using (List.pairwise_cons.mp hnewer).1 other hother]

/-- An answer that everything fits into. -/
theorem locations_of_le {fromMs : ℤ} {toMs : Option ℤ}
    (h : (hub.inRange fromMs toMs).length ≤ hub.size) :
    hub.locations fromMs toMs = { points := unlabelFirst (hub.inRange fromMs toMs), truncated := false } := by
  simp [Hub.locations, h, Nat.sub_eq_zero_of_le h]

/-- A full page: the point the next one goes up to, and at least one more, before the end. -/
theorem exists_fullPage {fromMs toMs : ℤ} (h : hub.size < (hub.inRange fromMs (some toMs)).length) :
    ∃ older point newer, hub.inRange fromMs (some toMs) = older ++ point :: newer ∧
      (point :: newer).length = hub.size ∧ older ≠ [] ∧ point.atMs < toMs ∧
      hub.locations fromMs (some toMs) =
        { points := unlabelFirst (point :: newer), truncated := true } := by
  have hsize := hub.two_le_size
  obtain ⟨older, point, newer, hsplit, hlength⟩ : ∃ older point newer,
      hub.inRange fromMs (some toMs) = older ++ point :: newer ∧
        (point :: newer).length = hub.size := by
    have hdrop : ((hub.inRange fromMs (some toMs)).drop
        ((hub.inRange fromMs (some toMs)).length - hub.size)).length = hub.size := by
      rw [List.length_drop]
      omega
    obtain ⟨point, newer, hnewer⟩ := List.exists_cons_of_length_pos
      (lt_of_lt_of_eq (show 0 < hub.size by omega) hdrop.symm)
    exact ⟨_, point, newer, by rw [← hnewer, List.take_append_drop], by rw [← hnewer, hdrop]⟩
  have hlonger : older ≠ [] := by
    rintro rfl
    rw [hsplit, List.nil_append, hlength] at h
    exact lt_irrefl _ h
  refine ⟨older, point, newer, hsplit, hlength, hlonger, ?_, ?_⟩
  · obtain ⟨next, rest, rfl⟩ : ∃ next rest, newer = next :: rest :=
      List.exists_cons_of_length_pos (by simp at hlength; omega)
    have hsorted := hub.sorted_inRange fromMs (some toMs)
    rw [hsplit] at hsorted
    have hnext := (List.pairwise_cons.mp (List.pairwise_append.mp hsorted).2.1).1 next
      List.mem_cons_self
    have hmem : next ∈ hub.inRange fromMs (some toMs) := by simp [hsplit]
    exact hnext.trans_le ((Hub.mem_inRange.mp hmem).2.2 toMs rfl)
  · have hcount : older.length + (point :: newer).length - hub.size = older.length := by omega
    simp only [Hub.locations, hsplit, List.length_append, hcount, List.drop_left,
      LocationsAnswer.mk.injEq, true_and, decide_eq_true_eq]
    have := List.length_pos_iff.mpr hlonger
    omega

/-- The pages that are read are pages of everything up to where they start, when as many suffice. -/
theorem paging_readPages {fromMs : ℤ} {pagesToRead : ℕ} {toMs : ℤ} {truncated : Bool}
    (hpages : 0 < pagesToRead)
    (hfits : (hub.inRange fromMs (some toMs)).length ≤ pagesToRead * (hub.size - 1) + 1) :
    Paging (readPages hub.locations fromMs pagesToRead toMs truncated).1
      (unlabelFirst (hub.inRange fromMs (some toMs))) := by
  induction pagesToRead generalizing toMs truncated with
  | zero => omega
  | succ pagesToRead ih =>
    obtain hall | hlong := le_or_gt (hub.inRange fromMs (some toMs)).length hub.size
    · have hread : (readPages hub.locations fromMs (pagesToRead + 1) toMs truncated).1 =
          [unlabelFirst (hub.inRange fromMs (some toMs))] := by
        rw [readPages, locations_of_le hall]
        split <;> simp
      rw [hread]
      exact .oldest _
    · obtain ⟨older, point, newer, hsplit, hlength, hlonger, hearlier, hpage⟩ := exists_fullPage hlong
      have hupTo := inRange_upTo hsplit
      have hfits' : (hub.inRange fromMs (some point.atMs)).length ≤
          pagesToRead * (hub.size - 1) + 1 := by
        rw [hupTo]
        rw [hsplit, Nat.add_one_mul] at hfits
        simp at hfits hlength ⊢
        omega
      have hmore : 0 < pagesToRead := by
        by_contra hnone
        obtain rfl : pagesToRead = 0 := by omega
        rw [hupTo] at hfits'
        simp at hfits'
        exact hlonger hfits'
      have hread : (readPages hub.locations fromMs (pagesToRead + 1) toMs truncated).1 =
          unlabelFirst (point :: newer) ::
            (readPages hub.locations fromMs pagesToRead point.atMs true).1 := by
        rw [readPages, hpage]
        simp [unlabelFirst, hearlier]
      have hpaging : Paging (readPages hub.locations fromMs pagesToRead point.atMs true).1 _ :=
        ih hmore hfits'
      rw [hread, hsplit, show older ++ point :: newer = (older ++ [point]) ++ newer by simp,
        unlabelFirst_append (by simp), ← hupTo]
      refine hpaging.newer { point with via := none } newer ?_
      rw [lastAt_unlabelFirst, hupTo]
      simp

/-- The recent answer holds its whole range when nothing was left out of it. -/
theorem locations_untruncated {fromMs : ℤ} {toMs : Option ℤ}
    (h : (hub.locations fromMs toMs).truncated = false) :
    (hub.locations fromMs toMs).points = unlabelFirst (hub.inRange fromMs toMs) := by
  have hfits : (hub.inRange fromMs toMs).length ≤ hub.size := by
    simpa [Hub.locations] using h
  rw [locations_of_le hfits]

/-- Where the older part ends lies in the span, from its start on. -/
theorem start_le_olderUntil (span : Span) (now : ℤ) : span.start now ≤ olderUntil span now :=
  le_max_right _ _

theorem olderUntil_le_stop {span : Span} {now : ℤ} (h : span.start now < olderUntil span now)
    {stop : ℤ} (hstop : span.stop = some stop) : olderUntil span now ≤ stop := by
  unfold olderUntil at h ⊢
  simp only [hstop, Option.elim_some] at h ⊢
  omega

/-- A range is what comes up to a time in it, and what comes after that. -/
theorem inRange_split {fromMs time : ℤ} {toMs : Option ℤ} (hfrom : fromMs ≤ time)
    (hto : ∀ stop, toMs = some stop → time ≤ stop) :
    hub.inRange fromMs toMs = hub.inRange fromMs (some time) ++
      (hub.inRange time toMs).filter fun point ↦ time < point.atMs := by
  rw [sorted_split (hub.sorted_inRange fromMs toMs) time]
  congr 1
  · unfold Hub.inRange
    rw [List.filter_filter]
    refine List.filter_congr fun point _ ↦ ?_
    by_cases hearly : point.atMs ≤ time
    · cases toMs with
      | none => simp [hearly]
      | some stop => simp [hearly, hearly.trans (hto stop rfl)]
    · simp [hearly]
  · unfold Hub.inRange
    rw [List.filter_filter, List.filter_filter]
    refine List.filter_congr fun point _ ↦ ?_
    by_cases hlate : time < point.atMs
    · simp [hlate.le, hfrom.trans hlate.le]
    · simp [hlate]

theorem filter_unlabelFirst_of_later {points : List HubLocationPoint} {time : ℤ}
    (h : ∀ point ∈ points, time < point.atMs) :
    ((unlabelFirst points).filter fun point ↦ decide (time < point.atMs)) = unlabelFirst points := by
  refine List.filter_eq_self.mpr fun point hpoint ↦ ?_
  cases points with
  | nil => simp [unlabelFirst] at hpoint
  | cons first rest =>
    obtain rfl | hrest := List.mem_cons.mp hpoint
    · simpa using h first List.mem_cons_self
    · simpa using h point (List.mem_cons_of_mem _ hrest)

/-- The point an answer begins with is the one that is known already, so its label is not missed. -/
theorem filter_unlabelFirst_of_known {points : List HubLocationPoint} {known : HubLocationPoint}
    (hsorted : Sorted points) (hknown : known ∈ points)
    (h : ∀ point ∈ points, known.atMs ≤ point.atMs) :
    ((unlabelFirst points).filter fun point ↦ decide (known.atMs < point.atMs)) =
      points.filter fun point ↦ known.atMs < point.atMs := by
  cases points with
  | nil => rfl
  | cons first rest =>
    have hfirst : first.atMs ≤ known.atMs := by
      obtain rfl | hrest := List.mem_cons.mp hknown
      · exact le_rfl
      · exact ((List.pairwise_cons.mp hsorted).1 known hrest).le
    rw [unlabelFirst, List.filter_cons_of_neg (by simpa using hfirst),
      List.filter_cons_of_neg (by simpa using hfirst)]

theorem le_of_mem_inRange {fromMs : ℤ} {toMs : Option ℤ} {point : HubLocationPoint}
    (h : point ∈ hub.inRange fromMs toMs) : fromMs ≤ point.atMs := (Hub.mem_inRange.mp h).2.1

/-- The stays that paged reading merges are those of one answer with every point of the span, when
the pages suffice, the recent answer is whole and a span without an older part starts clear. -/
theorem mergedStays_eq (hub : Hub) (span : Span) (now : ℤ)
    (hpages : hub.FitsInPages span now maxTrailPages) (hrecent : hub.RecentFits span now)
    (hstart : hub.StartsClear span now) :
    hub.mergedStays span now = extendStays [] (hub.oneAnswer span now) := by
  unfold Hub.RecentFits at hrecent
  unfold Hub.mergedStays Hub.oneAnswer
  rw [locations_untruncated hrecent,
    newSince_eq (sorted_unlabelFirst (hub.sorted_inRange _ _))]
  by_cases holder : span.start now < olderUntil span now
  · have hpaging : Paging (fetchPages hub.locations span now).1
        (unlabelFirst (hub.inRange (span.start now) (some (olderUntil span now)))) := by
      simp only [fetchPages, if_pos holder]
      exact paging_readPages (by decide) hpages
    have htakesOver : hub.takesOver span now = ((hub.inRange (span.start now)
        (some (olderUntil span now))).getLast?.map (·.atMs)).getD (olderUntil span now) := by
      rw [Hub.takesOver, lastAt_paging hpaging, lastAt_unlabelFirst]
    rw [joinPages_eq hpaging (sorted_unlabelFirst (hub.sorted_inRange _ _)), ← extendStays_append,
      htakesOver]
    congr 1
    cases hlast : (hub.inRange (span.start now) (some (olderUntil span now))).getLast? with
    | none =>
      -- Nothing up to where the older part ends, so the recent answer is all there is.
      have hempty := List.getLast?_eq_none_iff.mp hlast
      have hlater : ∀ point ∈ hub.inRange (olderUntil span now) span.stop,
          olderUntil span now < point.atMs := by
        intro point hpoint
        refine lt_of_le_of_ne (le_of_mem_inRange hpoint) fun hsame ↦ ?_
        have hmem : point ∈ hub.inRange (span.start now) (some (olderUntil span now)) := by
          rw [Hub.mem_inRange] at hpoint ⊢
          exact ⟨hpoint.1, by omega, fun stop hstop ↦ by simp at hstop; omega⟩
        simp [hempty] at hmem
      simp only [Option.map_none, Option.getD_none]
      rw [filter_unlabelFirst_of_later hlater,
        inRange_split holder.le fun stop hstop ↦ olderUntil_le_stop holder hstop, hempty,
        List.filter_eq_self.mpr fun point hpoint ↦ by simpa using hlater point hpoint]
      rfl
    | some last =>
      -- The recent answer begins with the older part's last point.
      obtain ⟨front, hfront⟩ := List.getLast?_eq_some_iff.mp hlast
      have hmem : last ∈ hub.inRange (span.start now) (some (olderUntil span now)) :=
        List.mem_of_getLast? hlast
      obtain ⟨hpoint, hfrom, huntil⟩ := Hub.mem_inRange.mp hmem
      have hstop : ∀ stop, span.stop = some stop → last.atMs ≤ stop :=
        fun stop hstop ↦ (huntil _ rfl).trans (olderUntil_le_stop holder hstop)
      have hknown : last ∈ hub.inRange last.atMs span.stop :=
        Hub.mem_inRange.mpr ⟨hpoint, le_rfl, hstop⟩
      simp only [Option.map_some, Option.getD_some]
      rw [filter_unlabelFirst_of_known (hub.sorted_inRange _ _) hknown fun _ ↦ le_of_mem_inRange,
        inRange_split hfrom hstop, inRange_upTo hfront, hfront,
        unlabelFirst_append (List.concat_ne_nil last front)]
  · have hsame : olderUntil span now = span.start now :=
      le_antisymm (not_lt.mp holder) (start_le_olderUntil span now)
    have hnone : (fetchPages hub.locations span now).1 = [] := by
      simp [fetchPages, if_neg holder, readPages]
    have htakesOver : hub.takesOver span now = span.start now := by
      simp [Hub.takesOver, hnone, hsame]
    rw [hnone, htakesOver, filter_unlabelFirst_of_later]
    · rfl
    · intro point hpoint
      have hclear := (hstart.resolve_left holder) point (Hub.mem_inRange.mp hpoint).1
      exact lt_of_le_of_ne (le_of_mem_inRange hpoint) (Ne.symm hclear)

/-- A sample every second, each on a tile of its own. -/
def secondly (fromMs : ℤ) (count : ℕ) : List HubLocationPoint :=
  (List.range count).map fun (i : ℕ) ↦
    { atMs := fromMs + 1000 * i, x := 3200 + i, y := 3200, plane := 0, isOnBoat := none,
      world := none, via := some .move }

/-- Ten seconds of samples around a quarter of an hour ago, from a hub that answers with four at
most. -/
def steadyHub : Hub where
  points := secondly 999093000 10
  size := 4
  sorted := by decide +kernel
  two_le_size := by decide

theorem mergedStays_steadyHub :
    steadyHub.mergedStays (.between 999080 none) 1000000000 =
      extendStays [] (steadyHub.oneAnswer (.between 999080 none) 1000000000) :=
  mergedStays_eq steadyHub (.between 999080 none) 1000000000 (by decide +kernel) (by decide +kernel)
    (by decide +kernel)

/-- The same, all of it within the last quarter of an hour: more than one answer holds. -/
def crowdedHub : Hub where
  points := secondly 999990000 6
  size := 4
  sorted := by decide +kernel
  two_le_size := by decide

/-- A session that began two minutes ago, with a sample at the moment it began. -/
def freshHub : Hub where
  points := secondly 999880000 3
  size := 4
  sorted := by decide +kernel
  two_le_size := by decide

/-- What does not fit into the recent answer is lost, and so is the sample a session begins with. -/
theorem mergedStays_loses :
    (crowdedHub.FitsInPages (.between 999080 none) 1000000000 maxTrailPages ∧
      crowdedHub.mergedStays (.between 999080 none) 1000000000 ≠
        extendStays [] (crowdedHub.oneAnswer (.between 999080 none) 1000000000)) ∧
    (freshHub.FitsInPages (.between 999880 none) 1000000000 maxTrailPages ∧
      freshHub.mergedStays (.between 999880 none) 1000000000 ≠
        extendStays [] (freshHub.oneAnswer (.between 999880 none) 1000000000)) := by
  refine ⟨⟨?_, ?_⟩, ?_, ?_⟩
  all_goals decide +kernel

end OsrsMap.Trails
