import Mathlib.Data.List.Forall2
import OsrsMap.Cache.Ttl
import OsrsMap.Trails.Spans
import OsrsMap.Trails.TrailJson

/-!
# The answer about several trails

`get_trails` (`server/src/hub/trails.rs`): the trails of the members a request names, over the span it asks
for. Who asks is known by then. What `account_trail` says of an account comes from the hub or its cache and
may be anything; a member the directory does not know, or whose trail the hub does not share, has none.
-/

namespace OsrsMap.Trails

open Cache (HubError)

/-! ## List parameters -/

/-- The blanks that `str::trim` takes off both ends. -/
def isBlank (char : Char) : Bool :=
  let code := char.toNat
  9 ≤ code && code ≤ 13 || code = 32 || code = 0x85 || code = 0xA0 || code = 0x1680 ||
    0x2000 ≤ code && code ≤ 0x200A || code = 0x2028 || code = 0x2029 || code = 0x202F || code = 0x205F ||
    code = 0x3000

def trim (chars : List Char) : List Char := (chars.dropWhile isBlank).rdropWhile isBlank

/-- `list_param`. -/
def listParam (value : Option String) : List String :=
  ((((value.getD "").toList.splitOn ',').map trim).filter (· ≠ [])).map String.ofList

/-- A name that can stand in a list: it has no comma and neither starts nor ends with a blank. -/
structure Listable (name : String) : Prop where
  comma : ',' ∉ name.toList
  trimmed : trim name.toList = name.toList
  nonempty : name.toList ≠ []

instance decidableListable (name : String) : Decidable (Listable name) :=
  decidable_of_iff (',' ∉ name.toList ∧ trim name.toList = name.toList ∧ name.toList ≠ [])
    ⟨fun h ↦ ⟨h.1, h.2.1, h.2.2⟩, fun h ↦ ⟨h.comma, h.trimmed, h.nonempty⟩⟩

/-- A list that was joined with commas is read as it was. -/
theorem listParam_intercalate {names : List String} (hne : names ≠ []) (h : ∀ name ∈ names, Listable name) :
    listParam (some (",".intercalate names)) = names := by
  have hsplit : (",".intercalate names).toList.splitOn ',' = names.map String.toList := by
    rw [String.toList_intercalate]
    exact List.splitOn_intercalate ',' (by simpa using fun name hname ↦ (h name hname).comma) (by simpa using hne)
  have htrim : (names.map String.toList).map trim = names.map String.toList := by
    rw [List.map_map]
    exact List.map_congr_left fun name hname ↦ (h name hname).trimmed
  have hkept : (names.map String.toList).filter (· ≠ []) = names.map String.toList := by
    apply List.filter_eq_self.mpr
    intro chars hchars
    obtain ⟨name, hname, rfl⟩ := List.mem_map.mp hchars
    exact decide_eq_true (h name hname).nonempty
  have hread : ((names.map String.toList).map String.ofList) = names := by
    rw [List.map_map]
    exact (List.map_congr_left fun name _ ↦ String.ofList_toList).trans names.map_id
  rw [listParam, Option.getD_some, hsplit, htrim, hkept, hread]

/-! ## The handler -/

/-- `HistoryError`: why a handler answers without data. -/
inductive HistoryError where
  | disabled
  | badRequest (message : String)
  | hub (err : HubError)
deriving DecidableEq, Repr

def HistoryError.statusCode : HistoryError → ℕ
  | .disabled | .hub .notFound => 404
  | .badRequest _ => 400
  | .hub (.rateLimited _) => 503
  | .hub _ => 502

/-- `MAX_TRAILS` of the server. -/
def maxTrails : ℕ := 8

structure TrailsQuery where
  members : Option String
  days : Option ℤ
  fromSecs : Option ℤ
  toSecs : Option ℤ
deriving DecidableEq, Repr

/-- What the handler asks for: whether history is on, the hub's account of a member and the trail of an
account, with the time its recent part came from the hub, in milliseconds. -/
structure HubContext where
  historyEnabled : Bool
  hubId : String → Option String
  accountTrail : String → Span → Except HubError (Option (BuiltTrail × ℤ))

/-- A trail of the answer. -/
inductive MemberTrail where
  | shared (trail : TrailJson)
  | notShared (member : String)
deriving DecidableEq, Repr

def MemberTrail.member : MemberTrail → String
  | .shared trail => trail.member
  | .notShared member => member

structure TrailsJson where
  span : Span
  v : ℕ
  asOf : ℤ
  trails : List MemberTrail

variable (context : HubContext)

/-- What is known of a member's trail; the account is asked for where there is one. -/
def memberAnswer (span : Span) (member : String) : Except HubError (Option (BuiltTrail × ℤ)) :=
  match context.hubId member with
  | some id => context.accountTrail id span
  | none => .ok none

/-- The loop over the members and their answers; the first error ends it. -/
def collectTrails (span : Span) :
    List String → ℤ × List MemberTrail → Except HubError (ℤ × List MemberTrail)
  | [], collected => .ok collected
  | member :: members, (oldest, trails) =>
    match memberAnswer context span member with
    | .error err => .error err
    | .ok (some (trail, asOf)) =>
      collectTrails span members (min oldest asOf, trails ++ [.shared (trailJson member trail asOf)])
    | .ok none => collectTrails span members (oldest, trails ++ [.notShared member])

/-- `get_trails`, for a request that came at `now` and whose trails were there at `later`, in milliseconds. -/
def getTrails (now later : ℤ) (query : TrailsQuery) : Except HistoryError TrailsJson :=
  if ¬ context.historyEnabled then .error .disabled
  else
    match Span.of query.days query.fromSecs query.toSecs (now / 1000) with
    | .error message => .error (.badRequest message)
    | .ok span =>
      let members := listParam query.members
      if members = [] ∨ maxTrails < members.length then
        .error (.badRequest ("give 1 to " ++ toString maxTrails ++ " members"))
      else
        match collectTrails context span members (later, []) with
        | .error err => .error (.hub err)
        | .ok (oldest, trails) => .ok { span, v := 3, asOf := oldest / 1000, trails }

/-! ## What is answered -/

/-- A trail of an answer is the one that is known of the member, and came from the hub no earlier than the
oldest of the answer. -/
inductive Tells (span : Span) (oldest : ℤ) (member : String) : MemberTrail → Prop
  | shared {trail : BuiltTrail} {asOf : ℤ}
    (known : memberAnswer context span member = .ok (some (trail, asOf))) (asOf_le : oldest ≤ asOf) :
    Tells span oldest member (.shared (trailJson member trail asOf))
  | notShared (unknown : memberAnswer context span member = .ok none) :
    Tells span oldest member (.notShared member)

variable {context} {span : Span} {oldest : ℤ} {member : String} {trail : MemberTrail}

theorem Tells.member_eq (h : Tells context span oldest member trail) : trail.member = member := by
  cases h <;> rfl

theorem map_member_eq {members : List String} {trails : List MemberTrail}
    (h : List.Forall₂ (Tells context span oldest) members trails) : trails.map MemberTrail.member = members := by
  induction h with
  | nil => rfl
  | cons htell _ ih => rw [List.map_cons, ih, htell.member_eq]

theorem exists_tells_of_mem {members : List String} {trails : List MemberTrail}
    (h : List.Forall₂ (Tells context span oldest) members trails) (htrail : trail ∈ trails) :
    ∃ member ∈ members, Tells context span oldest member trail := by
  induction h with
  | nil => cases htrail
  | cons htell _ ih =>
    obtain rfl | htrail := List.mem_cons.mp htrail
    · exact ⟨_, List.mem_cons_self, htell⟩
    · obtain ⟨member, hmember, htell⟩ := ih htrail
      exact ⟨member, List.mem_cons_of_mem _ hmember, htell⟩

/-- The loop answers about every member, in their order, and its time never goes up. -/
theorem collectTrails_spec {members : List String} {start : ℤ} {before trails : List MemberTrail}
    (h : collectTrails context span members (start, before) = .ok (oldest, trails)) :
    oldest ≤ start ∧ ∃ added, trails = before ++ added ∧
      List.Forall₂ (Tells context span oldest) members added := by
  induction members generalizing start before with
  | nil =>
    obtain ⟨rfl, rfl⟩ := Prod.mk.inj (Except.ok.inj h)
    exact ⟨le_rfl, [], (List.append_nil _).symm, .nil⟩
  | cons member members ih =>
    rw [collectTrails] at h
    split at h
    · cases h
    · rename_i trail asOf hknown
      obtain ⟨hle, added, rfl, htells⟩ := ih h
      refine ⟨hle.trans (min_le_left _ _), _ :: added, List.append_assoc _ _ _, .cons ?_ htells⟩
      exact .shared hknown (hle.trans (min_le_right _ _))
    · rename_i hunknown
      obtain ⟨hle, added, rfl, htells⟩ := ih h
      exact ⟨hle, _ :: added, List.append_assoc _ _ _, .cons (.notShared hunknown) htells⟩

/-- The trails of an answer are those of the members that were asked for, in their order, over the span that
was asked for, and the answer's time is not after that of any of its trails. -/
theorem getTrails_spec {now later : ℤ} {query : TrailsQuery} {answer : TrailsJson}
    (h : getTrails context now later query = .ok answer) :
    Span.of query.days query.fromSecs query.toSecs (now / 1000) = .ok answer.span ∧
      ∃ oldest ≤ later, answer.asOf = oldest / 1000 ∧
        List.Forall₂ (Tells context answer.span oldest) (listParam query.members) answer.trails := by
  rw [getTrails] at h
  split_ifs at h with henabled
  split at h
  · cases h
  · rename_i span hspan
    dsimp only at h
    split_ifs at h
    split at h
    · cases h
    · rename_i oldest trails hcollected
      obtain rfl := (Except.ok.inj h).symm
      obtain ⟨hle, added, rfl, htells⟩ := collectTrails_spec hcollected
      exact ⟨hspan, oldest, hle, rfl, htells⟩

end OsrsMap.Trails
