import OsrsMap.Cache.Ttl
import OsrsMap.Hub.XpSeries
import OsrsMap.Library.Keyed
import OsrsMap.Library.Run
import OsrsMap.Sync.Members

/-!
# Skill histories

`merge_skill_data` (`server/src/hub/xp.rs`): the history of a member is the hub's where the hub has any
for them, and the one stored here otherwise. The hub is asked for the accounts chunk by chunk, and for
one by one where it calls a chunk not found (`bulk_or_each`, `server/src/hub/fetch.rs`); where it fails
otherwise the members of the chunk keep their local history.
-/

namespace OsrsMap.Hub

open Cache (HubError)
open Sync (fold)

structure HubAccountRef where
  id : String
  name : String
deriving DecidableEq, Repr

structure HubXpSeries where
  account : HubAccountRef
  series : List HubXpLine
deriving DecidableEq, Repr

structure HubXpMulti where
  accounts : List HubXpSeries
deriving DecidableEq, Repr

structure MemberSkillData where
  name : String
  skillData : List AggregateSkillData
deriving DecidableEq, Repr

/-- What the hub answers (`fetch_xp_chunk`), and what is read of an answer (`parse::<HubXpMulti>`). -/
structure XpEndpoint (Value : Type*) where
  fetch : List String → Except HubError Value
  parse : Value → Option HubXpMulti

/-! ## Chunks -/

/-- `slice::chunks`. -/
def chunksOf {α : Type*} (size : ℕ) (items : List α) : List (List α) :=
  (List.range ((items.length + size - 1) / size)).map fun i ↦ (items.drop (i * size)).take size

section Bulk

variable {T : Type*} (fetch : List String → Except HubError T)

/-- The accounts one by one; those not found are left out. -/
def askEach : List String → Except HubError (List T)
  | [] => .ok []
  | id :: ids =>
    match fetch [id] with
    | .ok answer => (askEach ids).map (answer :: ·)
    | .error .notFound => askEach ids
    | .error err => .error err

def bulkOrEach (chunk : List String) : Except HubError (List T) :=
  match fetch chunk with
  | .ok answer => .ok [answer]
  | .error .notFound => if chunk.length = 1 then .ok [] else askEach fetch chunk
  | .error err => .error err

end Bulk

/-! ## The merge -/

/-- `names_by_id`: of two bindings of an id the later one. -/
def nameOf (bindings : List (String × String)) (id : String) : Option String :=
  (bindings.reverse.find? fun binding ↦ binding.2 = id).map (·.1)

/-- The histories by name. -/
abbrev Histories := Keyed.Map String (List AggregateSkillData)

def storeAccount (bindings : List (String × String)) (result : Histories) (account : HubXpSeries) :
    Histories :=
  match nameOf bindings account.account.id with
  | some name => result.insert name (xpSeriesToRows account.series)
  | none => result

variable {Value : Type*}

namespace XpEndpoint

variable (hub : XpEndpoint Value)

def storeAnswer (bindings : List (String × String)) (result : Histories) (value : Value) : Histories :=
  match hub.parse value with
  | some multi => multi.accounts.foldl (storeAccount bindings) result
  | none => result

def storeChunk (bindings : List (String × String)) (result : Histories) (chunk : List String) :
    Histories :=
  match bulkOrEach hub.fetch chunk with
  | .ok values => values.foldl (hub.storeAnswer bindings) result
  -- The members of this chunk keep their local history.
  | .error _ => result

end XpEndpoint

/-- The ids in order, in chunks of what the hub takes at once. -/
def idChunks (bulk : ℕ) (bindings : List (String × String)) : List (List String) :=
  chunksOf (max bulk 1) ((bindings.map (·.2)).insertionSort (· ≤ ·))

def hubSkillData (hub : XpEndpoint Value) (bulk : ℕ) (bindings : List (String × String)) : Histories :=
  (idChunks bulk bindings).foldl (hub.storeChunk bindings) ∅

def wanted (members : Option (List String)) (name : String) : Bool :=
  members.all fun members ↦ members.contains (fold name)

/-- The members with a history here, each with the hub's history in its place if there is one; and what
is left of the hub's histories. -/
def mergeLocal : List MemberSkillData → Histories → List MemberSkillData × Histories
  | [], hub => ([], hub)
  | member :: locals, hub =>
    let (merged, left) := mergeLocal locals (hub.erase member.name)
    match hub.lookup member.name with
    | some skillData =>
      (if skillData.isEmpty then member :: merged else { member with skillData } :: merged, left)
    | none => (member :: merged, left)

/-- Local skill history with every hub-bound member replaced by the hub's history. What is left of a map
comes in any order. -/
def mergeSkillData (hub : XpEndpoint Value) (bulk : ℕ) (bindings : List (String × String))
    (locals : List MemberSkillData) (members : Option (List String)) : List MemberSkillData :=
  let locals := locals.filter fun member ↦ wanted members member.name
  let bindings := bindings.filter fun binding ↦ wanted members binding.1
  if bindings.isEmpty then locals
  else
    let (merged, left) := mergeLocal locals (hubSkillData hub bulk bindings)
    merged ++ (left.entries.filter fun entry ↦ !entry.2.isEmpty).map fun entry ↦
      { name := entry.1, skillData := entry.2 }

/-! ## What the hub gives -/

namespace XpEndpoint

variable (hub : XpEndpoint Value)

/-- An answer has accounts only that were asked for. -/
def AnswersAsked : Prop :=
  ∀ asked value multi, hub.fetch asked = .ok value → hub.parse value = some multi →
    ∀ account ∈ multi.accounts, account.account.id ∈ asked

/-- The history of an account in an answer. -/
def historyIn (id : String) (value : Value) : Option (List AggregateSkillData) :=
  ((hub.parse value).bind fun multi ↦ multi.accounts.reverse.find? fun account ↦ account.account.id = id).map
    fun account ↦ xpSeriesToRows account.series

/-- What the hub answers of an account: with its chunk, or alone where the chunk is not found. -/
def answered (chunk : List String) (id : String) : Option (List AggregateSkillData) :=
  match hub.fetch chunk with
  | .ok value => hub.historyIn id value
  | .error .notFound => (hub.fetch [id]).toOption.bind (hub.historyIn id)
  | .error _ => none

/-- Asked for alone, the account fails, and not as one that is not found. -/
def failsAlone (id : String) : Bool :=
  match hub.fetch [id] with
  | .ok _ | .error .notFound => false
  | .error _ => true

/-- The chunk is not found, and asking for its accounts one by one stops on an error. -/
def stopped (chunk : List String) : Bool :=
  match hub.fetch chunk with
  | .error .notFound => chunk.any hub.failsAlone
  | _ => false

/-- What is given of an account: what is answered, unless the chunk is stopped. -/
def given (chunk : List String) (id : String) : Option (List AggregateSkillData) :=
  if hub.stopped chunk then none else hub.answered chunk id

/-- The same with the chunk looked up. -/
def fromChunks (give : List String → String → Option (List AggregateSkillData))
    (chunks : List (List String)) (id : String) : Option (List AggregateSkillData) :=
  (chunks.find? (·.contains id)).bind fun chunk ↦ give chunk id

end XpEndpoint

/-- Every member who has a history has one entry, the hub's if that is not empty. -/
structure Covers (give : String → Option (List AggregateSkillData)) (bindings : List (String × String))
    (locals merged : List MemberSkillData) : Prop where
  once : (merged.map (·.name)).Nodup
  mem : ∀ member, member ∈ merged ↔
    (∃ id, (member.name, id) ∈ bindings ∧ give id = some member.skillData ∧ member.skillData ≠ []) ∨
    (member ∈ locals ∧ ∀ id rows, (member.name, id) ∈ bindings → give id = some rows → rows = [])

/-! ## Chunks of a list -/

theorem flatten_map_range {α : Type*} (size count : ℕ) (items : List α) :
    ((List.range count).map fun i ↦ (items.drop (i * size)).take size).flatten =
      items.take (count * size) := by
  induction count with
  | zero => simp
  | succ count ih =>
    rw [List.range_succ, List.map_append, List.flatten_append, ih, List.map_singleton,
      List.flatten_singleton, Nat.succ_mul, List.take_add]

theorem flatten_chunksOf {α : Type*} {size : ℕ} (hsize : 0 < size) (items : List α) :
    (chunksOf size items).flatten = items := by
  unfold chunksOf
  rw [flatten_map_range, List.take_of_length_le]
  have hdiv := Nat.div_add_mod (items.length + size - 1) size
  have hmod := Nat.mod_lt (items.length + size - 1) hsize
  rw [Nat.mul_comm]
  omega

/-! ## Asking -/

theorem askEach_eq (hub : XpEndpoint Value) (ids : List String) : (askEach hub.fetch ids).toOption =
    if ids.any hub.failsAlone then none
    else some (ids.filterMap fun id ↦ (hub.fetch [id]).toOption) := by
  induction ids with
  | nil => rfl
  | cons id ids ih =>
    rw [askEach, List.any_cons, List.filterMap_cons, XpEndpoint.failsAlone]
    cases hfetch : hub.fetch [id] with
    | ok answer =>
      dsimp only
      rw [Bool.false_or]
      have hmap : ((askEach hub.fetch ids).map (answer :: ·)).toOption =
          (askEach hub.fetch ids).toOption.map (answer :: ·) := by
        cases askEach hub.fetch ids <;> rfl
      rw [hmap, ih]
      split <;> rfl
    | error err =>
      cases err with
      | notFound =>
        dsimp only
        rw [Bool.false_or, ih]
        rfl
      | unauthorized => rfl
      | invalid message => rfl
      | rateLimited after => rfl
      | other message => rfl

/-! ## The hub's histories -/

section Hub

variable {hub : XpEndpoint Value} {bindings : List (String × String)} {name id : String}

theorem nameOf_eq_some_iff (hids : (bindings.map (·.2)).Nodup) :
    nameOf bindings id = some name ↔ (name, id) ∈ bindings := by
  unfold nameOf
  rw [Option.map_eq_some_iff]
  constructor
  · rintro ⟨binding, hfound, rfl⟩
    have hid : binding.2 = id := by simpa using List.find?_some hfound
    rw [← hid]
    exact List.mem_reverse.mp (List.mem_of_find?_eq_some hfound)
  · intro hmem
    have hsome : (bindings.reverse.find? fun binding ↦ binding.2 = id).isSome := by
      rw [List.find?_isSome]
      exact ⟨(name, id), List.mem_reverse.mpr hmem, by simp⟩
    obtain ⟨binding, hfound⟩ := Option.isSome_iff_exists.mp hsome
    have hid : binding.2 = id := by simpa using List.find?_some hfound
    have hsame : binding = (name, id) :=
      List.inj_on_of_nodup_map hids (List.mem_reverse.mp (List.mem_of_find?_eq_some hfound)) hmem hid
    exact ⟨binding, hfound, by rw [hsame]⟩

/-- An account's history is stored under its name, over what was there. -/
theorem lookup_storeAccounts (hnames : (bindings.map (·.1)).Nodup) (hids : (bindings.map (·.2)).Nodup)
    (hbound : (name, id) ∈ bindings) (accounts : List HubXpSeries) (result : Histories) :
    (accounts.foldl (storeAccount bindings) result).lookup name =
      ((accounts.reverse.find? fun account ↦ account.account.id = id).map
        fun account ↦ xpSeriesToRows account.series).or (result.lookup name) := by
  induction accounts using List.reverseRecOn with
  | nil => rfl
  | append_singleton accounts account ih =>
    rw [List.foldl_append, List.foldl_cons, List.foldl_nil, List.reverse_append, List.reverse_singleton,
      List.singleton_append, storeAccount]
    by_cases hid : account.account.id = id
    · have hname : nameOf bindings account.account.id = some name :=
        (nameOf_eq_some_iff hids).mpr (hid ▸ hbound)
      rw [hname, List.find?_cons_of_pos (by simpa using hid)]
      dsimp only
      rw [AList.lookup_insert]
      rfl
    · rw [List.find?_cons_of_neg (by simpa using hid), ← ih]
      split
      · next other hother =>
        have hne : name ≠ other := by
          rintro rfl
          have hmem := (nameOf_eq_some_iff hids).mp hother
          exact hid (congrArg Prod.snd (List.inj_on_of_nodup_map hnames hmem hbound rfl))
        exact AList.lookup_insert_ne hne
      · rfl

theorem lookup_storeAnswer (hnames : (bindings.map (·.1)).Nodup) (hids : (bindings.map (·.2)).Nodup)
    (hbound : (name, id) ∈ bindings) (result : Histories) (value : Value) :
    (hub.storeAnswer bindings result value).lookup name =
      (hub.historyIn id value).or (result.lookup name) := by
  unfold XpEndpoint.storeAnswer XpEndpoint.historyIn
  cases hub.parse value with
  | none => rfl
  | some multi => exact lookup_storeAccounts hnames hids hbound multi.accounts result

/-- Of many answers the last one with the account counts. -/
theorem lookup_storeAnswers (hnames : (bindings.map (·.1)).Nodup) (hids : (bindings.map (·.2)).Nodup)
    (hbound : (name, id) ∈ bindings) (values : List Value) (result : Histories) :
    (values.foldl (hub.storeAnswer bindings) result).lookup name =
      (values.filterMap (hub.historyIn id)).getLast?.or (result.lookup name) := by
  induction values using List.reverseRecOn with
  | nil => rfl
  | append_singleton values value ih =>
    rw [List.foldl_append, List.foldl_cons, List.foldl_nil, lookup_storeAnswer hnames hids hbound, ih,
      List.filterMap_append, List.getLast?_append, List.filterMap_cons, List.filterMap_nil,
      ← Option.or_assoc]
    cases hub.historyIn id value <;> rfl

theorem historyIn_of_notMem (hasked : hub.AnswersAsked) {asked : List String} {value : Value}
    (hfetch : hub.fetch asked = .ok value) (hid : id ∉ asked) : hub.historyIn id value = none := by
  unfold XpEndpoint.historyIn
  cases hparse : hub.parse value with
  | none => rfl
  | some multi =>
    rw [Option.bind_some, List.find?_eq_none.mpr]
    · rfl
    · intro account haccount
      have hmem := hasked asked value multi hfetch hparse account (List.mem_reverse.mp haccount)
      simp only [decide_eq_true_eq]
      rintro rfl
      exact hid hmem

/-- Asked one by one, only an account's own answer has it. -/
theorem getLast?_each (hasked : hub.AnswersAsked) (chunk : List String) (id : String) :
    ((chunk.filterMap fun other ↦ (hub.fetch [other]).toOption).filterMap (hub.historyIn id)).getLast? =
      if id ∈ chunk then (hub.fetch [id]).toOption.bind (hub.historyIn id) else none := by
  have hother (other : String) (hne : other ≠ id) :
      ((hub.fetch [other]).toOption.bind (hub.historyIn id)) = none := by
    cases hfetch : hub.fetch [other] with
    | error err => rfl
    | ok value => exact historyIn_of_notMem hasked hfetch (by simpa using hne.symm)
  rw [List.filterMap_filterMap]
  induction chunk using List.reverseRecOn with
  | nil => rfl
  | append_singleton chunk last ih =>
    rw [List.filterMap_append, List.getLast?_append, ih]
    by_cases hlast : last = id
    · subst hlast
      rw [if_pos (List.mem_append_right _ (List.mem_singleton_self _)), List.filterMap_cons,
        List.filterMap_nil]
      cases (hub.fetch [last]).toOption.bind (hub.historyIn last) with
      | none => simp
      | some rows => simp
    · rw [List.filterMap_cons, hother last hlast, List.filterMap_nil]
      simp [Ne.symm hlast]

/-- A chunk gives its own accounts what it has of them, and the others nothing. -/
theorem lookup_storeChunk (hasked : hub.AnswersAsked) (hnames : (bindings.map (·.1)).Nodup)
    (hids : (bindings.map (·.2)).Nodup) (hbound : (name, id) ∈ bindings) (result : Histories)
    (chunk : List String) : (hub.storeChunk bindings result chunk).lookup name =
      (if id ∈ chunk then hub.given chunk id else none).or (result.lookup name) := by
  unfold XpEndpoint.storeChunk bulkOrEach XpEndpoint.given XpEndpoint.stopped XpEndpoint.answered
  cases hfetch : hub.fetch chunk with
  | ok value =>
    dsimp only
    rw [List.foldl_cons, List.foldl_nil, lookup_storeAnswer hnames hids hbound]
    by_cases hid : id ∈ chunk
    · rw [if_pos hid]
      rfl
    · rw [if_neg hid, historyIn_of_notMem hasked hfetch hid]
  | error err =>
    cases err with
    | notFound =>
      dsimp only
      by_cases hone : chunk.length = 1
      · obtain ⟨other, rfl⟩ := List.length_eq_one_iff.mp hone
        rw [if_pos hone]
        by_cases hid : id = other
        · subst hid
          simp [hfetch, Except.toOption]
        · simp [hid]
      · rw [if_neg hone]
        have heach := askEach_eq hub chunk
        cases hask : askEach hub.fetch chunk with
        | error err =>
          rw [hask] at heach
          have hstopped : chunk.any hub.failsAlone = true := by
            by_contra hgoes
            rw [if_neg hgoes] at heach
            cases heach
          simp [hstopped]
        | ok values =>
          rw [hask] at heach
          have hgoes : ¬ chunk.any hub.failsAlone = true := by
            intro hstopped
            rw [if_pos hstopped] at heach
            cases heach
          rw [if_neg hgoes] at heach
          dsimp only
          rw [if_neg hgoes, lookup_storeAnswers hnames hids hbound, Option.some.inj heach,
            getLast?_each hasked]
    | unauthorized => simp
    | invalid message => simp
    | rateLimited after => simp
    | other message => simp

/-- What the chunks give of an account. -/
theorem lookup_storeChunks (hasked : hub.AnswersAsked) (hnames : (bindings.map (·.1)).Nodup)
    (hids : (bindings.map (·.2)).Nodup) (hbound : (name, id) ∈ bindings) {chunks : List (List String)}
    (hchunks : chunks.flatten.Nodup) (result : Histories) :
    (chunks.foldl (hub.storeChunk bindings) result).lookup name =
      (XpEndpoint.fromChunks hub.given chunks id).or (result.lookup name) := by
  induction chunks generalizing result with
  | nil => rfl
  | cons chunk chunks ih =>
    obtain ⟨-, hrest, hdisjoint⟩ := List.nodup_append.mp (List.flatten_cons ▸ hchunks)
    rw [List.foldl_cons, ih hrest, lookup_storeChunk hasked hnames hids hbound]
    unfold XpEndpoint.fromChunks
    by_cases hid : id ∈ chunk
    · have hnone : chunks.find? (·.contains id) = none := by
        apply List.find?_eq_none.mpr
        intro other hother hcontains
        have hmem := List.mem_flatten.mpr ⟨other, hother, by simpa using hcontains⟩
        exact hdisjoint id hid id hmem rfl
      rw [hnone, if_pos hid, List.find?_cons_of_pos (by simpa using hid)]
      rfl
    · rw [if_neg hid, List.find?_cons_of_neg (by simpa using hid)]
      rfl

theorem flatten_idChunks_perm (bulk : ℕ) (bindings : List (String × String)) :
    (idChunks bulk bindings).flatten.Perm (bindings.map (·.2)) := by
  unfold idChunks
  rw [flatten_chunksOf (by omega)]
  exact List.perm_insertionSort _ _

theorem lookup_hubSkillData (hasked : hub.AnswersAsked) (hnames : (bindings.map (·.1)).Nodup)
    (hids : (bindings.map (·.2)).Nodup) (hbound : (name, id) ∈ bindings) (bulk : ℕ) :
    (hubSkillData hub bulk bindings).lookup name =
      XpEndpoint.fromChunks hub.given (idChunks bulk bindings) id := by
  unfold hubSkillData
  have hnodup := (flatten_idChunks_perm bulk bindings).nodup_iff.mpr hids
  rw [lookup_storeChunks hasked hnames hids hbound hnodup, AList.lookup_empty, Option.or_none]

/-- Only names that are bound have a history. -/
def OnlyBound (bindings : List (String × String)) (result : Histories) : Prop :=
  ∀ name, result.lookup name ≠ none → name ∈ bindings.map (·.1)

theorem OnlyBound.storeAccount (hids : (bindings.map (·.2)).Nodup) {result : Histories}
    (h : OnlyBound bindings result) (account : HubXpSeries) :
    OnlyBound bindings (storeAccount bindings result account) := by
  intro name hname
  unfold Hub.storeAccount at hname
  split at hname
  · next other hother =>
    have hbound := (nameOf_eq_some_iff hids).mp hother
    by_cases hsame : name = other
    · rw [hsame]
      exact List.mem_map_of_mem hbound
    · rw [AList.lookup_insert_ne hsame] at hname
      exact h name hname
  · exact h name hname

theorem OnlyBound.storeAnswer (hids : (bindings.map (·.2)).Nodup) {result : Histories}
    (h : OnlyBound bindings result) (value : Value) :
    OnlyBound bindings (hub.storeAnswer bindings result value) := by
  unfold XpEndpoint.storeAnswer
  split
  · next multi _ =>
    exact Run.foldl_of_step (fun _ account hresult ↦ hresult.storeAccount hids account) multi.accounts h
  · exact h

theorem OnlyBound.storeChunk (hids : (bindings.map (·.2)).Nodup) {result : Histories}
    (h : OnlyBound bindings result) (chunk : List String) :
    OnlyBound bindings (hub.storeChunk bindings result chunk) := by
  unfold XpEndpoint.storeChunk
  split
  · next values _ =>
    exact Run.foldl_of_step (fun _ value hresult ↦ hresult.storeAnswer hids value) values h
  · exact h

theorem onlyBound_hubSkillData (hids : (bindings.map (·.2)).Nodup) (bulk : ℕ) :
    OnlyBound bindings (hubSkillData hub bulk bindings) := by
  have hempty : OnlyBound bindings ∅ := by
    intro name hname
    rw [AList.lookup_empty] at hname
    exact absurd rfl hname
  exact Run.foldl_of_step (fun _ chunk hresult ↦ hresult.storeChunk hids chunk) _ hempty

theorem exists_binding (hids : (bindings.map (·.2)).Nodup) {bulk : ℕ}
    (hname : (hubSkillData hub bulk bindings).lookup name ≠ none) : ∃ id, (name, id) ∈ bindings := by
  obtain ⟨⟨bound, id⟩, hmember, rfl⟩ := List.mem_map.mp (onlyBound_hubSkillData hids bulk name hname)
  exact ⟨id, hmember⟩

end Hub

/-! ## The result -/

/-- A local entry with the hub's history in its place if there is one. -/
def replaced (hub : Histories) (member : MemberSkillData) : MemberSkillData :=
  match hub.lookup member.name with
  | some skillData => if skillData.isEmpty then member else { member with skillData }
  | none => member

section Merge

variable {locals merged : List MemberSkillData} {hub : Histories}

theorem fst_mergeLocal (h : (locals.map (·.name)).Nodup) (hub : Histories) :
    (mergeLocal locals hub).1 = locals.map (replaced hub) := by
  induction locals generalizing hub with
  | nil => rfl
  | cons member locals ih =>
    obtain ⟨hmember, hrest⟩ := List.nodup_cons.mp h
    have herase : locals.map (replaced (hub.erase member.name)) = locals.map (replaced hub) := by
      apply List.map_congr_left
      intro other hother
      have hne : other.name ≠ member.name :=
        fun hsame ↦ hmember (List.mem_map.mpr ⟨other, hother, hsame⟩)
      unfold replaced
      rw [AList.lookup_erase_ne hne]
    rw [mergeLocal, List.map_cons, ← herase, ← ih hrest, replaced]
    dsimp only
    cases hub.lookup member.name with
    | none => rfl
    | some skillData =>
      dsimp only
      split <;> rfl

/-- What is left is of names that have no local entry. -/
theorem lookup_snd_mergeLocal (locals : List MemberSkillData) (hub : Histories) (name : String) :
    (mergeLocal locals hub).2.lookup name =
      if name ∈ locals.map (·.name) then none else hub.lookup name := by
  induction locals generalizing hub with
  | nil => simp [mergeLocal]
  | cons member locals ih =>
    have hleft : (mergeLocal (member :: locals) hub).2 =
        (mergeLocal locals (hub.erase member.name)).2 := by
      rw [mergeLocal]
      dsimp only
      cases hub.lookup member.name <;> rfl
    rw [hleft, ih]
    by_cases hname : name = member.name
    · rw [hname, AList.lookup_erase, ite_self, if_pos]
      exact List.mem_cons_self
    · rw [AList.lookup_erase_ne hname]
      simp [hname]

/-- The entries that are not local. -/
theorem mem_left {left : Histories} {member : MemberSkillData} :
    member ∈ (left.entries.filter fun entry ↦ !entry.2.isEmpty).map
        (fun entry ↦ ({ name := entry.1, skillData := entry.2 } : MemberSkillData)) ↔
      left.lookup member.name = some member.skillData ∧ member.skillData ≠ [] := by
  obtain ⟨name, skillData⟩ := member
  rw [List.mem_map, ← Option.mem_def, AList.mem_lookup_iff]
  constructor
  · rintro ⟨entry, hentry, hsame⟩
    obtain ⟨rfl, rfl⟩ := MemberSkillData.mk.injEq .. ▸ hsame
    obtain ⟨hmem, hsome⟩ := List.mem_filter.mp hentry
    exact ⟨hmem, by simpa using hsome⟩
  · rintro ⟨hmem, hsome⟩
    exact ⟨⟨name, skillData⟩, List.mem_filter.mpr ⟨hmem, by simpa using hsome⟩, rfl⟩

theorem name_replaced (hub : Histories) (member : MemberSkillData) :
    (replaced hub member).name = member.name := by
  unfold replaced
  split
  · split <;> rfl
  · rfl

/-- A local entry is replaced by a history that is not empty, and by no other. -/
theorem replaced_eq_of_lookup {member stored : MemberSkillData} (hname : stored.name = member.name)
    (hlookup : hub.lookup member.name = some member.skillData) (hsome : member.skillData ≠ []) :
    replaced hub stored = member := by
  unfold replaced
  rw [hname, hlookup]
  dsimp only
  rw [if_neg (by simpa using hsome)]

theorem replaced_eq_self {member : MemberSkillData}
    (hnone : ∀ rows, hub.lookup member.name = some rows → rows = []) : replaced hub member = member := by
  unfold replaced
  cases hlookup : hub.lookup member.name with
  | none => rfl
  | some skillData =>
    rw [hnone skillData hlookup]
    rfl

/-- What is left of the hub's histories, as entries. -/
def leftEntries (left : Histories) : List MemberSkillData :=
  (left.entries.filter fun entry ↦ !entry.2.isEmpty).map fun entry ↦
    { name := entry.1, skillData := entry.2 }

theorem nodup_merge (h : (locals.map (·.name)).Nodup) (hub : Histories) :
    (((mergeLocal locals hub).1 ++ leftEntries (mergeLocal locals hub).2).map (·.name)).Nodup := by
  have hnames : (mergeLocal locals hub).1.map (·.name) = locals.map (·.name) := by
    rw [fst_mergeLocal h, List.map_map]
    exact List.map_congr_left fun member _ ↦ name_replaced hub member
  rw [List.map_append, hnames, List.nodup_append]
  refine ⟨h, ?_, ?_⟩
  · rw [leftEntries, List.map_map]
    exact (mergeLocal locals hub).2.keys_nodup.sublist (List.filter_sublist.map _)
  · rintro name hlocal other hother rfl
    obtain ⟨member, hmember, rfl⟩ := List.mem_map.mp hother
    obtain ⟨hlookup, -⟩ := mem_left.mp hmember
    rw [lookup_snd_mergeLocal, if_pos hlocal] at hlookup
    cases hlookup

/-- An entry is the hub's if that is not empty, and the local one otherwise. -/
theorem mem_merge (h : (locals.map (·.name)).Nodup) (hub : Histories) (member : MemberSkillData) :
    member ∈ (mergeLocal locals hub).1 ++ leftEntries (mergeLocal locals hub).2 ↔
      (hub.lookup member.name = some member.skillData ∧ member.skillData ≠ []) ∨
      (member ∈ locals ∧ ∀ rows, hub.lookup member.name = some rows → rows = []) := by
  rw [List.mem_append, leftEntries, mem_left, fst_mergeLocal h, List.mem_map, lookup_snd_mergeLocal]
  constructor
  · rintro (⟨stored, hstored, rfl⟩ | ⟨hlookup, hsome⟩)
    · rw [name_replaced]
      by_cases hnone : ∀ rows, hub.lookup stored.name = some rows → rows = []
      · rw [replaced_eq_self hnone]
        exact .inr ⟨hstored, hnone⟩
      · simp only [not_forall] at hnone
        obtain ⟨rows, hlookup, hsome⟩ := hnone
        have hreplaced : replaced hub stored = { stored with skillData := rows } :=
          replaced_eq_of_lookup rfl hlookup hsome
        rw [hreplaced]
        exact .inl ⟨hlookup, hsome⟩
    · split at hlookup
      · cases hlookup
      · exact .inl ⟨hlookup, hsome⟩
  · rintro (⟨hlookup, hsome⟩ | ⟨hlocal, hnone⟩)
    · by_cases hlocal : member.name ∈ locals.map (·.name)
      · obtain ⟨stored, hstored, hsame⟩ := List.mem_map.mp hlocal
        exact .inl ⟨stored, hstored, replaced_eq_of_lookup hsame hlookup hsome⟩
      · rw [if_neg hlocal]
        exact .inr ⟨hlookup, hsome⟩
    · exact .inl ⟨member, hlocal, replaced_eq_self hnone⟩

end Merge

/-! ## The merge and the hub -/

section Covers

variable {hub : XpEndpoint Value} {bindings : List (String × String)} {locals : List MemberSkillData}

theorem fromChunks_eq {give : List String → String → Option (List AggregateSkillData)}
    {chunks : List (List String)} (hchunks : chunks.flatten.Nodup) {chunk : List String}
    (hchunk : chunk ∈ chunks) {id : String} (hid : id ∈ chunk) :
    XpEndpoint.fromChunks give chunks id = give chunk id := by
  unfold XpEndpoint.fromChunks
  induction chunks with
  | nil => exact absurd hchunk List.not_mem_nil
  | cons first chunks ih =>
    obtain ⟨-, hrest, hdisjoint⟩ := List.nodup_append.mp (List.flatten_cons ▸ hchunks)
    obtain rfl | hchunk := List.mem_cons.mp hchunk
    · rw [List.find?_cons_of_pos (by simpa using hid)]
      rfl
    · have hnot : id ∉ first := by
        intro hfirst
        exact hdisjoint id hfirst id (List.mem_flatten.mpr ⟨chunk, hchunk, hid⟩) rfl
      rw [List.find?_cons_of_neg (by simpa using hnot)]
      exact ih hrest hchunk

/-- What is given of an account depends only on the answers about its chunk. -/
theorem given_congr {other : XpEndpoint Value} (hparse : other.parse = hub.parse) {chunk : List String}
    (hfetch : ∀ asked, asked ⊆ chunk → other.fetch asked = hub.fetch asked) {id : String}
    (hid : id ∈ chunk) : other.given chunk id = hub.given chunk id := by
  have hone (account : String) (haccount : account ∈ chunk) :
      other.fetch [account] = hub.fetch [account] :=
    hfetch [account] (by simpa using haccount)
  have hhistory : other.historyIn id = hub.historyIn id := by
    funext value
    unfold XpEndpoint.historyIn
    rw [hparse]
  have hstopped : other.stopped chunk = hub.stopped chunk := by
    unfold XpEndpoint.stopped
    rw [hfetch chunk (List.Subset.refl chunk)]
    split
    · rw [Bool.eq_iff_iff, List.any_eq_true, List.any_eq_true]
      apply exists_congr
      intro account
      apply and_congr_right
      intro haccount
      unfold XpEndpoint.failsAlone
      rw [hone account haccount]
    · rfl
  unfold XpEndpoint.given XpEndpoint.answered
  rw [hstopped, hhistory, hfetch chunk (List.Subset.refl chunk), hone id hid]

theorem covers_mergeSkillData (hasked : hub.AnswersAsked) (hnames : (bindings.map (·.1)).Nodup)
    (hids : (bindings.map (·.2)).Nodup) (hlocals : (locals.map (·.name)).Nodup) (bulk : ℕ)
    (members : Option (List String)) :
    Covers (XpEndpoint.fromChunks hub.given
        (idChunks bulk (bindings.filter fun binding ↦ wanted members binding.1)))
      (bindings.filter fun binding ↦ wanted members binding.1)
      (locals.filter fun member ↦ wanted members member.name)
      (mergeSkillData hub bulk bindings locals members) := by
  unfold mergeSkillData
  have hlocals : ((locals.filter fun member ↦ wanted members member.name).map (·.name)).Nodup :=
    hlocals.sublist (List.filter_sublist.map _)
  have hnames : ((bindings.filter fun binding ↦ wanted members binding.1).map (·.1)).Nodup :=
    hnames.sublist (List.filter_sublist.map _)
  have hids : ((bindings.filter fun binding ↦ wanted members binding.1).map (·.2)).Nodup :=
    hids.sublist (List.filter_sublist.map _)
  generalize (locals.filter fun member ↦ wanted members member.name) = locals at *
  generalize (bindings.filter fun binding ↦ wanted members binding.1) = bindings at *
  dsimp only
  split
  · next hempty =>
    obtain rfl := List.isEmpty_iff.mp hempty
    exact ⟨hlocals, by simp⟩
  · refine ⟨nodup_merge hlocals _, fun member ↦ ?_⟩
    refine (mem_merge hlocals _ member).trans (or_congr ?_ (and_congr_right fun _ ↦ ?_))
    · constructor
      · rintro ⟨hlookup, hsome⟩
        obtain ⟨id, hmember⟩ := exists_binding hids (by rw [hlookup]; simp)
        rw [lookup_hubSkillData hasked hnames hids hmember] at hlookup
        exact ⟨id, hmember, hlookup, hsome⟩
      · rintro ⟨id, hmember, hgiven, hsome⟩
        exact ⟨(lookup_hubSkillData hasked hnames hids hmember bulk).trans hgiven, hsome⟩
    · constructor
      · intro hnone id rows hmember hgiven
        exact hnone rows ((lookup_hubSkillData hasked hnames hids hmember bulk).trans hgiven)
      · intro hnone rows hlookup
        obtain ⟨id, hmember⟩ := exists_binding hids (by rw [hlookup]; simp)
        rw [lookup_hubSkillData hasked hnames hids hmember] at hlookup
        exact hnone id rows hmember hlookup

/-- A member whose account is given the same has the same entries. -/
theorem Covers.mem_congr {give give' : String → Option (List AggregateSkillData)}
    {merged merged' : List MemberSkillData} (h : Covers give bindings locals merged)
    (h' : Covers give' bindings locals merged') {member : MemberSkillData}
    (hgive : ∀ id, (member.name, id) ∈ bindings → give id = give' id) :
    member ∈ merged ↔ member ∈ merged' := by
  rw [h.mem, h'.mem]
  apply or_congr
  · apply exists_congr
    intro id
    apply and_congr_right
    intro hid
    rw [hgive id hid]
  · apply and_congr_right
    intro _
    apply forall_congr'
    intro id
    apply forall_congr'
    intro rows
    apply imp_congr_right
    intro hid
    rw [hgive id hid]

/-- Where names that are equal ignoring case are equal, no two entries have names that are. -/
theorem Covers.nodup_fold {give : String → Option (List AggregateSkillData)}
    {merged : List MemberSkillData} (h : Covers give bindings locals merged)
    (hcase : ∀ a ∈ bindings.map (·.1) ++ locals.map (·.name),
      ∀ b ∈ bindings.map (·.1) ++ locals.map (·.name), fold a = fold b → a = b) :
    (merged.map fun member ↦ fold member.name).Nodup := by
  have hnamed (member : MemberSkillData) (hmember : member ∈ merged) :
      member.name ∈ bindings.map (·.1) ++ locals.map (·.name) := by
    obtain ⟨id, hbound, -⟩ | ⟨hlocal, -⟩ := (h.mem member).mp hmember
    · exact List.mem_append_left _ (List.mem_map_of_mem (f := Prod.fst) hbound)
    · exact List.mem_append_right _ (List.mem_map_of_mem hlocal)
  have hmap : (merged.map fun member ↦ fold member.name) = (merged.map (·.name)).map fold := by
    rw [List.map_map]
    rfl
  rw [hmap]
  apply h.once.map_on
  intro a ha b hb hsame
  obtain ⟨member, hmember, rfl⟩ := List.mem_map.mp ha
  obtain ⟨other, hother, rfl⟩ := List.mem_map.mp hb
  exact hcase _ (hnamed member hmember) _ (hnamed other hother) hsame

/-- For every hub that answers only what it is asked, every chunk size and every wanted set: a wanted
member has one entry if there is any history, that of the hub if the hub gives one that is not empty; what
a member of a chunk gets depends only on the answers about this chunk; and where names that are equal
ignoring case are equal, no two entries have names that are. -/
theorem mergeSkillData_covers (hub : XpEndpoint Value) (hasked : hub.AnswersAsked) (bulk : ℕ)
    (bindings : List (String × String)) (hnames : (bindings.map (·.1)).Nodup)
    (hids : (bindings.map (·.2)).Nodup) (locals : List MemberSkillData)
    (hlocals : (locals.map (·.name)).Nodup) (members : Option (List String)) :
    let wantedBindings := bindings.filter fun binding ↦ wanted members binding.1
    let chunks := idChunks bulk wantedBindings
    Covers (XpEndpoint.fromChunks hub.given chunks) wantedBindings
      (locals.filter fun member ↦ wanted members member.name)
      (mergeSkillData hub bulk bindings locals members) ∧
    (∀ other : XpEndpoint Value, other.AnswersAsked → other.parse = hub.parse → ∀ chunk ∈ chunks,
      (∀ asked, asked ⊆ chunk → other.fetch asked = hub.fetch asked) →
      ∀ member : MemberSkillData, ∀ id ∈ chunk, (member.name, id) ∈ wantedBindings →
        (member ∈ mergeSkillData other bulk bindings locals members ↔
          member ∈ mergeSkillData hub bulk bindings locals members)) ∧
    ((∀ a ∈ bindings.map (·.1) ++ locals.map (·.name), ∀ b ∈ bindings.map (·.1) ++ locals.map (·.name),
        fold a = fold b → a = b) →
      ((mergeSkillData hub bulk bindings locals members).map fun member ↦ fold member.name).Nodup) := by
  intro wantedBindings chunks
  have hcovers := covers_mergeSkillData hasked hnames hids hlocals bulk members
  have hwanted : wantedBindings.Sublist bindings := List.filter_sublist
  refine ⟨hcovers, ?_, ?_⟩
  · intro other hother hparse chunk hchunk hfetch member id hid hmember
    have hchunks : chunks.flatten.Nodup :=
      (flatten_idChunks_perm bulk wantedBindings).nodup_iff.mpr (hids.sublist (hwanted.map _))
    apply (covers_mergeSkillData hother hnames hids hlocals bulk members).mem_congr hcovers
    intro account haccount
    have hsame := List.inj_on_of_nodup_map hnames (hwanted.subset haccount) (hwanted.subset hmember) rfl
    obtain rfl : account = id := congrArg Prod.snd hsame
    rw [fromChunks_eq hchunks hchunk hid, fromChunks_eq hchunks hchunk hid,
      given_congr hparse hfetch hid]
  · intro hcase
    apply hcovers.nodup_fold
    have hlocal : (locals.filter fun member ↦ wanted members member.name).Sublist locals :=
      List.filter_sublist
    have hsub := ((hwanted.map (·.1)).append (hlocal.map (·.name))).subset
    exact fun a ha b hb ↦ hcase a (hsub ha) b (hsub hb)

/-- A hub that does not find two accounts together; asked one by one it has the first and fails for the
second. -/
def oneAnswers (failure : HubError) : XpEndpoint Unit where
  fetch asked :=
    if asked = ["a"] then .ok () else if asked = ["b"] then .error failure else .error .notFound
  parse _ := some ⟨[⟨⟨"a", "Alice"⟩, [⟨"Attack", [⟨1, 100⟩]⟩]⟩]⟩

theorem answersAsked_oneAnswers (failure : HubError) : (oneAnswers failure).AnswersAsked := by
  intro asked value multi hfetch hparse account haccount
  obtain rfl := Option.some.inj hparse
  obtain rfl := List.mem_singleton.mp haccount
  unfold oneAnswers at hfetch
  dsimp only at hfetch
  split at hfetch
  · next hasked => simp [hasked]
  · split at hfetch <;> cases hfetch

def twoBindings : List (String × String) := [("Alice", "a"), ("Bob", "b")]

/-- The second account is not found; its member has an entry here. -/
theorem mergeSkillData_covers_oneFound :
    Covers (XpEndpoint.fromChunks (oneAnswers .notFound).given (idChunks 2 twoBindings)) twoBindings
      [⟨"Bob", []⟩] (mergeSkillData (oneAnswers .notFound) 2 twoBindings [⟨"Bob", []⟩] none) :=
  (mergeSkillData_covers (oneAnswers .notFound) (answersAsked_oneAnswers _) 2 twoBindings (by decide)
    (by decide) [⟨"Bob", []⟩] (by decide) none).1

/-- The second account fails: what the hub answered of the first is dropped with the chunk. -/
theorem not_covers_answered :
    let hub := oneAnswers (.other "timed out")
    hub.AnswersAsked ∧ (twoBindings.map (·.1)).Nodup ∧ (twoBindings.map (·.2)).Nodup ∧
    ¬ Covers (XpEndpoint.fromChunks hub.answered (idChunks 2 twoBindings)) twoBindings []
      (mergeSkillData hub 2 twoBindings [] none) := by
  refine ⟨answersAsked_oneAnswers _, by decide, by decide, fun h ↦ ?_⟩
  have hempty : mergeSkillData (oneAnswers (.other "timed out")) 2 twoBindings [] none = [] := by
    decide +kernel
  have hanswered : XpEndpoint.fromChunks (oneAnswers (.other "timed out")).answered
      (idChunks 2 twoBindings) "a" = some (xpSeriesToRows [⟨"Attack", [⟨1, 100⟩]⟩]) := by
    have hchunks : idChunks 2 twoBindings = [["a", "b"]] := by decide +kernel
    rw [hchunks]
    rfl
  have hsome : xpSeriesToRows [⟨"Attack", [⟨1, 100⟩]⟩] ≠ [] :=
    xpSeriesToRows_ne_nil List.mem_cons_self (by decide +kernel) (by simp)
  rw [hempty] at h
  have hmissing := (h.mem ⟨"Alice", xpSeriesToRows [⟨"Attack", [⟨1, 100⟩]⟩]⟩).mpr
    (.inl ⟨"a", List.mem_cons_self, hanswered, hsome⟩)
  exact List.not_mem_nil hmissing

end Covers

end OsrsMap.Hub
