import Mathlib.Data.Int.Notation
import Mathlib.Data.List.Basic
import Mathlib.Order.Basic

/-!
# The names of places

`site/src/data/regions.js`: what a place is called, from the names of the game's regions (64 by 64 tiles), from
those of the regions around it, or from its coordinates.
-/

namespace OsrsMap.Page

/-- The names by region id, once they are loaded. An empty name counts as none. -/
abbrev RegionNames := ℤ → Option String

/-- `((x >> 6) << 8) | (y >> 6)`, in 32 bits. -/
def regionId (x y : ℤ) : ℤ :=
  (((BitVec.ofInt 32 x).sshiftRight 6 <<< 8) ||| (BitVec.ofInt 32 y).sshiftRight 6).toInt

def instanceSpaceFromX : ℤ := 6400

def inInstanceSpace (x : ℤ) : Bool := instanceSpaceFromX ≤ x

/-- `WILDERNESS_DUNGEONS`. -/
def wildernessDungeons : List ℤ :=
  [12443, 12444, 12190, 12701, 12702, 12703, 12957, 12958, 12959, 13469, 13470, 13725, 13726, 12192, 12193, 11937,
    12961]

/-- `WILDERNESS_LAIRS`: the boss lairs and the caves between them, with their levels. -/
def wildernessLairs : List (ℤ × String) :=
  [(13473, "40"), (13215, "35"), (13727, "35"), (13472, "30-42"), (7092, "21"), (7604, "21"), (6580, "29")]

def inFeroxEnclave (x y : ℤ) : Bool := 3123 ≤ x && x ≤ 3155 && 3617 ≤ y && y ≤ 3646

/-- The level as it is written; none outside of the wilderness. -/
def wildernessLevel (x y : ℤ) : Option String :=
  let id := regionId x y
  match wildernessLairs.find? (·.1 = id) with
  | some lair => some lair.2
  | none =>
    let dungeon : Bool := id ∈ wildernessDungeons
    if !dungeon && (x < 2944 || 3392 ≤ x) then none
    else
      -- A wilderness dungeon has the level of the surface 6400 tiles south of it.
      let surfaceY := if dungeon then y - 6400 else y
      if surfaceY ≤ 3522 ∨ 3968 ≤ surfaceY then none else some (toString ((surfaceY - 3520) / 8 + 1))

/-- The regions around one, in the order in which they lend their names. -/
def around : List (ℤ × ℤ) := [(0, 1), (1, 0), (0, -1), (-1, 0), (1, 1), (1, -1), (-1, 1), (-1, -1)]

/-- `names.get(id)`, when it is a name. -/
def RegionNames.named (names : RegionNames) (id : ℤ) : Option String := (names id).filter (· ≠ "")

def regionName (names : RegionNames) (x y : ℤ) : Option String :=
  if inFeroxEnclave x y then some "Ferox Enclave"
  else
    match wildernessLevel x y with
    | some level => some ("Wilderness (level " ++ level ++ ")")
    | none =>
      match names.named (regionId x y) with
      | some exact => some exact
      | none =>
        if inInstanceSpace x then some "An instance"
        else
          (around.findSome? fun (dx, dy) ↦ names.named (regionId (x + dx * 64) (y + dy * 64))).map
            ("Near " ++ ·)

/-- `regionForMember`: the place of the site's coordinates, which are one tile north. A number that is missing
is not a number. -/
def regionForMember (names : RegionNames) (coordinates : Option (Option ℤ × Option ℤ)) : Option String :=
  match coordinates with
  | some (some x, some y) => regionName names x (y - 1)
  | _ => none

/-- Outside of the lairs the wilderness has levels from 1 to 56. -/
theorem exists_of_wildernessLevel {x y : ℤ} {text : String} (h : wildernessLevel x y = some text) :
    text ∈ wildernessLairs.map Prod.snd ∨ ∃ level : ℤ, 1 ≤ level ∧ level ≤ 56 ∧ text = toString level := by
  unfold wildernessLevel at h
  dsimp only at h
  split at h
  · rename_i lair hlair
    obtain rfl := Option.some.inj h
    exact .inl (List.mem_map_of_mem (List.mem_of_find?_eq_some hlair))
  · split_ifs at h with houtside hdungeon hdry hdry
    · exact .inr ⟨_, by omega, by omega, (Option.some.inj h).symm⟩
    · exact .inr ⟨_, by omega, by omega, (Option.some.inj h).symm⟩

end OsrsMap.Page
