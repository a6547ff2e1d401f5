import ResourceSelection.Ranking
import ResourceSelection.Resource.Declaration

/-!
# Rosters

A roster says how each of its members is declared. Every name comes once, and a later declaration
takes the place of an earlier one.

A roster is a map, so whatever goes through it is told an order by rank.
-/

namespace ResourceSelection

/-- The declaration of each member. -/
structure Roster (ω : Type) where
  entries : List (String × Declaration ω) := []

namespace Roster

variable {ω : Type}

/-- The names of the members. -/
def names (r : Roster ω) : List String := r.entries.map (·.1)

/-- The declaration of a name. -/
def get? (r : Roster ω) (name : String) : Option (Declaration ω) :=
  (r.entries.find? fun entry => entry.1 = name).map (·.2)

/-- The roster with a name declared, in place of any earlier declaration of it. -/
def put (r : Roster ω) (name : String) (d : Declaration ω) : Roster ω :=
  if r.names.contains name then
    ⟨r.entries.map fun entry => if entry.1 = name then (name, d) else entry⟩
  else ⟨r.entries ++ [(name, d)]⟩

/-- The roster without a name. -/
def erase (r : Roster ω) (name : String) : Roster ω :=
  ⟨r.entries.filter fun entry => entry.1 ≠ name⟩

/-- The roster with a list of declarations made one after the other. -/
def putAll (r : Roster ω) (entries : List (String × Declaration ω)) : Roster ω :=
  entries.foldl (fun r entry => r.put entry.1 entry.2) r

/-- The roster listed by the ranks of the names. -/
def arrange (rank : String → Nat) (r : Roster ω) : Roster ω :=
  ⟨byRank (fun entry => rank entry.1) r.entries⟩

/-- The roster of a list of declarations. -/
def ofList (entries : List (String × Declaration ω)) : Roster ω := putAll {} entries

end Roster

end ResourceSelection
