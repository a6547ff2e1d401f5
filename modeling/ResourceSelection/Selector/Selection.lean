import ResourceSelection.Sampling.Priority
import ResourceSelection.Selector.Basic

/-!
# Selecting a resource

The priority pick says which group to try first; the others follow in order, around the end of the
list. The first group with anything to select decides. With one group or none there is nothing to
pick, and nothing is drawn.
-/

namespace ResourceSelection

/-- The selector with a group's count of turns set. -/
def Selector.turnTo {ω : Type} (s : Selector ω) (index : Nat) (cursor : UInt64) : Selector ω :=
  { s with pools := s.pools.modify index fun p => { p with cursor } }

namespace System

variable {ω : Type} [Scalar ω]

/-- The index of the group to try first, and the generator. -/
def firstGroup (s : System ω) : Nat × Rng :=
  let pools := s.selector.pools
  if 1 < pools.length then
    pickPriority (pools.map (·.snapshot.healthyRate)) s.selector.settings.priorityFactor
      (Rng.unit ω) s.host.rng
  else (0, s.host.rng)

/-- Tries the groups with the given indices in turn; answers the place of the member that the first
successful one picked. -/
def tryGroups (exclude : Option (List String)) : List Nat → System ω → Option Nat × System ω
  | [], s => (none, s)
  | index :: rest, s =>
    match s.selector.pools[index]? with
    | none => tryGroups exclude rest s
    | some p =>
      let (picked, g, rng) := (Selector.groupOf s.selector.states p).select exclude
        s.selector.settings.countsCalls s.host.rng
      let s : System ω :=
        { selector := s.selector.turnTo index g.cursor
          host := { s.host with rng } }
      match picked.bind fun member => p.members[member]? with
      | some place => (some place, s)
      | none => tryGroups exclude rest s

/-- Selects a resource. A selection counts as a call in flight where selections and reports count
them. -/
def selectWith (exclude : Option (List String)) (s : System ω) : Option String × System ω :=
  let count := s.selector.groupCount
  let (start, rng) := s.firstGroup
  let order := (List.range count).map fun offset => (start + offset) % count
  let s := { s with host := { s.host with rng } }
  match tryGroups exclude order s with
  | (some place, s) =>
    let name := (s.selector.states[place]?).map (·.name)
    let s := if s.selector.settings.tracksCalls then s.modifyAt place fun r => r.acquire.2 else s
    (name, s.count fun c => { c with selections := c.selections + 1 })
  | (none, s) => (none, s.count fun c => { c with exhausted := c.exhausted + 1 })

/-- Selects a resource. -/
def selectOne (s : System ω) : Option String × System ω := s.selectWith none

/-- Selects a resource that is not among the given names. -/
def selectExcluding (names : List String) (s : System ω) : Option String × System ω :=
  s.selectWith (some names)

/-- Selects a resource, for whoever only offers selection with exclusions. -/
def selectExcludingNone (s : System ω) : Option String × System ω := s.selectExcluding []

end System

end ResourceSelection
