import ResourceSelection.Random

/-!
# Grouping that keeps sizes stable

Members are spread over core groups with target sizes and one last group for the rest. A member
stays where it is until it leaves or is promoted: when a leaving member brings a core group below
its target, a random member of the next group that has any moves up, and then the group it came
from may need one in turn.

A newcomer fills the first core group below its target. When there is none, it takes a random
position among all members, so that each group gets newcomers in proportion to its size.

Besides the groups there is an index from members to priorities. It is what decides whether a name
is assigned, and where. A priority is the number of a group as far as it fits into 32 bits, and from
a priority the group is found again.
-/

namespace ResourceSelection

/-- A list without the element at an index, whose place the last element takes. -/
def swapRemove {α : Type} (xs : List α) (i : Nat) : List α :=
  match xs.getLast? with
  | some last => if i < xs.length then (xs.set i last).dropLast else xs
  | none => xs

/-- Members spread over groups. -/
structure Grouping (α : Type) where
  /-- The target size of each core group. -/
  coreSizes : List Nat
  /-- The members of each group, the last group being the one without a target. -/
  groups : List (List α)
  /-- The priority of each member, each member once. -/
  index : List (α × Nat)
  rng : Rng

namespace Grouping

variable {α : Type}

/-- The largest priority. -/
def priorityLimit : Nat := 0xFFFFFFFF

/-- The priority of a group. Numbers that are too large all become the largest one. -/
def toPriority (group : Nat) : Nat := min group priorityLimit

/-- Empty groups. -/
def empty (coreSizes : List Nat) (rng : Rng) : Grouping α :=
  ⟨coreSizes, List.replicate (coreSizes.length + 1) [], [], rng⟩

/-- The number of the group without a target. -/
def lastGroup (g : Grouping α) : Nat := g.coreSizes.length

/-- The number of members. -/
def size (g : Grouping α) : Nat := g.index.length

/-- The size of each group. -/
def groupSizes (g : Grouping α) : List Nat := g.groups.map List.length

/-- The members of one group. -/
def members (g : Grouping α) (group : Nat) : List α := g.groups.getD group []

/-- The first core group below its target. -/
def firstUnderfilled (g : Grouping α) : Option Nat :=
  (List.range g.coreSizes.length).find? fun group =>
    (g.members group).length < g.coreSizes.getD group 0

/-- The number of the group that owns a position, when core groups of the given sizes are laid out
in a row and the last group, `count` groups further on, has all positions after them. -/
def groupOwning (count : Nat) : List Nat → Nat → Nat
  | [], _ => count
  | size :: rest, position =>
    if position < size then count else groupOwning (count + 1) rest (position - size)

/-- The group that owns a position when members are laid out group by group. -/
def groupAt (g : Grouping α) (position : Nat) : Nat :=
  groupOwning 0 ((g.groups.take g.coreSizes.length).map List.length) position

/-- The next group after `group` that has members. -/
def nextDonor? (g : Grouping α) (group : Nat) : Option { donor : Nat // group < donor } :=
  (List.range g.groups.length).findSome? fun donor =>
    if h : group < donor then
      if (g.members donor).isEmpty then none else some ⟨donor, h⟩
    else none

variable [DecidableEq α]

/-- The priority that a name is assigned. -/
def priorityOf (g : Grouping α) (name : α) : Option Nat :=
  (g.index.find? fun entry => entry.1 = name).map (·.2)

/-- The grouping with a name listed under the priority of a group. -/
def list (g : Grouping α) (name : α) (group : Nat) : Grouping α :=
  { g with index := (g.index.filter fun entry => entry.1 ≠ name) ++ [(name, toPriority group)] }

/-- The grouping with a name not listed. -/
def unlist (g : Grouping α) (name : α) : Grouping α :=
  { g with index := g.index.filter fun entry => entry.1 ≠ name }

/-- The grouping with a name put at the end of a group. -/
def place (g : Grouping α) (name : α) (group : Nat) : Grouping α :=
  let g := g.list name group
  { g with groups := g.groups.modify group (· ++ [name]) }

/-- Assigns the names that are not assigned yet, in shuffled order: core groups are filled one
after the other, and the rest goes to the last group. -/
def assignInitial (g : Grouping α) (names : List α) : Grouping α :=
  let (fresh, rng) := g.rng.shuffle (names.filter fun name => (g.priorityOf name).isNone)
  fresh.foldl (fun g name => g.place name (g.firstUnderfilled.getD g.lastGroup)) { g with rng }

/-- Assigns a name, unless it is assigned; answers its priority. -/
def add (g : Grouping α) (name : α) : Nat × Grouping α :=
  match g.priorityOf name with
  | some priority => (priority, g)
  | none =>
    match g.firstUnderfilled with
    | some group => (toPriority group, g.place name group)
    | none =>
      let (position, rng) := g.rng.below (g.size + 1)
      let group := g.groupAt position
      (toPriority group, { g with rng }.place name group)

/-- Moves a random member of a donor to the end of a group. -/
def promote (g : Grouping α) (group donor : Nat) : Grouping α :=
  let (pick, rng) := g.rng.below (g.members donor).length
  match (g.members donor)[pick]? with
  | none => { g with rng }
  | some name =>
    let g := { g with rng }.list name group
    { g with groups := (g.groups.modify donor (swapRemove · pick)).modify group (· ++ [name]) }

theorem coreSizes_promote (g : Grouping α) (group donor : Nat) :
    (g.promote group donor).coreSizes = g.coreSizes := by
  simp only [promote]
  split <;> simp [list]

/-- Brings a core group back to its target by promoting a member of the next group that has any,
and then looks after that group. -/
def refill (g : Grouping α) (group : Nat) : Grouping α :=
  if group < g.coreSizes.length ∧ (g.members group).length < g.coreSizes.getD group 0 then
    match g.nextDonor? group with
    | none => g
    | some ⟨donor, _⟩ => (g.promote group donor).refill donor
  else g
termination_by g.coreSizes.length - group
decreasing_by simp only [coreSizes_promote]; omega

/-- Takes a name out and fills the gap it leaves; answers its priority, by which the group that it
was in is found. -/
def remove (g : Grouping α) (name : α) : Option Nat × Grouping α :=
  match g.priorityOf name with
  | none => (none, g)
  | some group =>
    let g := g.unlist name
    let g := match (g.members group).findIdx? fun member => member = name with
      | some position => { g with groups := g.groups.modify group (swapRemove · position) }
      | none => g
    (some group, g.refill group)

end Grouping

end ResourceSelection
