import ResourceSelection.Resource
import ResourceSelection.Sampling.Alias
import ResourceSelection.Sampling.Weighted

/-!
# Priority groups

The resources of one priority, and how one of them is picked.

A group keeps what the maxima of its members say, which is settled when the group is made, and a
snapshot of what its members weigh. The snapshot is replaced, never changed, and between two
replacements it may say less than the members do: a group is fresh when its snapshot is the one
that a new group of the same members would have.

Most picks only need the snapshot. While every member is at its maximum the group either takes
turns, if the maxima are all alike, or draws from an alias table, if the group is large; otherwise
a point is walked along the cached weights. A pick that excludes members or avoids busy ones reads
the members themselves.
-/

namespace ResourceSelection

/-- What a group's members weigh together, as of some time. -/
structure Snapshot (ω : Type) where
  totalCurrent : ω
  /-- The share of the maximum that the group holds, zero for a group without capacity. -/
  healthyRate : ω
  weights : List ω
  /-- The maxima are alike and positive in sum, and every member is at its own. -/
  roundRobin : Bool
  /-- The group is large, its maxima differ, and every member is at its own. -/
  aliasEligible : Bool
  /-- The table for drawing from an eligible group. -/
  table : Option (AliasTable Nat ω)

/-- A priority group, whatever its members are known by. -/
structure GroupOf (μ ω : Type) where
  /-- The priority; lower is preferred. -/
  priority : Nat
  /-- The members in order of registration. -/
  members : List μ
  totalMax : ω
  /-- Whether the members' maxima are all the same number. -/
  uniformMax : Bool
  /-- Groups with more members than this may use an alias table. -/
  aliasThreshold : Nat
  /-- What the members weighed when it was last looked at. -/
  snapshot : Snapshot ω
  cursor : UInt64

/-- The group with its members known by something else. -/
def GroupOf.withMembers {μ ν ω : Type} (g : GroupOf μ ω) (members : List ν) : GroupOf ν ω :=
  { g with members }

/-- The resources of one priority. -/
abbrev Group (ω : Type) := GroupOf (Resource ω) ω

namespace Group

variable {ω : Type} [Scalar ω]

/-- The sum of the maxima. -/
def totalMaxOf (members : List (Resource ω)) : ω := Scalar.sum (members.map (·.maxWeight))

/-- Whether all maxima are the same number. -/
def sameMaxOf (members : List (Resource ω)) : Bool :=
  match members with
  | [] => true
  | first :: _ => members.all fun m => Scalar.same m.maxWeight first.maxWeight

/-- What a snapshot of the members says, given what their maxima say. -/
def measure (members : List (Resource ω)) (totalMax : ω) (uniform : Bool) (aliasThreshold : Nat) :
    Snapshot ω :=
  let weights := members.map (·.current)
  let totalCurrent := Scalar.sum weights
  let allHealthy := members.all (·.isHealthy)
  let aliasEligible := decide (aliasThreshold < members.length) && !uniform && allHealthy
  { totalCurrent
    healthyRate := if 0 < totalMax then totalCurrent / totalMax else 0
    weights
    roundRobin := uniform && allHealthy && decide (0 < totalMax)
    aliasEligible
    table :=
      if aliasEligible then AliasTable.ofWeights? ((List.range weights.length).zip weights)
      else none }

/-- A new group with a snapshot of its members. -/
def make (priority : Nat) (members : List (Resource ω)) (aliasThreshold : Nat) : Group ω where
  priority := priority
  members := members
  totalMax := totalMaxOf members
  uniformMax := sameMaxOf members
  aliasThreshold := aliasThreshold
  snapshot := measure members (totalMaxOf members) (sameMaxOf members) aliasThreshold
  cursor := 0

/-- The group with a new snapshot. -/
def refresh (g : Group ω) : Group ω :=
  { g with snapshot := measure g.members g.totalMax g.uniformMax g.aliasThreshold }

/-- Whether the snapshot says what the members do. -/
def Fresh (g : Group ω) : Prop :=
  g.snapshot = (make g.priority g.members g.aliasThreshold).snapshot

omit [Scalar ω] in
/-- The group after a change to the member at an index. -/
def modify (g : Group ω) (index : Nat) (f : Resource ω → Resource ω) : Group ω :=
  { g with members := g.members.modify index f }

omit [Scalar ω] in
/-- The index of the member whose turn it is, and the group after the turn. The count of turns
starts over at the end of its word. -/
def takeTurn (g : Group ω) : Option Nat × Group ω :=
  if g.members.isEmpty then (none, g)
  else (some (g.cursor.toNat % g.members.length), { g with cursor := g.cursor + 1 })

/-- The index that the snapshot picks. -/
def pickCached (g : Group ω) (rng : Rng) : Option Nat × Group ω × Rng :=
  if g.snapshot.roundRobin then
    let (index, g) := g.takeTurn
    (index, g, rng)
  else
    match g.snapshot.table with
    | some table =>
      let (index, rng) := table.sample rng
      (index, g, rng)
    | none =>
      let (point, rng) := rng.unit ω
      (pickWeighted g.snapshot.weights g.snapshot.totalCurrent point, g, rng)

/-- The weights that a pick reads from the members: nothing for an excluded one, and for the others
the current weight, or the one shared among calls in flight. -/
def liveWeights (g : Group ω) (exclude : List String) (avoidBusy : Bool) : List ω :=
  g.members.map fun m =>
    if exclude.contains m.name then 0
    else if avoidBusy then m.selectionWeight
    else m.current

/-- The index that the members themselves pick. -/
def pickLive (g : Group ω) (exclude : List String) (avoidBusy : Bool) (rng : Rng) :
    Option Nat × Rng :=
  let weights := g.liveWeights exclude avoidBusy
  let (point, rng) := rng.unit ω
  (pickWeighted weights (Scalar.sum weights) point, rng)

/-- The index of a picked member, if there is one to pick. No exclusion and an empty one are the
same. -/
def select (g : Group ω) (exclude : Option (List String)) (avoidBusy : Bool) (rng : Rng) :
    Option Nat × Group ω × Rng :=
  let names := exclude.getD []
  if names.isEmpty && !avoidBusy then g.pickCached rng
  else
    let (index, rng) := g.pickLive names avoidBusy rng
    (index, g, rng)

end Group

end ResourceSelection
