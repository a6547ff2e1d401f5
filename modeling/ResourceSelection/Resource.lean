import ResourceSelection.Policy.Context
import ResourceSelection.Resource.Declaration
import ResourceSelection.Resource.Status

/-!
# Resources

A registered resource: fixed bounds and priority, a weight that moves between the bounds, and a
count of calls in flight where calls are counted.

Every new weight passes through `clampWeight`, whatever proposed it. A proposal that is no number
leaves the weight alone; any other is moved to the nearest bound if it lies outside.
-/

namespace ResourceSelection

variable {ω : Type} [Scalar ω]

/-- A proposed weight brought between the bounds; a NaN keeps the previous weight. -/
def clampWeight (value previous minWeight maxWeight : ω) : ω :=
  if Scalar.isNaN value then previous
  else Scalar.smaller (Scalar.larger value minWeight) maxWeight

/-- A registered resource. -/
structure Resource (ω : Type) where
  name : String
  maxWeight : ω
  minWeight : ω
  /-- The priority of the group that it belongs to. -/
  priority : Nat
  current : ω
  /-- The calls in flight, when they are counted. -/
  inFlight : Option Nat

namespace Resource

/-- The greatest number of calls in flight that is told apart. -/
def inFlightLimit : Nat := 0xFFFFFFFF

/-- A resource as declared, at its starting weight and with no call in flight. -/
def ofDeclaration (name : String) (d : Declaration ω) (countsCalls : Bool) : Resource ω where
  name := name
  maxWeight := d.maxWeight
  minWeight := d.minWeight
  priority := d.priority
  current := clampWeight d.initialWeight d.maxWeight d.minWeight d.maxWeight
  inFlight := if countsCalls then some 0 else none

omit [Scalar ω] in
/-- What a policy is told about the resource, were its weight the given one. -/
def contextAt (r : Resource ω) (weight : ω) : Context ω :=
  ⟨r.name, r.maxWeight, r.minWeight, r.priority, weight⟩

omit [Scalar ω] in
/-- What a policy is told about the resource. -/
def context (r : Resource ω) : Context ω := r.contextAt r.current

/-- The weights before and after a proposal, and the resource after it. -/
def propose (r : Resource ω) (proposed : ω) : (ω × ω) × Resource ω :=
  let weight := clampWeight proposed r.current r.minWeight r.maxWeight
  if Scalar.same weight r.current then ((r.current, r.current), r)
  else ((r.current, weight), { r with current := weight })

omit [Scalar ω] in
/-- The weights before and after the resource is forced to its minimum, and the resource. -/
def forceDown (r : Resource ω) : (ω × ω) × Resource ω :=
  ((r.current, r.minWeight), { r with current := r.minWeight })

omit [Scalar ω] in
/-- One more call in flight, up to the limit; answers whether calls are counted. -/
def acquire (r : Resource ω) : Bool × Resource ω :=
  (r.inFlight.isSome, { r with inFlight := r.inFlight.map fun n => min (n + 1) inFlightLimit })

omit [Scalar ω] in
/-- One call in flight less, down to zero; answers whether calls are counted. -/
def release (r : Resource ω) : Bool × Resource ω :=
  (r.inFlight.isSome, { r with inFlight := r.inFlight.map fun n => n - 1 })

/-- The weight that counts when busy resources are avoided: the current one shared among the calls
in flight and the next one. -/
def selectionWeight (r : Resource ω) : ω :=
  match r.inFlight with
  | some n => r.current / (1 + (n : ω))
  | none => r.current

/-- Whether the resource can be selected at all. -/
def isAvailable (r : Resource ω) : Bool := 0 < r.current

/-- Whether the resource is at its minimum and below its maximum. -/
def isFailed (r : Resource ω) : Bool := r.context.isFailed

/-- Whether the resource is at its maximum. -/
def isHealthy (r : Resource ω) : Bool := r.context.isHealthy

omit [Scalar ω] in
/-- The view of the resource at this time. -/
def status (r : Resource ω) : Status ω :=
  ⟨r.maxWeight, r.minWeight, r.priority, r.current, r.inFlight⟩

end Resource

end ResourceSelection
