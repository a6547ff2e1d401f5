import ResourceSelection.Scalar

/-!
# The status of a resource

A view of one resource at one time, and what follows from it: whether it is healthy, degraded or
down, and which share of its maximum it holds.
-/

namespace ResourceSelection

/-- How well a resource is doing. -/
inductive Health where
  /-- The weight is at its maximum. -/
  | healthy
  /-- The weight is strictly between its bounds. -/
  | degraded
  /-- The weight is at its minimum. -/
  | down
deriving DecidableEq, Repr

/-- A view of one resource. -/
structure Status (ω : Type) where
  maxWeight : ω
  minWeight : ω
  /-- The priority; lower is preferred. -/
  priority : Nat
  current : ω
  /-- The calls in flight, when they are counted. -/
  inFlight : Option Nat

namespace Status

variable {ω : Type} [Scalar ω]

/-- A resource whose bounds coincide is healthy, not down. -/
def health (s : Status ω) : Health :=
  if s.maxWeight ≤ s.current then .healthy
  else if s.current ≤ s.minWeight then .down
  else .degraded

/-- The share of the maximum that is held, zero when the maximum is. -/
def ratio (s : Status ω) : ω := if 0 < s.maxWeight then s.current / s.maxWeight else 0

end Status

end ResourceSelection
