import ResourceSelection.Scalar

/-!
# What a policy is told

A policy is asked about one resource at a time: its bounds, its priority and the weight it has
before the transition.
-/

namespace ResourceSelection

/-- The inputs of a weight transition. -/
structure Context (ω : Type) where
  resource : String
  maxWeight : ω
  minWeight : ω
  priority : Nat
  /-- The weight before the transition. -/
  current : ω

namespace Context

variable {ω : Type} [Scalar ω]

/-- Whether the resource is at its lower bound. -/
def isDown (c : Context ω) : Bool := c.current ≤ c.minWeight

/-- Whether the resource is at its upper bound. -/
def isHealthy (c : Context ω) : Bool := c.maxWeight ≤ c.current

/-- Whether the resource is at its lower bound and has somewhere to rise to. Unless a policy says
otherwise these are the resources that are probed. -/
def isFailed (c : Context ω) : Bool := c.isDown && decide (c.current < c.maxWeight)

end Context

end ResourceSelection
