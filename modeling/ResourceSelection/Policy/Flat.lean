import ResourceSelection.Policy.Context
import ResourceSelection.Policy.Rule

/-!
# The flat rule

A success adds one step up to the maximum, a failure takes another step down to the minimum.
-/

namespace ResourceSelection.FlatRule

variable {ω : Type} [Scalar ω]

/-- The weight after a success. -/
def onSuccess (r : FlatRule ω) (c : Context ω) : ω :=
  Scalar.smaller (c.current + r.successIncrement) c.maxWeight

/-- The weight after a failure. -/
def onFail (r : FlatRule ω) (c : Context ω) : ω :=
  Scalar.larger (c.current - r.failDecrement) c.minWeight

end ResourceSelection.FlatRule
