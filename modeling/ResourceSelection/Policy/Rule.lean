import ResourceSelection.Scalar

/-!
# The parameters of the two rules

The library ships two ways of moving a weight. The ratio rule multiplies on failure and adds a
share of the maximum on success. The flat rule adds and subtracts fixed steps.
-/

namespace ResourceSelection

/-- The parameters of the ratio rule. -/
structure RatioRule (ω : Type) where
  /-- The fraction of the weight that a failure leaves. -/
  failKeepRate : ω
  /-- The fraction of the maximum that a success adds above the minimum. -/
  successIncreaseRate : ω
  /-- The fraction of the maximum that a success adds when it lifts a weight off its minimum. -/
  recoverRate : ω
  /-- The fraction of the maximum under which a failing resource falls to its minimum. -/
  downThresholdRate : ω
  /-- How many successes in a row lift a weight off its minimum. -/
  recoverThreshold : Nat

/-- The parameters of the flat rule. -/
structure FlatRule (ω : Type) where
  /-- What a success adds. -/
  successIncrement : ω
  /-- What a failure takes. -/
  failDecrement : ω

/-- Which rule moves the weights, with its parameters. -/
inductive Rule (ω : Type) where
  | ratio (parameters : RatioRule ω)
  | flat (parameters : FlatRule ω)

variable {ω : Type} [Scalar ω]

/-- Half the weight is kept on failure, a hundredth is won back per success. -/
def RatioRule.default : RatioRule ω where
  failKeepRate := 0.5
  successIncreaseRate := 0.01
  recoverRate := 0.1
  downThresholdRate := 0.01
  recoverThreshold := 1

/-- Five steps down for a failure, one up for a success. -/
def FlatRule.default : FlatRule ω where
  successIncrement := 1
  failDecrement := ((5 : Nat) : ω)

/-- The ratio rule with its usual parameters. -/
def Rule.default : Rule ω := .ratio .default

end ResourceSelection
