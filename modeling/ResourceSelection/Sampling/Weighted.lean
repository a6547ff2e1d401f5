import ResourceSelection.Scalar

/-!
# The weighted scan

A point in `[0, 1)` is stretched over the total weight and walked along the list: every weight
takes its length off, and the one in which the rest runs out is picked. An entry without positive
weight has no length and is passed over.

Rounding can carry the point past the last entry, and a total that is not a positive number has
no length to walk. Then the first positive weight is picked, so that the scan answers whenever
there is anything to pick.
-/

namespace ResourceSelection

variable {ω : Type} [Scalar ω]

/-- The index at which the walk of length `remaining` ends. -/
def scanWeights (remaining : ω) : List ω → Option Nat
  | [] => none
  | weight :: rest =>
    if weight ≤ 0 then (scanWeights remaining rest).map (· + 1)
    else if remaining < weight then some 0
    else (scanWeights (remaining - weight) rest).map (· + 1)

/-- The index of the first positive weight. -/
def firstPositive (weights : List ω) : Option Nat := weights.findIdx? fun weight => 0 < weight

/-- The index that a point of `[0, 1)` picks from a list of weights with the given total. -/
def pickWeighted (weights : List ω) (total point : ω) : Option Nat :=
  let scanned :=
    if 0 < total ∧ Scalar.isFinite total then scanWeights (point * total) weights else none
  scanned.or (firstPositive weights)

end ResourceSelection
