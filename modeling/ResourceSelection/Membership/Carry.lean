import ResourceSelection.Resource

/-!
# Carrying a weight over

When a resource is declared anew, its weight goes with it. A resource at its old maximum moves to
the new one. Otherwise the weight keeps its share of the maximum, and if the maximum has not
changed it keeps its value. A resource that had no maximum to have a share of starts like a new
one. Wherever this leads, the new bounds are kept.
-/

namespace ResourceSelection.Status

variable {ω : Type} [Scalar ω]

/-- The weight that a resource of the given status has under a new declaration. -/
def carry (s : Status ω) (next : Declaration ω) : ω :=
  let weight :=
    if s.maxWeight ≤ s.current then next.maxWeight
    else if Scalar.same s.maxWeight next.maxWeight then s.current
    else if 0 < s.maxWeight then s.current / s.maxWeight * next.maxWeight
    else next.initialWeight
  Scalar.smaller (Scalar.larger weight next.minWeight) next.maxWeight

end ResourceSelection.Status
