import ResourceSelection.Range

/-!
# Declared resources

What a resource is registered with: its weight bounds, its priority and the weight it starts at.
A declaration is sound when the bounds are finite and in order, none is negative, and the starting
weight lies between them. `Declaration.validate` answers the first cause that speaks against it.
-/

namespace ResourceSelection

/-- The bounds, the priority and the starting weight of a resource. -/
structure Declaration (ω : Type) where
  maxWeight : ω
  minWeight : ω
  /-- The priority; lower is preferred. -/
  priority : Nat
  /-- The weight to start at, the upper bound if there is none. -/
  initial : Option ω

/-- What is wrong with a declaration. -/
inductive BoundsFault (ω : Type) where
  /-- A bound is infinite or not a number. -/
  | infinite
  /-- Single bounds are out of range. -/
  | ranges (faults : List (RangeFault ω))
  | crossed (maxWeight minWeight : ω)
  | initialOutside (initial minWeight maxWeight : ω)

namespace Declaration

variable {ω : Type} [Scalar ω]

/-- A resource with the given upper bound that may fall to zero, of the first priority. -/
def ofWeight (maxWeight : ω) : Declaration ω := ⟨maxWeight, 0, 0, none⟩

/-- A resource with the usual upper bound. -/
def default : Declaration ω := ofWeight ((100 : Nat) : ω)

/-- The weight to start at. -/
def initialWeight (d : Declaration ω) : ω := d.initial.getD d.maxWeight

/-- The limits that each bound keeps by itself, by name of the bound. -/
def rangeFaults (d : Declaration ω) : List (RangeFault ω) :=
  Range.atLeast "max_weight" 0 d.maxWeight ++ Range.atLeast "min_weight" 0 d.minWeight

/-- Whether the declaration is sound, or the first thing that is wrong with it. -/
def validate (d : Declaration ω) : Except (BoundsFault ω) Unit :=
  if !Scalar.isFinite d.maxWeight || !Scalar.isFinite d.minWeight then .error .infinite
  else if !d.rangeFaults.isEmpty then .error (.ranges d.rangeFaults)
  else if d.maxWeight < d.minWeight then .error (.crossed d.maxWeight d.minWeight)
  else if !Scalar.isFinite d.initialWeight || d.initialWeight < d.minWeight
      || d.maxWeight < d.initialWeight then
    .error (.initialOutside d.initialWeight d.minWeight d.maxWeight)
  else .ok ()

end Declaration

end ResourceSelection
