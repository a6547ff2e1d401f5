import ResourceSelection.Scalar

/-!
# Range checks

The limits that single values have to keep, and what is wrong with one that does not. Each check
answers the list of its faults, so that the faults of several fields can be reported together.

A NaN keeps every limit: neither comparison with it holds. Whoever needs a number asks for that
separately.
-/

namespace ResourceSelection

/-- A limit, of a count or of a number. -/
inductive Limit (ω : Type) where
  | count (n : Nat)
  | number (x : ω)

/-- A value outside its range, found under a path. -/
inductive RangeFault (ω : Type) where
  | lower (path : String) (least : Limit ω)
  | greater (path : String) (most : Limit ω)
  | shorter (path : String) (least : Nat)
  | longer (path : String) (most : Nat)

namespace Range

variable {ω : Type} [Scalar ω]

/-- A number must lie between two others. -/
def between (path : String) (least most x : ω) : List (RangeFault ω) :=
  if x < least then [.lower path (.number least)]
  else if most < x then [.greater path (.number most)]
  else []

/-- A number must reach another, and must not pass the largest finite one. -/
def atLeast (path : String) (least x : ω) : List (RangeFault ω) :=
  if x < least then [.lower path (.number least)]
  else match (Scalar.largest : Option ω) with
    | some most => if most < x then [.greater path (.number most)] else []
    | none => []

/-- A count must lie between two others. -/
def countBetween (path : String) (least most n : Nat) : List (RangeFault ω) :=
  if n < least then [.lower path (.count least)]
  else if most < n then [.greater path (.count most)]
  else []

/-- A count must reach another. -/
def countAtLeast (path : String) (least n : Nat) : List (RangeFault ω) :=
  if n < least then [.lower path (.count least)] else []

/-- A text must have a length in bytes between two counts. -/
def lengthBetween (path : String) (least most : Nat) (text : String) : List (RangeFault ω) :=
  if text.utf8ByteSize < least then [.shorter path least]
  else if most < text.utf8ByteSize then [.longer path most]
  else []

end Range

end ResourceSelection
