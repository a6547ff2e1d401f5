/-!
# The numbers weights are made of

Weights, rates and draws are numbers of one type `ω`. The rules of this library are written once
for every such type, because two of them matter: binary floating point, on which the rules run,
and the rationals, on which the same rules say what they mean without rounding.

Only what the rules use is asked for: the four operations, the two comparisons, decimal literals
and whole numbers, and three questions that floating point adds. On a type without special values
every number is finite, none is a NaN, and being the same number is being equal.
-/

namespace ResourceSelection

/-- A type of numbers that the selection rules can be run on. -/
class Scalar (ω : Type) extends
    Add ω, Sub ω, Mul ω, Div ω, LT ω, LE ω, Zero ω, One ω, NatCast ω, OfScientific ω where
  decLt : (a b : ω) → Decidable (a < b)
  decLe : (a b : ω) → Decidable (a ≤ b)
  /-- Whether a value is no number at all. -/
  isNaN : ω → Bool
  /-- Whether a value is a number that is not infinite. -/
  isFinite : ω → Bool
  /-- Whether two values are represented alike; zeros of different sign are not. -/
  same : ω → ω → Bool
  /-- The largest finite value, if there is one. -/
  largest : Option ω

instance Scalar.instDecidableLT {ω : Type} [Scalar ω] (a b : ω) : Decidable (a < b) :=
  Scalar.decLt a b

instance Scalar.instDecidableLE {ω : Type} [Scalar ω] (a b : ω) : Decidable (a ≤ b) :=
  Scalar.decLe a b

namespace Scalar

variable {ω : Type} [Scalar ω]

/-- Whether a value lies beyond every finite number, on either side. -/
def isInfinite (x : ω) : Bool := !isFinite x && !isNaN x

/-- The larger of two values. A NaN gives way to the other, and of equal values the second
stands. -/
def larger (x y : ω) : ω := if isNaN y || decide (y < x) then x else y

/-- The smaller of two values. A NaN gives way to the other, and of equal values the second
stands. -/
def smaller (x y : ω) : ω := if isNaN y || decide (x < y) then x else y

/-- The value in `[0, 1]` nearest to `x`. -/
def clampUnit (x : ω) : ω := if x < 0 then 0 else if 1 < x then 1 else x

/-- The sum of a list, taken from the left. -/
def sum (xs : List ω) : ω := xs.foldl (· + ·) 0

end Scalar

end ResourceSelection
