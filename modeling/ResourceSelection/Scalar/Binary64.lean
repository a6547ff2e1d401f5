import ResourceSelection.Scalar

/-!
# Binary floating point as a scalar

The numbers the library runs on. Two floats are the same when their bits are, so a zero keeps its
sign and every NaN is the one NaN that the type has.
-/

namespace ResourceSelection

instance instScalarFloat : Scalar Float where
  zero := 0.0
  one := 1.0
  natCast n := Float.ofNat n
  decLt a b := inferInstanceAs (Decidable (a < b))
  decLe a b := inferInstanceAs (Decidable (a ≤ b))
  isNaN := Float.isNaN
  isFinite := Float.isFinite
  same a b := a.toBits == b.toBits
  largest := some (Float.ofBits 0x7FEFFFFFFFFFFFFF)

end ResourceSelection
