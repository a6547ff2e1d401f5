import ResourceSelection.Scalar

/-!
# Rational numbers as a scalar

The numbers in which the library says what it means: no value is special and nothing is rounded.
What the rules do on them is what they are meant to do on floats.
-/

namespace ResourceSelection

instance instScalarRat : Scalar Rat where
  zero := 0
  one := 1
  decLt _ _ := inferInstance
  decLe _ _ := inferInstance
  isNaN _ := false
  isFinite _ := true
  same a b := a == b
  largest := none

end ResourceSelection
