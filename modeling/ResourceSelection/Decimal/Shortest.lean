/-!
# The shortest decimal that reads back

A binary number stands for every real that rounds to it. Of the decimals in that interval the one
with the fewest digits is shown, and of those the nearest.

For each number of digits, from one up, only two decimals can be nearest: the neighbours of the
value on the grid of that many digits. The first grid with a neighbour inside the interval wins.
Everything is decided in whole numbers, so nothing here rounds.
-/

namespace ResourceSelection.Decimal

/-- A positive value and the bounds of what rounds to it, all counted in `unit`ths. -/
structure Interval where
  value : Nat
  /-- The lower bound of what rounds to it. -/
  low : Nat
  /-- The upper bound of what rounds to it. -/
  high : Nat
  /-- The common denominator. -/
  unit : Nat
  /-- Whether the bounds round to the value too. -/
  closed : Bool

/-- What rounds to `mantissa * 2 ^ exponent`. The next number below is half as far away as the
next one above when the mantissa is the least of its length, which `narrow` says. Ties between two
binary numbers go to the even mantissa. -/
def Interval.ofBinary (mantissa : Nat) (exponent : Int) (narrow : Bool) : Interval :=
  let quarter := 4 * mantissa
  let factor := Nat.pow 2 (exponent - 2).toNat
  { value := quarter * factor
    low := (quarter - if narrow then 1 else 2) * factor
    high := (quarter + 2) * factor
    unit := Nat.pow 2 (2 - exponent).toNat
    closed := mantissa % 2 = 0 }

/-- The multiple of `10 ^ exponent` next to the value that lies in the interval, if one does; of
two the nearer one, and the larger one when they are equally near. -/
def Interval.onGrid (i : Interval) (exponent : Int) : Option Nat :=
  let scale := Nat.pow 10 (-exponent).toNat
  let grid := i.unit * Nat.pow 10 exponent.toNat
  let value := i.value * scale
  let below := value / grid
  let reaches := fun (a b : Nat) => if i.closed then decide (a ≤ b) else decide (a < b)
  match reaches (i.low * scale) (below * grid), reaches ((below + 1) * grid) (i.high * scale) with
  | true, true => some (if 2 * (value - below * grid) < grid then below else below + 1)
  | true, false => some below
  | false, true => some (below + 1)
  | false, false => none

/-- How many decimal digits a whole number has. -/
def digitCount (n : Nat) : Nat := (Nat.toDigits 10 n).length

/-- The exponent of the leading decimal digit of the value. -/
def Interval.leading (i : Interval) : Int :=
  if i.unit ≤ i.value then (digitCount (i.value / i.unit) : Int) - 1
  else -(digitCount ((i.unit + i.value - 1) / i.value - 1) : Int)

/-- A whole number without its trailing zeros, and their number added to the exponent; at most
`fuel` zeros are taken. -/
def dropZeros : Nat → Nat → Int → Nat × Int
  | 0, digits, exponent => (digits, exponent)
  | fuel + 1, digits, exponent =>
    if digits % 10 = 0 then dropZeros fuel (digits / 10) (exponent + 1) else (digits, exponent)

/-- The digits and the exponent of the last digit of the shortest decimal in the interval.
Seventeen digits are always enough to tell two binary numbers apart. -/
def Interval.shortest (i : Interval) : Nat × Int :=
  let grid := fun (n : Nat) => i.leading - (n : Int)
  let found := (List.range 17).findSome? fun n => (i.onGrid (grid n)).map fun c => (c, grid n)
  let (digits, exponent) := found.getD (0, 0)
  dropZeros 17 digits exponent

/-- The bit before the stored ones, which every normal mantissa has. -/
def leadingBit : Nat := 0x10000000000000

/-- The shortest decimal of a finite positive float. -/
def shortest (x : Float) : Nat × Int :=
  let bits : Nat := x.toBits.toNat
  let field : Nat := bits / leadingBit % 0x800
  let fraction : Nat := bits % leadingBit
  let i := if field = 0 then Interval.ofBinary fraction (-1074) false
    else Interval.ofBinary (leadingBit + fraction) ((field : Int) - 1075)
      (fraction = 0 && 1 < field)
  i.shortest

end ResourceSelection.Decimal
