import ResourceSelection.Decimal.Shortest

/-!
# Written numbers

How a float appears in a message. The digits are always the shortest that read back; a style
decides where positional writing ends and whether a whole number shows that it is a float.
-/

namespace ResourceSelection.Decimal

/-- The decisions that writing a float leaves open. -/
structure Style where
  /-- The least and the greatest exponent of the leading digit that are written positionally;
  without them every number is. -/
  positional : Option (Int × Int)
  /-- What follows the last digit of a whole number. -/
  wholeEnd : String

/-- Numbers in prose: always positional, and a whole number looks like one. -/
def Style.prose : Style := ⟨none, ""⟩

/-- Numbers in a listing of fields: a float shows that it is one, and very large and very small
ones have an exponent. -/
def Style.listing : Style := ⟨some (-4, 15), ".0"⟩

/-- Digits around a decimal point, `exponent` being that of the last digit. -/
def positional (wholeEnd : String) (digits : String) (exponent : Int) : String :=
  let zeros := fun (n : Nat) => String.ofList (List.replicate n '0')
  if 0 ≤ exponent then digits ++ zeros exponent.toNat ++ wholeEnd
  else
    let places := (-exponent).toNat
    if places < digits.length then
      let whole := digits.length - places
      String.ofList (digits.toList.take whole) ++ "." ++ String.ofList (digits.toList.drop whole)
    else "0." ++ zeros (places - digits.length) ++ digits

/-- One digit, a point before the others if there are any, and the exponent of the first. -/
def scientific (digits : String) (leading : Int) : String :=
  match digits.toList with
  | [] => ""
  | [d] => String.ofList [d, 'e'] ++ toString leading
  | d :: rest => String.ofList (d :: '.' :: rest) ++ "e" ++ toString leading

/-- A float in a style. Zero keeps its sign. -/
def write (style : Style) (x : Float) : String :=
  if x.isNaN then "NaN"
  else
    let negative := 0x8000000000000000 ≤ x.toBits.toNat
    let sign := if negative then "-" else ""
    if x.isInf then sign ++ "inf"
    else if x == 0.0 then sign ++ "0" ++ style.wholeEnd
    else
      let (digits, exponent) := shortest x
      let text := toString digits
      let leading := exponent + text.length - 1
      let fits := match style.positional with
        | none => true
        | some (least, greatest) => decide (least ≤ leading) && decide (leading ≤ greatest)
      sign ++ if fits then positional style.wholeEnd text exponent else scientific text leading

/-- A float as it stands in prose. -/
def prose (x : Float) : String := write .prose x

/-- A float as it stands in a listing of fields. -/
def listing (x : Float) : String := write .listing x

end ResourceSelection.Decimal
