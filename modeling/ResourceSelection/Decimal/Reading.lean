/-!
# Reading numbers

Decimal text to numbers: whole numbers up to a bound, and floats, rounded once from the exact
decimal. A float may be written with or without a whole part, a fraction or an exponent, as long
as there is a digit, or as one of the words for infinity and for no number in any case.
-/

namespace ResourceSelection.Decimal

/-- The number that a run of decimal digits spells. -/
def ofDigits (digits : List Char) : Nat :=
  digits.foldl (fun n c => 10 * n + (c.toNat - '0'.toNat)) 0

/-- The digits at the front of a text, and the rest. -/
def spanDigits (text : List Char) : List Char × List Char :=
  (text.takeWhile Char.isDigit, text.dropWhile Char.isDigit)

/-- The float nearest to `digits * 10 ^ exponent`, negated if asked. A decimal is infinite when it
reaches `10 ^ 309` and zero when it stays below `10 ^ -324`; no power of ten is raised for those. -/
def rounded (negative : Bool) (digits : Nat) (exponent : Int) : Float :=
  let magnitude := exponent + (Nat.toDigits 10 digits).length
  let x :=
    if digits = 0 || magnitude ≤ -324 then 0.0
    else if 310 ≤ magnitude then 1.0 / 0.0
    else match exponent with
      | .ofNat e => Float.ofScientific digits false e
      | .negSucc e => Float.ofScientific digits true (e + 1)
  if negative then -x else x

/-- A leading sign taken off; `true` says that it was a minus. -/
def takeSign : List Char → Bool × List Char
  | '-' :: rest => (true, rest)
  | '+' :: rest => (false, rest)
  | text => (false, text)

/-- The exponent after the digits: the letter, a sign if there is one, at least one digit, and
nothing more. No letter stands for the exponent zero. -/
def exponent? : List Char → Option Int
  | [] => some 0
  | c :: rest =>
    if c = 'e' || c = 'E' then
      let (negative, digits) := takeSign rest
      if digits.isEmpty || !digits.all Char.isDigit then none
      else some (if negative then -(ofDigits digits) else ofDigits digits)
    else none

/-- A float written in decimal or in words. -/
def float? (text : List Char) : Option Float :=
  let (negative, body) := takeSign text
  let word := String.ofList (body.map Char.toLower)
  let signed := fun (x : Float) => if negative then -x else x
  if word = "inf" || word = "infinity" then some (signed (1.0 / 0.0))
  else if word = "nan" then some (0.0 / 0.0)
  else
    let (whole, rest) := spanDigits body
    let (places, rest) := match rest with
      | '.' :: more => spanDigits more
      | _ => ([], rest)
    if whole.isEmpty && places.isEmpty then none
    else (exponent? rest).map fun e =>
      rounded negative (ofDigits (whole ++ places)) (e - places.length)

/-- A whole number of at most `bound`, with an optional plus sign. -/
def natUpTo? (bound : Nat) (text : List Char) : Option Nat :=
  let digits := match text with
    | '+' :: rest => rest
    | _ => text
  if digits.isEmpty || !digits.all Char.isDigit then none
  else if ofDigits digits ≤ bound then some (ofDigits digits) else none

/-- A truth value, spelled in small letters. -/
def bool? (text : List Char) : Option Bool :=
  if text = "true".toList then some true
  else if text = "false".toList then some false
  else none

end ResourceSelection.Decimal
