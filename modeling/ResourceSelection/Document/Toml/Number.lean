import ResourceSelection.Decimal.Reading
import ResourceSelection.Document.Json
import ResourceSelection.Document.Value

/-!
# Numbers, dates and times in TOML

An integer fits a signed word of 64 bits and may be written in four bases. A float has a fraction,
an exponent or both, and must not be too large; or it is infinite or no number by name. Digits may
be separated by single underscores. Of a date or a time only its end matters here, and that it
exists.
-/

namespace ResourceSelection.Document.Toml

/-- Whether every underscore in a run of digits stands between two digits. -/
def wellSeparated (run : List Char) : Bool :=
  run.head? ≠ some '_' && run.getLast? ≠ some '_' &&
    (run.zip run.tail).all fun (a, b) => a ≠ '_' || b ≠ '_'

/-- The digits at the front of a text, underscores between them left out, and the text after
them. -/
def digits? (ok : Char → Bool) (text : List Char) : Option (List Char × List Char) :=
  let run := text.takeWhile fun c => ok c || c = '_'
  if wellSeparated run then some (run.filter (· ≠ '_'), text.drop run.length) else none

/-- An integer in a base, read after the two characters that say which. -/
def based? (base : Nat) (text : List Char) : Option (Value × List Char) := do
  let (digits, rest) ← digits? (fun c => (Json.hexDigit? c).any (· < base)) text
  let n := digits.foldl (fun n c => base * n + (Json.hexDigit? c).getD 0) 0
  if digits.isEmpty || 0x8000000000000000 ≤ n then none else return (.integer n, rest)

/-- The whole part of a decimal number, which has no leading zeros. -/
def whole? (text : List Char) : Option (List Char × List Char) := do
  let (digits, rest) ← digits? Char.isDigit text
  if digits.isEmpty || (digits.head? = some '0' && 1 < digits.length) then none
  else return (digits, rest)

/-- The digits after a point at the front of a text, if there is one. -/
def places? : List Char → Option (Option (List Char) × List Char)
  | '.' :: rest => do
    let (digits, rest) ← digits? Char.isDigit rest
    if digits.isEmpty then none else return (some digits, rest)
  | text => some (none, text)

/-- An exponent at the front of a text, if there is one. -/
def exponent? : List Char → Option (Option Int × List Char)
  | [] => some (none, [])
  | c :: rest =>
    if c = 'e' || c = 'E' then do
      let (down, rest) := Decimal.takeSign rest
      let (digits, rest) ← digits? Char.isDigit rest
      let e : Int := Decimal.ofDigits digits
      if digits.isEmpty then none else return (some (if down then -e else e), rest)
    else some (none, c :: rest)

/-- A decimal number, read after its sign. -/
def decimal? (negative : Bool) (text : List Char) : Option (Value × List Char) := do
  let (whole, rest) ← whole? text
  let (places, rest) ← places? rest
  let (exponent, rest) ← exponent? rest
  if places.isNone && exponent.isNone then
    let n : Int := Decimal.ofDigits whole
    let n := if negative then -n else n
    if -0x8000000000000000 ≤ n ∧ n < 0x8000000000000000 then return (.integer n, rest) else none
  else
    let places := places.getD []
    let x := Decimal.rounded negative (Decimal.ofDigits (whole ++ places))
      (exponent.getD 0 - places.length)
    if x == 1.0 / 0.0 then none else return (.real x, rest)

/-- A number. -/
def number? (text : List Char) : Option (Value × List Char) :=
  match text with
  | '0' :: 'x' :: rest => based? 16 rest
  | '0' :: 'o' :: rest => based? 8 rest
  | '0' :: 'b' :: rest => based? 2 rest
  | _ =>
    let (negative, rest) := Decimal.takeSign text
    match Json.after? "inf" rest with
    | some rest => some (.real (if negative then -(1.0 / 0.0) else 1.0 / 0.0), rest)
    | none =>
      match Json.after? "nan" rest with
      | some rest => some (.real (0.0 / 0.0), rest)
      | none => decimal? negative rest

/-- A number of exactly so many digits. -/
def fixed? (digits : Nat) (text : List Char) : Option (Nat × List Char) :=
  let front := text.take digits
  if front.length = digits ∧ front.all Char.isDigit then
    some (Decimal.ofDigits front, text.drop digits)
  else none

/-- The number of days of a month. -/
def daysIn (year month : Nat) : Nat :=
  if month = 2 then
    if year % 4 = 0 ∧ (year % 100 ≠ 0 ∨ year % 400 = 0) then 29 else 28
  else if month ∈ [4, 6, 9, 11] then 30
  else 31

/-- The text after a date. -/
def date? (text : List Char) : Option (List Char) := do
  let (year, rest) ← fixed? 4 text
  let rest ← Json.after? "-" rest
  let (month, rest) ← fixed? 2 rest
  let rest ← Json.after? "-" rest
  let (day, rest) ← fixed? 2 rest
  if 1 ≤ month ∧ month ≤ 12 ∧ 1 ≤ day ∧ day ≤ daysIn year month then return rest else none

/-- The text after an hour and a minute. -/
def hourMinute? (text : List Char) : Option (List Char) := do
  let (hour, rest) ← fixed? 2 text
  let rest ← Json.after? ":" rest
  let (minute, rest) ← fixed? 2 rest
  if hour < 24 ∧ minute < 60 then return rest else none

/-- The text after a time of day. A minute may have a leap second. -/
def time? (text : List Char) : Option (List Char) := do
  let rest ← hourMinute? text
  let rest ← Json.after? ":" rest
  let (second, rest) ← fixed? 2 rest
  if 60 < second then none
  else match rest with
    | '.' :: rest =>
      let (digits, rest) := Decimal.spanDigits rest
      if digits.isEmpty then none else return rest
    | _ => return rest

/-- The text after an offset from universal time, if there is one. -/
def offset? : List Char → Option (List Char)
  | c :: rest =>
    if c = 'Z' || c = 'z' then some rest
    else if c = '+' || c = '-' then hourMinute? rest
    else some (c :: rest)
  | [] => some []

/-- The text after a date, a time, or both with an offset or without. -/
def instant? (text : List Char) : Option (List Char) :=
  match date? text with
  | none => time? text
  | some rest =>
    match rest with
    | c :: more =>
      if c = 'T' || c = 't' || c = ' ' then
        match time? more with
        | some rest => offset? rest
        | none => some rest
      else some rest
    | [] => some []

end ResourceSelection.Document.Toml
