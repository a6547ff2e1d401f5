import ResourceSelection.Decimal.Reading
import ResourceSelection.Document.Value

/-!
# Reading JSON

A text is a value between blanks, and nothing more. What the grammar accepts may still be
unreadable: a number beyond every float, a string with half of a surrogate pair, a container
deeper than `maxDepth`.

A number without fraction and exponent is an integer as long as it fits a signed or an unsigned
word of 64 bits, and a float otherwise. Negative zero is a float, since no integer has its sign.
-/

namespace ResourceSelection.Document.Json

/-- How deeply readable containers may be nested. -/
def maxDepth : Nat := 127

/-- The text after the blanks at its front. -/
def skipBlank (text : List Char) : List Char :=
  text.dropWhile fun c => c = ' ' || c = '\n' || c = '\t' || c = '\r'

/-- The text after a word that it starts with. -/
def after? (word : String) (text : List Char) : Option (List Char) :=
  if word.toList.isPrefixOf text then some (text.drop word.length) else none

/-- The value of a hexadecimal digit. -/
def hexDigit? (c : Char) : Option Nat :=
  if '0' ≤ c ∧ c ≤ '9' then some (c.toNat - '0'.toNat)
  else if 'a' ≤ c ∧ c ≤ 'f' then some (c.toNat - 'a'.toNat + 10)
  else if 'A' ≤ c ∧ c ≤ 'F' then some (c.toNat - 'A'.toNat + 10)
  else none

/-- The number that four hexadecimal digits spell. -/
def hexWord? (a b c d : Char) : Option Nat := do
  let a ← hexDigit? a
  let b ← hexDigit? b
  let c ← hexDigit? c
  let d ← hexDigit? d
  return ((a * 16 + b) * 16 + c) * 16 + d

/-- The units of a string up to its closing quote, and the text after that. A unit is a code point,
or one half of a surrogate pair. -/
def units? : List Char → Option (List Nat × List Char)
  | '"' :: rest => some ([], rest)
  | '\\' :: 'u' :: a :: b :: c :: d :: rest => do
    let unit ← hexWord? a b c d
    let (units, rest) ← units? rest
    return (unit :: units, rest)
  | '\\' :: c :: rest => do
    let unit ← match c with
      | '"' | '\\' | '/' => some c.toNat
      | 'b' => some 8
      | 'f' => some 12
      | 'n' => some 10
      | 'r' => some 13
      | 't' => some 9
      | _ => none
    let (units, rest) ← units? rest
    return (unit :: units, rest)
  | c :: rest =>
    if c.toNat < 0x20 then none
    else do
      let (units, rest) ← units? rest
      return (c.toNat :: units, rest)
  | [] => none

/-- The characters that units spell, unless one is half of a pair without the other. -/
def joinPairs? : List Nat → Option (List Char)
  | [] => some []
  | high :: rest =>
    if 0xD800 ≤ high ∧ high < 0xDC00 then
      match rest with
      | low :: rest =>
        if 0xDC00 ≤ low ∧ low < 0xE000 then
          (joinPairs? rest).map
            (Char.ofNat (0x10000 + (high - 0xD800) * 0x400 + (low - 0xDC00)) :: ·)
        else none
      | [] => none
    else if 0xDC00 ≤ high ∧ high < 0xE000 then none
    else (joinPairs? rest).map (Char.ofNat high :: ·)

/-- A number from its parts: sign, digits before and after the point, and the text of the exponent
if there is one. -/
def number (negative : Bool) (whole places : List Char) (fraction : Bool)
    (exponent : Option Int) : Value :=
  let digits := Decimal.ofDigits (whole ++ places)
  let real :=
    let x := Decimal.rounded negative digits (exponent.getD 0 - places.length)
    if x.isFinite then .real x else .unreadable
  if fraction || exponent.isSome then real
  else if negative then
    if digits = 0 then .real (-0.0)
    else if digits ≤ 0x8000000000000000 then .integer (-digits)
    else real
  else if digits < 0x10000000000000000 then .integer digits else real

/-- A number at the front of a text, and the text after it. -/
def number? (text : List Char) : Option (Value × List Char) :=
  let (negative, text) := match text with
    | '-' :: rest => (true, rest)
    | _ => (false, text)
  let (whole, text) := Decimal.spanDigits text
  if whole.isEmpty || (whole.head? = some '0' && 1 < whole.length) then none
  else
    let (fraction, places, text) := match text with
      | '.' :: rest =>
        let (places, rest) := Decimal.spanDigits rest
        (true, places, rest)
      | _ => (false, [], text)
    if fraction && places.isEmpty then none
    else match text with
      | [] => some (number negative whole places fraction none, [])
      | c :: rest =>
        if c = 'e' || c = 'E' then
          let (down, digits) := Decimal.takeSign rest
          let (digits, rest) := Decimal.spanDigits digits
          if digits.isEmpty then none
          else
            let e : Int := Decimal.ofDigits digits
            some (number negative whole places fraction (some (if down then -e else e)), rest)
        else some (number negative whole places fraction none, text)

/-- A value without parts at the front of a text, and the text after it. -/
def scalar? : List Char → Option (Value × List Char)
  | '"' :: rest => do
    let (units, rest) ← units? rest
    return (((joinPairs? units).map fun cs => Value.text (String.ofList cs)).getD .unreadable, rest)
  | 't' :: rest => (after? "rue" rest).map (.bool true, ·)
  | 'f' :: rest => (after? "alse" rest).map (.bool false, ·)
  | 'n' :: rest => (after? "ull" rest).map (.null, ·)
  | text => number? text

mutual

/-- A value at the front of a text, blanks before it skipped, and the text after it. The fuel is
the length of the text or more; `depth` counts the containers around the value. -/
def value? (fuel depth : Nat) (text : List Char) : Option (Value × List Char) :=
  match fuel with
  | 0 => none
  | fuel + 1 =>
    let shallow := fun (v : Value) => if depth < maxDepth then v else .unreadable
    match skipBlank text with
    | '[' :: rest =>
      match skipBlank rest with
      | ']' :: rest => some (shallow (.list []), rest)
      | rest => (items? fuel (depth + 1) rest).map fun (items, rest) =>
        (shallow (.list items), rest)
    | '\x7b' :: rest =>
      match skipBlank rest with
      | '\x7d' :: rest => some (shallow (.table []), rest)
      | rest => (entries? fuel (depth + 1) rest).map fun (entries, rest) =>
        (shallow ((entries.map .table).getD .unreadable), rest)
    | rest => scalar? rest

/-- The items of a list up to its closing bracket. -/
def items? (fuel depth : Nat) (text : List Char) : Option (List Value × List Char) :=
  match fuel with
  | 0 => none
  | fuel + 1 => do
    let (v, rest) ← value? fuel depth text
    match skipBlank rest with
    | ']' :: rest => return ([v], rest)
    | ',' :: rest =>
      let (items, rest) ← items? fuel depth rest
      return (v :: items, rest)
    | _ => none

/-- The entries of a table up to its closing brace; none of them can be read when a name cannot. -/
def entries? (fuel depth : Nat) (text : List Char) :
    Option (Option (List (String × Value)) × List Char) :=
  match fuel with
  | 0 => none
  | fuel + 1 => do
    let (name, rest) ← match skipBlank text with
      | '"' :: rest => units? rest
      | _ => none
    let rest ← match skipBlank rest with
      | ':' :: rest => some rest
      | _ => none
    let (v, rest) ← value? fuel depth rest
    let entry := (joinPairs? name).map fun cs => (String.ofList cs, v)
    match skipBlank rest with
    | '\x7d' :: rest => return (entry.map ([·]), rest)
    | ',' :: rest =>
      let (entries, rest) ← entries? fuel depth rest
      return (entry.bind fun e => entries.map (e :: ·), rest)
    | _ => none

end

/-- The value that a whole text spells. -/
def parse? (text : String) : Option Value := do
  let chars := text.toList
  let (v, rest) ← value? (2 * chars.length + 1) 0 chars
  if (skipBlank rest).isEmpty then return v else none

end ResourceSelection.Document.Json
