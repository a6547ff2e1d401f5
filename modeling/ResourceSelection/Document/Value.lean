/-!
# Values in documents

What a document in a data format says, whichever the format. Tables keep their entries in the order
of the document, repeated names included: whether a repeated name matters depends on who reads it.

Readers look only at what they ask for. A value that is well formed but cannot be represented, such
as a number out of range, therefore spoils a document only for a reader that needs it. It is kept
as `unreadable`.
-/

namespace ResourceSelection.Document

/-- A value in a document. -/
inductive Value where
  | null
  | bool (b : Bool)
  | integer (n : Int)
  | real (x : Float)
  | text (s : String)
  /-- A date, a time or both. -/
  | instant
  | list (items : List Value)
  | table (entries : List (String × Value))
  /-- A value that is well formed and cannot be represented. -/
  | unreadable

namespace Value

mutual

/-- Whether everything in a value can be represented. -/
def isReadable : Value → Bool
  | .list items => allReadable items
  | .table entries => entriesReadable entries
  | .unreadable => false
  | _ => true

/-- Whether everything in a list of values can be represented. -/
def allReadable : List Value → Bool
  | [] => true
  | v :: rest => v.isReadable && allReadable rest

/-- Whether everything in the entries of a table can be represented. -/
def entriesReadable : List (String × Value) → Bool
  | [] => true
  | (_, v) :: rest => v.isReadable && entriesReadable rest

end

/-- A truth value. -/
def bool? : Value → Option Bool
  | .bool b => some b
  | _ => none

/-- A text. -/
def text? : Value → Option String
  | .text s => some s
  | _ => none

/-- A float, also one written without a fraction. -/
def float? : Value → Option Float
  | .real x => some x
  | .integer n => some (Float.ofInt n)
  | _ => none

/-- A whole number below `bound`. -/
def natBelow? (bound : Nat) : Value → Option Nat
  | .integer (.ofNat n) => if n < bound then some n else none
  | _ => none

/-- Nothing, or what `read` makes of the value. -/
def optional? {α : Type} (read : Value → Option α) : Value → Option (Option α)
  | .null => some none
  | v => (read v).map some

end Value

end ResourceSelection.Document
