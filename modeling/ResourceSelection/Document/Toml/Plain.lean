import ResourceSelection.Document.Toml

/-!
# Documents of unknown shape

Whoever reads a document without knowing its shape sees a table of plain values: truth values,
numbers, texts, lists and tables. An instant has no place among them. It travels as a table that
begins with a reserved name, under which its text stands.

A document could use that name itself. A table that begins with it is then taken for an instant:
what follows in it is not looked at, and the document is refused when the text is no instant. Only
the outermost table cannot be mistaken, since a document is always a table.
-/

namespace ResourceSelection.Document.Toml

/-- The name that an instant's text stands under. -/
def instantName : String := "$__toml_private_datetime"

/-- Whether a text is an instant and nothing more. -/
def isInstantText (text : String) : Bool := instant? text.toList = some []

mutual

/-- Whether every table in a value is one, or an instant that travels as one. -/
def isSound : Value → Bool
  | .list items => allSound items
  | .table ((name, v) :: rest) =>
    if name = instantName then (v.text?.map isInstantText).getD false
    else isSound v && entriesSound rest
  | _ => true

/-- Whether all values of a list are sound. -/
def allSound : List Value → Bool
  | [] => true
  | v :: rest => isSound v && allSound rest

/-- Whether all values of a table are sound. -/
def entriesSound : List (String × Value) → Bool
  | [] => true
  | (_, v) :: rest => isSound v && entriesSound rest

end

/-- The table that a document of unknown shape spells. -/
def plain? (text : String) : Option Value :=
  match parse? text with
  | some (.table entries) => if entriesSound entries then some (.table entries) else none
  | _ => none

end ResourceSelection.Document.Toml
