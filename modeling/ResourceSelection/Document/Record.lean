import ResourceSelection.Document.Json
import ResourceSelection.Document.Toml

/-!
# Records in documents

A record is written as a table of its fields, or as the list of their values in order of
declaration. In a table other names are ignored, and a field must not come twice. In a list there
must not be more values than fields.

A choice between records is marked by a tag: an entry of its own in a table, the first value of a
list. A choice between names is a text, or a table whose only entry has the name and holds
nothing, which the two formats spell differently.
-/

namespace ResourceSelection.Document

/-- The formats that documents come in. -/
inductive Format where
  | json
  | toml
deriving DecidableEq, Repr

/-- The value that a text spells in a format. -/
def Format.parse? : Format → String → Option Value
  | .json, text => Json.parse? text
  | .toml, text => Toml.parse? text

/-- Whether a value is how a format spells that there is nothing to say. -/
def Format.isNothing : Format → Value → Bool
  | .json, .null => true
  | .toml, .list [] => true
  | .toml, .table [] => true
  | _, _ => false

/-- The fields of a record: the value written for each name, if there is one. -/
abbrev Fields := String → Option Value

namespace Fields

/-- A field that has a default. -/
def getD {α : Type} (fields : Fields) (name : String) (read : Value → Option α) (default : α) :
    Option α :=
  match fields name with
  | some v => read v
  | none => some default

/-- A field that must be written. -/
def get? {α : Type} (fields : Fields) (name : String) (read : Value → Option α) : Option α :=
  (fields name).bind read

end Fields

namespace Value

/-- The fields of a record with the given names. -/
def fields? (names : List String) : Value → Option Fields
  | .table entries =>
    if names.any fun name => 1 < entries.countP (·.1 = name) then none
    else some fun name => entries.lookup name
  | .list items =>
    if names.length < items.length then none else some fun name => (names.zip items).lookup name
  | _ => none

/-- The fields of a record with the given names, which a list must give values for one and all. -/
def allFields? (names : List String) : Value → Option Fields
  | .list items => if items.length < names.length then none else fields? names (.list items)
  | v => fields? names v

/-- The tag of a record and the record without it. All of the record must be readable, also what
nobody asks for. -/
def tagged? (tag : String) : Value → Option (String × Value)
  | .table entries =>
    match entries.filter (·.1 = tag) with
    | [(_, .text choice)] =>
      let rest := entries.filter (·.1 ≠ tag)
      if entriesReadable rest then some (choice, .table rest) else none
    | _ => none
  | .list (.text choice :: rest) => if allReadable rest then some (choice, .list rest) else none
  | _ => none

/-- One of several names. -/
def choice? {α : Type} (format : Format) (choices : List (String × α)) : Value → Option α
  | .text name => choices.lookup name
  | .table [(name, v)] => if format.isNothing v then choices.lookup name else none
  | _ => none

end Value

end ResourceSelection.Document
