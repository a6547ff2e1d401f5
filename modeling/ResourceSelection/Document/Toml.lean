import ResourceSelection.Document.Toml.Number
import ResourceSelection.Document.Toml.Text
import ResourceSelection.Document.Toml.Tree

/-!
# Reading TOML

A document is a sequence of lines, each of them blank, a comment, an entry or a header. Values run
over lines only inside lists and inside strings with triple marks. The answer is one table.
-/

namespace ResourceSelection.Document.Toml

mutual

/-- A value at the front of a text, and the text after it. `depth` counts the lists and tables
around it. -/
def value? (fuel depth : Nat) (text : List Char) : Option (Value × List Char) :=
  match fuel with
  | 0 => none
  | fuel + 1 =>
    match text with
    | '[' :: rest =>
      if depth + 1 < maxDepth then
        (items? fuel (depth + 1) rest).map fun (items, rest) => (.list items, rest)
      else none
    | '\x7b' :: rest =>
      if depth + 1 < maxDepth then
        match skipSpaces rest with
        | '\x7d' :: rest => some (.table [], rest)
        | _ => (entries? fuel (depth + 1) [] rest).map fun (entries, rest) =>
          (.table (entryValues entries), rest)
      else none
    | c :: rest =>
      if c = '"' || c = '\'' then (string? text).map fun (s, rest) => (.text s, rest)
      else if c = 't' then (Json.after? "rue" rest).map (.bool true, ·)
      else if c = 'f' then (Json.after? "alse" rest).map (.bool false, ·)
      else match instant? text with
        | some rest => some (.instant, rest)
        | none => number? text
    | [] => none

/-- The items of a list up to its closing bracket, a comma after the last one allowed. -/
def items? (fuel depth : Nat) (text : List Char) : Option (List Value × List Char) :=
  match fuel with
  | 0 => none
  | fuel + 1 =>
    match skipComments text.length text with
    | ']' :: rest => some ([], rest)
    | rest => do
      let (v, rest) ← value? fuel depth rest
      match skipComments rest.length rest with
      | ']' :: rest => return ([v], rest)
      | ',' :: rest =>
        let (items, rest) ← items? fuel depth rest
        return (v :: items, rest)
      | _ => none

/-- The entries of a table on one line up to its closing brace. -/
def entries? (fuel depth : Nat) (entries : Entries) (text : List Char) :
    Option (Entries × List Char) :=
  match fuel with
  | 0 => none
  | fuel + 1 => do
    let (key, rest) ← key? text
    let rest ← Json.after? "=" rest
    let (v, rest) ← value? fuel depth (skipSpaces rest)
    let entries ← insert key v entries
    match skipSpaces rest with
    | '\x7d' :: rest => return (entries, rest)
    | ',' :: rest => entries? fuel depth entries rest
    | _ => none

end

/-- A header between single brackets, read after the first. -/
def header? (text : List Char) : Option (List String × List Char) := do
  let (path, rest) ← key? text
  let rest ← Json.after? "]" rest
  return (path, rest)

/-- Reads lines into a draft until the text ends. -/
def lines? : Nat → List Char → Draft → Option Draft
  | 0, _, _ => none
  | fuel + 1, text, d =>
    match skipSpaces text with
    | [] => some d
    | '#' :: rest => (lineEnd? ('#' :: rest)).bind fun rest => lines? fuel rest d
    | '[' :: '[' :: rest => do
      let (path, rest) ← header? rest
      let rest ← Json.after? "]" rest
      let rest ← lineEnd? rest
      let d ← d.repeatedHeader path
      lines? fuel rest d
    | '[' :: rest => do
      let (path, rest) ← header? rest
      let rest ← lineEnd? rest
      let d ← d.header path
      lines? fuel rest d
    | '\n' :: rest => lines? fuel rest d
    | '\r' :: rest => (newline? ('\r' :: rest)).bind fun rest => lines? fuel rest d
    | rest => do
      let (key, rest) ← key? rest
      let rest ← Json.after? "=" rest
      let rest := skipSpaces rest
      let (v, rest) ← value? (2 * rest.length + 1) 0 rest
      let rest ← lineEnd? rest
      let d ← d.entry key v
      lines? fuel rest d

/-- The table that a whole document spells. A mark of the byte order at its front is left out. -/
def parse? (text : String) : Option Value := do
  let chars := match text.toList with
    | '\uFEFF' :: rest => rest
    | chars => chars
  let d ← lines? (chars.length + 1) chars .start
  let entries ← d.finish
  return .table (entryValues entries)

end ResourceSelection.Document.Toml
