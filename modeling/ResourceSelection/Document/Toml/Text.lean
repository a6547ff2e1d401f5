import ResourceSelection.Document.Json

/-!
# Text in TOML

Blanks, comments, strings and keys. A string is basic, with escapes, or literal, without; either
may be written between single quotation marks and then stays on its line, or between triple ones
and then may run over several. Functions take the text from where they start reading and answer
what they read with the text after it.
-/

namespace ResourceSelection.Document.Toml

/-- Whether a character may stand in a line: a tab, or anything that is no control character. -/
def isPlain (c : Char) : Bool := c = '\t' || (0x20 ≤ c.toNat && c.toNat ≠ 0x7F)

/-- The text after the spaces and tabs at its front. -/
def skipSpaces (text : List Char) : List Char := text.dropWhile fun c => c = ' ' || c = '\t'

/-- The text after a line break at its front. -/
def newline? : List Char → Option (List Char)
  | '\n' :: rest => some rest
  | '\r' :: '\n' :: rest => some rest
  | _ => none

/-- The text after a comment at its front, if there is one. -/
def skipComment : List Char → List Char
  | '#' :: rest => rest.dropWhile isPlain
  | text => text

/-- The text after the end of a line: spaces, a comment if there is one, and a line break or the
end of the text. -/
def lineEnd? (text : List Char) : Option (List Char) :=
  match skipComment (skipSpaces text) with
  | [] => some []
  | rest => newline? rest

/-- The text after spaces and line breaks at its front. -/
def skipBreaks : Nat → List Char → List Char
  | 0, text => text
  | fuel + 1, text =>
    match newline? (skipSpaces text) with
    | some rest => skipBreaks fuel rest
    | none => skipSpaces text

/-- The text after spaces, line breaks and comments at its front. -/
def skipComments : Nat → List Char → List Char
  | 0, text => text
  | fuel + 1, text =>
    match skipComment (skipSpaces text) with
    | [] => []
    | rest =>
      match newline? rest with
      | some rest => skipComments fuel rest
      | none => rest

/-- The character with a number, if there is one. -/
def charOf? (n : Nat) : Option Char :=
  if h : n.isValidChar then some (Char.ofNatAux n h) else none

/-- The number that hexadecimal digits spell. -/
def hexNumber? (digits : List Char) : Option Nat :=
  digits.foldlM (fun n c => (Json.hexDigit? c).map (16 * n + ·)) 0

/-- The character that a backslash and a letter stand for. -/
def escaped? : Char → Option Char
  | 'b' => some '\x08'
  | 't' => some '\t'
  | 'n' => some '\n'
  | 'f' => some '\x0c'
  | 'r' => some '\r'
  | '"' => some '"'
  | '\\' => some '\\'
  | _ => none

/-- The character that an escape stands for, read after its backslash. -/
def escape? : List Char → Option (Char × List Char)
  | 'u' :: rest =>
    if rest.length < 4 then none
    else ((hexNumber? (rest.take 4)).bind charOf?).map (·, rest.drop 4)
  | 'U' :: rest =>
    if rest.length < 8 then none
    else ((hexNumber? (rest.take 8)).bind charOf?).map (·, rest.drop 8)
  | c :: rest => (escaped? c).map (·, rest)
  | [] => none

/-- A basic string on one line, after its opening mark. -/
def basic? : Nat → List Char → Option (List Char × List Char)
  | 0, _ => none
  | fuel + 1, text =>
    match text with
    | '"' :: rest => some ([], rest)
    | '\\' :: rest => do
      let (c, rest) ← escape? rest
      let (cs, rest) ← basic? fuel rest
      return (c :: cs, rest)
    | c :: rest =>
      if isPlain c then (basic? fuel rest).map fun (cs, rest) => (c :: cs, rest) else none
    | [] => none

/-- A literal string on one line, after its opening mark. -/
def literal? (text : List Char) : Option (List Char × List Char) :=
  let body := text.takeWhile fun c => isPlain c && c ≠ '\''
  match text.drop body.length with
  | '\'' :: rest => some (body, rest)
  | _ => none

/-- A string over several lines, after its opening marks. Up to two marks may stand before the
three that close it. Line breaks count as one character each. With `escapes`, a backslash at the
end of a line takes the break and the blanks after it away. -/
def multiline? (mark : Char) (escapes : Bool) : Nat → List Char → Option (List Char × List Char)
  | 0, _ => none
  | fuel + 1, text =>
    let marks := (text.takeWhile (· = mark)).length
    let go := fun (c : Char) (rest : List Char) =>
      (multiline? mark escapes fuel rest).map fun (cs, rest) => (c :: cs, rest)
    if 3 ≤ marks then
      let kept := min (marks - 3) 2
      some (List.replicate kept mark, text.drop (kept + 3))
    else match text with
      | [] => none
      | c :: rest =>
        if c = '\\' && escapes then
          match newline? (skipSpaces rest) with
          | some rest => multiline? mark escapes fuel (skipBreaks rest.length rest)
          | none => (escape? rest).bind fun (c, rest) => go c rest
        else if isPlain c then go c rest
        else (newline? text).bind fun rest => go '\n' rest

/-- A string after its opening marks, the break that may follow them left out. -/
def multilineBody? (mark : Char) (escapes : Bool) (text : List Char) :
    Option (List Char × List Char) :=
  let text := (newline? text).getD text
  multiline? mark escapes (text.length + 1) text

/-- A string in any of the four forms. -/
def string? : List Char → Option (String × List Char)
  | '"' :: '"' :: '"' :: rest => (multilineBody? '"' true rest).map fun (cs, rest) =>
    (String.ofList cs, rest)
  | '"' :: rest => (basic? (rest.length + 1) rest).map fun (cs, rest) => (String.ofList cs, rest)
  | '\'' :: '\'' :: '\'' :: rest => (multilineBody? '\'' false rest).map fun (cs, rest) =>
    (String.ofList cs, rest)
  | '\'' :: rest => (literal? rest).map fun (cs, rest) => (String.ofList cs, rest)
  | _ => none

/-- Whether a character may stand in a key without quotation marks. -/
def isBare (c : Char) : Bool := c.isAlphanum || c = '_' || c = '-'

/-- One part of a key. -/
def keyPart? : List Char → Option (String × List Char)
  | '"' :: rest => (basic? (rest.length + 1) rest).map fun (cs, rest) => (String.ofList cs, rest)
  | '\'' :: rest => (literal? rest).map fun (cs, rest) => (String.ofList cs, rest)
  | text =>
    let part := text.takeWhile isBare
    if part.isEmpty then none else some (String.ofList part, text.drop part.length)

/-- How deeply values may be nested, and one more than keys may have parts. -/
def maxDepth : Nat := 80

/-- The parts of a key, separated by points, with spaces around each. -/
def keyParts? : Nat → List Char → Option (List String × List Char)
  | 0, _ => none
  | fuel + 1, text => do
    let (part, rest) ← keyPart? (skipSpaces text)
    match skipSpaces rest with
    | '.' :: rest =>
      let (parts, rest) ← keyParts? fuel rest
      return (part :: parts, rest)
    | rest => return ([part], rest)

/-- A key. -/
def key? (text : List Char) : Option (List String × List Char) :=
  (keyParts? (text.length + 1) text).filter fun (parts, _) => parts.length < maxDepth

end ResourceSelection.Document.Toml
