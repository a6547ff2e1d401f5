import ResourceSelection.Text.Unseen

/-!
# Quoted text

How a name is shown inside a message: between double quotes, with the quote and the backslash
escaped, four control characters under their usual letters, and every other character that does
not show by itself as its number in hexadecimal. A single quote stands as it is.
-/

namespace ResourceSelection.Text

/-- The spelling of one character inside double quotes. -/
def quotedChar (c : Char) : List Char :=
  if c = '"' then ['\\', '"']
  else if c = '\\' then ['\\', '\\']
  else if c = '\n' then ['\\', 'n']
  else if c = '\r' then ['\\', 'r']
  else if c = '\t' then ['\\', 't']
  else if c = '\x00' then ['\\', '0']
  else if isUnseen c then ['\\', 'u', '\x7b'] ++ Nat.toDigits 16 c.toNat ++ ['\x7d']
  else [c]

/-- A text between double quotes. -/
def quoted (text : String) : String :=
  String.ofList ('"' :: text.toList.flatMap quotedChar ++ ['"'])

end ResourceSelection.Text
