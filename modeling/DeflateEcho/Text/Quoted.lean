import DeflateEcho.Text.Unprintable

/-!
# Text/Quoted — a text in quotes, with escapes for what would not show

Quotes and backslashes are written behind a backslash, the usual control characters by a letter, and
every other character that would not show as its number.  So the quoted text has no line breaks and
ends at the first quote that has no backslash before it.
-/

namespace DeflateEcho.Text

/-- How a character is written inside quotes. -/
def quoteChar (c : Char) : List Char :=
  if c = '\x00' then ['\\', '0']
  else if c = '\t' then ['\\', 't']
  else if c = '\n' then ['\\', 'n']
  else if c = '\r' then ['\\', 'r']
  else if c = '"' then ['\\', '"']
  else if c = '\\' then ['\\', '\\']
  else if isUnprintable c then ['\\', 'u', '\x7b'] ++ Nat.toDigits 16 c.toNat ++ ['\x7d']
  else [c]

/-- A text in quotes. -/
def quote (text : String) : String :=
  String.ofList ('"' :: text.toList.flatMap quoteChar ++ ['"'])

end DeflateEcho.Text
