/-!
# Toml/Scan — blanks, comments and the ends of lines

A **scanner** takes something off the front of a text, or finds that it is not there.
-/

namespace DeflateEcho.Toml

/-- Takes a value off the front of a text. -/
abbrev Scanner (α : Type) := List Char → Option (α × List Char)

/-- A character that may stand in a comment, or as itself in a text: no control character but the
tab. -/
def isPlain (c : Char) : Bool := c = '\t' || (' ' ≤ c && c ≠ '\x7f')

/-- A blank inside a line. -/
def isSpace (c : Char) : Bool := c = ' ' || c = '\t'

/-- A text without the blanks at its front. -/
def skipSpaces (text : List Char) : List Char := text.dropWhile isSpace

/-- The end of a line, which the end of the text is too. -/
def lineBreak : List Char → Option (List Char)
  | [] => some []
  | '\n' :: rest => some rest
  | '\r' :: '\n' :: rest => some rest
  | _ => none

/-- The rest of a line behind a statement: blanks, a comment if there is one, and the end. -/
def lineEnd (text : List Char) : Option (List Char) :=
  match skipSpaces text with
  | '#' :: comment => lineBreak (comment.dropWhile isPlain)
  | text => lineBreak text

/-- What may stand between the parts of an array: blanks, ends of lines, and comments. -/
def skipTrivia : (inComment : Bool) → List Char → List Char
  | _, [] => []
  | _, '\n' :: rest => skipTrivia false rest
  | _, '\r' :: '\n' :: rest => skipTrivia false rest
  | true, c :: rest => if isPlain c then skipTrivia true rest else c :: rest
  | false, c :: rest =>
    if c = '#' then skipTrivia true rest
    else if isSpace c then skipTrivia false rest
    else c :: rest

end DeflateEcho.Toml
