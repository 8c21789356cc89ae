import DeflateEcho.Toml.Document
import DeflateEcho.Toml.Numeral
import DeflateEcho.Toml.Quoted

/-!
# Toml/Syntax — from the text of a file to its values

Values nest through arrays and inline tables, so their scanner is built level by level: at each
level the items are scanned by the level below, and at the bottom only simple values are left.
Loops over items and lines are bounded by the length of the text, of which each round takes at least
one character.
-/

namespace DeflateEcho.Toml

/-! ## Values -/

/-- A value without parts. -/
def simple : Scanner Value
  | 't' :: 'r' :: 'u' :: 'e' :: rest => some (.boolean true, rest)
  | 'f' :: 'a' :: 'l' :: 's' :: 'e' :: rest => some (.boolean false, rest)
  | text =>
    match text with
    | '"' :: _ => (quoted text).map fun (text, rest) => (.string text, rest)
    | '\'' :: _ => (quoted text).map fun (text, rest) => (.string text, rest)
    | _ => numeral text

/-- The rest of an array, behind the items read so far (last one first).  A comma may stand behind
the last item. -/
def itemsFrom (item : Scanner Value) : (rounds : Nat) → (read : List Value) → Scanner Value
  | 0, _, _ => none
  | rounds + 1, read, text =>
    match skipTrivia false text with
    | ']' :: rest => some (.array read.reverse, rest)
    | text =>
      match item text with
      | none => none
      | some (v, text) =>
        match skipTrivia false text with
        | ',' :: rest => itemsFrom item rounds (v :: read) rest
        | ']' :: rest => some (.array (v :: read).reverse, rest)
        | _ => none

/-- A key and its value. -/
def assignmentOf (item : Scanner Value) : Scanner (List String × Value) := fun text => do
  let (path, text) ← keyPath text
  let text ← expect '=' (skipSpaces text)
  let (v, text) ← item (skipSpaces text)
  some ((path, v), text)

/-- The rest of an inline table that has entries, behind those read so far (last one first).  It
stands on one line, and no comma stands behind its last entry. -/
def inlineFrom (item : Scanner Value) :
    (rounds : Nat) → (read : List (List String × Value)) → Scanner Value
  | 0, _, _ => none
  | rounds + 1, read, text =>
    match assignmentOf item text with
    | none => none
    | some (entry, text) =>
      match skipSpaces text with
      | ',' :: rest => inlineFrom item rounds (entry :: read) rest
      | '\x7d' :: rest =>
        (tableOf (entry :: read).reverse).map fun entries => (.table entries, rest)
      | _ => none

/-- A value with at most `depth` levels of arrays and inline tables. -/
def valueWithin : (depth : Nat) → Scanner Value
  | 0, text => simple text
  | depth + 1, text =>
    match text with
    | '[' :: rest => itemsFrom (valueWithin depth) (rest.length + 1) [] rest
    | '\x7b' :: rest =>
      match skipSpaces rest with
      | '\x7d' :: rest => some (.table [], rest)
      | rest => inlineFrom (valueWithin depth) (rest.length + 1) [] rest
    | text => simple text

/-- A value. -/
def value : Scanner Value := valueWithin (maxDepth - 1)

/-! ## Statements -/

/-- One statement, up to the end of its line. -/
def statement (text : List Char) : Option (Statement × List Char) :=
  match text with
  | '[' :: '[' :: text => do
    let (path, text) ← keyPath text
    let text ← expect ']' text
    let text ← expect ']' text
    let text ← lineEnd text
    some (.elementHeader path, text)
  | '[' :: text => do
    let (path, text) ← keyPath text
    let text ← expect ']' text
    let text ← lineEnd text
    some (.tableHeader path, text)
  | text => do
    let ((path, v), text) ← assignmentOf value text
    let text ← lineEnd text
    some (.assignment path v, text)

/-- The statements of a text, behind those read so far (last one first); lines without a statement
are passed over. -/
def statementsFrom : (rounds : Nat) → (read : List Statement) → List Char →
    Option (List Statement)
  | 0, _, _ => none
  | rounds + 1, read, text =>
    match skipSpaces text with
    | [] => some read.reverse
    | text =>
      match lineEnd text with
      | some rest => statementsFrom rounds read rest
      | none =>
        match statement text with
        | some (s, rest) => statementsFrom rounds (s :: read) rest
        | none => none

/-- The statements of a text; a byte order mark may stand before them. -/
def statements (text : List Char) : Option (List Statement) :=
  let text := match text with
    | '\ufeff' :: text => text
    | text => text
  statementsFrom (text.length + 1) [] text

/-- **The table that a file stands for**, if its text is well-formed. -/
def parse (text : String) : Option (List (String × Value)) :=
  (statements text.toList).bind Document.ofStatements

end DeflateEcho.Toml
