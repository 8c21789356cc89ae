import DeflateEcho.Toml.Scan

/-!
# Toml/Quoted — the four kinds of quoted texts, and keys

A text in double quotes may hold escapes, one in single quotes is taken as it is; three quotes
instead of one let it run over several lines.  Keys are bare words or texts on one line.
-/

namespace DeflateEcho.Toml

/-! ## Escapes -/

/-- The number of a hexadecimal digit. -/
def hexDigit? (c : Char) : Option Nat :=
  if '0' ≤ c ∧ c ≤ '9' then some (c.toNat - '0'.toNat)
  else if 'a' ≤ c ∧ c ≤ 'f' then some (c.toNat - 'a'.toNat + 10)
  else if 'A' ≤ c ∧ c ≤ 'F' then some (c.toNat - 'A'.toNat + 10)
  else none

/-- The character with this code point, written in hexadecimal digits. -/
def scalar? (digits : List Char) : Option Char := do
  let digits ← digits.mapM hexDigit?
  let n := digits.foldl (fun n d => 16 * n + d) 0
  if n < 0xd800 ∨ (0xdfff < n ∧ n < 0x110000) then some (Char.ofNat n) else none

/-- The character that a letter behind a backslash stands for. -/
def escape? (c : Char) : Option Char :=
  match c with
  | 'b' => some '\x08'
  | 't' => some '\t'
  | 'n' => some '\n'
  | 'f' => some '\x0c'
  | 'r' => some '\r'
  | '"' => some '"'
  | '\\' => some '\\'
  | _ => none

/-! ## Texts on one line

The characters read so far stand in `read`, the last one first. -/

/-- The rest of a text in double quotes. -/
def basicFrom (read : List Char) : Scanner String
  | '"' :: rest => some (String.ofList read.reverse, rest)
  | '\\' :: 'u' :: a :: b :: c :: d :: rest =>
    match scalar? [a, b, c, d] with
    | some value => basicFrom (value :: read) rest
    | none => none
  | '\\' :: 'U' :: a :: b :: c :: d :: e :: f :: g :: h :: rest =>
    match scalar? [a, b, c, d, e, f, g, h] with
    | some value => basicFrom (value :: read) rest
    | none => none
  | '\\' :: c :: rest =>
    match escape? c with
    | some value => basicFrom (value :: read) rest
    | none => none
  | c :: rest => if isPlain c ∧ c ≠ '\\' then basicFrom (c :: read) rest else none
  | [] => none

/-- The rest of a text in single quotes. -/
def literalFrom (read : List Char) : Scanner String
  | [] => none
  | c :: rest =>
    if c = '\'' then some (String.ofList read.reverse, rest)
    else if isPlain c then literalFrom (c :: read) rest
    else none

/-! ## Texts over several lines -/

/-- A line break right behind the opening quotes does not belong to the text. -/
def skipFirstBreak : List Char → List Char
  | '\n' :: rest => rest
  | '\r' :: '\n' :: rest => rest
  | text => text

/-- Where a scanner stands behind a backslash that ends a line: it still waits for the line break,
or skips blanks and line breaks up to the next character of the text. -/
inductive Joining where
  | no
  | waiting
  | skipping
  deriving DecidableEq

/-- The rest of a text in three double quotes.  One or two quotes may stand right before the closing
ones. -/
def multiBasicFrom (joining : Joining) (read : List Char) : Scanner String
  | '\n' :: rest =>
    match joining with
    | .no => multiBasicFrom .no ('\n' :: read) rest
    | _ => multiBasicFrom .skipping read rest
  | '\r' :: '\n' :: rest =>
    match joining with
    | .no => multiBasicFrom .no ('\n' :: read) rest
    | _ => multiBasicFrom .skipping read rest
  | c :: rest =>
    if joining ≠ .no ∧ isSpace c then multiBasicFrom joining read rest
    else if joining = .waiting then none
    else
      match c, rest with
      | '"', '"' :: '"' :: '"' :: '"' :: rest =>
        some (String.ofList ('"' :: '"' :: read).reverse, rest)
      | '"', '"' :: '"' :: '"' :: rest => some (String.ofList ('"' :: read).reverse, rest)
      | '"', '"' :: '"' :: rest => some (String.ofList read.reverse, rest)
      | '\\', 'u' :: a :: b :: c :: d :: rest =>
        match scalar? [a, b, c, d] with
        | some value => multiBasicFrom .no (value :: read) rest
        | none => none
      | '\\', 'U' :: a :: b :: c :: d :: e :: f :: g :: h :: rest =>
        match scalar? [a, b, c, d, e, f, g, h] with
        | some value => multiBasicFrom .no (value :: read) rest
        | none => none
      | '\\', '\n' :: rest => multiBasicFrom .skipping read rest
      | '\\', '\r' :: '\n' :: rest => multiBasicFrom .skipping read rest
      | '\\', c :: rest =>
        if isSpace c then multiBasicFrom .waiting read rest
        else
          match escape? c with
          | some value => multiBasicFrom .no (value :: read) rest
          | none => none
      | c, rest => if isPlain c ∧ c ≠ '\\' then multiBasicFrom .no (c :: read) rest else none
  | [] => none

/-- The rest of a text in three single quotes. -/
def multiLiteralFrom (read : List Char) : Scanner String
  | '\'' :: '\'' :: '\'' :: '\'' :: '\'' :: rest =>
    some (String.ofList ('\'' :: '\'' :: read).reverse, rest)
  | '\'' :: '\'' :: '\'' :: '\'' :: rest => some (String.ofList ('\'' :: read).reverse, rest)
  | '\'' :: '\'' :: '\'' :: rest => some (String.ofList read.reverse, rest)
  | '\n' :: rest => multiLiteralFrom ('\n' :: read) rest
  | '\r' :: '\n' :: rest => multiLiteralFrom ('\n' :: read) rest
  | c :: rest => if isPlain c then multiLiteralFrom (c :: read) rest else none
  | [] => none

/-- A quoted text of any kind. -/
def quoted : Scanner String
  | '"' :: '"' :: '"' :: rest => multiBasicFrom .no [] (skipFirstBreak rest)
  | '"' :: rest => basicFrom [] rest
  | '\'' :: '\'' :: '\'' :: rest => multiLiteralFrom [] (skipFirstBreak rest)
  | '\'' :: rest => literalFrom [] rest
  | _ => none

/-! ## Keys -/

/-- A character of a bare key. -/
def isBare (c : Char) : Bool := c.isAlphanum || c = '-' || c = '_'

/-- One key. -/
def key : Scanner String
  | '"' :: rest => basicFrom [] rest
  | '\'' :: rest => literalFrom [] rest
  | text =>
    let word := text.takeWhile isBare
    if word.isEmpty then none else some (String.ofList word, text.dropWhile isBare)

/-- Keys joined by points, with blanks around each, at most `room + 1` of them. -/
def keyPathWithin : (room : Nat) → Scanner (List String)
  | 0, text => do
    let (first, rest) ← key (skipSpaces text)
    match skipSpaces rest with
    | '.' :: _ => none
    | rest => some ([first], rest)
  | room + 1, text => do
    let (first, rest) ← key (skipSpaces text)
    match skipSpaces rest with
    | '.' :: rest =>
      let (others, rest) ← keyPathWithin room rest
      some (first :: others, rest)
    | rest => some ([first], rest)

/-- The number of levels, of keys or of values, from which on a text is refused. -/
def maxDepth : Nat := 80

/-- A dotted key. -/
def keyPath : Scanner (List String) := keyPathWithin (maxDepth - 2)

end DeflateEcho.Toml
