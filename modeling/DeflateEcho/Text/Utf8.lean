import DeflateEcho.Bits

/-!
# Text/Utf8 — bytes as text, also where they are not well-formed

A byte string falls, from left to right, into **pieces**: the characters it spells, and between
them the maximal ill-formed parts, each the longest start of a character that is not completed, or
a single byte that starts none.  `pieces` finds them with one look at each byte.  Strict decoding
(`decode?`) wants characters only, lossy decoding puts one replacement character for each ill-formed
part.
-/

namespace DeflateEcho.Text.Utf8

/-- A part of a byte string. -/
inductive Piece where
  /-- The bytes of a character. -/
  | char (value : Char) (bytes : Bytes)
  /-- The bytes of a maximal ill-formed part. -/
  | illFormed (bytes : Bytes)
  deriving DecidableEq, Repr

/-- The bytes that a piece covers. -/
def Piece.bytes : Piece → Bytes
  | char _ bytes => bytes
  | illFormed bytes => bytes

/-- Between two bytes: at the start of a character, or inside one, of which `seen` has come (last
byte first, its bits in `value`), `owed` bytes are to come and the next lies in `low` to `high`. -/
inductive State where
  | start
  | inside (seen : Bytes) (value owed : Nat) (low high : UInt8)
  deriving DecidableEq, Repr

/-- A byte where a character starts. -/
def first (b : UInt8) : State × List Piece :=
  if b ≤ 0x7f then (.start, [.char (Char.ofNat b.toNat) [b]])
  else if b < 0xc2 then (.start, [.illFormed [b]])
  else if b ≤ 0xdf then (.inside [b] (b.toNat % 0x20) 1 0x80 0xbf, [])
  else if b ≤ 0xef then
    (.inside [b] (b.toNat % 0x10) 2 (if b = 0xe0 then 0xa0 else 0x80)
      (if b = 0xed then 0x9f else 0xbf), [])
  else if b ≤ 0xf4 then
    (.inside [b] (b.toNat % 0x08) 3 (if b = 0xf0 then 0x90 else 0x80)
      (if b = 0xf4 then 0x8f else 0xbf), [])
  else (.start, [.illFormed [b]])

/-- The next byte, and the pieces it completes. -/
def next : State → UInt8 → State × List Piece
  | .start, b => first b
  | .inside seen value owed low high, b =>
    if low ≤ b ∧ b ≤ high then
      let value := value * 0x40 + b.toNat % 0x40
      if owed ≤ 1 then (.start, [.char (Char.ofNat value) (b :: seen).reverse])
      else (.inside (b :: seen) value (owed - 1) 0x80 0xbf, [])
    else
      let (state, pieces) := first b
      (state, .illFormed seen.reverse :: pieces)

/-- What is left where the bytes end. -/
def close : State → List Piece
  | .start => []
  | .inside seen _ _ _ _ => [.illFormed seen.reverse]

/-- The pieces of a byte string from a state on, behind those already found (last one first). -/
def piecesFrom (found : List Piece) (state : State) : Bytes → List Piece
  | [] => (close state ++ found).reverse
  | b :: bytes =>
    let (state, pieces) := next state b
    piecesFrom (pieces.reverse ++ found) state bytes

/-- **The pieces of a byte string.** -/
def pieces (bytes : Bytes) : List Piece := piecesFrom [] .start bytes

/-- The character that stands for what cannot be read. -/
def replacement : Char := '\ufffd'

/-- The text of a piece, with the replacement character for an ill-formed one. -/
def Piece.lossy : Piece → Char
  | char value _ => value
  | illFormed _ => replacement

/-- The text of any byte string. -/
def lossy (bytes : Bytes) : List Char := (pieces bytes).map Piece.lossy

/-- The character of a well-formed piece. -/
def Piece.char? : Piece → Option Char
  | char value _ => some value
  | illFormed _ => none

/-- The text of a well-formed byte string. -/
def decode? (bytes : Bytes) : Option (List Char) :=
  let found := pieces bytes
  if found.all fun piece => piece.char?.isSome then some (found.filterMap Piece.char?) else none

/-- The bytes of a text. -/
def encode (text : List Char) : Bytes := text.flatMap String.utf8EncodeChar

end DeflateEcho.Text.Utf8
