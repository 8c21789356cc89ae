import DeflateEcho.Bits.Reader

/-!
# Deflate/PrefixCode — canonical prefix codes, as trees to read with and words to write with

A code is given by the length of each symbol's word, zero for a symbol that has none.  The words
are then fixed: shorter ones come first, words of one length in the order of their symbols, and
each takes the first place that is still free.  `codeword` writes that rule down as arithmetic and
`build` grows it as a tree, from left to right.

Which lengths are accepted is a question about the shape of the tree: symbols that found no place
are too many (`build` leaves them over), a hole is a bit pattern without a symbol.  Words are read with
the `table` of a code, which is its tree but for holes that lie deep.
-/

namespace DeflateEcho.Deflate

open Bits

/-- A prefix code as a binary tree: a zero bit goes left, a one bit goes right. -/
inductive PrefixCode where
  /-- A bit pattern that no symbol has. -/
  | hole
  /-- The word of `symbol` ends here. -/
  | leaf (symbol : Nat)
  | node (zero one : PrefixCode)
  deriving DecidableEq, Repr

namespace PrefixCode

/-- The longest word a code may have. -/
def maxLength : Nat := 15

/-- The symbols that have a word, each behind the length of its word: shorter words first, words
of one length in the order of their symbols. -/
def ordered (lengths : List Nat) : List (Nat × Nat) :=
  (List.range' 1 maxLength).flatMap fun length =>
    lengths.zipIdx.filter fun entry => entry.1 == length

/-- Grows the subtree that has `levels` levels below its root, and returns with it the symbols
that found no place in it. -/
def grow : (levels : Nat) → List (Nat × Nat) → PrefixCode × List (Nat × Nat)
  | _, [] => (hole, [])
  | 0, (length, symbol) :: rest =>
    if length = maxLength then (leaf symbol, rest) else (hole, (length, symbol) :: rest)
  | levels + 1, (length, symbol) :: rest =>
    if length + (levels + 1) = maxLength then (leaf symbol, rest)
    else
      let (zero, afterZero) := grow levels ((length, symbol) :: rest)
      let (one, afterOne) := grow levels afterZero
      (node zero one, afterOne)

/-- The tree of a list of word lengths, and the symbols that are too many for it. -/
def build (lengths : List Nat) : PrefixCode × List (Nat × Nat) :=
  grow maxLength (ordered lengths)

/-- Every bit pattern leads to a symbol. -/
def isFull : PrefixCode → Bool
  | hole => false
  | leaf _ => true
  | node zero one => zero.isFull && one.isFull

/-- How many bits of a word are looked up at once; a longer word goes on in cells behind that. -/
def tableBits : Nat := 10

/-- Fills the deep holes of a tree whose root lies `depth` bits below that of the code.  The cells behind
the first bits are zero as long as no word is entered, and zero is read as the symbol zero. -/
def zeroFilled : (depth : Nat) → PrefixCode → PrefixCode
  | depth, hole => if tableBits < depth then leaf 0 else hole
  | _, leaf symbol => leaf symbol
  | depth, node zero one => node (zero.zeroFilled (depth + 1)) (one.zeroFilled (depth + 1))

/-- **The tree that words of these lengths are read with.** -/
def table (lengths : List Nat) : PrefixCode := (build lengths).1.zeroFilled 0

/-- No symbol is too many, and every bit pattern has its symbol. -/
def isComplete (lengths : List Nat) : Bool := (build lengths).2.isEmpty && (build lengths).1.isFull

/-- The code of these lengths if it is complete. -/
def complete? (lengths : List Nat) : Option PrefixCode :=
  if isComplete lengths then some (table lengths) else none

/-- The code of these lengths if it may be used for literals or distances: a complete one, or one
with a single symbol, or with none. -/
def usable? (lengths : List Nat) : Option PrefixCode :=
  if isComplete lengths || (ordered lengths).length ≤ 1 then some (table lengths) else none

/-- Goes down the tree bit by bit to a symbol or into a hole. -/
def walk : PrefixCode → Reader Nat
  | hole => .fail
  | leaf symbol => .done symbol
  | node zero one => .more fun bit => if bit then one.walk else zero.walk

/-- **Reads the word of one symbol.**  A bit pattern without a symbol fails with the bit that shows
it, and in a code without any symbol that is the first bit. -/
def reader : PrefixCode → Reader Nat
  | hole => .more fun _ => .fail
  | code => code.walk

/-- The tree that a word leads to. -/
def follow : PrefixCode → List Bool → PrefixCode
  | code, [] => code
  | node zero one, bit :: word => if bit then one.follow word else zero.follow word
  | _, _ :: _ => hole

/-! ## Words

The place of a word among all bit strings of the greatest length is the room that the words before
it take. -/

/-- The `width` lowest bits of `n`, most significant first, as words are written. -/
def wordBits (width n : Nat) : List Bool := (Bits.ofNat width n).reverse

/-- Whether the word of `first` comes before the word of `second`. -/
def comesBefore (first second : Nat × Nat) : Bool :=
  first.1 < second.1 || (first.1 == second.1 && first.2 < second.2)

/-- The room that a word of this length takes, in words of the greatest length. -/
def room (length : Nat) : Nat := if length = 0 then 0 else 1 <<< (maxLength - length)

/-- **The canonical word** of a symbol: the room taken by the words before it, written in the
length of the word.  A symbol without a length has no word. -/
def codeword (lengths : List Nat) (symbol : Nat) : Option (List Bool) :=
  match lengths[symbol]? with
  | none | some 0 => none
  | some length =>
    let earlier := lengths.zipIdx.filter fun entry => comesBefore entry (length, symbol)
    let start := earlier.foldl (fun taken entry => taken + room entry.1) 0
    some (wordBits length (start / room length))

/-- All the words of a code, by symbol; empty where a symbol has none. -/
def codewords (lengths : List Nat) : Array (List Bool) :=
  ((List.range lengths.length).map fun symbol => (codeword lengths symbol).getD []).toArray

end PrefixCode

end DeflateEcho.Deflate
