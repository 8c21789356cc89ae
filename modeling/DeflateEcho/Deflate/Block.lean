import DeflateEcho.Deflate.Element

/-!
# Deflate/Block — whole blocks, and the bits they are written in

A block is stored as it is, or holds literals and repetitions in the words of two prefix codes,
fixed ones or ones that the block brings along.  `Block.bits` writes a block down with the canonical
words of its codes; nothing here depends on how blocks are read.
-/

namespace DeflateEcho.Deflate

open Bits

/-- A literal byte or a repetition of earlier output. -/
inductive Token where
  | literal (value : UInt8)
  | backref (ref : Backref)
  deriving DecidableEq, Repr

/-- An output behind a token. -/
def Token.extend (output : Bytes) : Token → Bytes
  | literal value => output ++ [value]
  | backref ref => repeatBack output ref.distance ref.length

/-- The tables of a dynamic block, as they are sent: how many lengths there are, the lengths of the
length code in the order of transmission, and the steps that spell the lengths of both codes. -/
structure Tables where
  announced : Counts
  sent : List Nat
  runs : List LengthRun
  deriving DecidableEq, Repr

/-- The word lengths that the steps spell, those of distances right behind those of literals. -/
def Tables.lengths (t : Tables) : List Nat :=
  (t.runs.foldl (fun known run => known ++ run.lengths known) #[]).toList

/-- A block of a compressed stream. -/
inductive Block where
  /-- Bytes as they are, behind the bits up to the next whole byte. -/
  | stored (padding : List Bool) (bytes : Bytes)
  | fixed (tokens : List Token)
  | dynamic (tables : Tables) (tokens : List Token)
  deriving DecidableEq, Repr

/-- The words of the two codes of a block, by symbol. -/
structure Words where
  literals : Array (List Bool)
  distances : Array (List Bool)

namespace Words

/-- The canonical words of two lists of lengths. -/
def ofLengths (literals distances : List Nat) : Words :=
  ⟨PrefixCode.codewords literals, PrefixCode.codewords distances⟩

/-- The words of a block with fixed codes. -/
def fixed : Words := .ofLengths fixedLiteralLengths fixedDistanceLengths

def literal (w : Words) (symbol : Nat) : List Bool := w.literals[symbol]?.getD []

def distance (w : Words) (symbol : Nat) : List Bool := w.distances[symbol]?.getD []

/-- A number in the plain bits of its slot. -/
def extra (slots : Array Slot) (slot value : Nat) : List Bool :=
  Bits.ofNat (slots[slot]?.getD ⟨0, 0⟩).extra value

def token (w : Words) : Token → List Bool
  | .literal value => w.literal value.toNat
  | .backref ref =>
    w.literal (firstLengthSymbol + ref.lengthSlot)
      ++ extra lengthSlots ref.lengthSlot ref.lengthExtra
      ++ w.distance ref.distanceSlot ++ extra distanceSlots ref.distanceSlot ref.distanceExtra

/-- The tokens of a block and its end. -/
def body (w : Words) (tokens : List Token) : List Bool :=
  tokens.flatMap w.token ++ w.literal endSymbol

end Words

namespace Tables

/-- A step in the words of the length code. -/
def runBits (words : Array (List Bool)) : LengthRun → List Bool
  | .plain length => words[length]?.getD []
  | .again times => words[16]?.getD [] ++ Bits.ofNat 2 (times - 3)
  | .zeros times =>
    if times ≤ 10 then words[17]?.getD [] ++ Bits.ofNat 3 (times - 3)
    else words[18]?.getD [] ++ Bits.ofNat 7 (times - 11)

def bits (t : Tables) : List Bool :=
  Bits.ofNat 5 (t.announced.literals - 257) ++ Bits.ofNat 5 (t.announced.distances - 1)
    ++ Bits.ofNat 4 (t.announced.lengthCodes - 4)
    ++ t.sent.flatMap (Bits.ofNat 3)
    ++ t.runs.flatMap (runBits (PrefixCode.codewords (arrange t.sent)))

/-- The words of the two codes that the tables give. -/
def words (t : Tables) : Words :=
  .ofLengths (t.lengths.take t.announced.literals) (t.lengths.drop t.announced.literals)

end Tables

namespace Block

/-- The most bytes a stored block holds. -/
def maxStored : Nat := 0xffff

/-- **The bits of a block**: whether it is the last one, its kind, and its body. -/
def bits (last : Bool) : Block → List Bool
  | stored padding bytes =>
    [last, false, false] ++ padding ++ Bits.ofNat 16 bytes.length
      ++ Bits.ofNat 16 (maxStored - bytes.length) ++ Bits.ofBytes bytes
  | fixed tokens => [last, true, false] ++ Words.fixed.body tokens
  | dynamic tables tokens => [last, false, true] ++ tables.bits ++ tables.words.body tokens

end Block

end DeflateEcho.Deflate
