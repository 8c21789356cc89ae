import DeflateEcho.Deflate.Backref
import DeflateEcho.Deflate.PrefixCode

/-!
# Deflate/Element — the pieces a compressed stream is made of, and where each may stand

A stream is a sequence of **elements**: block headers, length pairs, tables, literals and so on.
A `Place` says what the elements so far have settled, and with that two things:

* `Place.reader` — how the next element is read there, bit by bit;
* `Place.next` — where it leads, or that it breaks a rule of the format, so that nothing may
  follow it.

A violation that shows inside an element is an error of its reader (a block of the fourth kind, a
bit pattern without a symbol, a symbol without a meaning); one that takes the whole element to see
is refused by `next`.
-/

namespace DeflateEcho.Deflate

open Bits

/-- How the body of a block is written. -/
inductive BlockKind where
  | stored
  | fixed
  | dynamic
  deriving DecidableEq, Repr

/-- How many word lengths a dynamic block gives: for literals and lengths, for distances, and for
the code that the lengths themselves are written in. -/
structure Counts where
  literals : Nat
  distances : Nat
  lengthCodes : Nat
  deriving DecidableEq, Repr

/-- The most literal and length symbols, and the most distance symbols, that may be announced. -/
def Counts.allowed (counts : Counts) : Bool := counts.literals ≤ 286 && counts.distances ≤ 30

/-- One step in a list of word lengths. -/
inductive LengthRun where
  /-- One symbol has this length. -/
  | plain (length : Nat)
  /-- The next symbols have the length of the one before, 3 to 6 times. -/
  | again (times : Nat)
  /-- The next symbols have no word, 3 to 138 times. -/
  | zeros (times : Nat)
  deriving DecidableEq, Repr

/-- The word lengths that a step adds to those already known. -/
def LengthRun.lengths (known : Array Nat) : LengthRun → List Nat
  | plain length => [length]
  | again times => List.replicate times (known.back?.getD 0)
  | zeros times => List.replicate times 0

/-- A complete piece of a compressed stream. -/
inductive Element where
  | header (last : Bool) (kind : BlockKind)
  /-- The bits up to the next whole byte, and a length with its complement. -/
  | storedLength (padding : List Bool) (length complement : Nat)
  | storedByte (value : UInt8)
  | counts (counts : Counts)
  /-- The lengths of the words that lengths are written in, in the order of transmission. -/
  | lengthCode (lengths : List Nat)
  | run (run : LengthRun)
  | literal (value : UInt8)
  | backref (ref : Backref)
  | endOfBlock
  deriving DecidableEq, Repr

/-- A point between two elements; `last` says whether the current block is the last one. -/
inductive Place where
  | header
  | storedLength (last : Bool)
  | stored (last : Bool) (left : Nat)
  | counts (last : Bool)
  | lengthCode (last : Bool) (counts : Counts)
  | lengths (last : Bool) (counts : Counts) (code : PrefixCode) (known : Array Nat)
  | tokens (last : Bool) (literals distances : PrefixCode)
  | finished

/-! ## Codes -/

/-- The word lengths of literals and lengths in a block with fixed codes. -/
def fixedLiteralLengths : List Nat :=
  List.replicate 144 8 ++ List.replicate 112 9 ++ List.replicate 24 7 ++ List.replicate 8 8

/-- The word lengths of distances in a block with fixed codes. -/
def fixedDistanceLengths : List Nat := List.replicate 32 5

def fixedLiterals : PrefixCode := PrefixCode.table fixedLiteralLengths

def fixedDistances : PrefixCode := PrefixCode.table fixedDistanceLengths

/-- The symbol that ends a block. -/
def endSymbol : Nat := 256

/-- The order in which the lengths of the length code are sent: the useful ones first, so that the
tail can be left out. -/
def transmissionOrder : List Nat :=
  [16, 17, 18, 0, 8, 7, 9, 6, 10, 5, 11, 4, 12, 3, 13, 2, 14, 1, 15]

/-- The lengths of the length code by symbol, from those sent. -/
def arrange (sent : List Nat) : List Nat :=
  (List.range transmissionOrder.length).map fun symbol =>
    sent[transmissionOrder.idxOf symbol]?.getD 0

/-! ## Reading -/

/-- The bits from an offset up to the next whole byte. -/
def paddingAt (offset : Nat) : Nat := (8 - offset % 8) % 8

namespace Element

def headerReader : Reader Element :=
  .more fun last => .more fun low => .more fun high =>
    match low, high with
    | false, false => .done (header last .stored)
    | true, false => .done (header last .fixed)
    | false, true => .done (header last .dynamic)
    | true, true => .fail

def storedLengthReader (offset : Nat) : Reader Element :=
  (Reader.raw (paddingAt offset)).bind fun padding =>
    (Reader.number 16).bind fun length =>
      (Reader.number 16).map fun complement => storedLength padding length complement

def storedByteReader : Reader Element :=
  (Reader.number 8).map fun n => storedByte (UInt8.ofNat n)

def countsReader : Reader Element :=
  (Reader.number 5).bind fun l => (Reader.number 5).bind fun d => (Reader.number 4).map fun c =>
    counts { literals := l + 257, distances := d + 1, lengthCodes := c + 4 }

def lengthCodeReader (count : Nat) : Reader Element :=
  (Reader.times count (Reader.number 3)).map lengthCode

/-- A step in the word lengths; `first` says that no length is known yet, so that none can be
repeated. -/
def runReader (code : PrefixCode) (first : Bool) : Reader Element :=
  code.reader.bind fun symbol =>
    if symbol < 16 then .done (run (.plain symbol))
    else if symbol = 16 then
      if first then .fail else (Reader.number 2).map fun n => run (.again (n + 3))
    else if symbol = 17 then (Reader.number 3).map fun n => run (.zeros (n + 3))
    else (Reader.number 7).map fun n => run (.zeros (n + 11))

/-- The part of a repetition behind the symbol of its length. -/
def backrefReader (distances : PrefixCode) (lengthSlot : Nat) : Reader Element :=
  match lengthSlots[lengthSlot]? with
  | none => .fail
  | some slot =>
    (Reader.number slot.extra).bind fun lengthExtra =>
      distances.reader.bind fun distanceSlot =>
        match distanceSlots[distanceSlot]? with
        | none => .fail
        | some slot =>
          (Reader.number slot.extra).map fun distanceExtra =>
            backref { lengthSlot, lengthExtra, distanceSlot, distanceExtra }

def tokenReader (literals distances : PrefixCode) : Reader Element :=
  literals.reader.bind fun symbol =>
    if symbol < endSymbol then .done (literal (UInt8.ofNat symbol))
    else if symbol = endSymbol then .done endOfBlock
    else backrefReader distances (symbol - firstLengthSymbol)

end Element

namespace Place

/-- How the element at a place is read, `offset` bits into the stream. -/
def reader (offset : Nat) : Place → Reader Element
  | header => Element.headerReader
  | storedLength _ => Element.storedLengthReader offset
  | stored _ _ => Element.storedByteReader
  | counts _ => Element.countsReader
  | lengthCode _ announced => Element.lengthCodeReader announced.lengthCodes
  | lengths _ _ code known => Element.runReader code known.isEmpty
  | tokens _ literals distances => Element.tokenReader literals distances
  | finished => .fail

/-! ## Where an element leads -/

/-- The place behind a block. -/
def afterBlock (last : Bool) : Place := if last then finished else header

/-- The place in a stored block of which `left` bytes are to come. -/
def inStored (last : Bool) (left : Nat) : Place :=
  if left = 0 then afterBlock last else stored last left

/-- The place behind the tables of a dynamic block, if both codes may be used. -/
def inDynamic (last : Bool) (announced : Counts) (known : List Nat) : Option Place :=
  match PrefixCode.usable? (known.take announced.literals),
      PrefixCode.usable? (known.drop announced.literals) with
  | some literals, some distances => some (tokens last literals distances)
  | _, _ => none

/-- Where an element leads from a place; nothing may follow an element that breaks a rule, nor
one that has no business at this place. -/
def next : Place → Element → Option Place
  | header, .header last .stored => some (storedLength last)
  | header, .header last .fixed => some (tokens last fixedLiterals fixedDistances)
  | header, .header last .dynamic => some (counts last)
  | storedLength last, .storedLength _ length complement =>
    if length + complement = 0xffff then some (inStored last length) else none
  | stored last left, .storedByte _ => some (inStored last (left - 1))
  | counts last, .counts announced =>
    if announced.allowed then some (lengthCode last announced) else none
  | lengthCode last announced, .lengthCode sent =>
    (PrefixCode.complete? (arrange sent)).map fun code => lengths last announced code #[]
  | lengths last announced code known, .run run =>
    let known := known ++ run.lengths known
    let total := announced.literals + announced.distances
    if known.size < total then some (lengths last announced code known)
    else if known.size = total then inDynamic last announced known.toList
    else none
  | tokens last literals distances, .literal _ => some (tokens last literals distances)
  | tokens last literals distances, .backref _ => some (tokens last literals distances)
  | tokens last _ _, .endOfBlock => some (afterBlock last)
  | _, _ => none

end Place

end DeflateEcho.Deflate
