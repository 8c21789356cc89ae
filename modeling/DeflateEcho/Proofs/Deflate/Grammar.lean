import DeflateEcho.Proofs.Deflate.Spelling

/-!
# Proofs/Deflate/Grammar — the format of compressed streams, without a reader

What a stream consists of is said here without trees and without anything that reads.  A code is the
list of its word lengths: its words are the canonical ones (`PrefixCode.codeword`), and whether it may
be used is a matter of the room that its words take.  One thing is the engine's own: in a code whose
only word is longer than its table there are strays, further words for the symbol zero
(`PrefixCode.IsWord`).

A `Stage` says what the elements so far have settled.  `Element.Written` says how an element is
written at a stage, `Stage.Leads` where it leads, and `Stage.Breaks` which rule it breaks if it leads
nowhere.  A `Derivation` strings written elements together, and a `Violation` is a bit string that
completes a breach of the format.
-/

namespace DeflateEcho.Deflate

open Bits

/-! ## Room -/

namespace PrefixCode

/-- The room that words of these lengths take, in words of the greatest length. -/
def occupied (lengths : List Nat) : Nat := (lengths.map room).sum

/-- The room for all words. -/
def capacity : Nat := 2 ^ maxLength

/-- The words take more room than there is. -/
def Oversubscribed (lengths : List Nat) : Prop := capacity < occupied lengths

/-- The words leave room for more. -/
def Incomplete (lengths : List Nat) : Prop := occupied lengths < capacity

/-- No symbol has a word, or only one. -/
def Sparse (lengths : List Nat) : Prop := (lengths.filter (0 < ·)).length ≤ 1

/-- Lengths of literals or distances that are no code. -/
def Unusable (lengths : List Nat) : Prop :=
  Oversubscribed lengths ∨ (Incomplete lengths ∧ ¬ Sparse lengths)

instance (lengths : List Nat) : Decidable (Oversubscribed lengths) := Nat.decLt _ _

instance (lengths : List Nat) : Decidable (Incomplete lengths) := Nat.decLt _ _

instance (lengths : List Nat) : Decidable (Sparse lengths) := Nat.decLe _ _

instance (lengths : List Nat) : Decidable (Unusable lengths) := instDecidableOr

/-- **The words of a symbol**: its canonical word, and for the symbol zero the strays of a code whose
only word goes on behind the table, which are the patterns that leave this word there. -/
inductive IsWord (lengths : List Nat) : Nat → List Bool → Prop where
  | canonical {symbol : Nat} {word : List Bool} (hword : codeword lengths symbol = some word) :
    IsWord lengths symbol word
  | stray {length zeros : Nat} (honly : lengths.filter (0 < ·) = [length])
    (htable : tableBits ≤ zeros) (hzeros : zeros < length) :
    IsWord lengths 0 (List.replicate zeros false ++ [true])

/-- There are no strays: a word that is the only one does not go on behind the table. -/
def FitsTable (lengths : List Nat) : Prop :=
  ∀ length, lengths.filter (0 < ·) = [length] → length ≤ tableBits

/-- A bit pattern that is neither the word of a symbol, nor begins with one, nor begins one. -/
structure Unassigned (lengths : List Nat) (pattern : List Bool) : Prop where
  ne_nil : pattern ≠ []
  apart : ∀ symbol word, IsWord lengths symbol word → ¬ word <+: pattern ∧ ¬ pattern <+: word

end PrefixCode

open PrefixCode (codeword IsWord Oversubscribed Incomplete Unusable Unassigned)

/-! ## Stages -/

namespace Counts

/-- Numbers that the fields of the format can hold. -/
structure Fits (c : Counts) : Prop where
  literals : 257 ≤ c.literals ∧ c.literals < 257 + 2 ^ 5
  distances : 1 ≤ c.distances ∧ c.distances < 1 + 2 ^ 5
  lengthCodes : 4 ≤ c.lengthCodes ∧ c.lengthCodes < 4 + 2 ^ 4

def bits (c : Counts) : List Bool :=
  Bits.ofNat 5 (c.literals - 257) ++ Bits.ofNat 5 (c.distances - 1)
    ++ Bits.ofNat 4 (c.lengthCodes - 4)

/-- How many lengths there are of literals and distances together. -/
def total (c : Counts) : Nat := c.literals + c.distances

end Counts

/-- A point between two elements, with the codes given by the lengths of their words. -/
inductive Stage where
  | header
  | storedLength (last : Bool)
  | stored (last : Bool) (left : Nat)
  | counts (last : Bool)
  | lengthCode (last : Bool) (announced : Counts)
  | lengths (last : Bool) (announced : Counts) (sent : List Nat) (known : Array Nat)
  | tokens (last : Bool) (literals distances : List Nat)
  | finished

namespace Stage

/-- The stage behind a block. -/
def afterBlock (last : Bool) : Stage := if last then finished else header

/-- The stage in a stored block of which `left` bytes are to come. -/
def inStored (last : Bool) (left : Nat) : Stage :=
  if left = 0 then afterBlock last else stored last left

/-- The stage behind a header. -/
def ofKind (last : Bool) : BlockKind → Stage
  | .stored => storedLength last
  | .fixed => tokens last fixedLiteralLengths fixedDistanceLengths
  | .dynamic => counts last

/-- The stage behind the tables, of which all lengths are known. -/
def ofLengths (last : Bool) (announced : Counts) (known : Array Nat) : Stage :=
  tokens last (known.toList.take announced.literals) (known.toList.drop announced.literals)

end Stage

/-! ## Elements -/

/-- **How a step in the word lengths is written**, in the words of the length code that was sent. -/
inductive LengthRun.Written (sent : List Nat) : LengthRun → List Bool → Prop where
  | plain {length : Nat} {word : List Bool} (hlength : length < 16)
    (hword : codeword (arrange sent) length = some word) : Written sent (.plain length) word
  | again {more : Nat} {word : List Bool} (hmore : more < 4)
    (hword : codeword (arrange sent) 16 = some word) :
    Written sent (.again (more + 3)) (word ++ Bits.ofNat 2 more)
  | fewZeros {more : Nat} {word : List Bool} (hmore : more < 8)
    (hword : codeword (arrange sent) 17 = some word) :
    Written sent (.zeros (more + 3)) (word ++ Bits.ofNat 3 more)
  | manyZeros {more : Nat} {word : List Bool} (hmore : more < 128)
    (hword : codeword (arrange sent) 18 = some word) :
    Written sent (.zeros (more + 11)) (word ++ Bits.ofNat 7 more)

/-- A step that repeats a length, of which there must be one. -/
def LengthRun.Repeats (run : LengthRun) : Prop := ∃ times, run = .again times

/-- **How elements are written at a stage**, `offset` bits into the stream. -/
inductive Element.Written (offset : Nat) : Stage → Element → List Bool → Prop where
  | header (last : Bool) (kind : BlockKind) :
    Written offset .header (.header last kind) (last :: kind.bits)
  | storedLength {last : Bool} {padding : List Bool} {length complement : Nat}
    (hpadding : padding.length = paddingAt offset)
    (hlength : length ≤ Block.maxStored) (hcomplement : complement ≤ Block.maxStored) :
    Written offset (.storedLength last) (.storedLength padding length complement)
      (padding ++ Bits.ofNat 16 length ++ Bits.ofNat 16 complement)
  | storedByte {last : Bool} {left : Nat} (value : UInt8) :
    Written offset (.stored last left) (.storedByte value) (ofByte value)
  | counts {last : Bool} {announced : Counts} (hfits : announced.Fits) :
    Written offset (.counts last) (.counts announced) announced.bits
  | lengthCode {last : Bool} {announced : Counts} {sent : List Nat}
    (hcount : sent.length = announced.lengthCodes) (hsent : ∀ length ∈ sent, length < 8) :
    Written offset (.lengthCode last announced) (.lengthCode sent) (sent.flatMap (Bits.ofNat 3))
  | run {last : Bool} {announced : Counts} {sent : List Nat} {known : Array Nat}
    {run : LengthRun} {bits : List Bool} (hrun : run.Written sent bits)
    (hknown : run.Repeats → known.isEmpty = false) :
    Written offset (.lengths last announced sent known) (.run run) bits
  | literal {last : Bool} {literals distances : List Nat} {word : List Bool} {value : UInt8}
    (hword : IsWord literals value.toNat word) :
    Written offset (.tokens last literals distances) (.literal value) word
  | backref {last : Bool} {literals distances : List Nat} {lengthWord distanceWord : List Bool}
    {ref : Backref} (hlegal : ref.Legal)
    (hlength : IsWord literals (firstLengthSymbol + ref.lengthSlot) lengthWord)
    (hdistance : IsWord distances ref.distanceSlot distanceWord) :
    Written offset (.tokens last literals distances) (.backref ref)
      (lengthWord ++ Words.extra lengthSlots ref.lengthSlot ref.lengthExtra
        ++ distanceWord ++ Words.extra distanceSlots ref.distanceSlot ref.distanceExtra)
  | endOfBlock {last : Bool} {literals distances : List Nat} {word : List Bool}
    (hword : IsWord literals endSymbol word) :
    Written offset (.tokens last literals distances) .endOfBlock word

namespace Stage

/-- **Where an element leads** that keeps the rules. -/
inductive Leads : Stage → Element → Stage → Prop where
  | header (last : Bool) (kind : BlockKind) :
    Leads .header (.header last kind) (.ofKind last kind)
  | storedLength {last : Bool} {padding : List Bool} {length complement : Nat}
    (h : length + complement = Block.maxStored) :
    Leads (.storedLength last) (.storedLength padding length complement) (.inStored last length)
  | storedByte {last : Bool} {left : Nat} {value : UInt8} :
    Leads (.stored last (left + 1)) (.storedByte value) (.inStored last left)
  | counts {last : Bool} {announced : Counts} (hliterals : announced.literals ≤ 286)
    (hdistances : announced.distances ≤ 30) :
    Leads (.counts last) (.counts announced) (.lengthCode last announced)
  | lengthCode {last : Bool} {announced : Counts} {sent : List Nat}
    (hover : ¬ Oversubscribed (arrange sent)) (hincomplete : ¬ Incomplete (arrange sent)) :
    Leads (.lengthCode last announced) (.lengthCode sent) (.lengths last announced sent #[])
  | run {last : Bool} {announced : Counts} {sent : List Nat} {known : Array Nat}
    {run : LengthRun} (hmore : (known ++ run.lengths known).size < announced.total) :
    Leads (.lengths last announced sent known) (.run run)
      (.lengths last announced sent (known ++ run.lengths known))
  | lastRun {last : Bool} {announced : Counts} {sent : List Nat} {known : Array Nat}
    {run : LengthRun} (hall : (known ++ run.lengths known).size = announced.total)
    (hliterals : ¬ Unusable ((known ++ run.lengths known).toList.take announced.literals))
    (hdistances : ¬ Unusable ((known ++ run.lengths known).toList.drop announced.literals)) :
    Leads (.lengths last announced sent known) (.run run)
      (.ofLengths last announced (known ++ run.lengths known))
  | literal {last : Bool} {literals distances : List Nat} {value : UInt8} :
    Leads (.tokens last literals distances) (.literal value) (.tokens last literals distances)
  | backref {last : Bool} {literals distances : List Nat} {ref : Backref} :
    Leads (.tokens last literals distances) (.backref ref) (.tokens last literals distances)
  | endOfBlock {last : Bool} {literals distances : List Nat} :
    Leads (.tokens last literals distances) .endOfBlock (.afterBlock last)

/-- **The rules that take a whole element to see**, each broken by an element. -/
inductive Breaks : Stage → Element → Prop where
  | complement {last : Bool} {padding : List Bool} {length complement : Nat}
    (h : length + complement ≠ Block.maxStored) :
    Breaks (.storedLength last) (.storedLength padding length complement)
  | tooManySymbols {last : Bool} {announced : Counts}
    (h : 286 < announced.literals ∨ 30 < announced.distances) :
    Breaks (.counts last) (.counts announced)
  | lengthCode {last : Bool} {announced : Counts} {sent : List Nat}
    (h : Oversubscribed (arrange sent) ∨ Incomplete (arrange sent)) :
    Breaks (.lengthCode last announced) (.lengthCode sent)
  | overrun {last : Bool} {announced : Counts} {sent : List Nat} {known : Array Nat}
    {run : LengthRun} (h : announced.total < (known ++ run.lengths known).size) :
    Breaks (.lengths last announced sent known) (.run run)
  | unusable {last : Bool} {announced : Counts} {sent : List Nat} {known : Array Nat}
    {run : LengthRun} (hall : (known ++ run.lengths known).size = announced.total)
    (h : Unusable ((known ++ run.lengths known).toList.take announced.literals)
      ∨ Unusable ((known ++ run.lengths known).toList.drop announced.literals)) :
    Breaks (.lengths last announced sent known) (.run run)

end Stage

/-! ## Violations -/

/-- The bits of the part of a repetition in front of its distance. -/
inductive LengthPart (literals : List Nat) : List Bool → Prop where
  | mk {slot extra : Nat} {word : List Bool} (hslot : Slot.Holds lengthSlots slot extra)
    (hword : IsWord literals (firstLengthSymbol + slot) word) :
    LengthPart literals (word ++ Words.extra lengthSlots slot extra)

/-- **A breach of the format that these bits complete** at a stage. -/
inductive Violation (offset : Nat) : Stage → List Bool → Prop where
  /-- An element that breaks a rule. -/
  | element {stage : Stage} {element : Element} {bits : List Bool}
    (hwritten : element.Written offset stage bits) (hbreaks : stage.Breaks element) :
    Violation offset stage bits
  /-- A block of the fourth kind. -/
  | kind (last : Bool) : Violation offset .header [last, true, true]
  /-- A length is to be repeated where none is known. -/
  | nothingToRepeat {last : Bool} {announced : Counts} {sent : List Nat} {word : List Bool}
    (hword : codeword (arrange sent) 16 = some word) :
    Violation offset (.lengths last announced sent #[]) word
  /-- A literal symbol without a meaning. -/
  | lengthSymbol {last : Bool} {literals distances : List Nat} {symbol : Nat} {word : List Bool}
    (hword : IsWord literals symbol word) (hsymbol : 286 ≤ symbol) :
    Violation offset (.tokens last literals distances) word
  /-- A distance symbol without a meaning. -/
  | distanceSymbol {last : Bool} {literals distances : List Nat} {symbol : Nat}
    {part word : List Bool} (hpart : LengthPart literals part)
    (hword : IsWord distances symbol word) (hsymbol : 30 ≤ symbol) :
    Violation offset (.tokens last literals distances) (part ++ word)
  /-- A bit pattern that no literal symbol has. -/
  | noLiteral {last : Bool} {literals distances : List Nat} {pattern : List Bool}
    (hpattern : Unassigned literals pattern) :
    Violation offset (.tokens last literals distances) pattern
  /-- A bit pattern that no distance symbol has. -/
  | noDistance {last : Bool} {literals distances : List Nat} {part pattern : List Bool}
    (hpart : LengthPart literals part) (hpattern : Unassigned distances pattern) :
    Violation offset (.tokens last literals distances) (part ++ pattern)

/-! ## Derivations -/

/-- **Elements in grammatical order** on the way from one stage to another, with their bits. -/
inductive Derivation : Stage → Nat → List Element → List Bool → Stage → Prop where
  | nil (stage : Stage) (offset : Nat) : Derivation stage offset [] [] stage
  | cons {stage middle final : Stage} {offset : Nat} {element : Element}
    {elements : List Element} {bits rest : List Bool}
    (hwritten : element.Written offset stage bits) (hleads : stage.Leads element middle)
    (hrest : Derivation middle (offset + bits.length) elements rest final) :
    Derivation stage offset (element :: elements) (bits ++ rest) final

theorem Derivation.append {stage middle final : Stage} {offset : Nat}
    {first second : List Element} {bits rest : List Bool}
    (h : Derivation stage offset first bits middle)
    (hrest : Derivation middle (offset + bits.length) second rest final) :
    Derivation stage offset (first ++ second) (bits ++ rest) final := by
  induction h with
  | nil => exact hrest
  | cons hwritten hleads _ ih =>
    rw [List.append_assoc]
    refine .cons hwritten hleads (ih ?_)
    rwa [Nat.add_assoc, ← List.length_append]

/-- Bits that complete no further element at a stage, and no breach of the format either. -/
structure Unfinished (offset : Nat) (stage : Stage) (bits : List Bool) : Prop where
  no_element : ∀ (element : Element) (word : List Bool),
    element.Written offset stage word → ¬ word <+: bits
  no_violation : ∀ word, Violation offset stage word → ¬ word <+: bits

/-- **Bits explained by the format**: they spell elements in grammatical order, and behind these
stands what does not complete a further one.  Behind the end of the stream anything may stand. -/
structure Explained (offset : Nat) (stage : Stage) (bits : List Bool) (elements : List Element)
    (spelled : List Bool) (final : Stage) : Prop where
  derivation : Derivation stage offset elements spelled final
  split : ∃ rest, bits = spelled ++ rest
    ∧ (final ≠ .finished → Unfinished (offset + spelled.length) final rest)

/-- **Bits that break the format**: behind elements in grammatical order they complete a breach. -/
def Violated (offset : Nat) (stage : Stage) (bits : List Bool) : Prop :=
  ∃ elements spelled final wrong, Derivation stage offset elements spelled final
    ∧ Violation (offset + spelled.length) final wrong ∧ spelled ++ wrong <+: bits

end DeflateEcho.Deflate
