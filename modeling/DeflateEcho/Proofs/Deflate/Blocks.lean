import Mathlib
import DeflateEcho.Proofs.Deflate.Grammar
import DeflateEcho.Proofs.Deflate.SelfContained

/-!
# Proofs/Deflate/Blocks — well-formed streams, block by block

A stream as an encoder sees it: blocks one behind the other, the last of them marked as such.
`Block.WellFormed` says what an encoder may choose — any padding, any accepted lengths, any steps that
spell them, any tokens whose symbols have words — and everything it asks for can be decided.

The words that blocks are written in are those of the grammar: a step in the word lengths, or a token,
is written by its words exactly if they are there (`LengthRun.written_iff`, `Token.written_iff`), as long
as no code of the block has strays.
-/

namespace DeflateEcho.Deflate

open Bits
open PrefixCode (codeword codewords FitsTable Oversubscribed Incomplete Unusable)

/-! ## What may be encoded -/

/-- A symbol has a word. -/
def HasCode (lengths : List Nat) (symbol : Nat) : Prop := 0 < lengths[symbol]?.getD 0

instance (lengths : List Nat) (symbol : Nat) : Decidable (HasCode lengths symbol) :=
  Nat.decLt _ _

/-- A token can be written in the words of these lengths. -/
def Token.Encodable (literals distances : List Nat) : Token → Prop
  | literal value => HasCode literals value.toNat
  | backref ref => ref.Legal ∧ HasCode literals (firstLengthSymbol + ref.lengthSlot)
      ∧ HasCode distances ref.distanceSlot

/-- A step in the word lengths can be written in the words of the length code. -/
def LengthRun.Encodable (sent : List Nat) : LengthRun → Prop
  | plain length => length < 16 ∧ HasCode (arrange sent) length
  | again times => 3 ≤ times ∧ times ≤ 6 ∧ HasCode (arrange sent) 16
  | zeros times =>
    3 ≤ times ∧ times ≤ 138 ∧ HasCode (arrange sent) (if times ≤ 10 then 17 else 18)

/-- The lengths known behind some steps. -/
def LengthRun.spell (known : Array Nat) (runs : List LengthRun) : Array Nat :=
  runs.foldl (fun known (run : LengthRun) => (known ++ run.lengths known :)) known

/-- Steps that spell, behind the lengths known, all that were announced: lengths that may be used. -/
structure LengthRun.Spells (announced : Counts) (sent : List Nat) (known : Array Nat)
    (runs : List LengthRun) : Prop where
  encodable : ∀ run ∈ runs, run.Encodable sent
  first : ∀ run ∈ runs.head?, run.Repeats → known.isEmpty = false
  total : (spell known runs).size = announced.total
  literals : ¬ Unusable ((spell known runs).toList.take announced.literals)
  distances : ¬ Unusable ((spell known runs).toList.drop announced.literals)

/-- Tables of a dynamic block that keep the rules. -/
structure Tables.WellFormed (t : Tables) : Prop where
  announced : t.announced.Fits
  literals : t.announced.literals ≤ 286
  distances : t.announced.distances ≤ 30
  count : t.sent.length = t.announced.lengthCodes
  sent : ∀ length ∈ t.sent, length < 8
  not_oversubscribed : ¬ Oversubscribed (arrange t.sent)
  not_incomplete : ¬ Incomplete (arrange t.sent)
  spells : LengthRun.Spells t.announced t.sent #[] t.runs

/-- The lengths of literals and of distances, from tables. -/
def Tables.literalLengths (t : Tables) : List Nat := t.lengths.take t.announced.literals

def Tables.distanceLengths (t : Tables) : List Nat := t.lengths.drop t.announced.literals

/-- All tokens of a block can be written, and its end. -/
structure BodyEncodable (literals distances : List Nat) (tokens : List Token) : Prop where
  tokens : ∀ token ∈ tokens, token.Encodable literals distances
  endOfBlock : HasCode literals endSymbol

namespace Block

/-- **A block that keeps the rules**, `offset` bits into the stream. -/
def WellFormed (offset : Nat) : Block → Prop
  | stored padding bytes =>
    padding.length = paddingAt (offset + 3) ∧ bytes.length ≤ maxStored
  | fixed tokens => BodyEncodable fixedLiteralLengths fixedDistanceLengths tokens
  | dynamic tables tokens =>
    tables.WellFormed ∧ BodyEncodable tables.literalLengths tables.distanceLengths tokens

/-- Blocks one behind the other, none of them the last one. -/
def AllWellFormed (offset : Nat) : List Block → Prop
  | [] => True
  | block :: blocks =>
    block.WellFormed offset ∧ AllWellFormed (offset + (block.bits false).length) blocks

/-- An output behind a block. -/
def extend (output : Bytes) : Block → Bytes
  | stored _ bytes => output ++ bytes
  | fixed tokens => tokens.foldl Token.extend output
  | dynamic _ tokens => tokens.foldl Token.extend output

end Block

/-- A whole stream: some blocks, and the last one. -/
structure Blocks where
  earlier : List Block
  last : Block
  deriving DecidableEq, Repr

namespace Blocks

/-- **The bits of a stream.** -/
def bits (b : Blocks) : List Bool := b.earlier.flatMap (Block.bits false) ++ b.last.bits true

/-- **The bytes that a stream stands for.** -/
def bytes (b : Blocks) : Bytes := b.last.extend (b.earlier.foldl Block.extend [])

/-- **A stream that keeps the rules.** -/
def WellFormed (b : Blocks) : Prop :=
  Block.AllWellFormed 0 b.earlier
    ∧ b.last.WellFormed (b.earlier.flatMap (Block.bits false)).length

end Blocks

/-! ## Deciding -/

section Decidable

instance (slots : Array Slot) (index extra : Nat) : Decidable (Slot.Holds slots index extra) :=
  decidable_of_iff ((slots[index]?.any fun slot => decide (extra < 2 ^ slot.extra)) = true)
    (by simp [Slot.Holds, Option.any_eq_true])

instance (ref : Backref) : Decidable ref.Legal :=
  decidable_of_iff (Slot.Holds lengthSlots ref.lengthSlot ref.lengthExtra
      ∧ Slot.Holds distanceSlots ref.distanceSlot ref.distanceExtra)
    ⟨fun h => ⟨h.1, h.2⟩, fun h => ⟨h.length, h.distance⟩⟩

instance (literals distances : List Nat) :
    (token : Token) → Decidable (token.Encodable literals distances)
  | .literal _ => inferInstanceAs (Decidable (HasCode _ _))
  | .backref _ => inferInstanceAs (Decidable (_ ∧ _))

instance (sent : List Nat) : (run : LengthRun) → Decidable (run.Encodable sent)
  | .plain _ => inferInstanceAs (Decidable (_ ∧ _))
  | .again _ => inferInstanceAs (Decidable (_ ∧ _))
  | .zeros _ => inferInstanceAs (Decidable (_ ∧ _))

instance : (run : LengthRun) → Decidable run.Repeats
  | .again times => .isTrue ⟨times, rfl⟩
  | .plain _ => .isFalse (by rintro ⟨times, ⟨⟩⟩)
  | .zeros _ => .isFalse (by rintro ⟨times, ⟨⟩⟩)

instance (announced : Counts) (sent : List Nat) (known : Array Nat) (runs : List LengthRun) :
    Decidable (LengthRun.Spells announced sent known runs) :=
  decidable_of_iff ((∀ run ∈ runs, run.Encodable sent)
      ∧ (∀ run ∈ runs.head?, run.Repeats → known.isEmpty = false)
      ∧ (LengthRun.spell known runs).size = announced.total
      ∧ ¬ Unusable ((LengthRun.spell known runs).toList.take announced.literals)
      ∧ ¬ Unusable ((LengthRun.spell known runs).toList.drop announced.literals))
    ⟨fun ⟨h1, h2, h3, h4, h5⟩ => ⟨h1, h2, h3, h4, h5⟩,
      fun h => ⟨h.encodable, h.first, h.total, h.literals, h.distances⟩⟩

instance (c : Counts) : Decidable c.Fits :=
  decidable_of_iff ((257 ≤ c.literals ∧ c.literals < 257 + 2 ^ 5)
      ∧ (1 ≤ c.distances ∧ c.distances < 1 + 2 ^ 5)
      ∧ (4 ≤ c.lengthCodes ∧ c.lengthCodes < 4 + 2 ^ 4))
    ⟨fun ⟨h1, h2, h3⟩ => ⟨h1, h2, h3⟩, fun h => ⟨h.literals, h.distances, h.lengthCodes⟩⟩

instance (t : Tables) : Decidable t.WellFormed :=
  decidable_of_iff (t.announced.Fits ∧ t.announced.literals ≤ 286 ∧ t.announced.distances ≤ 30
      ∧ t.sent.length = t.announced.lengthCodes ∧ (∀ length ∈ t.sent, length < 8)
      ∧ ¬ Oversubscribed (arrange t.sent) ∧ ¬ Incomplete (arrange t.sent)
      ∧ LengthRun.Spells t.announced t.sent #[] t.runs)
    ⟨fun ⟨h1, h2, h3, h4, h5, h6, h7, h8⟩ => ⟨h1, h2, h3, h4, h5, h6, h7, h8⟩,
      fun h => ⟨h.announced, h.literals, h.distances, h.count, h.sent, h.not_oversubscribed,
        h.not_incomplete, h.spells⟩⟩

instance (literals distances : List Nat) (tokens : List Token) :
    Decidable (BodyEncodable literals distances tokens) :=
  decidable_of_iff ((∀ token ∈ tokens, token.Encodable literals distances)
      ∧ HasCode literals endSymbol)
    ⟨fun h => ⟨h.1, h.2⟩, fun h => ⟨h.tokens, h.endOfBlock⟩⟩

instance (offset : Nat) : (block : Block) → Decidable (block.WellFormed offset)
  | .stored _ _ => inferInstanceAs (Decidable (_ ∧ _))
  | .fixed _ => inferInstanceAs (Decidable (BodyEncodable _ _ _))
  | .dynamic _ _ => inferInstanceAs (Decidable (_ ∧ _))

instance Block.decidableAllWellFormed (offset : Nat) :
    (blocks : List Block) → Decidable (Block.AllWellFormed offset blocks)
  | [] => .isTrue trivial
  | block :: blocks =>
    have := Block.decidableAllWellFormed (offset + (block.bits false).length) blocks
    inferInstanceAs (Decidable (_ ∧ _))

instance (b : Blocks) : Decidable b.WellFormed := inferInstanceAs (Decidable (_ ∧ _))

end Decidable

/-! ## Words by symbol -/

/-- **The words of a code, by symbol**: those of the symbols that have one. -/
theorem codeword_eq_some_iff {lengths : List Nat} {symbol : Nat} {word : List Bool} :
    codeword lengths symbol = some word
      ↔ HasCode lengths symbol ∧ (codewords lengths)[symbol]?.getD [] = word := by
  rcases hlength : lengths[symbol]? with _ | _ | length
  · simp [PrefixCode.codeword, HasCode, hlength]
  · simp [PrefixCode.codeword, HasCode, hlength]
  · have hlt := (List.getElem?_eq_some_iff.mp hlength).1
    have hword : (codewords lengths)[symbol]?.getD [] = (codeword lengths symbol).getD [] := by
      simp [PrefixCode.codewords, hlt]
    obtain ⟨canonical, hcanonical⟩ : ∃ canonical, codeword lengths symbol = some canonical := by
      simp [PrefixCode.codeword, hlength]
    rw [hword, hcanonical]
    simp [HasCode, hlength]

namespace LengthRun

variable {sent : List Nat}

/-- **A step is written in the words of its symbols**, if it can be. -/
theorem written_iff {run : LengthRun} {bits : List Bool} :
    run.Written sent bits
      ↔ run.Encodable sent ∧ Tables.runBits (codewords (arrange sent)) run = bits := by
  constructor
  · rintro (⟨hlength, hword⟩ | ⟨hmore, hword⟩ | ⟨hmore, hword⟩ | ⟨hmore, hword⟩)
    · obtain ⟨hcode, rfl⟩ := codeword_eq_some_iff.mp hword
      exact ⟨⟨hlength, hcode⟩, rfl⟩
    · obtain ⟨hcode, rfl⟩ := codeword_eq_some_iff.mp hword
      exact ⟨⟨by omega, by omega, hcode⟩, by simp [Tables.runBits]⟩
    · next more _ =>
      obtain ⟨hcode, rfl⟩ := codeword_eq_some_iff.mp hword
      have hfew : more + 3 ≤ 10 := by omega
      exact ⟨⟨by omega, by omega, by rwa [if_pos hfew]⟩, by simp [Tables.runBits, hfew]⟩
    · next more _ =>
      obtain ⟨hcode, rfl⟩ := codeword_eq_some_iff.mp hword
      have hmany : ¬ more + 11 ≤ 10 := by omega
      exact ⟨⟨by omega, by omega, by rwa [if_neg hmany]⟩, by simp [Tables.runBits]⟩
  · rintro ⟨hencodable, rfl⟩
    cases run with
    | plain length => exact .plain hencodable.1 (codeword_eq_some_iff.mpr ⟨hencodable.2, rfl⟩)
    | again times =>
      obtain ⟨h3, h6, hcode⟩ := hencodable
      obtain ⟨more, rfl⟩ := Nat.exists_eq_add_of_le' h3
      exact .again (by omega) (codeword_eq_some_iff.mpr ⟨hcode, rfl⟩)
    | zeros times =>
      obtain ⟨h3, h138, hcode⟩ := hencodable
      by_cases hfew : times ≤ 10
      · rw [if_pos hfew] at hcode
        obtain ⟨more, rfl⟩ := Nat.exists_eq_add_of_le' h3
        rw [Tables.runBits, if_pos hfew]
        exact .fewZeros (by omega) (codeword_eq_some_iff.mpr ⟨hcode, rfl⟩)
      · rw [if_neg hfew] at hcode
        obtain ⟨more, rfl⟩ := Nat.exists_eq_add_of_le' (Nat.lt_of_not_le hfew)
        rw [Tables.runBits, if_neg hfew]
        exact .manyZeros (by omega) (codeword_eq_some_iff.mpr ⟨hcode, rfl⟩)

end LengthRun

/-- A token that can be written is written in the canonical words of its symbols. -/
theorem Token.Encodable.written {literals distances : List Nat} {token : Token}
    (h : token.Encodable literals distances) (last : Bool) (offset : Nat) :
    token.element.Written offset (.tokens last literals distances)
      ((Words.ofLengths literals distances).token token) := by
  cases token with
  | literal value => exact .literal (.canonical (codeword_eq_some_iff.mpr ⟨h, rfl⟩))
  | backref ref =>
    obtain ⟨hlegal, hcode, hcode'⟩ := h
    exact .backref hlegal (.canonical (codeword_eq_some_iff.mpr ⟨hcode, rfl⟩))
      (.canonical (codeword_eq_some_iff.mpr ⟨hcode', rfl⟩))

/-- Without strays a symbol has a word if it has a length, and this is its canonical one. -/
theorem PrefixCode.IsWord.hasCode {lengths : List Nat} (hfits : FitsTable lengths) {symbol : Nat}
    {word : List Bool} (h : PrefixCode.IsWord lengths symbol word) :
    HasCode lengths symbol ∧ (codewords lengths)[symbol]?.getD [] = word :=
  codeword_eq_some_iff.mp ((PrefixCode.isWord_iff_of_fitsTable hfits).mp h)

/-- **A token is written in the canonical words of its symbols**, if no code has strays. -/
theorem Token.written_iff {literals distances : List Nat} (hliterals : FitsTable literals)
    (hdistances : FitsTable distances) {last : Bool} {offset : Nat} {token : Token}
    {bits : List Bool} :
    token.element.Written offset (.tokens last literals distances) bits
      ↔ token.Encodable literals distances
        ∧ (Words.ofLengths literals distances).token token = bits := by
  refine ⟨fun hwritten => ?_, fun ⟨hencodable, hbits⟩ => hbits ▸ hencodable.written last offset⟩
  cases token with
  | literal value =>
    cases hwritten with
    | literal hword => exact hword.hasCode hliterals
  | backref ref =>
    cases hwritten with
    | backref hlegal hlength hdistance =>
      obtain ⟨hcode, rfl⟩ := hlength.hasCode hliterals
      obtain ⟨hcode', rfl⟩ := hdistance.hasCode hdistances
      exact ⟨⟨hlegal, hcode, hcode'⟩, rfl⟩

end DeflateEcho.Deflate
