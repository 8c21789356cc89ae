import DeflateEcho.Deflate.Block
import DeflateEcho.Deflate.Scanner
import DeflateEcho.Proofs.Deflate.CanonicalWord

/-!
# Proofs/Deflate/Spelling — the bits of elements, and what a scanner makes of them

`Element.Spelled` says which bits spell an element at a place, without a reader; `Path` puts spelled
elements one behind the other, each where the one before it leads.  `run_path` says that a scanner
takes exactly the elements of a path from its bits.
-/

namespace DeflateEcho.Deflate

open Bits

/-! ## Legal repetitions -/

/-- A value that can be written in a slot: there is such a slot, and its bits hold the rest. -/
def Slot.Holds (slots : Array Slot) (index extra : Nat) : Prop :=
  ∃ slot, slots[index]? = some slot ∧ extra < 2 ^ slot.extra

/-- Both numbers of a repetition lie in slots of the format. -/
structure Backref.Legal (ref : Backref) : Prop where
  length : Slot.Holds lengthSlots ref.lengthSlot ref.lengthExtra
  distance : Slot.Holds distanceSlots ref.distanceSlot ref.distanceExtra

/-- An element that is no repetition, or a legal one. -/
def Element.Legal : Element → Prop
  | .backref ref => ref.Legal
  | _ => True

/-! ## Spelling an element -/

/-- The two bits of the kind of a block. -/
def BlockKind.bits : BlockKind → List Bool
  | stored => [false, false]
  | fixed => [true, false]
  | dynamic => [false, true]

/-- **How elements are spelled at a place**, `offset` bits into the stream. -/
inductive Element.Spelled (offset : Nat) : Place → Element → List Bool → Prop where
  | header (last : Bool) (kind : BlockKind) :
    Spelled offset .header (.header last kind) (last :: kind.bits)
  | storedLength {last : Bool} {padding : List Bool} {length complement : Nat}
    (hpadding : padding.length = paddingAt offset)
    (hlength : length ≤ Block.maxStored) (hcomplement : complement ≤ Block.maxStored) :
    Spelled offset (.storedLength last) (.storedLength padding length complement)
      (padding ++ Bits.ofNat 16 length ++ Bits.ofNat 16 complement)
  | storedByte {last : Bool} {left : Nat} (value : UInt8) :
    Spelled offset (.stored last left) (.storedByte value) (ofByte value)
  | counts {last : Bool} {literals distances lengthCodes : Nat}
    (hl : literals < 32) (hd : distances < 32) (hc : lengthCodes < 16) :
    Spelled offset (.counts last) (.counts ⟨literals + 257, distances + 1, lengthCodes + 4⟩)
      (Bits.ofNat 5 literals ++ Bits.ofNat 5 distances ++ Bits.ofNat 4 lengthCodes)
  | lengthCode {last : Bool} {announced : Counts} {sent : List Nat}
    (hcount : sent.length = announced.lengthCodes) (hsent : ∀ length ∈ sent, length < 8) :
    Spelled offset (.lengthCode last announced) (.lengthCode sent) (sent.flatMap (Bits.ofNat 3))
  | plain {last : Bool} {announced : Counts} {code : PrefixCode} {known : Array Nat}
    {word : List Bool} {length : Nat} (hword : code.follow word = .leaf length)
    (hlength : length < 16) :
    Spelled offset (.lengths last announced code known) (.run (.plain length)) word
  | again {last : Bool} {announced : Counts} {code : PrefixCode} {known : Array Nat}
    {word : List Bool} {more : Nat} (hword : code.follow word = .leaf 16)
    (hknown : known.isEmpty = false) (hmore : more < 4) :
    Spelled offset (.lengths last announced code known) (.run (.again (more + 3)))
      (word ++ Bits.ofNat 2 more)
  | fewZeros {last : Bool} {announced : Counts} {code : PrefixCode} {known : Array Nat}
    {word : List Bool} {more : Nat} (hword : code.follow word = .leaf 17) (hmore : more < 8) :
    Spelled offset (.lengths last announced code known) (.run (.zeros (more + 3)))
      (word ++ Bits.ofNat 3 more)
  | manyZeros {last : Bool} {announced : Counts} {code : PrefixCode} {known : Array Nat}
    {word : List Bool} {more : Nat} (hword : code.follow word = .leaf 18) (hmore : more < 128) :
    Spelled offset (.lengths last announced code known) (.run (.zeros (more + 11)))
      (word ++ Bits.ofNat 7 more)
  | literal {last : Bool} {literals distances : PrefixCode} {word : List Bool} {value : UInt8}
    (hword : literals.follow word = .leaf value.toNat) :
    Spelled offset (.tokens last literals distances) (.literal value) word
  | backref {last : Bool} {literals distances : PrefixCode} {lengthWord distanceWord : List Bool}
    {ref : Backref} (hlegal : ref.Legal)
    (hlength : literals.follow lengthWord = .leaf (firstLengthSymbol + ref.lengthSlot))
    (hdistance : distances.follow distanceWord = .leaf ref.distanceSlot) :
    Spelled offset (.tokens last literals distances) (.backref ref)
      (lengthWord ++ Words.extra lengthSlots ref.lengthSlot ref.lengthExtra
        ++ distanceWord ++ Words.extra distanceSlots ref.distanceSlot ref.distanceExtra)
  | endOfBlock {last : Bool} {literals distances : PrefixCode} {word : List Bool}
    (hword : literals.follow word = .leaf endSymbol) :
    Spelled offset (.tokens last literals distances) .endOfBlock word

theorem Element.Spelled.legal {offset : Nat} {place : Place} {element : Element}
    {bits : List Bool} (h : element.Spelled offset place bits) : element.Legal := by
  cases h with
  | backref hlegal => exact hlegal
  | _ => trivial

/-! ## Reading a spelled element -/

/-- A number that fits is read from its own bits. -/
theorem feed_number_ofNat (width : Nat) {n : Nat} (h : n < 2 ^ width) (rest : List Bool) :
    (Reader.number width).feed (Bits.ofNat width n ++ rest) = .value n rest := by
  have hread := Reader.feed_number (Bits.ofNat width n) rest
  rwa [length_ofNat, toNat_ofNat, Nat.one_shiftLeft, Nat.mod_eq_of_lt h] at hread

theorem feed_raw_of_length {count : Nat} {bits : List Bool} (h : bits.length = count)
    (rest : List Bool) : (Reader.raw count).feed (bits ++ rest) = .value bits rest := by
  subst h
  exact Reader.feed_raw bits rest

theorem feed_backrefReader {distances : PrefixCode} {distanceWord : List Bool} {ref : Backref}
    (hlegal : ref.Legal) (hdistance : distances.follow distanceWord = .leaf ref.distanceSlot)
    (rest : List Bool) :
    (Element.backrefReader distances ref.lengthSlot).feed
        (Words.extra lengthSlots ref.lengthSlot ref.lengthExtra ++ (distanceWord
          ++ (Words.extra distanceSlots ref.distanceSlot ref.distanceExtra ++ rest)))
      = .value (.backref ref) rest := by
  obtain ⟨lengthSlot, hlengthSlot, hlengthExtra⟩ := hlegal.length
  obtain ⟨distanceSlot, hdistanceSlot, hdistanceExtra⟩ := hlegal.distance
  simp only [Element.backrefReader, Words.extra, hlengthSlot, hdistanceSlot, Option.getD_some,
    Reader.feed_bind, Reader.feed_map, feed_number_ofNat _ hlengthExtra,
    PrefixCode.feed_reader hdistance, feed_number_ofNat _ hdistanceExtra]

/-- **A spelled element is read from its bits**, whatever comes behind them. -/
theorem feed_spelled {offset : Nat} {place : Place} {element : Element} {bits : List Bool}
    (h : element.Spelled offset place bits) (rest : List Bool) :
    (place.reader offset).feed (bits ++ rest) = .value element rest := by
  cases h with
  | header last kind =>
    cases kind <;> cases last <;> rfl
  | storedLength hpadding hlength hcomplement =>
    have hl := feed_number_ofNat 16 (Nat.lt_succ_of_le hlength)
    have hc := feed_number_ofNat 16 (Nat.lt_succ_of_le hcomplement)
    simp only [Place.reader, Element.storedLengthReader, Reader.feed_bind, Reader.feed_map,
      List.append_assoc, feed_raw_of_length hpadding, hl, hc]
  | storedByte value =>
    have hv := feed_number_ofNat 8 value.toNat_lt
    simp only [Place.reader, Element.storedByteReader, Reader.feed_map, ofByte, hv,
      UInt8.ofNat_toNat]
  | counts hl hd hc =>
    simp only [Place.reader, Element.countsReader, Reader.feed_bind, Reader.feed_map,
      List.append_assoc, feed_number_ofNat 5 hl, feed_number_ofNat 5 hd,
      feed_number_ofNat 4 hc]
  | lengthCode hcount hsent =>
    have hread : ∀ length ∈ _, ∀ rest, (Reader.number 3).feed (Bits.ofNat 3 length ++ rest)
        = .value length rest := fun length hl => feed_number_ofNat 3 (hsent length hl)
    simp only [Place.reader, Element.lengthCodeReader, ← hcount, Reader.feed_map,
      Reader.feed_times _ hread]
  | plain hword hlength =>
    simp only [Place.reader, Element.runReader, Reader.feed_bind, PrefixCode.feed_reader hword,
      if_pos hlength, Reader.feed_done]
  | again hword hknown hmore =>
    simp [Place.reader, Element.runReader, Reader.feed_bind, Reader.feed_map,
      PrefixCode.feed_reader hword, hknown, feed_number_ofNat 2 hmore]
  | fewZeros hword hmore =>
    simp [Place.reader, Element.runReader, Reader.feed_bind, Reader.feed_map,
      PrefixCode.feed_reader hword, feed_number_ofNat 3 hmore]
  | manyZeros hword hmore =>
    simp [Place.reader, Element.runReader, Reader.feed_bind, Reader.feed_map,
      PrefixCode.feed_reader hword, feed_number_ofNat 7 hmore]
  | @literal _ _ _ _ value hword =>
    have hlt : value.toNat < endSymbol := value.toNat_lt
    simp only [Place.reader, Element.tokenReader, Reader.feed_bind, PrefixCode.feed_reader hword,
      if_pos hlt, Reader.feed_done, UInt8.ofNat_toNat]
  | @backref _ _ _ _ _ ref hlegal hlength hdistance =>
    have hnlt : ¬ firstLengthSymbol + ref.lengthSlot < endSymbol := by
      simp only [firstLengthSymbol, endSymbol]; omega
    have hne : firstLengthSymbol + ref.lengthSlot ≠ endSymbol := by
      simp only [firstLengthSymbol, endSymbol]; omega
    simp only [Place.reader, Element.tokenReader, Reader.feed_bind, List.append_assoc,
      PrefixCode.feed_reader hlength, if_neg hnlt, if_neg hne, Nat.add_sub_cancel_left,
      feed_backrefReader hlegal hdistance]
  | endOfBlock hword =>
    simp only [Place.reader, Element.tokenReader, Reader.feed_bind, PrefixCode.feed_reader hword,
      Nat.lt_irrefl, if_false, if_true, Reader.feed_done]

/-! ## Paths

A path strings elements together, each spelled at the place that the ones before it lead to. -/

/-- Elements on the way from one place to another, and the bits that spell them. -/
inductive Path : Place → Nat → List Element → List Bool → Place → Prop where
  | nil (place : Place) (offset : Nat) : Path place offset [] [] place
  | cons {place middle final : Place} {offset : Nat} {element : Element}
    {elements : List Element} {bits rest : List Bool} (hspelled : element.Spelled offset place bits)
    (hbits : bits ≠ []) (hnext : place.next element = some middle)
    (hrest : Path middle (offset + bits.length) elements rest final) :
    Path place offset (element :: elements) (bits ++ rest) final

theorem Path.single {place final : Place} {offset : Nat} {element : Element} {bits : List Bool}
    (hspelled : element.Spelled offset place bits) (hbits : bits ≠ [])
    (hnext : place.next element = some final) : Path place offset [element] bits final := by
  have h := Path.cons hspelled hbits hnext (.nil final _)
  rwa [List.append_nil] at h

theorem Path.append {place middle final : Place} {offset : Nat} {first second : List Element}
    {bits rest : List Bool} (h : Path place offset first bits middle)
    (hrest : Path middle (offset + bits.length) second rest final) :
    Path place offset (first ++ second) (bits ++ rest) final := by
  induction h with
  | nil => exact hrest
  | cons hspelled hbits hnext _ ih =>
    rw [List.append_assoc]
    refine .cons hspelled hbits hnext (ih ?_)
    rwa [Nat.add_assoc, ← List.length_append]

theorem Path.legal {place final : Place} {offset : Nat} {elements : List Element}
    {bits : List Bool} (h : Path place offset elements bits final) :
    ∀ element ∈ elements, element.Legal := by
  induction h with
  | nil => simp
  | cons hspelled _ _ _ ih => exact List.forall_mem_cons.mpr ⟨hspelled.legal, ih⟩

/-! ## Scanning a path -/

namespace Scanner

theorem atPlace_of_ne {place : Place} (h : place ≠ .finished) (offset : Nat) :
    atPlace place offset = reading place offset (place.reader offset) := by
  cases place <;> first | rfl | exact absurd rfl h

/-- A scanner gives out an element with its last bit. -/
theorem run_reading {place next : Place} {offset : Nat} {pending : Reader Element}
    {element : Element} {bits : List Bool} (hbits : bits ≠ [])
    (hread : pending.feed bits = .value element []) (hnext : place.next element = some next) :
    (reading place offset pending).run bits
      = (atPlace next (offset + bits.length), [element]) := by
  induction bits generalizing offset pending with
  | nil => exact absurd rfl hbits
  | cons bit bits ih =>
    cases pending with
    | done value => simp at hread
    | fail => simp at hread
    | more continue_ =>
      rw [Reader.feed_more_cons] at hread
      cases hbit : continue_ bit with
      | done value =>
        rw [hbit, Reader.feed_done] at hread
        obtain ⟨rfl, rfl⟩ : value = element ∧ bits = [] := by simpa using hread
        simp [run, step, hbit, settle, hnext]
      | fail => simp [hbit] at hread
      | more further =>
        rw [hbit] at hread
        have hne : bits ≠ [] := by
          rintro rfl
          simp [Reader.feed] at hread
        simp [run, step, hbit, @ih (offset + 1) _ hne hread, Nat.add_assoc, Nat.add_comm 1]

/-- **A scanner takes the elements of a path from its bits**, and then stands where they lead. -/
theorem run_path {place final : Place} {offset : Nat} {elements : List Element}
    {bits : List Bool} (h : Path place offset elements bits final) :
    (atPlace place offset).run bits = (atPlace final (offset + bits.length), elements) := by
  induction h with
  | nil => simp [run]
  | @cons place middle final offset element elements bits rest hspelled hbits hnext _ ih =>
    have hplace : place ≠ .finished := by
      rintro rfl
      cases hspelled
    have hread := feed_spelled hspelled []
    rw [List.append_nil] at hread
    rw [run_append, atPlace_of_ne hplace, run_reading hbits hread hnext, ih]
    simp [Nat.add_assoc]

end Scanner

end DeflateEcho.Deflate
