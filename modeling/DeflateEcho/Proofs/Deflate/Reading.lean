import Mathlib
import DeflateEcho.Proofs.Bits.Reader
import DeflateEcho.Proofs.Deflate.Stages

/-!
# Proofs/Deflate/Reading — every place reads what the format says, and nothing else

What is written as the format says is spelled at the place of a scanner (`Element.Written.spelled`).
The other way round, an element that a place gives was written as the format says (`written_of_feed`),
and where a place reads an error, the bits break the format (`violation_of_feed`).  Both come from the
parts of the readers, one lemma for each kind of element.
-/

namespace DeflateEcho.Deflate

open Bits
open PrefixCode (codeword IsWord Unassigned Readable Incomplete)

/-! ## Written elements -/

/-- **An element that is written as the format says is spelled** at the place of the scanner. -/
theorem Element.Written.spelled {offset : Nat} {stage : Stage} {element : Element}
    {bits : List Bool} (h : element.Written offset stage bits) (hsound : stage.Sound) :
    element.Spelled offset stage.place bits := by
  cases h with
  | header last kind => exact .header last kind
  | storedLength hpadding hlength hcomplement =>
    exact .storedLength hpadding hlength hcomplement
  | storedByte value => exact .storedByte value
  | @counts _ announced hfits =>
    obtain ⟨literals, distances, lengthCodes⟩ := announced
    obtain ⟨⟨hl, hl'⟩, ⟨hd, hd'⟩, ⟨hc, hc'⟩⟩ := hfits
    obtain ⟨l, rfl⟩ := Nat.exists_eq_add_of_le' hl
    obtain ⟨d, rfl⟩ := Nat.exists_eq_add_of_le' hd
    obtain ⟨c, rfl⟩ := Nat.exists_eq_add_of_le' hc
    have hspelled := fun last => @Element.Spelled.counts offset last l d c
    dsimp only at hl' hd' hc'
    simpa [Counts.bits, Stage.place] using hspelled _ (by omega) (by omega) (by omega)
  | lengthCode hcount hsent => exact .lengthCode hcount hsent
  | run hrun hknown =>
    have hfollow : ∀ symbol word, codeword (arrange _) symbol = some word →
        (PrefixCode.table (arrange _)).follow word = .leaf symbol := fun _ _ hword =>
      hsound.readable_arrange.follow_table_iff.mpr (.canonical hword)
    cases hrun with
    | plain hlength hword => exact .plain (hfollow _ _ hword) hlength
    | again hmore hword => exact .again (hfollow _ _ hword) (hknown ⟨_, rfl⟩) hmore
    | fewZeros hmore hword => exact .fewZeros (hfollow _ _ hword) hmore
    | manyZeros hmore hword => exact .manyZeros (hfollow _ _ hword) hmore
  | literal hword => exact .literal (hsound.1.follow_table_iff.mpr hword)
  | backref hlegal hlength hdistance =>
    exact .backref hlegal (hsound.1.follow_table_iff.mpr hlength)
      (hsound.2.follow_table_iff.mpr hdistance)
  | endOfBlock hword => exact .endOfBlock (hsound.1.follow_table_iff.mpr hword)

/-! ## Elements of fixed width -/

section Fixed

variable {bits rest : List Bool} {element : Element}

theorem header_of_feed (h : Element.headerReader.feed bits = .value element rest) :
    ∃ last kind, element = .header last kind ∧ bits = last :: kind.bits ++ rest := by
  rcases bits with _ | ⟨last, _ | ⟨low, _ | ⟨high, bits⟩⟩⟩
  · simp [Element.headerReader, Reader.feed] at h
  · simp [Element.headerReader, Reader.feed] at h
  · simp [Element.headerReader, Reader.feed] at h
  · cases low <;> cases high <;> simp [Element.headerReader] at h
    · exact ⟨last, .stored, h.1.symm, by simp [BlockKind.bits, h.2]⟩
    · exact ⟨last, .dynamic, h.1.symm, by simp [BlockKind.bits, h.2]⟩
    · exact ⟨last, .fixed, h.1.symm, by simp [BlockKind.bits, h.2]⟩

theorem fourthKind_of_feed (h : Element.headerReader.feed bits = .error rest) :
    ∃ last, bits = [last, true, true] ++ rest := by
  rcases bits with _ | ⟨last, _ | ⟨low, _ | ⟨high, bits⟩⟩⟩
  · simp [Element.headerReader, Reader.feed] at h
  · simp [Element.headerReader, Reader.feed] at h
  · simp [Element.headerReader, Reader.feed] at h
  · cases low <;> cases high <;> simp [Element.headerReader] at h
    exact ⟨last, by simp [h]⟩

theorem storedLength_of_feed {offset : Nat}
    (h : (Element.storedLengthReader offset).feed bits = .value element rest) :
    ∃ padding length complement, element = .storedLength padding length complement
      ∧ padding.length = paddingAt offset
      ∧ length ≤ Block.maxStored ∧ complement ≤ Block.maxStored
      ∧ bits = padding ++ Bits.ofNat 16 length ++ Bits.ofNat 16 complement ++ rest := by
  obtain ⟨padding, behind, hpadding, hrest⟩ := Reader.feed_bind_eq_value.mp h
  obtain ⟨length, behind', hlength, hrest'⟩ := Reader.feed_bind_eq_value.mp hrest
  obtain ⟨hcount, rfl⟩ := Reader.feed_raw_eq_value hpadding
  obtain ⟨hlt, rfl⟩ := Reader.feed_number_eq_value hlength
  obtain ⟨complement, hlt', rfl, rfl⟩ := Reader.feed_map_number_eq_value hrest'
  exact ⟨padding, length, complement, rfl, hcount, Nat.le_of_lt_succ hlt,
    Nat.le_of_lt_succ hlt', by simp⟩

theorem feed_storedLengthReader_ne_error (offset : Nat) (bits rest : List Bool) :
    (Element.storedLengthReader offset).feed bits ≠ .error rest := by
  simp only [Element.storedLengthReader, Ne, Reader.feed_bind_eq_error, Reader.feed_raw_ne_error,
    Reader.feed_number_ne_error, Reader.feed_map_number_ne_error, false_or, and_false, exists_false,
    not_false_eq_true]

theorem storedByte_of_feed (h : Element.storedByteReader.feed bits = .value element rest) :
    ∃ value, element = .storedByte value ∧ bits = ofByte value ++ rest := by
  obtain ⟨n, hlt, rfl, rfl⟩ := Reader.feed_map_number_eq_value h
  exact ⟨UInt8.ofNat n, rfl, by rw [ofByte, UInt8.toNat_ofNat_of_lt' hlt]⟩

theorem counts_of_feed (h : Element.countsReader.feed bits = .value element rest) :
    ∃ announced : Counts, element = .counts announced ∧ announced.Fits
      ∧ bits = announced.bits ++ rest := by
  obtain ⟨l, behind, hl, hrest⟩ := Reader.feed_bind_eq_value.mp h
  obtain ⟨d, behind', hd, hrest'⟩ := Reader.feed_bind_eq_value.mp hrest
  obtain ⟨hl', rfl⟩ := Reader.feed_number_eq_value hl
  obtain ⟨hd', rfl⟩ := Reader.feed_number_eq_value hd
  obtain ⟨c, hc', rfl, rfl⟩ := Reader.feed_map_number_eq_value hrest'
  refine ⟨_, rfl, ⟨⟨?_, ?_⟩, ⟨?_, ?_⟩, ⟨?_, ?_⟩⟩, by simp [Counts.bits]⟩ <;> dsimp only <;> omega

theorem feed_countsReader_ne_error (bits rest : List Bool) :
    Element.countsReader.feed bits ≠ .error rest := by
  simp only [Element.countsReader, Ne, Reader.feed_bind_eq_error, Reader.feed_number_ne_error,
    Reader.feed_map_number_ne_error, false_or, and_false, exists_false, not_false_eq_true]

theorem lengthCode_of_feed {count : Nat}
    (h : (Element.lengthCodeReader count).feed bits = .value element rest) :
    ∃ sent, element = .lengthCode sent ∧ sent.length = count ∧ (∀ length ∈ sent, length < 8)
      ∧ bits = sent.flatMap (Bits.ofNat 3) ++ rest := by
  obtain ⟨sent, hsent, rfl⟩ := Reader.feed_map_eq_value.mp h
  have hnumber : ∀ length bits behind, (Reader.number 3).feed bits = .value length behind →
      length < 8 ∧ bits = Bits.ofNat 3 length ++ behind := fun _ _ _ => Reader.feed_number_eq_value
  obtain ⟨hcount, hlt, hbits⟩ := Reader.feed_times_eq_value hnumber hsent
  exact ⟨sent, rfl, hcount, hlt, hbits⟩

end Fixed

/-! ## Steps in the word lengths -/

section Runs

variable {sent : List Nat} {bits rest : List Bool} {element : Element} {first : Bool}

/-- A symbol of the length code was read from its canonical word. -/
theorem codeword_of_feed (hsent : Readable (arrange sent))
    (hcomplete : ¬ Incomplete (arrange sent)) {symbol : Nat}
    (h : (PrefixCode.table (arrange sent)).reader.feed bits = .value symbol rest) :
    ∃ word, bits = word ++ rest ∧ codeword (arrange sent) symbol = some word := by
  obtain ⟨word, hbits, hword⟩ := hsent.feed_reader_eq_value h
  have hfits := PrefixCode.fitsTable_of_complete hcomplete
  exact ⟨word, hbits, (PrefixCode.isWord_iff_of_fitsTable hfits).mp hword⟩

theorem run_of_feed (hsent : Readable (arrange sent)) (hcomplete : ¬ Incomplete (arrange sent))
    (h : (Element.runReader (PrefixCode.table (arrange sent)) first).feed bits
      = .value element rest) :
    ∃ (run : LengthRun) (word : List Bool), element = .run run ∧ bits = word ++ rest
      ∧ run.Written sent word ∧ (run.Repeats → first = false) := by
  obtain ⟨symbol, behind, hsymbol, hrest⟩ := Reader.feed_bind_eq_value.mp h
  obtain ⟨word, rfl, hword⟩ := codeword_of_feed hsent hcomplete hsymbol
  split at hrest
  · next hplain =>
    obtain ⟨rfl, rfl⟩ : Element.run (.plain symbol) = element ∧ behind = rest := by
      simpa using hrest
    exact ⟨_, word, rfl, rfl, .plain hplain hword, by rintro ⟨times, ⟨⟩⟩⟩
  · split at hrest
    · next hagain =>
      subst hagain
      cases first with
      | true => simp at hrest
      | false =>
        obtain ⟨more, hlt, rfl, rfl⟩ := Reader.feed_map_number_eq_value hrest
        exact ⟨_, _, rfl, (List.append_assoc _ _ _).symm, .again hlt hword, fun _ => rfl⟩
    · split at hrest
      · next hfew =>
        subst hfew
        obtain ⟨more, hlt, rfl, rfl⟩ := Reader.feed_map_number_eq_value hrest
        exact ⟨_, _, rfl, (List.append_assoc _ _ _).symm, .fewZeros hlt hword,
          by rintro ⟨times, ⟨⟩⟩⟩
      · -- there are nineteen symbols, so this is the last one
        obtain ⟨length, hlength, -⟩ := PrefixCode.codeword_eq_some hword
        have hlast := (List.getElem?_eq_some_iff.mp hlength).1
        rw [length_arrange] at hlast
        obtain rfl : symbol = 18 := by omega
        obtain ⟨more, hlt, rfl, rfl⟩ := Reader.feed_map_number_eq_value hrest
        exact ⟨_, _, rfl, (List.append_assoc _ _ _).symm, .manyZeros hlt hword,
          by rintro ⟨times, ⟨⟩⟩⟩

/-- A step in the word lengths fails only where it repeats a length that is not there. -/
theorem nothingToRepeat_of_feed (hsent : Readable (arrange sent))
    (hcomplete : ¬ Incomplete (arrange sent))
    (h : (Element.runReader (PrefixCode.table (arrange sent)) first).feed bits = .error rest) :
    first = true ∧ ∃ word, bits = word ++ rest ∧ codeword (arrange sent) 16 = some word := by
  rcases Reader.feed_bind_eq_error.mp h with herror | ⟨symbol, behind, hsymbol, hrest⟩
  · exact absurd herror (hsent.feed_reader_ne_error hcomplete _ _)
  · obtain ⟨word, rfl, hword⟩ := codeword_of_feed hsent hcomplete hsymbol
    split at hrest
    · simp at hrest
    · split at hrest
      · next hagain =>
        subst hagain
        cases first with
        | true =>
          obtain rfl : behind = rest := by simpa using hrest
          exact ⟨rfl, word, rfl, hword⟩
        | false => exact absurd hrest (Reader.feed_map_number_ne_error _ _ _ _)
      · split at hrest
        · exact absurd hrest (Reader.feed_map_number_ne_error _ _ _ _)
        · exact absurd hrest (Reader.feed_map_number_ne_error _ _ _ _)

end Runs

/-! ## Tokens -/

section Tokens

variable {literals distances : List Nat} {bits rest : List Bool} {element : Element}

theorem lengthSlots_eq_none_iff {slot : Nat} : lengthSlots[slot]? = none ↔ 29 ≤ slot :=
  Array.getElem?_eq_none_iff

theorem distanceSlots_eq_none_iff {slot : Nat} : distanceSlots[slot]? = none ↔ 30 ≤ slot :=
  Array.getElem?_eq_none_iff

theorem Words.extra_of_getElem? {slots : Array Slot} {index : Nat} {slot : Slot}
    (h : slots[index]? = some slot) (value : Nat) :
    Words.extra slots index value = Bits.ofNat slot.extra value := by
  rw [Words.extra, h, Option.getD_some]

theorem backref_of_feed (hdistances : Readable distances) {lengthSlot : Nat}
    (h : (Element.backrefReader (PrefixCode.table distances) lengthSlot).feed bits
      = .value element rest) :
    ∃ (ref : Backref) (word : List Bool), element = .backref ref ∧ ref.lengthSlot = lengthSlot
      ∧ ref.Legal ∧ IsWord distances ref.distanceSlot word
      ∧ bits = Words.extra lengthSlots ref.lengthSlot ref.lengthExtra ++ word
        ++ Words.extra distanceSlots ref.distanceSlot ref.distanceExtra ++ rest := by
  unfold Element.backrefReader at h
  cases hslot : lengthSlots[lengthSlot]? with
  | none => simp [hslot] at h
  | some slot =>
    rw [hslot] at h
    obtain ⟨lengthExtra, behind, hlength, hrest⟩ := Reader.feed_bind_eq_value.mp h
    obtain ⟨hlengthExtra, rfl⟩ := Reader.feed_number_eq_value hlength
    obtain ⟨distanceSlot, behind', hsymbol, hrest'⟩ := Reader.feed_bind_eq_value.mp hrest
    obtain ⟨word, rfl, hword⟩ := hdistances.feed_reader_eq_value hsymbol
    cases hslot' : distanceSlots[distanceSlot]? with
    | none => simp [hslot'] at hrest'
    | some slot' =>
      rw [hslot'] at hrest'
      obtain ⟨distanceExtra, hdistanceExtra, rfl, rfl⟩ := Reader.feed_map_number_eq_value hrest'
      refine ⟨_, word, rfl, rfl, ⟨⟨slot, hslot, hlengthExtra⟩, ⟨slot', hslot', hdistanceExtra⟩⟩,
        hword, ?_⟩
      simp [Words.extra_of_getElem? hslot, Words.extra_of_getElem? hslot']

theorem token_of_feed (hliterals : Readable literals) (hdistances : Readable distances)
    {last : Bool} {offset : Nat}
    (h : (Element.tokenReader (PrefixCode.table literals) (PrefixCode.table distances)).feed bits
      = .value element rest) :
    ∃ word, bits = word ++ rest
      ∧ element.Written offset (.tokens last literals distances) word := by
  obtain ⟨symbol, behind, hsymbol, hrest⟩ := Reader.feed_bind_eq_value.mp h
  obtain ⟨word, rfl, hword⟩ := hliterals.feed_reader_eq_value hsymbol
  split at hrest
  · next hlt =>
    obtain ⟨rfl, rfl⟩ : Element.literal (UInt8.ofNat symbol) = element ∧ behind = rest := by
      simpa using hrest
    have hvalue : (UInt8.ofNat symbol).toNat = symbol := UInt8.toNat_ofNat_of_lt' hlt
    exact ⟨word, rfl, .literal (by rwa [hvalue])⟩
  · split at hrest
    · next hend =>
      obtain ⟨rfl, rfl⟩ : Element.endOfBlock = element ∧ behind = rest := by simpa using hrest
      exact ⟨word, rfl, .endOfBlock (hend ▸ hword)⟩
    · next hnlt hne =>
      obtain ⟨ref, distanceWord, rfl, hslot, hlegal, hdistance, rfl⟩ :=
        backref_of_feed hdistances hrest
      have hslotSymbol : firstLengthSymbol + ref.lengthSlot = symbol := by
        simp only [endSymbol] at hnlt hne
        simp only [firstLengthSymbol] at hslot ⊢
        omega
      exact ⟨_, by simp, .backref hlegal (hslotSymbol ▸ hword) hdistance⟩

theorem wrongDistance_of_feed (hdistances : Readable distances) {lengthSlot : Nat}
    (hlt : lengthSlot < 29)
    (h : (Element.backrefReader (PrefixCode.table distances) lengthSlot).feed bits
      = .error rest) :
    ∃ extra wrong, Slot.Holds lengthSlots lengthSlot extra
      ∧ bits = Words.extra lengthSlots lengthSlot extra ++ wrong ++ rest
      ∧ (Unassigned distances wrong
        ∨ ∃ symbol, IsWord distances symbol wrong ∧ 30 ≤ symbol) := by
  unfold Element.backrefReader at h
  cases hslot : lengthSlots[lengthSlot]? with
  | none => exact absurd (lengthSlots_eq_none_iff.mp hslot) (Nat.not_le_of_lt hlt)
  | some slot =>
    rw [hslot] at h
    rcases Reader.feed_bind_eq_error.mp h with herror | ⟨extra, behind, hextra, hrest⟩
    · exact absurd herror (Reader.feed_number_ne_error _ _ _)
    · obtain ⟨hlt', rfl⟩ := Reader.feed_number_eq_value hextra
      have hholds : Slot.Holds lengthSlots lengthSlot extra := ⟨slot, hslot, hlt'⟩
      rw [← Words.extra_of_getElem? hslot]
      rcases Reader.feed_bind_eq_error.mp hrest with herror | ⟨symbol, behind', hsymbol, hrest'⟩
      · obtain ⟨pattern, rfl, hpattern⟩ := hdistances.feed_reader_eq_error herror
        exact ⟨extra, pattern, hholds, by simp, .inl hpattern⟩
      · obtain ⟨word, rfl, hword⟩ := hdistances.feed_reader_eq_value hsymbol
        cases hslot' : distanceSlots[symbol]? with
        | none =>
          rw [hslot'] at hrest'
          obtain rfl : behind' = rest := by simpa using hrest'
          exact ⟨extra, word, hholds, by simp,
            .inr ⟨symbol, hword, distanceSlots_eq_none_iff.mp hslot'⟩⟩
        | some slot' =>
          rw [hslot'] at hrest'
          exact absurd hrest' (Reader.feed_map_number_ne_error _ _ _ _)

theorem wrongToken_of_feed (hliterals : Readable literals) (hdistances : Readable distances)
    {last : Bool} {offset : Nat}
    (h : (Element.tokenReader (PrefixCode.table literals) (PrefixCode.table distances)).feed bits
      = .error rest) :
    ∃ wrong, bits = wrong ++ rest ∧ Violation offset (.tokens last literals distances) wrong := by
  rcases Reader.feed_bind_eq_error.mp h with herror | ⟨symbol, behind, hsymbol, hrest⟩
  · obtain ⟨pattern, rfl, hpattern⟩ := hliterals.feed_reader_eq_error herror
    exact ⟨pattern, rfl, .noLiteral hpattern⟩
  · obtain ⟨word, rfl, hword⟩ := hliterals.feed_reader_eq_value hsymbol
    split at hrest
    · simp at hrest
    · split at hrest
      · simp at hrest
      · next hnlt hne =>
        obtain ⟨slot, rfl⟩ : ∃ slot, symbol = firstLengthSymbol + slot := by
          simp only [endSymbol] at hnlt hne
          exact ⟨symbol - 257, by simp only [firstLengthSymbol]; omega⟩
        rw [Nat.add_sub_cancel_left] at hrest
        by_cases hslot : slot < 29
        · obtain ⟨extra, wrong, hholds, rfl, hwrong⟩ :=
            wrongDistance_of_feed hdistances hslot hrest
          have hpart : LengthPart literals (word ++ Words.extra lengthSlots slot extra) :=
            .mk hholds hword
          refine ⟨word ++ Words.extra lengthSlots slot extra ++ wrong, by simp, ?_⟩
          rcases hwrong with hpattern | ⟨symbol, hsymbol, hlarge⟩
          · exact .noDistance hpart hpattern
          · exact .distanceSymbol hpart hsymbol hlarge
        · have hnone := lengthSlots_eq_none_iff.mpr (Nat.le_of_not_lt hslot)
          rw [Element.backrefReader, hnone] at hrest
          obtain rfl : behind = rest := by simpa using hrest
          exact ⟨word, rfl, .lengthSymbol hword (by simp only [firstLengthSymbol]; omega)⟩

/-- What is read behind the symbol of a distance. -/
def distanceRest (lengthSlot lengthExtra distanceSlot : Nat) : Reader Element :=
  match distanceSlots[distanceSlot]? with
  | none => .fail
  | some slot =>
    (Reader.number slot.extra).map fun distanceExtra =>
      .backref { lengthSlot, lengthExtra, distanceSlot, distanceExtra }

theorem distanceRest_eq_fail {distanceSlot : Nat} (h : 30 ≤ distanceSlot)
    (lengthSlot lengthExtra : Nat) : distanceRest lengthSlot lengthExtra distanceSlot = .fail := by
  simp only [distanceRest, distanceSlots_eq_none_iff.mpr h]

/-- Behind the length of a repetition its distance is read. -/
theorem feed_lengthPart (hliterals : Readable literals) {code : PrefixCode} {part : List Bool}
    (hpart : LengthPart literals part) :
    ∃ slot extra, ∀ behind,
      (Element.tokenReader (PrefixCode.table literals) code).feed (part ++ behind)
        = (code.reader.bind (distanceRest slot extra)).feed behind := by
  cases hpart with
  | @mk index extra word hholds hword =>
    obtain ⟨slot, hslot, hextra⟩ := hholds
    have hnlt : ¬ firstLengthSymbol + index < endSymbol := by
      simp only [firstLengthSymbol, endSymbol]
      omega
    have hne : firstLengthSymbol + index ≠ endSymbol := by
      simp only [firstLengthSymbol, endSymbol]
      omega
    refine ⟨index, extra, fun behind => ?_⟩
    rw [Element.tokenReader, Reader.feed_bind, List.append_assoc,
      PrefixCode.feed_reader (hliterals.follow_table_iff.mpr hword)]
    simp only [if_neg hnlt, if_neg hne, Nat.add_sub_cancel_left, Element.backrefReader, hslot]
    rw [Reader.feed_bind, Words.extra_of_getElem? hslot, feed_number_ofNat _ hextra]
    rfl

end Tokens

/-! ## Every place -/

section Places

variable {stage : Stage} {offset : Nat} {element : Element} {bits rest : List Bool}

/-- **What a place reads was written as the format says.** -/
theorem written_of_feed (hsound : stage.Sound)
    (h : (stage.place.reader offset).feed bits = .value element rest) :
    ∃ word, bits = word ++ rest ∧ element.Written offset stage word := by
  cases stage with
  | header =>
    obtain ⟨last, kind, rfl, hbits⟩ := header_of_feed h
    exact ⟨_, hbits, .header last kind⟩
  | storedLength last =>
    obtain ⟨padding, length, complement, rfl, hpadding, hlength, hcomplement, hbits⟩ :=
      storedLength_of_feed h
    exact ⟨_, hbits, .storedLength hpadding hlength hcomplement⟩
  | stored last left =>
    obtain ⟨value, rfl, hbits⟩ := storedByte_of_feed h
    exact ⟨_, hbits, .storedByte value⟩
  | counts last =>
    obtain ⟨announced, rfl, hfits, hbits⟩ := counts_of_feed h
    exact ⟨_, hbits, .counts hfits⟩
  | lengthCode last announced =>
    obtain ⟨sent, rfl, hcount, hsent, hbits⟩ := lengthCode_of_feed h
    exact ⟨_, hbits, .lengthCode hcount hsent⟩
  | lengths last announced sent known =>
    obtain ⟨run, word, rfl, hbits, hrun, hknown⟩ := run_of_feed hsound.readable_arrange hsound.2.2.1 h
    exact ⟨word, hbits, .run hrun hknown⟩
  | tokens last literals distances => exact token_of_feed hsound.1 hsound.2 h
  | finished => simp [Stage.place, Place.reader] at h

/-- **Where a place reads an error, the bits break the format.** -/
theorem violation_of_feed (hsound : stage.Sound) (hstage : stage ≠ .finished)
    (h : (stage.place.reader offset).feed bits = .error rest) :
    ∃ wrong, bits = wrong ++ rest ∧ Violation offset stage wrong := by
  cases stage with
  | header =>
    obtain ⟨last, hbits⟩ := fourthKind_of_feed h
    exact ⟨_, hbits, .kind last⟩
  | storedLength last => exact absurd h (feed_storedLengthReader_ne_error _ _ _)
  | stored last left => exact absurd h (Reader.feed_map_number_ne_error _ _ _ _)
  | counts last => exact absurd h (feed_countsReader_ne_error _ _)
  | lengthCode last announced =>
    exact absurd (Reader.feed_map_eq_error.mp h)
      (Reader.feed_times_ne_error (Reader.feed_number_ne_error 3) _ _ _)
  | lengths last announced sent known =>
    obtain ⟨hfirst, word, hbits, hword⟩ :=
      nothingToRepeat_of_feed hsound.readable_arrange hsound.2.2.1 h
    obtain rfl : known = #[] := by simpa using hfirst
    exact ⟨word, hbits, .nothingToRepeat hword⟩
  | tokens last literals distances => exact wrongToken_of_feed hsound.1 hsound.2 h
  | finished => exact absurd rfl hstage

/-- **Bits that complete a breach of the format are refused**: a place reads an error in them, or an
element that leads nowhere. -/
theorem refused_of_violation (hsound : stage.Sound) {wrong : List Bool}
    (h : Violation offset stage wrong) :
    (∃ rest, (stage.place.reader offset).feed wrong = .error rest)
      ∨ ∃ element, (stage.place.reader offset).feed wrong = .value element []
        ∧ stage.place.next element = none := by
  cases h with
  | element hwritten hbreaks =>
    have hread := feed_spelled (hwritten.spelled hsound) []
    rw [List.append_nil] at hread
    exact .inr ⟨_, hread, hbreaks.next hsound hwritten⟩
  | kind last => exact .inl ⟨[], rfl⟩
  | nothingToRepeat hword =>
    have hread := hsound.readable_arrange.feed_reader_word (.canonical hword)
    refine .inl ⟨[], ?_⟩
    simp [Stage.place, Place.reader, Element.runReader, Reader.feed_bind, hread]
  | @lengthSymbol _ _ _ symbol word hword hsymbol =>
    have hread := hsound.1.feed_reader_word hword
    have hnlt : ¬ symbol < endSymbol := by simp only [endSymbol]; omega
    have hne : symbol ≠ endSymbol := by simp only [endSymbol]; omega
    have hnone : lengthSlots[symbol - firstLengthSymbol]? = none :=
      lengthSlots_eq_none_iff.mpr (by simp only [firstLengthSymbol]; omega)
    refine .inl ⟨[], ?_⟩
    simp only [Stage.place, Place.reader, Element.tokenReader, Reader.feed_bind, hread,
      if_neg hnlt, if_neg hne, Element.backrefReader, hnone, Reader.feed_fail]
  | @distanceSymbol _ _ _ symbol _ word hpart hword hsymbol =>
    obtain ⟨slot, extra, hfeed⟩ := feed_lengthPart hsound.1 hpart
    have hread := hsound.2.feed_reader_word hword
    refine .inl ⟨[], ?_⟩
    rw [Stage.place, Place.reader, hfeed, Reader.feed_bind, hread]
    simp only [distanceRest_eq_fail hsymbol, Reader.feed_fail]
  | noLiteral hpattern =>
    obtain ⟨rest, herror⟩ := hsound.1.feed_reader_of_unassigned hpattern
    exact .inl ⟨rest, Reader.feed_bind_eq_error.mpr (.inl herror)⟩
  | noDistance hpart hpattern =>
    obtain ⟨slot, extra, hfeed⟩ := feed_lengthPart hsound.1 hpart
    obtain ⟨rest, herror⟩ := hsound.2.feed_reader_of_unassigned hpattern
    refine .inl ⟨rest, ?_⟩
    rw [Stage.place, Place.reader, hfeed]
    exact Reader.feed_bind_eq_error.mpr (.inl herror)

end Places

end DeflateEcho.Deflate
