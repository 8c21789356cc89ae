import DeflateEcho.Deflate.Frame
import DeflateEcho.Proofs.Deflate.CodeSpace
import DeflateEcho.Proofs.Deflate.Inflating
import DeflateEcho.Proofs.Deflate.Repetition

/-!
# Proofs/Deflate/SelfContained — a frame carries its message, whatever came before it

Bits **carry** a message if they lead a scanner from one block header to the next, and their
elements add that message to any output.  Both kinds of block in a frame carry what they were made
for (`carries_fixed`, `carries_stored`), and blocks one behind the other carry their messages one
behind the other; so a frame carries its message (`carries_bits`) and ends with the marker
(`marker_suffix_encode`).
-/

namespace DeflateEcho.Deflate

open Bits

/-- These bits, read at a header `offset` bits into a stream, lead to the next header and add the
message to any output. -/
def Carries (offset : Nat) (bits : List Bool) (message : Bytes) : Prop :=
  ∃ elements, Path .header offset elements bits .header
    ∧ ∀ before, elements.foldl Element.extend before = before ++ message

theorem Carries.nil (offset : Nat) : Carries offset [] [] :=
  ⟨[], .nil _ _, by simp⟩

theorem Carries.append {offset : Nat} {bits rest : List Bool} {first second : Bytes}
    (h : Carries offset bits first) (hrest : Carries (offset + bits.length) rest second) :
    Carries offset (bits ++ rest) (first ++ second) := by
  obtain ⟨elements, hpath, hextend⟩ := h
  obtain ⟨more, hpath', hextend'⟩ := hrest
  refine ⟨elements ++ more, hpath.append hpath', fun before => ?_⟩
  rw [List.foldl_append, hextend, hextend', List.append_assoc]

/-! ## Stored blocks -/

theorem path_storedBytes (last : Bool) (offset : Nat) (bytes : Bytes) :
    Path (.inStored last bytes.length) offset (bytes.map .storedByte) (ofBytes bytes)
      (.afterBlock last) := by
  induction bytes generalizing offset with
  | nil => exact .nil _ _
  | cons byte bytes ih =>
    rw [ofBytes_cons]
    exact .cons (.storedByte byte) (List.ne_nil_of_length_pos (by simp)) rfl (ih _)

theorem foldl_storedByte (bytes before : Bytes) :
    (bytes.map Element.storedByte).foldl Element.extend before = before ++ bytes := by
  induction bytes generalizing before with
  | nil => simp
  | cons byte bytes ih => simp [Element.extend, ih]

/-- **A stored block carries its bytes**, with the right padding. -/
theorem carries_stored {offset : Nat} {padding : List Bool} {bytes : Bytes}
    (hpadding : padding.length = paddingAt (offset + 3))
    (hlength : bytes.length ≤ Block.maxStored) :
    Carries offset ((Block.stored padding bytes).bits false) bytes := by
  refine ⟨.header false .stored
    :: .storedLength padding bytes.length (Block.maxStored - bytes.length)
    :: bytes.map .storedByte, ?_, fun before => ?_⟩
  · have hbits : (Block.stored padding bytes).bits false
        = (false :: BlockKind.stored.bits) ++ ((padding ++ Bits.ofNat 16 bytes.length
          ++ Bits.ofNat 16 (Block.maxStored - bytes.length)) ++ ofBytes bytes) := by
      simp [Block.bits, BlockKind.bits]
    rw [hbits]
    refine .cons (.header false .stored) (by simp) rfl (.cons (.storedLength ?_ ?_ ?_) ?_ ?_
      (path_storedBytes false _ bytes))
    · exact hpadding
    · exact hlength
    · omega
    · exact List.ne_nil_of_length_pos (by simp)
    · simp only [Place.next]
      rw [if_pos (by simp only [Block.maxStored] at hlength ⊢; omega)]
  · exact foldl_storedByte bytes before

/-! ## Blocks of tokens -/

/-- A token as an element. -/
def Token.element : Token → Element
  | .literal value => .literal value
  | .backref ref => .backref ref

theorem extend_element (output : Bytes) (token : Token) :
    token.element.extend output = token.extend output := by
  cases token <;> rfl

theorem foldl_element (tokens : List Token) (before : Bytes) :
    (tokens.map Token.element).foldl Element.extend before = tokens.foldl Token.extend before := by
  rw [List.foldl_map]
  exact congrArg (fun f => tokens.foldl f before)
    (funext fun output => funext fun token => extend_element output token)

/-- A symbol has its word in the table: a word that is not empty and leads to it. -/
def HasWord (code : PrefixCode) (word : List Bool) (symbol : Nat) : Prop :=
  word ≠ [] ∧ code.follow word = .leaf symbol

/-- What a token needs of the words of its block. -/
def Token.HasWords (literals distances : PrefixCode) (w : Words) : Token → Prop
  | .literal value => HasWord literals (w.literal value.toNat) value.toNat
  | .backref ref =>
    HasWord literals (w.literal (firstLengthSymbol + ref.lengthSlot))
        (firstLengthSymbol + ref.lengthSlot)
      ∧ HasWord distances (w.distance ref.distanceSlot) ref.distanceSlot

section Tokens

variable {literals distances : PrefixCode} {w : Words}

/-- A legal token with words is spelled by them. -/
theorem spelled_token (last : Bool) (offset : Nat) {token : Token} (hlegal : token.Legal)
    (hwords : token.HasWords literals distances w) :
    token.element.Spelled offset (.tokens last literals distances) (w.token token)
      ∧ w.token token ≠ [] := by
  cases token with
  | literal value => exact ⟨.literal hwords.2, hwords.1⟩
  | backref ref =>
    obtain ⟨⟨hne, hlength⟩, -, hdistance⟩ := hwords
    exact ⟨.backref hlegal hlength hdistance, by simp [Words.token, hne]⟩

theorem path_tokens {last : Bool} {tokens : List Token} (offset : Nat)
    (hlegal : ∀ token ∈ tokens, token.Legal)
    (hwords : ∀ token ∈ tokens, token.HasWords literals distances w) :
    Path (.tokens last literals distances) offset (tokens.map Token.element)
      (tokens.flatMap w.token) (.tokens last literals distances) := by
  induction tokens generalizing offset with
  | nil => exact .nil _ _
  | cons token tokens ih =>
    obtain ⟨hl, hlegal'⟩ := List.forall_mem_cons.mp hlegal
    obtain ⟨hw, hwords'⟩ := List.forall_mem_cons.mp hwords
    obtain ⟨hspelled, hne⟩ := spelled_token last offset hl hw
    rw [List.map_cons, List.flatMap_cons]
    refine .cons hspelled hne ?_ (ih _ hlegal' hwords')
    cases token <;> rfl

/-- The tokens of a block and its end, from the place behind its tables to the place behind it. -/
theorem path_body {last : Bool} {tokens : List Token} (offset : Nat)
    (hlegal : ∀ token ∈ tokens, token.Legal)
    (hwords : ∀ token ∈ tokens, token.HasWords literals distances w)
    (hend : HasWord literals (w.literal endSymbol) endSymbol) :
    Path (.tokens last literals distances) offset (tokens.map Token.element ++ [.endOfBlock])
      (w.body tokens) (.afterBlock last) :=
  (path_tokens offset hlegal hwords).append (.single (.endOfBlock hend.2) hend.1 rfl)

end Tokens

/-! ## Fixed codes -/

theorem hasWord_codewords {lengths : List Nat} {symbol : Nat} (hlt : symbol < lengths.length)
    (hlengths : ∀ length ∈ lengths, 0 < length ∧ length ≤ PrefixCode.maxLength)
    (hcomplete : PrefixCode.isComplete lengths = true) :
    HasWord (PrefixCode.table lengths) ((PrefixCode.codewords lengths)[symbol]?.getD [])
      symbol := by
  obtain ⟨hbuild, hfull⟩ := Bool.and_eq_true_iff.mp hcomplete
  obtain ⟨h0, hmax⟩ := hlengths lengths[symbol] (List.getElem_mem hlt)
  obtain ⟨hlength, hfollow⟩ :=
    PrefixCode.follow_codewords (List.getElem?_eq_getElem hlt) h0 hmax (List.isEmpty_iff.mp hbuild)
  refine ⟨List.ne_nil_of_length_pos (by omega), ?_⟩
  rw [PrefixCode.table, PrefixCode.zeroFilled_of_isFull hfull, hfollow]

theorem length_fixedLiteralLengths : fixedLiteralLengths.length = 288 := by
  simp only [fixedLiteralLengths, List.length_append, List.length_replicate]

theorem hasWord_fixed_literal {symbol : Nat} (h : symbol < 288) :
    HasWord fixedLiterals (Words.fixed.literal symbol) symbol := by
  refine hasWord_codewords (by rwa [length_fixedLiteralLengths]) (fun length hlength => ?_)
    (by decide +kernel)
  simp only [fixedLiteralLengths, List.mem_append, List.mem_replicate] at hlength
  simp only [PrefixCode.maxLength]
  omega

theorem hasWord_fixed_distance {symbol : Nat} (h : symbol < 32) :
    HasWord fixedDistances (Words.fixed.distance symbol) symbol := by
  refine hasWord_codewords (by simpa [fixedDistanceLengths] using h) (fun length hlength => ?_)
    (by decide +kernel)
  have : length = 5 := List.eq_of_mem_replicate hlength
  simp only [PrefixCode.maxLength]
  omega

theorem Slot.Holds.index_lt {slots : Array Slot} {index extra : Nat}
    (h : Slot.Holds slots index extra) : index < slots.size := by
  obtain ⟨slot, hslot, -⟩ := h
  exact (Array.getElem?_eq_some_iff.mp hslot).1

/-- The fixed codes have words for all legal tokens. -/
theorem Token.Legal.hasWords {token : Token} (h : token.Legal) :
    token.HasWords fixedLiterals fixedDistances Words.fixed := by
  cases token with
  | literal value =>
    exact hasWord_fixed_literal (Nat.lt_of_lt_of_le value.toNat_lt (by decide))
  | backref ref =>
    have hlength : ref.lengthSlot < 29 := h.length.index_lt
    have hdistance : ref.distanceSlot < 30 := h.distance.index_lt
    refine ⟨hasWord_fixed_literal ?_, hasWord_fixed_distance (by omega)⟩
    simp only [firstLengthSymbol]
    omega

/-- **A block with fixed codes carries what its tokens stand for.** -/
theorem carries_fixed {tokens : List Token} {bytes : Bytes} (offset : Nat)
    (h : Tells tokens bytes) : Carries offset ((Block.fixed tokens).bits false) bytes := by
  refine ⟨.header false .fixed :: (tokens.map Token.element ++ [.endOfBlock]), ?_,
    fun before => ?_⟩
  · exact .cons (.header false .fixed) (by simp) rfl (path_body _ h.legal
      (fun token ht => (h.legal token ht).hasWords) (hasWord_fixed_literal (by decide)))
  · change (tokens.map Token.element ++ [Element.endOfBlock]).foldl Element.extend before = _
    rw [List.foldl_append, foldl_element, h.extend]
    rfl

/-! ## Frames -/

namespace Frame

/-- The parts of a message make it up, and each fits into a stored block. -/
theorem parts_spec (message : Bytes) :
    (parts message).flatten = message ∧ ∀ part ∈ parts message, part.length ≤ Block.maxStored := by
  fun_induction parts message with
  | case1 message h => simp [List.length_eq_zero_iff.mp h]
  | case2 message h ih =>
    obtain ⟨hflatten, hlength⟩ := ih
    exact ⟨by simp [hflatten], List.forall_mem_cons.mpr ⟨List.length_take_le _ _, hlength⟩⟩

/-- Counting from a whole byte on, padding fills up the same byte. -/
theorem paddingAt_add {base : Nat} (h : 8 ∣ base) (offset : Nat) :
    paddingAt (base + offset) = paddingAt offset := by
  unfold paddingAt
  omega

/-- A stored block carries its bytes in a frame that begins with a whole byte. -/
theorem carries_storedAt {base : Nat} (hbase : 8 ∣ base) (offset : Nat) {bytes : Bytes}
    (h : bytes.length ≤ Block.maxStored) :
    Carries (base + offset) ((storedAt offset bytes).bits false) bytes :=
  carries_stored (by rw [List.length_replicate, Nat.add_assoc, paddingAt_add hbase]) h

theorem carries_partBits {base : Nat} (hbase : 8 ∣ base) (position offset : Nat) {part : Bytes}
    (h : part.length ≤ Block.maxStored) :
    Carries (base + offset) (partBits position offset part) part := by
  unfold partBits
  dsimp only
  split
  · exact carries_storedAt hbase offset h
  · exact carries_fixed _ (Matching.tells_tokens position part)

/-- The parts of a message, one behind the other. -/
theorem carries_parts {base : Nat} (hbase : 8 ∣ base) (parts : List Bytes)
    (hparts : ∀ part ∈ parts, part.length ≤ Block.maxStored) (bits : List Bool) (position : Nat)
    {before : Bytes} (h : Carries base bits before) :
    Carries base (parts.foldl (fun (bits, position) part =>
      (bits ++ partBits position bits.length part, position + part.length)) (bits, position)).1
      (before ++ parts.flatten) := by
  induction parts generalizing bits position before with
  | nil => simpa using h
  | cons part parts ih =>
    obtain ⟨hpart, hrest⟩ := List.forall_mem_cons.mp hparts
    have := ih hrest _ (position + part.length)
      (h.append (carries_partBits hbase position bits.length hpart))
    simpa [List.append_assoc] using this

/-- **The bits of a frame carry its message.** -/
theorem carries_bits {base : Nat} (hbase : 8 ∣ base) (position : Nat) (message : Bytes) :
    Carries base (bits position message) message := by
  obtain ⟨hflatten, hlength⟩ := parts_spec message
  have hbody : Carries base (partsBits position message).1 message := by
    have := carries_parts hbase (parts message) hlength [] position (Carries.nil base)
    rwa [List.nil_append, hflatten] at this
  have hmarker : Carries (base + (partsBits position message).1.length)
      (markerBits (partsBits position message).1.length) [] :=
    carries_storedAt hbase _ (Nat.zero_le _)
  have := hbody.append hmarker
  rwa [List.append_nil] at this

/-! ## Bytes of a frame -/

/-- Bits that fill whole bytes are the bits of these bytes. -/
theorem ofBytes_of_dvd {bits : List Bool} (h : 8 ∣ bits.length) :
    ∃ bytes, bits = ofBytes bytes := by
  obtain ⟨n, hn⟩ := h
  induction n generalizing bits with
  | zero => exact ⟨[], by simpa using hn⟩
  | succ n ih =>
    have hrest : (bits.drop 8).length = 8 * n := by simp; omega
    obtain ⟨bytes, hbytes⟩ := ih hrest
    refine ⟨toByte (bits.take 8) :: bytes, ?_⟩
    have hlen : (bits.take 8).length = 8 := by simp; omega
    have hbyte : ofByte (toByte (bits.take 8)) = bits.take 8 := by
      have hlt := toNat_lt (bits.take 8)
      rw [hlen] at hlt
      have hread := ofNat_toNat (bits.take 8)
      rw [hlen] at hread
      rw [ofByte, toByte, UInt8.toNat_ofNat_of_lt' hlt, hread]
    rw [ofBytes_cons, hbyte, ← hbytes, List.take_append_drop]

theorem markerBits_eq (offset : Nat) :
    markerBits offset
      = ([false, false, false] ++ List.replicate (paddingAt (offset + 3)) false)
        ++ ofBytes marker := by
  have hmarker : Bits.ofNat 16 0 ++ Bits.ofNat 16 Block.maxStored = ofBytes marker := by decide
  simp [markerBits, storedAt, Block.bits, ← hmarker]

/-- A frame fills whole bytes, the last four of which are the marker. -/
theorem bits_eq (position : Nat) (message : Bytes) :
    ∃ body, bits position message = ofBytes (body ++ marker) := by
  generalize hparts : (partsBits position message).1 = parts
  have hdvd : 8 ∣ (parts ++ ([false, false, false]
      ++ List.replicate (paddingAt (parts.length + 3)) false)).length := by
    simp only [paddingAt, List.length_append, List.length_cons, List.length_nil,
      List.length_replicate]
    omega
  obtain ⟨body, hbody⟩ := ofBytes_of_dvd hdvd
  refine ⟨body, ?_⟩
  rw [ofBytes_append, ← hbody, List.append_assoc, ← markerBits_eq, bits, hparts]

/-- The bits of the bytes of a frame are the bits of the frame. -/
theorem ofBytes_encode (position : Nat) (message : Bytes) :
    ofBytes (encode position message) = bits position message := by
  obtain ⟨body, hbody⟩ := bits_eq position message
  rw [encode, hbody, toBytes_ofBytes]

/-- **Every frame ends with the marker.** -/
theorem marker_suffix_encode (position : Nat) (message : Bytes) :
    marker <:+ encode position message := by
  obtain ⟨body, hbody⟩ := bits_eq position message
  rw [encode, hbody, toBytes_ofBytes]
  exact List.suffix_append body marker

end Frame

end DeflateEcho.Deflate
