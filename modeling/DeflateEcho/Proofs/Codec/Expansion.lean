import DeflateEcho.Proofs.Codec.EndStates
import DeflateEcho.Proofs.Deflate.Expansion

/-!
# Proofs/Codec/Expansion — how much a piece can grow

A piece gives as many bytes as the elements that it completes stand for
(`length_decompress_behind`).  Behind whole elements this is 1032 times its length at most: four
repetitions of the greatest length fit into a byte.  Behind a piece that ends inside an element it may
be one byte more, which is what `openRepetition` leads to.
-/

namespace DeflateEcho.Codec

open Deflate Bits

/-- The scanner of a new codec behind some bytes. -/
def scannerBehind (given : Bytes) : Scanner :=
  ((Scanner.atPlace Stage.header.place 0).run (ofBytes given)).1

/-- A codec that no element is begun for: what has come in ends where an element ends. -/
def BehindElements (c : Codec) : Prop :=
  ∃ requests elements final, c = (({} : Codec).answerAll requests).2
    ∧ Derivation .header 0 elements (ofBytes (pieces requests).flatten) final

/-! ## Counting what is given out -/

/-- A new codec gives as many bytes as its scanner's elements stand for. -/
theorem length_decompress_new {given bytes : Bytes}
    (h : (({} : Codec).decompress given).1 = .ok bytes) :
    bytes.length
      = Element.sizes ((Scanner.atPlace Stage.header.place 0).run (ofBytes given)).2 := by
  have hsound : Stage.header.Sound := trivial
  rcases Scanner.run_cases hsound 0 (ofBytes given) with
    ⟨elements, spelled, final, hexplained, htakes⟩ | hviolated
  · rw [(decompress_new hexplained.derivation htakes).1] at h
    cases h
    rw [htakes.elements, Element.length_foldl_extend, List.length_nil, Nat.zero_add]
  · have hrefuses := refuses_new_iff.mpr hviolated
    rw [Refuses, h] at hrefuses
    cases hrefuses

section Behind

variable {c : Codec} {given before piece bytes : Bytes}
  (hgiven : ({} : Codec).decompress given = (.ok before, c))
include hgiven

/-- Behind bytes that were taken, a piece is refused if the scanner fails in it. -/
theorem refuses_behind_iff :
    c.Refuses piece
      ↔ ((Scanner.atPlace Stage.header.place 0).run (ofBytes given ++ ofBytes piece)).1
        = .failed := by
  have hsound : Stage.header.Sound := trivial
  rw [← refuses_append_iff hgiven, refuses_new_iff, ← Scanner.run_failed_iff hsound, ofBytes_append]

/-- **A piece gives as many bytes as the elements stand for that it completes.** -/
theorem length_decompress_behind (hpiece : (c.decompress piece).1 = .ok bytes) :
    bytes.length = Element.sizes ((scannerBehind given).run (ofBytes piece)).2 := by
  have hwhole := (decompress_append hgiven piece).1
  rw [hpiece] at hwhole
  have hboth := length_decompress_new hwhole
  have hfirst := length_decompress_new (congrArg Prod.fst hgiven)
  rw [ofBytes_append, Scanner.run_append, Element.sizes_append, List.length_append] at hboth
  rw [scannerBehind]
  omega

end Behind

/-! ## The bound -/

/-- Where a piece is taken behind any requests, a new codec takes it behind all earlier pieces. -/
theorem exists_before {requests : List Request} {piece bytes : Bytes}
    (h : ((({} : Codec).answerAll requests).2.decompress piece).1 = .ok bytes) :
    ∃ before c, ({} : Codec).decompress (pieces requests).flatten = (.ok before, c)
      ∧ (c.decompress piece).1 = .ok bytes := by
  have hinflater := (results_answerAll (c := {}) (d := {}) rfl requests).2
  rw [(decompress_congr hinflater piece).1] at h
  rcases hgiven : ({} : Codec).decompress (pieces requests).flatten with ⟨error | before, c⟩
  · have hrefuses := refuses_of_error (congrArg Prod.fst hgiven)
    obtain ⟨j, outputs, hfails⟩ := exists_failsAt not_refuses_new hrefuses
    have herror : .error .malformed ∈ (({} : Codec).decompressAll (pieces requests)).1 := by
      rw [hfails.results, List.mem_append, List.mem_replicate]
      exact .inr ⟨Nat.sub_ne_zero_of_lt hfails.lt_length, rfl⟩
    have hlater : ((({} : Codec).decompressAll (pieces requests)).2.decompress piece).1
        = .error .malformed := error_of_mem herror [piece] _ List.mem_cons_self
    rw [h] at hlater
    cases hlater
  · obtain ⟨outputs, hall, -⟩ := decompressAll_of_ok hgiven
    rw [hall] at h
    exact ⟨before, c, rfl, h⟩

section Bound

variable {requests : List Request} {piece bytes : Bytes}

/-- Behind any requests, the scanner goes through a piece that is taken, and the bytes of what it
completes are given. -/
theorem length_decompress_answered
    (h : ((({} : Codec).answerAll requests).2.decompress piece).1 = .ok bytes) :
    ((Scanner.atPlace Stage.header.place 0).run
        (ofBytes (pieces requests).flatten ++ ofBytes piece)).1 ≠ .failed
      ∧ bytes.length
        = Element.sizes ((scannerBehind (pieces requests).flatten).run (ofBytes piece)).2 := by
  obtain ⟨before, c, hgiven, hpiece⟩ := exists_before h
  have hgoes : ¬ c.Refuses piece := by simp [Refuses, hpiece]
  rw [refuses_behind_iff hgiven] at hgoes
  exact ⟨hgoes, length_decompress_behind hgiven hpiece⟩

/-- **How much a piece can grow**, behind any requests: no bytes give none, and others at most 1032
times as many and one more. -/
theorem length_decompress_le
    (h : ((({} : Codec).answerAll requests).2.decompress piece).1 = .ok bytes) :
    (piece = [] → bytes = []) ∧ bytes.length ≤ 1032 * piece.length + 1 := by
  have hsound : Stage.header.Sound := trivial
  obtain ⟨hgoes, hlength⟩ := length_decompress_answered h
  have hempty : piece = [] → bytes = [] := by
    rintro rfl
    exact List.length_eq_zero_iff.mp hlength
  refine ⟨hempty, ?_⟩
  rcases Nat.eq_zero_or_pos piece.length with hnone | hsome
  · rw [hempty (List.length_eq_zero_iff.mp hnone)]
    exact Nat.zero_le _
  · have hmost := Scanner.sizes_run_le hsound hgoes
    rw [length_ofBytes, mostBytes_bytes_sub_one hsome] at hmost
    exact hlength.trans_le hmost

/-- The one more is not to be had behind whole elements. -/
theorem length_decompress_le_of_behind {c : Codec} (hbehind : c.BehindElements)
    (h : (c.decompress piece).1 = .ok bytes) : bytes.length ≤ 1032 * piece.length := by
  have hsound : Stage.header.Sound := trivial
  obtain ⟨requests, elements, final, rfl, hderivation⟩ := hbehind
  obtain ⟨hgoes, hlength⟩ := length_decompress_answered h
  have hmost := Scanner.sizes_run_le_of_derivation hsound hderivation hgoes
  rw [length_ofBytes, mostBytes_bytes] at hmost
  exact hlength.trans_le hmost

end Bound

/-! ## The bound is reached -/

/-- The beginning of a block with two words, a bit long each, for a literal and for the greatest
length: the literal four times, and the word of the length. -/
def openRepetition : Bytes :=
  [0xed, 0xc1, 0x81, 0x00, 0x00, 0x00, 0x00, 0x00, 0x90, 0x36, 0xff, 0x8d, 0x80]

/-- A byte behind it completes four repetitions, and is a literal with its last bit. -/
theorem length_behind_openRepetition :
    ∃ bytes, ((({} : Codec).decompress openRepetition).2.decompress [0x2a]).1 = .ok bytes
      ∧ bytes.length = 1033 := by
  have hgiven : (({} : Codec).decompress openRepetition).1 = .ok [0x41, 0x41, 0x41, 0x41] := by
    rw [decompress_eq]
    decide +kernel
  have hbehind : ({} : Codec).decompress openRepetition
      = (.ok [0x41, 0x41, 0x41, 0x41], (({} : Codec).decompress openRepetition).2) :=
    Prod.ext hgiven rfl
  have hreading : ((Scanner.atPlace Stage.header.place 0).run
      (ofBytes openRepetition ++ ofBytes [0x2a])).1.isReading = true := by decide +kernel
  have hsizes : Element.sizes ((scannerBehind openRepetition).run (ofBytes [0x2a])).2 = 1033 := by
    decide +kernel
  rcases hpiece : (({} : Codec).decompress openRepetition).2.decompress [0x2a]
    with ⟨error | bytes, c⟩
  · have hrefuses := refuses_of_error (congrArg Prod.fst hpiece)
    rw [refuses_behind_iff hbehind] at hrefuses
    rw [hrefuses] at hreading
    cases hreading
  · exact ⟨bytes, rfl, (length_decompress_behind hbehind (congrArg Prod.fst hpiece)).trans hsizes⟩

/-- **A piece may give more than 1032 bytes for each of its own.** -/
theorem exists_lt_length_decompress :
    ∃ bytes, ((({} : Codec).decompressAll [openRepetition]).2.decompress [0x2a]).1 = .ok bytes
      ∧ 1032 * [(0x2a : UInt8)].length < bytes.length := by
  obtain ⟨bytes, hpiece, hlength⟩ := length_behind_openRepetition
  exact ⟨bytes, hpiece, by rw [hlength]; decide⟩

end DeflateEcho.Codec
