import Mathlib
import DeflateEcho.Proofs.Codec.Frames
import DeflateEcho.Proofs.Deflate.Resuming
import DeflateEcho.Proofs.Session

/-!
# Proofs/Codec/Cuts — decompressing does not depend on how the bytes are cut

A codec goes on where it stands (`decompress_append`), so pieces that come in one after the other
give what all of them give at once.  Where all of them at once are refused, the pieces are fine up to
the shortest beginning that is refused, and refused from there on (`exists_failsAt`).
-/

namespace DeflateEcho.Codec

open Deflate

/-! ## Two pieces -/

/-- These bytes, given to this codec at once, are no compressed stream. -/
def Refuses (c : Codec) (piece : Bytes) : Prop := (c.decompress piece).1 = .error .malformed

theorem refuses_of_error {c : Codec} {piece : Bytes} {error : CodecError}
    (h : (c.decompress piece).1 = .error error) : c.Refuses piece := by
  cases error
  exact h

theorem refuses_iff {c : Codec} {piece : Bytes} :
    c.Refuses piece ↔ (c.inflater.inflate piece).1 = none := by
  rw [Refuses, decompress_eq]
  cases (c.inflater.inflate piece).1 <;> simp

theorem decompress_eq_ok_iff {c c' : Codec} {piece bytes : Bytes} :
    c.decompress piece = (.ok bytes, c')
      ↔ c.inflater.inflate piece = (some bytes, c'.inflater) ∧ c'.compressed = c.compressed := by
  rw [decompress_eq]
  rcases hi : c.inflater.inflate piece with ⟨_ | given, next⟩
  · simp
  · cases c' with
    | mk compressed inflater => simp [eq_comm (a := compressed), and_comm, and_assoc]

/-- **Bytes that are refused are refused with whatever comes behind them**, and so is the next
piece. -/
theorem Refuses.append {c : Codec} {first : Bytes} (h : c.Refuses first) (second : Bytes) :
    c.Refuses (first ++ second) ∧ (c.decompress first).2.Refuses second := by
  have hnone := Inflater.inflate_append_of_none (refuses_iff.mp h) second
  rw [refuses_iff, refuses_iff, decompress_eq]
  exact hnone

/-- **Two pieces one after the other come to what both come to at once.** -/
theorem decompress_append {c c' : Codec} {first bytes : Bytes}
    (h : c.decompress first = (.ok bytes, c')) (second : Bytes) :
    (c.decompress (first ++ second)).1 = (c'.decompress second).1.map (bytes ++ ·)
      ∧ (¬ c'.Refuses second → (c.decompress (first ++ second)).2 = (c'.decompress second).2) := by
  obtain ⟨hinflate, hcompressed⟩ := decompress_eq_ok_iff.mp h
  obtain ⟨hbytes, hstate⟩ := Inflater.inflate_append hinflate second
  rw [refuses_iff]
  rw [decompress_eq, decompress_eq, hbytes]
  refine ⟨?_, fun hsome => ?_⟩
  · cases (c'.inflater.inflate second).1 <;> rfl
  · rw [hstate hsome, hcompressed]

/-- Behind a piece that was taken, the next one is refused if both are. -/
theorem refuses_append_iff {c c' : Codec} {first bytes : Bytes}
    (h : c.decompress first = (.ok bytes, c')) (second : Bytes) :
    c.Refuses (first ++ second) ↔ c'.Refuses second := by
  rw [Refuses, (decompress_append h second).1, Refuses]
  cases (c'.decompress second).1 <;> simp [Except.map]

/-- **What is decoded at once is decoded in two pieces as well.** -/
theorem decompress_append_eq_ok {c c' : Codec} {first second output : Bytes}
    (h : c.decompress (first ++ second) = (.ok output, c')) :
    ∃ bytes c₁ more, c.decompress first = (.ok bytes, c₁)
      ∧ c₁.decompress second = (.ok more, c') ∧ output = bytes ++ more := by
  rcases hfirst : c.decompress first with ⟨error | bytes, c₁⟩
  · have hrefuses := (refuses_of_error (congrArg Prod.fst hfirst)).append second
    rw [Refuses, h] at hrefuses
    cases hrefuses.1
  · obtain ⟨hplain, hstate⟩ := decompress_append hfirst second
    rw [h] at hplain hstate
    rcases hsecond : c₁.decompress second with ⟨error | more, c₂⟩
    · rw [hsecond] at hplain
      cases hplain
    · rw [hsecond] at hplain hstate
      have hgoes : ¬ c₁.Refuses second := by simp [Refuses, hsecond]
      obtain rfl : c' = c₂ := hstate hgoes
      exact ⟨bytes, c₁, more, rfl, hsecond, Except.ok.inj hplain⟩

/-- A codec that can go on takes an empty piece for nothing. -/
theorem decompress_nil_eq {c : Codec} (h : ¬ c.Refuses []) : c.decompress [] = (.ok [], c) := by
  rw [decompress_eq_ok_iff]
  refine ⟨?_, rfl⟩
  have hscanner : (c.inflater.callOn []).scanner ≠ .failed := by
    rwa [Ne, ← Inflater.inflate_eq_none_iff, ← refuses_iff]
  rw [Inflater.inflate_of_not_failed hscanner]
  rfl

theorem not_refuses_new : ¬ ({} : Codec).Refuses [] := by
  rw [refuses_iff]
  simp [Inflater.inflate, Scanner.start, Scanner.atPlace]

/-- A codec that took a piece can go on. -/
theorem not_refuses_nil {c c' : Codec} {piece bytes : Bytes}
    (h : c.decompress piece = (.ok bytes, c')) : ¬ c'.Refuses [] := by
  intro hrefuses
  have hwhole := (decompress_append h []).1
  rw [List.append_nil, h, hrefuses] at hwhole
  cases hwhole

/-! ## All pieces -/

theorem decompressAll_cons (c : Codec) (piece : Bytes) (pieces : List Bytes) :
    c.decompressAll (piece :: pieces)
      = ((c.decompress piece).1 :: ((c.decompress piece).2.decompressAll pieces).1,
          ((c.decompress piece).2.decompressAll pieces).2) := rfl

/-- Whatever comes behind a piece that is refused is refused. -/
theorem decompressAll_of_refuses {c : Codec} {piece : Bytes} (h : c.Refuses piece)
    (pieces : List Bytes) :
    ((c.decompress piece).2.decompressAll pieces).1
      = List.replicate pieces.length (.error .malformed) := by
  induction pieces generalizing c piece with
  | nil => rfl
  | cons next pieces ih =>
    have hnext : (c.decompress piece).2.Refuses next := (h.append next).2
    rw [decompressAll_cons, ih hnext, hnext]
    rfl

/-- **Where all pieces at once are decoded, so is each of them**, and their outputs make up the
whole. -/
theorem decompressAll_of_ok {c c' : Codec} {pieces : List Bytes} {output : Bytes}
    (h : c.decompress pieces.flatten = (.ok output, c')) :
    ∃ outputs : List Bytes, c.decompressAll pieces = (outputs.map .ok, c')
      ∧ outputs.flatten = output := by
  induction pieces generalizing c output with
  | nil =>
    have hnil : ¬ c.Refuses [] := by
      intro hrefuses
      rw [List.flatten_nil] at h
      rw [Refuses, h] at hrefuses
      cases hrefuses
    rw [List.flatten_nil, decompress_nil_eq hnil] at h
    obtain ⟨rfl, rfl⟩ : [] = output ∧ c = c' := by simpa using h
    exact ⟨[], rfl, rfl⟩
  | cons piece pieces ih =>
    rw [List.flatten_cons] at h
    obtain ⟨bytes, c₁, more, hpiece, hrest, rfl⟩ := decompress_append_eq_ok h
    obtain ⟨outputs, houtputs, hflatten⟩ := ih hrest
    refine ⟨bytes :: outputs, ?_, by rw [List.flatten_cons, hflatten]⟩
    rw [decompressAll_cons, hpiece, houtputs]
    rfl

/-- **Where each piece is decoded, so are all of them at once.** -/
theorem decompress_flatten {c : Codec} (hc : ¬ c.Refuses []) {pieces outputs : List Bytes}
    (h : (c.decompressAll pieces).1 = outputs.map .ok) :
    (c.decompress pieces.flatten).1 = .ok outputs.flatten := by
  induction pieces generalizing c outputs with
  | nil =>
    obtain rfl := List.map_eq_nil_iff.mp h.symm
    rw [List.flatten_nil, decompress_nil_eq hc]
  | cons piece pieces ih =>
    rw [decompressAll_cons] at h
    obtain ⟨bytes, rest, rfl, hbytes, hrest⟩ := List.map_eq_cons_iff.mp h.symm
    have hpiece : c.decompress piece = (.ok bytes, (c.decompress piece).2) :=
      Prod.ext hbytes.symm rfl
    rw [List.flatten_cons, (decompress_append hpiece _).1,
      ih (not_refuses_nil hpiece) hrest.symm]
    rfl

/-- What the pieces of a stream come to that is refused: all is well before piece `j`, from there
on everything fails, and `j` is the first piece with which the bytes so far are refused. -/
structure FailsAt (c : Codec) (pieces : List Bytes) (j : Nat) (outputs : List Bytes) : Prop where
  lt_length : j < pieces.length
  least : IsLeast {i | c.Refuses (pieces.take i).flatten} (j + 1)
  length_outputs : outputs.length = j
  results : (c.decompressAll pieces).1
    = outputs.map .ok ++ List.replicate (pieces.length - j) (.error .malformed)
  before : (c.decompress (pieces.take j).flatten).1 = .ok outputs.flatten

/-- **Where all pieces at once are refused**, they fail from the first one on with which the bytes so
far are refused. -/
theorem exists_failsAt {c : Codec} {pieces : List Bytes} (hc : ¬ c.Refuses [])
    (h : c.Refuses pieces.flatten) : ∃ j outputs, FailsAt c pieces j outputs := by
  induction pieces generalizing c with
  | nil => exact absurd h hc
  | cons piece pieces ih =>
    rw [List.flatten_cons] at h
    rcases hpiece : c.decompress piece with ⟨error | bytes, c₁⟩
    · have hrefuses := refuses_of_error (congrArg Prod.fst hpiece)
      refine ⟨0, [], by simp, ⟨?_, ?_⟩, rfl, ?_, ?_⟩
      · simpa using hrefuses
      · intro i hi
        rcases i with _ | i
        · exact absurd hi hc
        · omega
      · rw [decompressAll_cons, decompressAll_of_refuses hrefuses, hrefuses]
        rfl
      · simp [decompress_nil_eq hc]
    · have hiff := refuses_append_iff hpiece
      obtain ⟨j, outputs, hfails⟩ := ih (not_refuses_nil hpiece) ((hiff _).mp h)
      refine ⟨j + 1, bytes :: outputs, ?_, ⟨?_, ?_⟩, ?_, ?_, ?_⟩
      · simpa using hfails.lt_length
      · simpa [hiff] using hfails.least.1
      · intro i hi
        rcases i with _ | i
        · exact absurd hi hc
        · have := hfails.least.2 ((hiff _).mp (by simpa using hi))
          omega
      · simp [hfails.length_outputs]
      · rw [decompressAll_cons, hpiece, hfails.results]
        simp
      · rw [List.take_succ_cons, List.flatten_cons, (decompress_append hpiece _).1, hfails.before]
        rfl

/-- **Decompressing does not depend on how the bytes are cut.**  Where one call on all of them
succeeds, so do the pieces, with the same bytes and the same counters at the end; where it fails, the
pieces fail from the first one on with which a call on the bytes so far fails, and have given until
then what one call gives.  And what a beginning gives is a beginning of what the whole gives. -/
theorem decompress_cut (pieces : List Bytes) :
    (match ({} : Codec).decompress pieces.flatten with
      | (.ok output, codec) => ∃ outputs : List Bytes,
        (({} : Codec).decompressAll pieces).1 = outputs.map .ok ∧ outputs.flatten = output
          ∧ (({} : Codec).decompressAll pieces).2.counters = codec.counters
      | (.error _, _) => ∃ j outputs, FailsAt {} pieces j outputs)
    ∧ ∀ first rest output, (({} : Codec).decompress (first ++ rest)).1 = .ok output →
      ∃ start, (({} : Codec).decompress first).1 = .ok start ∧ start <+: output := by
  constructor
  · rcases hwhole : ({} : Codec).decompress pieces.flatten with ⟨error | output, codec⟩
    · exact exists_failsAt not_refuses_new (refuses_of_error (congrArg Prod.fst hwhole))
    · obtain ⟨outputs, hall, hflatten⟩ := decompressAll_of_ok hwhole
      exact ⟨outputs, by rw [hall], hflatten, by rw [hall]⟩
  · intro first rest output hwhole
    obtain ⟨start, codec, more, hfirst, -, rfl⟩ := decompress_append_eq_ok (Prod.ext hwhole rfl)
    exact ⟨start, congrArg Prod.fst hfirst, List.prefix_append start more⟩

end DeflateEcho.Codec
