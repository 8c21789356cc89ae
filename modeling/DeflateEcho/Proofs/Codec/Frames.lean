import DeflateEcho.Codec
import DeflateEcho.Proofs.Deflate.SelfContained

/-!
# Proofs/Codec/Frames — frames decode exactly, in any order and from any senders

A codec that has seen nothing but complete frames stands between two blocks, at a whole byte.  What
it is given next is then decoded for what it conveys (`decompress_conveyed`), and as a frame conveys
its message behind any output, nothing depends on which frames came before.
-/

namespace DeflateEcho.Codec

open Deflate Bits

/-- What a codec gives for pieces that come in one after the other, and how it then stands. -/
def decompressAll (c : Codec) : List Bytes → List (Except CodecError Bytes) × Codec
  | [] => ([], c)
  | piece :: pieces =>
    let (plain, c) := c.decompress piece
    let (plains, c) := c.decompressAll pieces
    (plain :: plains, c)

/-- The frames of messages that go out one after the other, and how the codec then stands. -/
def compressAll (c : Codec) : List Bytes → List Bytes × Codec
  | [] => ([], c)
  | message :: messages =>
    let (frame, c) := c.compress message
    let (frames, c) := c.compressAll messages
    (frame :: frames, c)

/-- What a codec has compressed does not show in what it decompresses. -/
theorem decompress_congr {c d : Codec} (h : c.inflater = d.inflater) (piece : Bytes) :
    (c.decompress piece).1 = (d.decompress piece).1
      ∧ (c.decompress piece).2.inflater = (d.decompress piece).2.inflater := by
  rw [decompress_eq, decompress_eq, h]
  exact ⟨rfl, rfl⟩

/-- What a codec has decompressed does not show in what it compresses. -/
theorem compress_congr {c d : Codec} (h : c.compressed = d.compressed) (message : Bytes) :
    (c.compress message).1 = (d.compress message).1
      ∧ (c.compress message).2.compressed = (d.compress message).2.compressed := by
  rw [compress_eq, compress_eq, h]
  exact ⟨rfl, rfl⟩

theorem compressAll_singleton (c : Codec) (message : Bytes) :
    (c.compressAll [message]).1 = [(c.compress message).1] := rfl

/-! ## What is conveyed -/

/-- A piece conveys a message if it carries it from wherever between two blocks a stream stands. -/
def Conveys (piece message : Bytes) : Prop :=
  ∀ offset, 8 ∣ offset → Carries offset (ofBytes piece) message

/-- **What conveys a message is decoded for it** by a codec that stands between two blocks, and
leaves it there. -/
theorem decompress_conveyed {c : Codec} {before piece message : Bytes}
    (hc : c.inflater.Between before) (h : Conveys piece message) :
    (c.decompress piece).1 = .ok message
      ∧ (c.decompress piece).2.inflater.Between (before ++ message) := by
  have hpaths : ∀ offset, 8 ∣ offset →
      ∃ elements, Path .header offset elements (ofBytes piece) .header
        ∧ elements.foldl Element.extend before = before ++ message := by
    intro offset hoffset
    obtain ⟨elements, hpath, hextend⟩ := h offset hoffset
    exact ⟨elements, hpath, hextend before⟩
  obtain ⟨hgiven, hbetween⟩ := Inflater.inflate_path hc hpaths
  rw [decompress_eq, hgiven]
  exact ⟨rfl, hbetween⟩

/-- Pieces that convey messages, whoever wrote them, are decoded for these messages. -/
theorem decompressAll_conveyed {c : Codec} {before : Bytes} {pieces messages : List Bytes}
    (hc : c.inflater.Between before) (h : List.Forall₂ Conveys pieces messages) :
    (c.decompressAll pieces).1 = messages.map .ok := by
  induction h generalizing c before with
  | nil => rfl
  | cons hpiece _ ih =>
    obtain ⟨hplain, hbetween⟩ := decompress_conveyed hc hpiece
    rw [List.map_cons, ← hplain, ← ih hbetween]
    rfl

/-! ## Frames -/

/-- A frame conveys its message, whatever its sender has sent before. -/
theorem conveys_compress (c : Codec) (message : Bytes) :
    Conveys (c.compress message).1 message := by
  intro offset hoffset
  rw [compress_eq, Frame.ofBytes_encode]
  exact Frame.carries_bits hoffset c.compressed message

theorem conveys_compressAll (c : Codec) (messages : List Bytes) :
    List.Forall₂ Conveys (c.compressAll messages).1 messages := by
  induction messages generalizing c with
  | nil => exact .nil
  | cons message messages ih => exact .cons (conveys_compress c message) (ih _)

theorem marker_suffix_compress (c : Codec) (message : Bytes) :
    Frame.marker <:+ (c.compress message).1 := by
  rw [compress_eq]
  exact Frame.marker_suffix_encode c.compressed message

theorem compress_ne_nil (c : Codec) (message : Bytes) : (c.compress message).1 ≠ [] := by
  intro hnil
  have hmarker := marker_suffix_compress c message
  rw [hnil] at hmarker
  exact absurd (List.suffix_nil.mp hmarker) (by decide)

/-- **Frames decode exactly and independently of history**: whatever the senders have sent before,
and whichever of their frames come in, in whatever order and however often, a new receiver gets
from every frame the very message that went into it.  And every frame ends with the marker. -/
theorem frames_decode_independently (sent : List (Codec × Bytes)) :
    let frames := sent.map fun s => (s.1.compress s.2).1
    (({} : Codec).decompressAll frames).1 = sent.map (fun s => .ok s.2)
      ∧ ∀ frame ∈ frames, Frame.marker <:+ frame := by
  constructor
  · have hconveyed : List.Forall₂ Conveys (sent.map fun s => (s.1.compress s.2).1)
        (sent.map Prod.snd) := by
      rw [List.forall₂_map_left_iff, List.forall₂_map_right_iff, List.forall₂_same]
      exact fun s _ => conveys_compress s.1 s.2
    have hdecoded := decompressAll_conveyed (c := {}) Inflater.between_new hconveyed
    rwa [List.map_map] at hdecoded
  · intro frame hframe
    obtain ⟨s, -, rfl⟩ := List.mem_map.mp hframe
    exact marker_suffix_compress s.1 s.2

end DeflateEcho.Codec
