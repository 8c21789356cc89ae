import DeflateEcho.Deflate.Eager
import DeflateEcho.Deflate.Frame
import DeflateEcho.Deflate.Inflater

/-!
# Codec — the two compressed directions of one connection

A `Codec` compresses what goes out and decompresses what comes in.  Each message going out becomes
one frame that ends with a full flush, which the peer can decode when it arrives; so nothing but a
count has to be kept between messages.  The stream coming in may be cut anywhere.

Both directions are collected from engines through a buffer that grows as needed; `compress_eq` and
`decompress_eq` say that nothing of the buffer shows in what they give.
-/

namespace DeflateEcho

open Deflate

/-- Why a codec gives no bytes. -/
inductive CodecError where
  /-- What came in is not a compressed stream. -/
  | malformed
  deriving DecidableEq, Repr

/-- The text of a codec error. -/
def CodecError.message : CodecError → String
  | malformed => "inflate failed: deflate decompression error"

/-- The compression state of one side of a connection. -/
structure Codec where
  /-- The bytes given to be compressed. -/
  compressed : Nat := 0
  inflater : Inflater := {}

/-- The bytes that went through a codec. -/
structure Counters where
  /-- Bytes taken to be compressed. -/
  compressed : Nat
  /-- Bytes taken to be decompressed. -/
  inflatedIn : Nat
  /-- Bytes that decompression gave. -/
  inflatedOut : Nat
  deriving DecidableEq, Repr

namespace Codec

/-- The step in which output buffers grow, and the room they have beyond an estimate. -/
def reserve : Nat := 4096

/-- How the output buffers grow: to twice their capacity, and by a step at least. -/
def grown (capacity : Nat) : Nat := max (2 * capacity) (capacity + reserve)

theorem le_grown (capacity : Nat) : capacity + reserve ≤ grown capacity := Nat.le_max_right _ _

/-- Compression as an engine: all of a message at once, and the flush behind it. -/
def deflating : Eager Nat where
  work position message := (position + message.length, Frame.encode position message)
  total := id
  status _ := .going
  total_le _ _ := Nat.le_add_right _ _
  total_le_add _ _ := Nat.le_refl _
  total_eq _ _ _ := rfl
  work_of_stopped _ _ hstopped := absurd rfl hstopped

/-- How an inflater stands. -/
def standing (inflater : Inflater) : Status :=
  if inflater.hasFailed then .failed else if inflater.hasEnded then .ended else .going

theorem isReading_of_going {inflater : Inflater} (h : standing inflater = .going) :
    inflater.scanner.isReading = true := by
  simp only [standing, Inflater.hasFailed, Inflater.hasEnded] at h
  cases hscanner : inflater.scanner <;> simp_all [Scanner.isReading]

/-- What decompression gives for a piece, which is nothing if it fails. -/
def inflated (inflater : Inflater) (piece : Bytes) : Inflater × Bytes :=
  let (bytes, inflater) := inflater.inflate piece
  (inflater, bytes.getD [])

theorem inflated_eq (inflater : Inflater) (piece : Bytes) :
    inflated inflater piece
      = ((inflater.inflate piece).2, (inflater.inflate piece).1.getD []) := rfl

/-- It stands as failed behind a call that fails. -/
theorem standing_inflated_eq_failed_iff {inflater : Inflater} {piece : Bytes} :
    standing (inflated inflater piece).1 = .failed ↔ (inflater.inflate piece).1 = none := by
  rw [Inflater.inflate_eq_none_iff, ← Inflater.scanner_inflate, ← Inflater.hasFailed_iff,
    inflated_eq, standing]
  split
  · simp_all
  · split <;> simp_all

/-- Decompression as an engine. -/
def inflating : Eager Inflater where
  work := inflated
  total := Inflater.taken
  status := standing
  total_le inflater piece := by
    rw [inflated_eq]
    exact (Inflater.taken_inflate_bounds inflater piece).1
  total_le_add inflater piece := by
    rw [inflated_eq]
    exact (Inflater.taken_inflate_bounds inflater piece).2
  total_eq inflater piece hgoing := by
    rw [inflated_eq] at hgoing ⊢
    exact Inflater.taken_inflate_of_isReading (isReading_of_going hgoing)
  work_of_stopped inflater piece hstopped := by
    rw [inflated_eq]
    by_cases hfailed : inflater.hasFailed = true
    · rw [Inflater.inflate_of_hasFailed hfailed]
      rfl
    · have hended : inflater.hasEnded = true := by
        simpa [standing, hfailed] using hstopped
      rw [Inflater.inflate_of_ended hended]
      rfl

/-- Compressing a message comes to an end. -/
theorem isSome_deflateAll (c : Codec) (message : Bytes) :
    (deflating.engine.deflateAll grown (message.length + reserve)
      (Eager.fresh c.compressed) message).isSome := by
  obtain ⟨collected, hcollected, -⟩ := deflating.deflateAll_eq (by decide) le_grown
    (message.length + reserve) c.compressed message fun _ => rfl
  rw [hcollected]
  rfl

/-- Decompressing a piece comes to an end. -/
theorem isSome_inflateAll (c : Codec) (piece : Bytes) :
    (inflating.engine.inflateAll grown (4 * piece.length + reserve)
      (Eager.fresh c.inflater) piece).isSome := by
  obtain ⟨collected, hcollected, -⟩ := inflating.inflateAll_eq (by decide) le_grown
    (4 * piece.length + reserve) c.inflater piece
  rw [hcollected]
  rfl

/-- Compresses one message into a frame. -/
def compress (c : Codec) (message : Bytes) : Bytes × Codec :=
  let collected := (deflating.engine.deflateAll grown (message.length + reserve)
    (Eager.fresh c.compressed) message).get (c.isSome_deflateAll message)
  (collected.output, { c with compressed := collected.state.state })

/-- Decompresses the next piece of the stream that comes in. -/
def decompress (c : Codec) (piece : Bytes) : Except CodecError Bytes × Codec :=
  let collected := (inflating.engine.inflateAll grown (4 * piece.length + reserve)
    (Eager.fresh c.inflater) piece).get (c.isSome_inflateAll piece)
  (match collected.status with
    | .failed => .error .malformed
    | _ => .ok collected.output,
    { c with inflater := collected.state.state })

def counters (c : Codec) : Counters :=
  { compressed := c.compressed
    inflatedIn := c.inflater.taken
    inflatedOut := c.inflater.produced }

/-! ## Without buffers -/

/-- A message becomes its frame. -/
theorem compress_eq (c : Codec) (message : Bytes) :
    c.compress message
      = (Frame.encode c.compressed message,
          { c with compressed := c.compressed + message.length }) := by
  obtain ⟨collected, hcollected, houtput, hstate⟩ := deflating.deflateAll_eq (by decide) le_grown
    (message.length + reserve) c.compressed message fun _ => rfl
  unfold compress
  simp only [hcollected, Option.get_some, houtput, hstate]
  rfl

/-- A piece becomes what the inflater makes of it. -/
theorem decompress_eq (c : Codec) (piece : Bytes) :
    c.decompress piece
      = (match (c.inflater.inflate piece).1 with
          | some bytes => .ok bytes
          | none => .error .malformed,
          { c with inflater := (c.inflater.inflate piece).2 }) := by
  obtain ⟨collected, hcollected, hfailed, houtput, hstate⟩ :=
    inflating.inflateAll_eq (by decide) le_grown (4 * piece.length + reserve) c.inflater piece
  have hnone : collected.status = .failed ↔ (c.inflater.inflate piece).1 = none :=
    hfailed.trans standing_inflated_eq_failed_iff
  have hinflater : collected.state.state = (c.inflater.inflate piece).2 := hstate
  unfold decompress
  simp only [hcollected, Option.get_some, hinflater]
  cases hinflate : (c.inflater.inflate piece).1 with
  | none => rw [hnone.mpr hinflate]
  | some bytes =>
    have hstatus : collected.status ≠ .failed := by
      rw [Ne, hnone, hinflate]
      exact Option.some_ne_none bytes
    have hbytes : collected.output = (c.inflater.inflate piece).1.getD [] := houtput hstatus
    rw [hbytes, hinflate]
    cases hgoes : collected.status with
    | failed => exact absurd hgoes hstatus
    | _ => rfl

end Codec

end DeflateEcho
