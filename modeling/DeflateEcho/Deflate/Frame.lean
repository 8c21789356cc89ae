import DeflateEcho.Deflate.Matching

/-!
# Deflate/Frame — a message as a run of blocks that can be decoded on its own

A frame holds one message in blocks none of which is the last, and ends with an empty stored block.
That block fills the last byte up and shows as the four bytes `00 00 ff ff`, so the receiver has the
whole message when the frame has arrived.  No repetition reaches back beyond the start of the frame,
so a receiver may also begin with it.
-/

namespace DeflateEcho.Deflate.Frame

open Bits

/-- A message in parts that each fit into one stored block. -/
def parts (message : Bytes) : List Bytes :=
  if message.length = 0 then []
  else message.take Block.maxStored :: parts (message.drop Block.maxStored)
termination_by message.length
decreasing_by simp only [List.length_drop, Block.maxStored]; omega

/-- A stored block that begins `offset` bits into the frame. -/
def storedAt (offset : Nat) (bytes : Bytes) : Block :=
  .stored (List.replicate (paddingAt (offset + 3)) false) bytes

/-- Up to this length a part is never stored. -/
def alwaysMatched : Nat := 32

/-- The bits of one part, `offset` bits into the frame and `position` bytes into all messages: with
repetitions, or stored if that would save nothing. -/
def partBits (position offset : Nat) (part : Bytes) : List Bool :=
  let matched := (Block.fixed (Matching.tokens position part)).bits false
  if alwaysMatched < part.length ∧ part.length ≤ matched.length / 8 + 1 then
    (storedAt offset part).bits false
  else matched

/-- The bits of the empty stored block that ends a frame. -/
def markerBits (offset : Nat) : List Bool := (storedAt offset []).bits false

/-- The bits of the parts, and how far into all messages they lead. -/
def partsBits (position : Nat) (message : Bytes) : List Bool × Nat :=
  (parts message).foldl (fun (bits, position) part =>
    (bits ++ partBits position bits.length part, position + part.length)) ([], position)

/-- The bits of a frame. -/
def bits (position : Nat) (message : Bytes) : List Bool :=
  let body := (partsBits position message).1
  body ++ markerBits body.length

/-- **The frame of a message** that begins `position` bytes into all messages of its stream. -/
def encode (position : Nat) (message : Bytes) : Bytes := toBytes (bits position message)

/-- The bytes that every frame ends with. -/
def marker : Bytes := [0x00, 0x00, 0xff, 0xff]

end DeflateEcho.Deflate.Frame
