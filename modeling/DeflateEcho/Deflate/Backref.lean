import DeflateEcho.Bits

/-!
# Deflate/Backref — repetitions of earlier output, and the slots their numbers are written in

A repetition says how many bytes to copy and from how far back.  Each of the two numbers is written
as a symbol, which names a **slot** of neighbouring values, and the place in the slot as plain bits.
The slots are tables of the format.
-/

namespace DeflateEcho.Deflate

/-! ## Looking back -/

/-- The byte that is `distance` back in an output, which reads as zero before its start. -/
def lookBack (output : Bytes) (distance : Nat) : UInt8 :=
  output.reverse[distance - 1]?.getD 0

/-- What lies further back than is looked makes no difference. -/
theorem lookBack_drop (output : Bytes) (forgotten distance : Nat)
    (h1 : 1 ≤ distance) (h2 : distance + forgotten ≤ output.length) :
    lookBack (output.drop forgotten) distance = lookBack output distance := by
  unfold lookBack
  rw [List.getElem?_reverse (by simp; omega), List.getElem?_reverse (by omega),
    List.getElem?_drop, List.length_drop]
  congr 2
  omega

/-- One byte later everything is one further back, and the new byte is the nearest. -/
theorem lookBack_concat (output : Bytes) (b : UInt8) (distance : Nat) (h : 1 ≤ distance) :
    lookBack (output ++ [b]) distance
      = if distance = 1 then b else lookBack output (distance - 1) := by
  unfold lookBack
  rw [List.reverse_append, List.reverse_singleton, List.singleton_append]
  split
  · rename_i h; simp [h]
  · rw [List.getElem?_cons, if_neg (by omega)]

/-- An output behind a repetition: it is copied byte by byte, so it may overlap itself. -/
def repeatBack (output : Bytes) (distance : Nat) : (length : Nat) → Bytes
  | 0 => output
  | length + 1 => repeatBack (output ++ [lookBack output distance]) distance length

/-! ## Slots -/

/-- Values that share a symbol: the smallest of them, and how many plain bits tell them apart. -/
structure Slot where
  base : Nat
  extra : Nat
  deriving DecidableEq, Repr

namespace Slot

/-- Slots given by their extra bits, one after the other from `base` on. -/
def consecutive (base : Nat) : (extras : List Nat) → List Slot
  | [] => []
  | extra :: extras => ⟨base, extra⟩ :: consecutive (base + (1 <<< extra)) extras

/-- The slot of a value: the last one that does not begin above it. -/
def indexOf (slots : Array Slot) (value : Nat) : Nat :=
  (slots.toList.filter fun slot => slot.base ≤ value).length - 1

end Slot

/-- The slots of the lengths 3 to 258.  The greatest length has a slot of its own, and can be
written as the last value of the slot before it as well. -/
def lengthSlots : Array Slot :=
  (Slot.consecutive 3
    [0, 0, 0, 0, 0, 0, 0, 0, 1, 1, 1, 1, 2, 2, 2, 2, 3, 3, 3, 3, 4, 4, 4, 4, 5, 5, 5, 5]
    ++ [Slot.mk 258 0]).toArray

/-- The slots of the distances 1 to 32768. -/
def distanceSlots : Array Slot :=
  (Slot.consecutive 1
    [0, 0, 0, 0, 1, 1, 2, 2, 3, 3, 4, 4, 5, 5, 6, 6, 7, 7, 8, 8, 9, 9, 10, 10, 11, 11, 12, 12,
      13, 13]).toArray

/-- The symbol of the first length slot; the literals and the end of the block come before. -/
def firstLengthSymbol : Nat := 257

/-- A repetition as it is written: the slot and the place in the slot, of its length and of its
distance. -/
structure Backref where
  lengthSlot : Nat
  lengthExtra : Nat
  distanceSlot : Nat
  distanceExtra : Nat
  deriving DecidableEq, Repr

namespace Backref

/-- How many bytes are copied. -/
def length (b : Backref) : Nat := (lengthSlots[b.lengthSlot]?.getD ⟨0, 0⟩).base + b.lengthExtra

/-- How far back the copied bytes begin. -/
def distance (b : Backref) : Nat :=
  (distanceSlots[b.distanceSlot]?.getD ⟨0, 0⟩).base + b.distanceExtra

/-- The shortest way to write a repetition of `length` bytes from `distance` back. -/
def ofPair (length distance : Nat) : Backref :=
  let l := Slot.indexOf lengthSlots length
  let d := Slot.indexOf distanceSlots distance
  { lengthSlot := l
    lengthExtra := length - (lengthSlots[l]?.getD ⟨0, 0⟩).base
    distanceSlot := d
    distanceExtra := distance - (distanceSlots[d]?.getD ⟨0, 0⟩).base }

end Backref

end DeflateEcho.Deflate
