import DeflateEcho.Deflate.Element

/-!
# Deflate/Scanner — from bits to elements, as eagerly as bits allow

A `Scanner` takes one bit at a time and gives out an element as soon as its last bit has come.  It
stands between bits, in the middle of an element if need be, so a stream may be cut anywhere:
`run_append` follows from the shape of the definition alone.  It fails with the bit that completes
a violation, and then stays failed; behind the last block it takes nothing more.
-/

namespace DeflateEcho.Deflate

open Bits

/-- The state of reading a stream of elements. -/
inductive Scanner where
  /-- Inside the element at `place`, `offset` bits into the stream. -/
  | reading (place : Place) (offset : Nat) (pending : Reader Element)
  /-- The last block has ended. -/
  | finished
  /-- A rule of the format was broken. -/
  | failed

namespace Scanner

/-- The scanner that stands at a place. -/
def atPlace (place : Place) (offset : Nat) : Scanner :=
  match place with
  | .finished => finished
  | place => reading place offset (place.reader offset)

/-- A new stream. -/
def start : Scanner := .atPlace .header 0

/-- Behind an element that has been read completely. -/
def settle (place : Place) (offset : Nat) (element : Element) : Scanner × Option Element :=
  match place.next element with
  | some place => (.atPlace place offset, some element)
  | none => (failed, none)

/-- Takes one bit; the element it completes, if it does, comes with the new state. -/
def step : Scanner → Bool → Scanner × Option Element
  | reading place offset (.more next), bit =>
    match next bit with
    | .done element => settle place (offset + 1) element
    | .fail => (failed, none)
    | pending => (reading place (offset + 1) pending, none)
  | reading _ _ _, _ => (failed, none)
  | finished, _ => (finished, none)
  | failed, _ => (failed, none)

/-- The state after a bit string, and the elements completed in it. -/
def run : Scanner → List Bool → Scanner × List Element
  | s, [] => (s, [])
  | s, bit :: bits =>
    let (s', element) := s.step bit
    let (s'', elements) := s'.run bits
    (s'', element.toList ++ elements)

/-- A stream may be cut anywhere. -/
theorem run_append (s : Scanner) (xs ys : List Bool) :
    s.run (xs ++ ys) =
      (((s.run xs).1.run ys).1, (s.run xs).2 ++ ((s.run xs).1.run ys).2) := by
  induction xs generalizing s with
  | nil => rfl
  | cons bit xs ih => simp [run, ih, List.append_assoc]

/-- Whether bytes are still taken. -/
def isReading : Scanner → Bool
  | reading _ _ _ => true
  | _ => false

end Scanner

end DeflateEcho.Deflate
