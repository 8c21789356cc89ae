import DeflateEcho.Bits

/-!
# Deflate/Engine — output of unknown length through a buffer of known length

Compression and decompression work piecemeal: an **engine** is offered input and room for output,
takes some of the one and fills some of the other, and is called again.  How much it takes shows
only in a count that it keeps over all its calls.

`collect` calls an engine, with more room whenever there is none left, until it has taken all input
and leaves room in the buffer.  Nothing in an engine as such makes that ever happen, so there is a
result only if it does.  The two directions differ in what else makes them stop.
-/

namespace DeflateEcho.Deflate

/-- How an engine stands after a call. -/
inductive Status where
  | going
  /-- The stream has ended, and everything has been given out. -/
  | ended
  | failed
  deriving DecidableEq, Repr

/-- What one call of an engine did. -/
structure Call (State : Type) where
  state : State
  /-- What it gave out. -/
  emitted : Bytes
  status : Status

/-- Something that takes input and gives output piecemeal. -/
structure Engine where
  State : Type
  /-- How many bytes it has taken in all its calls so far. -/
  totalIn : State → Nat
  call : State → (offered : Bytes) → (room : Nat) → Call State

/-- What came of collecting. -/
structure Collected (State : Type) where
  state : State
  output : Bytes
  status : Status

namespace Engine

/-- How many of the bytes offered a call takes, from the front. -/
def takes (e : Engine) (state : e.State) (offered : Bytes) (room : Nat) : Nat :=
  e.totalIn (e.call state offered room).state - e.totalIn state

/-- What is left for the next call of the bytes that were offered to this one. -/
def leaves (e : Engine) (state : e.State) (offered : Bytes) (room : Nat) : Bytes :=
  offered.drop (e.takes state offered room)

/-- Calls an engine until it has taken all input and leaves room in the buffer, or `quits` for
another reason.  `output` is what the buffer holds and `capacity` what it can hold; when it is full
it grows.  What is still to be taken is found by the count, which stood at `start` to begin with. -/
def collect (e : Engine) (grow : Nat → Nat) (quits : e.State → Call e.State → Bool)
    (start : Nat) (input : Bytes) (state : e.State) (capacity : Nat) (output : Array UInt8) :
    Option (Collected e.State) :=
  let capacity := if output.size = capacity then grow capacity else capacity
  let call := e.call state (input.drop (e.totalIn state - start)) (capacity - output.size)
  let output := output ++ call.emitted
  if quits state call
      || (e.totalIn call.state - start = input.length && output.size < capacity) then
    some ⟨call.state, output.toList, call.status⟩
  else e |>.collect grow quits start input call.state capacity output
partial_fixpoint

/-- When compressing stops early. -/
def deflateQuits (e : Engine) (_ : e.State) (call : Call e.State) : Bool := call.status = .failed

/-- When decompressing stops early: the stream has ended or failed, or a call brought nothing
forward. -/
def inflateQuits (e : Engine) (before : e.State) (call : Call e.State) : Bool :=
  call.status ≠ .going
    || (e.totalIn call.state = e.totalIn before && call.emitted.isEmpty)

/-- Collects all that comes of compressing an input, into a buffer of this capacity at first. -/
def deflateAll (e : Engine) (grow : Nat → Nat) (capacity : Nat) (state : e.State)
    (input : Bytes) : Option (Collected e.State) :=
  e.collect grow e.deflateQuits (e.totalIn state) input state capacity #[]

/-- Collects all that comes of decompressing an input, into a buffer of this capacity at first. -/
def inflateAll (e : Engine) (grow : Nat → Nat) (capacity : Nat) (state : e.State)
    (input : Bytes) : Option (Collected e.State) :=
  e.collect grow e.inflateQuits (e.totalIn state) input state capacity #[]

end Engine

end DeflateEcho.Deflate
