import DeflateEcho.Bits

/-!
# Echo/Stream — what reads give and what writes take

One side of a connection as a stream sees it.  Reading: a **script** of what the peer and the
network do becomes the list of reads it gives, each at most one buffer long, the last one empty.
Writing: a **sink** answers each write with how much it takes; `Sink.writeAll` offers what is left
until everything is taken or a write fails.
-/

namespace DeflateEcho.Echo

/-- The kinds of faults of a stream. -/
inductive FaultKind where
  | connectionReset
  | connectionAborted
  | timedOut
  | brokenPipe
  | unexpectedEnd
  | interrupted
  /-- A write that takes nothing. -/
  | writeZero
  deriving DecidableEq, Repr

def FaultKind.description : FaultKind → String
  | connectionReset => "connection reset"
  | connectionAborted => "connection aborted"
  | timedOut => "timed out"
  | brokenPipe => "broken pipe"
  | unexpectedEnd => "unexpected end of file"
  | interrupted => "operation interrupted"
  | writeZero => "write zero"

/-- A fault, with a text of its own if it has one. -/
structure Fault where
  kind : FaultKind
  detail : Option String := none
  deriving DecidableEq, Repr

def Fault.text (f : Fault) : String := f.detail.getD f.kind.description

/-! ## Reading -/

/-- The size of the read buffer. -/
def bufferSize : Nat := 2048

/-- What one read gives: bytes, none of them at the end of the stream, or a fault. -/
inductive Read where
  | chunk (bytes : Bytes)
  | fault (fault : Fault)
  deriving DecidableEq, Repr

/-- What a read gives fits the buffer. -/
def Read.FitsBuffer : Read → Prop
  | chunk bytes => bytes.length ≤ bufferSize
  | fault _ => True

instance : DecidablePred Read.FitsBuffer
  | .chunk bytes => inferInstanceAs (Decidable (bytes.length ≤ bufferSize))
  | .fault _ => isTrue trivial

/-- What happens at the far end of a stream. -/
inductive Happening where
  /-- Bytes arrive. -/
  | data (bytes : Bytes)
  /-- The peer stops sending. -/
  | endOfData
  /-- Nothing is there yet, once. -/
  | notReady
  /-- The client begins to inflate what it gets. -/
  | inflating
  | fault (fault : Fault)
  deriving DecidableEq, Repr

/-- Bytes in buffers. -/
def buffers (bytes : Bytes) : List Bytes :=
  if bytes.length = 0 then [] else bytes.take bufferSize :: buffers (bytes.drop bufferSize)
termination_by bytes.length
decreasing_by simp only [List.length_drop, bufferSize]; omega

namespace Happening

/-- The reads that something happening gives; what a stream waits for and what the client does for
itself show in none. -/
def reads : Happening → List Read
  | data bytes => (buffers bytes).map .chunk
  | endOfData => [.chunk []]
  | notReady => []
  | inflating => []
  | fault f => [.fault f]

end Happening

/-- **The reads of a script**, the last of them empty. -/
def readsOf (script : List Happening) : List Read := script.flatMap Happening.reads ++ [.chunk []]

/-- How many reads a script gives before the client begins to inflate, if it ever does. -/
def readsBeforeInflating? : List Happening → Option Nat
  | [] => none
  | .inflating :: _ => some 0
  | h :: script => (readsBeforeInflating? script).map fun n => h.reads.length + n

/-! ## Writing -/

/-- How a stream answers a write. -/
inductive WriteReply where
  | accepted (count : Nat)
  | refused (fault : Fault)
  deriving DecidableEq, Repr

/-- The writing side of a stream: how it answers a write of so many bytes, depending on anything
it remembers. -/
structure Sink where
  Memory : Type
  start : Memory
  write : Memory → (offered : Nat) → WriteReply × Memory

namespace Sink

/-- A sink that takes everything. -/
def unlimited : Sink := ⟨Unit, (), fun _ offered => (.accepted offered, ())⟩

/-- A sink that takes at most `perWrite` bytes at once, and after `budget` bytes in all answers
every write with `spent`. -/
def limited (perWrite budget : Option Nat) (spent : WriteReply) : Sink where
  Memory := Nat
  start := 0
  write taken offered :=
    let left := budget.map fun budget => budget - taken
    if left = some 0 then (spent, taken)
    else
      let count := (offered.min (perWrite.getD offered)).min (left.getD offered)
      (.accepted count, taken + count)

/-- What came of writing: the bytes that were taken, the fault that stopped it if one did, and what
the sink remembers. -/
structure Written (sink : Sink) where
  sent : Bytes
  fault : Option Fault
  memory : sink.Memory

/-- **Writes all of some bytes**, as far as the sink lets it: what is left is offered until
everything is taken or a write fails.  A write that takes nothing fails. -/
def writeAll (sink : Sink) (memory : sink.Memory) (bytes : Bytes) : Written sink :=
  if bytes.length = 0 then ⟨[], none, memory⟩
  else
    match sink.write memory bytes.length with
    | (.refused fault, memory) => ⟨[], some fault, memory⟩
    | (.accepted count, memory) =>
      if count = 0 then ⟨[], some { kind := .writeZero }, memory⟩
      else
        let rest := writeAll sink memory (bytes.drop count)
        { rest with sent := bytes.take count ++ rest.sent }
termination_by bytes.length
decreasing_by simp only [List.length_drop]; omega

end Sink

end DeflateEcho.Echo
