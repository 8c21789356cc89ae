import DeflateEcho.Deflate.Scanner
import DeflateEcho.Deflate.Window

/-!
# Deflate/Inflater — decompression of a stream that arrives in pieces

An `Inflater` carries what a stream needs from one piece to the next: where its scanner stands, the
output that repetitions may reach, and how many bytes went in and came out.  `inflate` gives back
every byte that the bits so far determine.  A stream that breaks a rule fails from then on,
whatever comes; a stream that has ended swallows what comes.
-/

namespace DeflateEcho.Deflate

open Bits

/-- Decompression in progress. -/
structure Inflater where
  scanner : Scanner := .start
  window : Window := {}
  /-- The bytes taken: all those given before the stream had ended. -/
  taken : Nat := 0
  /-- The bytes given out. -/
  produced : Nat := 0

/-- Output in the making: the window behind it and the bytes of this call. -/
structure Output where
  window : Window
  bytes : Array UInt8

namespace Output

def push (o : Output) (b : UInt8) : Output := ⟨o.window.push b, o.bytes.push b⟩

/-- Copies `length` bytes, one after the other, so that a repetition may overlap itself. -/
def copy (o : Output) (distance : Nat) : (length : Nat) → Output
  | 0 => o
  | length + 1 => (o.push (o.window.lookBack distance)).copy distance length

/-- The bytes that an element stands for. -/
def write (o : Output) : Element → Output
  | .storedByte value => o.push value
  | .literal value => o.push value
  | .backref ref => o.copy ref.distance ref.length
  | _ => o

end Output

namespace Inflater

/-- Takes one bit and writes what it completes. -/
def stepBit (state : Scanner × Output) (bit : Bool) : Scanner × Output :=
  let (scanner, output) := state
  match scanner.step bit with
  | (scanner, some element) => (scanner, output.write element)
  | (scanner, none) => (scanner, output)

/-- A call in progress: the scanner, the output, and the bytes taken. -/
structure Call where
  scanner : Scanner
  output : Output
  taken : Nat

/-- Takes one byte, which counts as taken if the stream had not ended before it. -/
def stepByte (call : Call) (byte : UInt8) : Call :=
  if call.scanner.isReading then
    let (scanner, output) := (ofByte byte).foldl stepBit (call.scanner, call.output)
    ⟨scanner, output, call.taken + 1⟩
  else call

/-- Whether a rule of the format was broken. -/
def hasFailed (s : Inflater) : Bool :=
  match s.scanner with
  | .failed => true
  | _ => false

/-- Whether the last block has ended. -/
def hasEnded (s : Inflater) : Bool :=
  match s.scanner with
  | .finished => true
  | _ => false

/-- **Decompresses the next piece of the stream.**  Nothing is given out by a call in which the
stream breaks a rule, nor by any later one. -/
def inflate (s : Inflater) (piece : Bytes) : Option Bytes × Inflater :=
  let call := piece.foldl stepByte ⟨s.scanner, ⟨s.window, #[]⟩, s.taken⟩
  let bytes := call.output.bytes.toList
  match call.scanner with
  | .failed => (none, { s with scanner := .failed, taken := call.taken })
  | scanner =>
    (some bytes,
      { scanner, window := call.output.window, taken := call.taken,
        produced := s.produced + bytes.length })

/-! ## One call -/

/-- The call that is made of a piece. -/
def callOn (s : Inflater) (piece : Bytes) : Call :=
  piece.foldl stepByte ⟨s.scanner, ⟨s.window, #[]⟩, s.taken⟩

/-- The inflater behind a call that does not fail. -/
def after (s : Inflater) (piece : Bytes) : Inflater where
  scanner := (s.callOn piece).scanner
  window := (s.callOn piece).output.window
  taken := (s.callOn piece).taken
  produced := s.produced + (s.callOn piece).output.bytes.size

theorem inflate_of_failed {s : Inflater} {piece : Bytes} (h : (s.callOn piece).scanner = .failed) :
    s.inflate piece = (none, { s with scanner := .failed, taken := (s.callOn piece).taken }) := by
  unfold callOn at h ⊢
  unfold inflate
  simp only [h]

theorem inflate_of_not_failed {s : Inflater} {piece : Bytes}
    (h : (s.callOn piece).scanner ≠ .failed) :
    s.inflate piece = (some (s.callOn piece).output.bytes.toList, s.after piece) := by
  unfold after callOn at *
  unfold inflate
  dsimp only
  split
  · next hfailed => exact absurd hfailed h
  · simp

/-- The bytes that a call takes are counted, also when it fails. -/
theorem taken_inflate (s : Inflater) (piece : Bytes) :
    (s.inflate piece).2.taken = (s.callOn piece).taken := by
  by_cases h : (s.callOn piece).scanner = .failed
  · rw [inflate_of_failed h]
  · rw [inflate_of_not_failed h]
    rfl

theorem scanner_inflate (s : Inflater) (piece : Bytes) :
    (s.inflate piece).2.scanner = (s.callOn piece).scanner := by
  by_cases h : (s.callOn piece).scanner = .failed
  · rw [inflate_of_failed h, h]
  · rw [inflate_of_not_failed h]
    rfl

theorem inflate_eq_none_iff {s : Inflater} {piece : Bytes} :
    (s.inflate piece).1 = none ↔ (s.callOn piece).scanner = .failed := by
  constructor
  · intro h
    refine Classical.byContradiction fun hne => ?_
    simp [inflate_of_not_failed hne] at h
  · intro h
    rw [inflate_of_failed h]

theorem hasFailed_iff {s : Inflater} : s.hasFailed = true ↔ s.scanner = .failed := by
  rw [hasFailed]
  cases s.scanner <;> simp

theorem hasEnded_iff {s : Inflater} : s.hasEnded = true ↔ s.scanner = .finished := by
  rw [hasEnded]
  cases s.scanner <;> simp

/-- Behind the end of a stream nothing is taken. -/
theorem foldl_stepByte_of_not_reading {call : Call} (h : call.scanner.isReading = false)
    (piece : Bytes) : piece.foldl stepByte call = call := by
  induction piece with
  | nil => rfl
  | cons byte piece ih => rwa [List.foldl_cons, stepByte, if_neg (by simp [h])]

/-- A call of an inflater that has failed or ended does nothing. -/
theorem callOn_of_not_reading {s : Inflater} (h : s.scanner.isReading = false) (piece : Bytes) :
    s.callOn piece = ⟨s.scanner, ⟨s.window, #[]⟩, s.taken⟩ :=
  foldl_stepByte_of_not_reading h piece

/-- An inflater at the end of its stream swallows what comes. -/
theorem inflate_of_ended {s : Inflater} (h : s.hasEnded = true) (piece : Bytes) :
    s.inflate piece = (some [], s) := by
  have hscanner := hasEnded_iff.mp h
  have hcall := callOn_of_not_reading (s := s) (by rw [hscanner]; rfl) piece
  have hne : (s.callOn piece).scanner ≠ .failed := by
    rw [hcall, hscanner]
    exact Scanner.noConfusion
  rw [inflate_of_not_failed hne, after, hcall]
  rfl

/-- An inflater that has failed stays as it is. -/
theorem inflate_of_hasFailed {s : Inflater} (h : s.hasFailed = true) (piece : Bytes) :
    s.inflate piece = (none, s) := by
  have hscanner := hasFailed_iff.mp h
  have hcall := callOn_of_not_reading (s := s) (by rw [hscanner]; rfl) piece
  rw [inflate_of_failed (by rw [hcall, hscanner]), hcall, ← hscanner]

/-! ## What is taken -/

/-- At most the bytes of a piece are taken. -/
theorem taken_foldl_bounds (call : Call) (piece : Bytes) :
    call.taken ≤ (piece.foldl stepByte call).taken
      ∧ (piece.foldl stepByte call).taken ≤ call.taken + piece.length := by
  induction piece generalizing call with
  | nil => exact ⟨Nat.le_refl _, Nat.le_refl _⟩
  | cons byte piece ih =>
    obtain ⟨hleast, hmost⟩ := ih (stepByte call byte)
    have hstep : call.taken ≤ (stepByte call byte).taken
        ∧ (stepByte call byte).taken ≤ call.taken + 1 := by
      unfold stepByte
      split <;> exact ⟨by simp, by simp⟩
    rw [List.foldl_cons, List.length_cons]
    omega

/-- All of them are, if there may be more. -/
theorem taken_foldl_of_isReading {call : Call} {piece : Bytes}
    (h : (piece.foldl stepByte call).scanner.isReading = true) :
    (piece.foldl stepByte call).taken = call.taken + piece.length := by
  induction piece generalizing call with
  | nil => rfl
  | cons byte piece ih =>
    by_cases hreading : call.scanner.isReading = true
    · rw [List.foldl_cons] at h ⊢
      have htaken : (stepByte call byte).taken = call.taken + 1 := by
        rw [stepByte, if_pos hreading]
      rw [ih h, htaken, List.length_cons]
      omega
    · rw [foldl_stepByte_of_not_reading (by simpa using hreading)] at h
      exact absurd h hreading

theorem taken_inflate_bounds (s : Inflater) (piece : Bytes) :
    s.taken ≤ (s.inflate piece).2.taken
      ∧ (s.inflate piece).2.taken ≤ s.taken + piece.length := by
  rw [taken_inflate]
  exact taken_foldl_bounds ⟨s.scanner, ⟨s.window, #[]⟩, s.taken⟩ piece

theorem taken_inflate_of_isReading {s : Inflater} {piece : Bytes}
    (h : (s.inflate piece).2.scanner.isReading = true) :
    (s.inflate piece).2.taken = s.taken + piece.length := by
  rw [scanner_inflate] at h
  rw [taken_inflate]
  exact taken_foldl_of_isReading h

end Inflater

end DeflateEcho.Deflate
