import DeflateEcho.Deflate.Inflater
import DeflateEcho.Proofs.Deflate.Spelling

/-!
# Proofs/Deflate/Inflating — what an inflater gives for the elements of a stream

`Element.extend` says what an element stands for, given all the output before it.  An inflater
only keeps a window of that output; `Output.Shows` is the invariant that makes the window as good
as the whole, and `foldl_write` says that elements are then written for what they stand for.

`inflate_of_run` takes the bytes and the counters out of the way: a call gives what the scanner's
elements write.  `inflate_path` puts the two together, for bytes between two headers.
-/

namespace DeflateEcho.Deflate

open Bits

/-- An output behind an element. -/
def Element.extend (output : Bytes) : Element → Bytes
  | .storedByte value => output ++ [value]
  | .literal value => output ++ [value]
  | .backref ref => repeatBack output ref.distance ref.length
  | _ => output

/-! ## Writing through a window -/

/-- A legal repetition reaches back at least one byte, and no further than a window shows. -/
theorem Backref.Legal.distance_bounds {ref : Backref} (h : ref.Legal) :
    1 ≤ ref.distance ∧ ref.distance ≤ Window.reach := by
  obtain ⟨slot, hslot, hextra⟩ := h.distance
  have hall : ∀ slot ∈ distanceSlots.toList,
      1 ≤ slot.base ∧ slot.base + 2 ^ slot.extra ≤ Window.reach + 1 := by decide
  have hbounds := hall slot (by simpa using Array.mem_of_getElem? hslot)
  have hdistance : ref.distance = slot.base + ref.distanceExtra := by
    simp [Backref.distance, hslot]
  omega

namespace Output

/-- The window behind an output in the making shows that output, behind what came before it. -/
def Shows (o : Output) (before : Bytes) : Prop := o.window.Shows (before ++ o.bytes.toList)

theorem shows_push {o : Output} {before : Bytes} (h : o.Shows before) (b : UInt8) :
    (o.push b).Shows before := by
  simpa [Shows, push] using Window.shows_push h b

/-- Copying through the window repeats the output itself. -/
theorem copy_eq {o : Output} {before : Bytes} (h : o.Shows before) {distance : Nat}
    (h1 : 1 ≤ distance) (hreach : distance ≤ Window.reach) (length : Nat) :
    (o.copy distance length).Shows before
      ∧ before ++ (o.copy distance length).bytes.toList
        = repeatBack (before ++ o.bytes.toList) distance length := by
  induction length generalizing o with
  | zero => exact ⟨h, rfl⟩
  | succ length ih =>
    have hback : o.window.lookBack distance = lookBack (before ++ o.bytes.toList) distance :=
      h distance h1 hreach
    have := ih (shows_push h (o.window.lookBack distance))
    rw [copy, repeatBack]
    simpa [push, hback] using this

/-- **An element is written for what it stands for.** -/
theorem write_eq {o : Output} {before : Bytes} (h : o.Shows before) {element : Element}
    (hlegal : element.Legal) :
    (o.write element).Shows before
      ∧ before ++ (o.write element).bytes.toList = element.extend (before ++ o.bytes.toList) := by
  cases element with
  | storedByte value => exact ⟨shows_push h value, by simp [write, push, Element.extend]⟩
  | literal value => exact ⟨shows_push h value, by simp [write, push, Element.extend]⟩
  | backref ref =>
    have hbounds := Backref.Legal.distance_bounds hlegal
    exact copy_eq h hbounds.1 hbounds.2 ref.length
  | _ => exact ⟨h, rfl⟩

theorem foldl_write {o : Output} {before : Bytes} (h : o.Shows before) {elements : List Element}
    (hlegal : ∀ element ∈ elements, element.Legal) :
    (elements.foldl write o).Shows before
      ∧ before ++ (elements.foldl write o).bytes.toList
        = elements.foldl Element.extend (before ++ o.bytes.toList) := by
  induction elements generalizing o with
  | nil => exact ⟨h, rfl⟩
  | cons element elements ih =>
    obtain ⟨hfirst, hrest⟩ := List.forall_mem_cons.mp hlegal
    obtain ⟨hshows, hbytes⟩ := write_eq h hfirst
    rw [List.foldl_cons, List.foldl_cons, ← hbytes]
    exact ih hshows hrest

end Output

/-! ## Calls without bytes and counters -/

namespace Scanner

theorem run_finished (bits : List Bool) : finished.run bits = (finished, []) := by
  induction bits with
  | nil => rfl
  | cons bit bits ih => simp [run, step, ih]

theorem run_failed (bits : List Bool) : failed.run bits = (failed, []) := by
  induction bits with
  | nil => rfl
  | cons bit bits ih => simp [run, step, ih]

/-- A scanner that takes no more bytes stays as it is. -/
theorem run_of_not_reading {s : Scanner} (h : s.isReading = false) (bits : List Bool) :
    s.run bits = (s, []) := by
  cases s with
  | reading => simp [isReading] at h
  | finished => exact run_finished bits
  | failed => exact run_failed bits

end Scanner

namespace Inflater

theorem stepBit_eq (scanner : Scanner) (output : Output) (bit : Bool) :
    stepBit (scanner, output) bit
      = ((scanner.step bit).1, (scanner.step bit).2.toList.foldl Output.write output) := by
  rcases hstep : scanner.step bit with ⟨next, _ | element⟩ <;> simp [stepBit, hstep]

theorem foldl_stepBit (scanner : Scanner) (output : Output) (bits : List Bool) :
    bits.foldl stepBit (scanner, output)
      = ((scanner.run bits).1, (scanner.run bits).2.foldl Output.write output) := by
  induction bits generalizing scanner output with
  | nil => rfl
  | cons bit bits ih =>
    rw [List.foldl_cons, stepBit_eq, ih]
    simp [Scanner.run]

theorem stepByte_eq (call : Call) (byte : UInt8) :
    (stepByte call byte).scanner = (call.scanner.run (ofByte byte)).1
      ∧ (stepByte call byte).output
        = (call.scanner.run (ofByte byte)).2.foldl Output.write call.output := by
  unfold stepByte
  split
  · simp [foldl_stepBit]
  · next h => simp [Scanner.run_of_not_reading (by simpa using h)]

theorem foldl_stepByte (call : Call) (piece : Bytes) :
    (piece.foldl stepByte call).scanner = (call.scanner.run (ofBytes piece)).1
      ∧ (piece.foldl stepByte call).output
        = (call.scanner.run (ofBytes piece)).2.foldl Output.write call.output := by
  induction piece generalizing call with
  | nil => exact ⟨rfl, rfl⟩
  | cons byte piece ih =>
    obtain ⟨hscanner, houtput⟩ := stepByte_eq call byte
    rw [List.foldl_cons, ofBytes_cons, Scanner.run_append, (ih _).1, (ih _).2, hscanner, houtput,
      List.foldl_append]
    exact ⟨rfl, rfl⟩

/-- **A call gives what the elements in its bits write**, unless the scanner fails in it. -/
theorem inflate_of_run {s : Inflater} {piece : Bytes} {scanner : Scanner}
    {elements : List Element} (hrun : s.scanner.run (ofBytes piece) = (scanner, elements))
    (hne : scanner ≠ .failed) :
    (s.inflate piece).1 = some (elements.foldl Output.write ⟨s.window, #[]⟩).bytes.toList
      ∧ (s.inflate piece).2.scanner = scanner
      ∧ (s.inflate piece).2.window = (elements.foldl Output.write ⟨s.window, #[]⟩).window := by
  obtain ⟨hscanner, houtput⟩ := foldl_stepByte ⟨s.scanner, ⟨s.window, #[]⟩, s.taken⟩ piece
  rw [hrun] at hscanner houtput
  rw [inflate, hscanner, houtput]
  cases scanner with
  | failed => exact absurd rfl hne
  | reading place offset pending => exact ⟨rfl, rfl, rfl⟩
  | finished => exact ⟨rfl, rfl, rfl⟩

/-! ## Between headers -/

/-- The inflater stands at a block header and a whole byte, and its window shows this output. -/
structure Between (s : Inflater) (output : Bytes) : Prop where
  scanner : ∃ offset, 8 ∣ offset ∧ s.scanner = .atPlace .header offset
  window : s.window.Shows output

theorem between_new : Between {} [] where
  scanner := ⟨0, ⟨0, rfl⟩, rfl⟩
  window := Window.shows_empty

/-- **Elements on the way from header to header are given out for what they stand for**, and leave
the inflater where it can go on. -/
theorem inflate_path {s : Inflater} {before message piece : Bytes} (hs : s.Between before)
    (h : ∀ offset, 8 ∣ offset → ∃ elements, Path .header offset elements (ofBytes piece) .header
      ∧ elements.foldl Element.extend before = before ++ message) :
    (s.inflate piece).1 = some message ∧ (s.inflate piece).2.Between (before ++ message) := by
  obtain ⟨offset, hoffset, hscanner⟩ := hs.scanner
  obtain ⟨elements, hpath, hextend⟩ := h offset hoffset
  have hrun := Scanner.run_path hpath
  rw [← hscanner] at hrun
  have hstart : Output.Shows ⟨s.window, #[]⟩ before := by
    simpa [Output.Shows] using hs.window
  obtain ⟨hshows, hbytes⟩ := Output.foldl_write hstart hpath.legal
  have hmessage : (elements.foldl Output.write ⟨s.window, #[]⟩).bytes.toList = message := by
    rw [← List.append_right_inj before, hbytes, ← hextend]
    simp
  obtain ⟨hgiven, hnext, hwindow⟩ := inflate_of_run hrun (by rw [Scanner.atPlace_of_ne] <;> simp)
  refine ⟨by rw [hgiven, hmessage], ⟨_, ?_, hnext⟩, ?_⟩
  · simp only [length_ofBytes]
    omega
  · rw [hwindow, ← hmessage]
    exact hshows

end Inflater

end DeflateEcho.Deflate
