import DeflateEcho.Deflate.Inflater

/-!
# Proofs/Deflate/Resuming — an inflater goes on where it stands

A call sees nothing of the bytes that earlier calls gave out but the window behind them: `behind`
puts bytes in front of an output in the making, and every step of a call commutes with it.  So two
pieces one after the other come to what both come to at once (`inflate_append`).
-/

namespace DeflateEcho.Deflate

open Bits

/-! ## Output behind earlier output -/

namespace Output

/-- An output in the making behind bytes that were given out before. -/
def behind (o : Output) (earlier : Array UInt8) : Output := ⟨o.window, earlier ++ o.bytes⟩

@[simp] theorem bytes_behind (o : Output) (earlier : Array UInt8) :
    (o.behind earlier).bytes = earlier ++ o.bytes := rfl

@[simp] theorem window_behind (o : Output) (earlier : Array UInt8) :
    (o.behind earlier).window = o.window := rfl

theorem push_behind (o : Output) (earlier : Array UInt8) (b : UInt8) :
    (o.behind earlier).push b = (o.push b).behind earlier := by
  simp [behind, push]

theorem copy_behind (o : Output) (earlier : Array UInt8) (distance length : Nat) :
    (o.behind earlier).copy distance length = (o.copy distance length).behind earlier := by
  induction length generalizing o with
  | zero => rfl
  | succ length ih => rw [copy, copy, window_behind, push_behind, ih]

/-- What an element writes does not depend on what was given out before. -/
theorem write_behind (o : Output) (earlier : Array UInt8) (element : Element) :
    (o.behind earlier).write element = (o.write element).behind earlier := by
  cases element with
  | storedByte value => exact push_behind o earlier value
  | literal value => exact push_behind o earlier value
  | backref ref => exact copy_behind o earlier ref.distance ref.length
  | _ => rfl

end Output

/-! ## Calls behind earlier calls -/

namespace Inflater

/-- A call in progress with the output of earlier calls in front of its own. -/
def Call.behind (call : Call) (earlier : Array UInt8) : Call :=
  { call with output := call.output.behind earlier }

theorem stepBit_behind (scanner : Scanner) (o : Output) (earlier : Array UInt8) (bit : Bool) :
    stepBit (scanner, o.behind earlier) bit
      = ((stepBit (scanner, o) bit).1, (stepBit (scanner, o) bit).2.behind earlier) := by
  rcases hstep : scanner.step bit with ⟨next, _ | element⟩
  · simp [stepBit, hstep]
  · simp [stepBit, hstep, Output.write_behind]

theorem foldl_stepBit_behind (scanner : Scanner) (o : Output) (earlier : Array UInt8)
    (bits : List Bool) :
    bits.foldl stepBit (scanner, o.behind earlier)
      = ((bits.foldl stepBit (scanner, o)).1,
          (bits.foldl stepBit (scanner, o)).2.behind earlier) := by
  induction bits generalizing scanner o with
  | nil => rfl
  | cons bit bits ih => rw [List.foldl_cons, List.foldl_cons, stepBit_behind, ih]

theorem stepByte_behind (call : Call) (earlier : Array UInt8) (byte : UInt8) :
    stepByte (call.behind earlier) byte = (stepByte call byte).behind earlier := by
  unfold stepByte Call.behind
  dsimp only
  split
  · rw [foldl_stepBit_behind]
  · rfl

theorem foldl_stepByte_behind (call : Call) (earlier : Array UInt8) (piece : Bytes) :
    piece.foldl stepByte (call.behind earlier) = (piece.foldl stepByte call).behind earlier := by
  induction piece generalizing call with
  | nil => rfl
  | cons byte piece ih => rw [List.foldl_cons, List.foldl_cons, stepByte_behind, ih]

/-! ## Calls one after the other -/

/-- The call on two pieces goes on where the call on the first one ended. -/
theorem callOn_append (s : Inflater) (first second : Bytes) :
    s.callOn (first ++ second)
      = ((s.after first).callOn second).behind (s.callOn first).output.bytes := by
  rw [callOn, List.foldl_append, callOn, ← foldl_stepByte_behind]
  simp [Call.behind, Output.behind, after, callOn]

theorem after_append (s : Inflater) (first second : Bytes) :
    s.after (first ++ second) = (s.after first).after second := by
  unfold after
  rw [callOn_append]
  simp [Call.behind, after, Nat.add_assoc]

theorem callOn_of_failed {s : Inflater} (h : s.scanner = .failed) (piece : Bytes) :
    s.callOn piece = ⟨.failed, ⟨s.window, #[]⟩, s.taken⟩ := by
  rw [callOn_of_not_reading (by rw [h]; rfl), h]

/-- **A call that fails, fails with whatever comes behind its piece**, and so does the next one. -/
theorem inflate_append_of_none {s : Inflater} {first : Bytes} (h : (s.inflate first).1 = none)
    (second : Bytes) :
    (s.inflate (first ++ second)).1 = none ∧ ((s.inflate first).2.inflate second).1 = none := by
  have hfailed := inflate_eq_none_iff.mp h
  rw [inflate_eq_none_iff, inflate_eq_none_iff, callOn_append, inflate_of_failed hfailed]
  have hafter : (s.after first).scanner = .failed := hfailed
  exact ⟨by simp [Call.behind, callOn_of_failed hafter], by simp [callOn_of_failed]⟩

/-- **Two pieces one after the other come to what both come to at once**: the same bytes, and the
same inflater where neither fails. -/
theorem inflate_append {s s' : Inflater} {first bytes : Bytes}
    (h : s.inflate first = (some bytes, s')) (second : Bytes) :
    (s.inflate (first ++ second)).1 = (s'.inflate second).1.map (bytes ++ ·)
      ∧ ((s'.inflate second).1 ≠ none →
        (s.inflate (first ++ second)).2 = (s'.inflate second).2) := by
  have hne : (s.callOn first).scanner ≠ .failed := by
    intro hfailed
    simp [inflate_of_failed hfailed] at h
  rw [inflate_of_not_failed hne] at h
  obtain ⟨rfl, rfl⟩ : (s.callOn first).output.bytes.toList = bytes ∧ s.after first = s' := by
    simpa using h
  have hscanner : (s.callOn (first ++ second)).scanner
      = ((s.after first).callOn second).scanner := by
    rw [callOn_append]
    rfl
  by_cases hsecond : ((s.after first).callOn second).scanner = .failed
  · rw [inflate_of_failed hsecond, inflate_of_failed (hscanner.trans hsecond)]
    exact ⟨rfl, fun hsome => absurd rfl hsome⟩
  · rw [inflate_of_not_failed hsecond, inflate_of_not_failed (hscanner ▸ hsecond), after_append,
      callOn_append]
    exact ⟨by simp [Call.behind], fun _ => rfl⟩

end Inflater

end DeflateEcho.Deflate
