import Mathlib
import DeflateEcho.Proofs.Deflate.Inflating
import DeflateEcho.Proofs.Deflate.Reading

/-!
# Proofs/Deflate/Parsing — a scanner takes exactly what the format explains

A derivation is a path (`Derivation.path`), so its elements are given out.  What follows is the way
back: every bit string is explained by the format or breaks it (`run_cases`), the scanner gives out
the elements that explain it, and it fails exactly on what breaks the format (`run_failed_iff`).
-/

namespace DeflateEcho.Deflate

open Bits

/-! ## Elements take bits -/

section NonEmpty

variable {stage : Stage} {offset : Nat} {element : Element} {bits : List Bool}

theorem LengthRun.Written.ne_nil {sent : List Nat} {run : LengthRun} (h : run.Written sent bits) :
    bits ≠ [] := by
  cases h with
  | plain _ hword => exact PrefixCode.codeword_ne_nil hword
  | again _ hword => simp [PrefixCode.codeword_ne_nil hword]
  | fewZeros _ hword => simp [PrefixCode.codeword_ne_nil hword]
  | manyZeros _ hword => simp [PrefixCode.codeword_ne_nil hword]

theorem Element.Written.ne_nil (h : element.Written offset stage bits) (hsound : stage.Sound) :
    bits ≠ [] := by
  cases h with
  | header => simp
  | storedLength => exact List.ne_nil_of_length_pos (by simp)
  | storedByte => exact List.ne_nil_of_length_pos (by simp)
  | counts => exact List.ne_nil_of_length_pos (by simp [Counts.bits])
  | @lengthCode _ _ sent hcount =>
    have hpos : 0 < sent.length := by
      have := hsound.lengthCodes.1
      omega
    obtain ⟨length, sent, rfl⟩ := List.exists_cons_of_ne_nil (List.ne_nil_of_length_pos hpos)
    exact List.ne_nil_of_length_pos (by simp)
  | run hrun => exact hrun.ne_nil
  | literal hword => exact hword.ne_nil
  | backref _ hword => simp [hword.ne_nil]
  | endOfBlock hword => exact hword.ne_nil

theorem Violation.ne_nil (h : Violation offset stage bits) (hsound : stage.Sound) : bits ≠ [] := by
  cases h with
  | element hwritten => exact hwritten.ne_nil hsound
  | kind => simp
  | nothingToRepeat hword => exact PrefixCode.codeword_ne_nil hword
  | lengthSymbol hword => exact hword.ne_nil
  | distanceSymbol _ hword => simp [hword.ne_nil]
  | noLiteral hpattern => exact hpattern.ne_nil
  | noDistance _ hpattern => simp [hpattern.ne_nil]

theorem Violation.ne_finished (h : Violation offset stage bits) : stage ≠ .finished := by
  rintro rfl
  cases h with
  | element hwritten => cases hwritten

end NonEmpty

/-! ## Derivations, as paths -/

/-- **A derivation is a path** of the scanner. -/
theorem Derivation.path {stage final : Stage} {offset : Nat} {elements : List Element}
    {bits : List Bool} (h : Derivation stage offset elements bits final) (hsound : stage.Sound) :
    Path stage.place offset elements bits final.place ∧ final.Sound := by
  induction h with
  | nil => exact ⟨.nil _ _, hsound⟩
  | cons hwritten hleads _ ih =>
    obtain ⟨hpath, hfinal⟩ := ih (hleads.sound hsound hwritten)
    exact ⟨.cons (hwritten.spelled hsound) (hwritten.ne_nil hsound)
      (hleads.next hsound hwritten) hpath, hfinal⟩

/-! ## Bits inside one element -/

namespace Scanner

section Pending

variable {place : Place} {offset : Nat} {pending : Reader Element} {bits rest : List Bool}

/-- A scanner goes on where its reader wants more. -/
theorem run_of_reading {further : Reader Element} (h : pending.feed bits = .reading further) :
    (reading place offset pending).run bits
      = (reading place (offset + bits.length) further, []) := by
  induction bits generalizing offset pending with
  | nil =>
    cases pending with
    | more next =>
      obtain rfl : Reader.more next = further := by simpa [Reader.feed] using h
      rfl
    | _ => simp at h
  | cons bit bits ih =>
    cases pending with
    | more next =>
      rw [Reader.feed_more_cons] at h
      cases hbit : next bit with
      | done element => simp [hbit] at h
      | fail => simp [hbit] at h
      | more next' =>
        rw [hbit] at h
        simp [run, step, hbit, @ih (offset + 1) _ h, Nat.add_assoc, Nat.add_comm 1]
    | _ => simp at h

/-- A scanner fails where its reader does, and with an element that leads nowhere. -/
theorem run_of_refused (hbits : bits ≠ [])
    (h : (∃ rest, pending.feed bits = .error rest)
      ∨ ∃ element, pending.feed bits = .value element [] ∧ place.next element = none) :
    (reading place offset pending).run bits = (failed, []) := by
  induction bits generalizing offset pending with
  | nil => exact absurd rfl hbits
  | cons bit bits ih =>
    cases pending with
    | done element => simp [run, step, run_failed]
    | fail => simp [run, step, run_failed]
    | more next =>
      simp only [Reader.feed_more_cons] at h
      cases hbit : next bit with
      | done element =>
        have hnext : place.next element = none := by
          rcases h with ⟨rest, herror⟩ | ⟨element', hvalue, hnext⟩
          · simp [hbit] at herror
          · obtain ⟨rfl, -⟩ : element = element' ∧ bits = [] := by simpa [hbit] using hvalue
            exact hnext
        simp [run, step, hbit, settle, hnext, run_failed]
      | fail => simp [run, step, hbit, run_failed]
      | more next' =>
        rw [hbit] at h
        have hne : bits ≠ [] := by
          rintro rfl
          simp [Reader.feed] at h
        simp [run, step, hbit, @ih (offset + 1) _ hne h]

end Pending

section Stages

variable {stage final : Stage} {offset : Nat} {bits : List Bool}

theorem atPlace_place (h : stage ≠ .finished) (offset : Nat) :
    atPlace stage.place offset = reading stage.place offset (stage.place.reader offset) :=
  atPlace_of_ne (Stage.place_eq_finished_iff.not.mpr h) offset

/-- Behind elements in grammatical order a scanner stands where they lead. -/
theorem run_derivation {elements : List Element} {spelled : List Bool} (hsound : stage.Sound)
    (h : Derivation stage offset elements spelled final) (rest : List Bool) :
    (atPlace stage.place offset).run (spelled ++ rest)
      = (((atPlace final.place (offset + spelled.length)).run rest).1,
        elements ++ ((atPlace final.place (offset + spelled.length)).run rest).2) := by
  rw [run_append, run_path (h.path hsound).1]

/-! ## Bits that break the format -/

/-- A scanner fails with the bits that complete a breach. -/
theorem run_violation {wrong : List Bool} (hsound : stage.Sound)
    (h : Violation offset stage wrong) (rest : List Bool) :
    (atPlace stage.place offset).run (wrong ++ rest) = (failed, []) := by
  rw [run_append, atPlace_place h.ne_finished,
    run_of_refused (h.ne_nil hsound) (refused_of_violation hsound h)]
  simp [run_failed]

theorem run_violated (hsound : stage.Sound) (h : Violated offset stage bits) :
    ((atPlace stage.place offset).run bits).1 = failed := by
  obtain ⟨elements, spelled, final, wrong, hderivation, hviolation, rest, rfl⟩ := h
  rw [List.append_assoc, run_derivation hsound hderivation,
    run_violation (hderivation.path hsound).2 hviolation]

/-! ## All bits -/

/-- Where a place wants more, no element and no breach is complete. -/
theorem unfinished_of_reading {pending : Reader Element} (hsound : stage.Sound)
    (h : (stage.place.reader offset).feed bits = .reading pending) :
    Unfinished offset stage bits where
  no_element element word hwritten := by
    rintro ⟨rest, rfl⟩
    simp [feed_spelled (hwritten.spelled hsound)] at h
  no_violation wrong hviolation := by
    rintro ⟨rest, rfl⟩
    have hfails := run_violation hsound hviolation rest
    rw [atPlace_place hviolation.ne_finished, run_of_reading h] at hfails
    simp at hfails

/-- What a scanner makes of bits that the format explains: it gives out their elements, and is at the
end of the stream or wants more. -/
structure Takes (s : Scanner) (bits : List Bool) (elements : List Element) (final : Stage) :
    Prop where
  elements : (s.run bits).2 = elements
  ended : final = .finished → (s.run bits).1 = finished
  wants : final ≠ .finished → (s.run bits).1.isReading = true

theorem Takes.finished_iff {s : Scanner} {elements : List Element}
    (h : Takes s bits elements final) : (s.run bits).1 = finished ↔ final = .finished := by
  refine ⟨fun hscanner => ?_, h.ended⟩
  by_contra hne
  have hreading := h.wants hne
  simp [hscanner, isReading] at hreading

theorem Takes.ne_failed {s : Scanner} {elements : List Element}
    (h : Takes s bits elements final) : (s.run bits).1 ≠ failed := by
  intro hfailed
  by_cases hfinal : final = .finished
  · simp [h.ended hfinal] at hfailed
  · have hreading := h.wants hfinal
    simp [hfailed, isReading] at hreading

/-- Behind the end of a stream a scanner gives out nothing more. -/
theorem takes_of_derivation {elements : List Element} {spelled : List Bool} (hsound : stage.Sound)
    (h : Derivation stage offset elements spelled .finished) (rest : List Bool) :
    Takes (atPlace stage.place offset) (spelled ++ rest) elements .finished := by
  have hrun : (atPlace stage.place offset).run (spelled ++ rest) = (finished, elements ++ []) := by
    rw [run_derivation hsound h, show (atPlace Stage.finished.place _).run rest = _ from
      run_finished rest]
  rw [List.append_nil] at hrun
  exact ⟨by rw [hrun], fun _ => by rw [hrun], fun hne => absurd rfl hne⟩

/-- Where a place wants more, the scanner has given out nothing. -/
theorem takes_of_reading {pending : Reader Element} (hstage : stage ≠ .finished)
    (h : (stage.place.reader offset).feed bits = .reading pending) :
    Takes (atPlace stage.place offset) bits [] stage := by
  have hrun : (atPlace stage.place offset).run bits
      = (reading stage.place (offset + bits.length) pending, []) := by
    rw [atPlace_place hstage, run_of_reading h]
  exact ⟨by rw [hrun], fun hend => absurd hend hstage, fun _ => by rw [hrun]; rfl⟩

section Cons

variable {next : Stage} {element : Element} {elements : List Element}
  {word rest spelled : List Bool} (hwritten : element.Written offset stage word)
  (hleads : stage.Leads element next)
include hwritten hleads

theorem explained_cons
    (h : Explained (offset + word.length) next rest elements spelled final) :
    Explained offset stage (word ++ rest) (element :: elements) (word ++ spelled) final where
  derivation := .cons hwritten hleads h.derivation
  split := by
    obtain ⟨behind, rfl, hbehind⟩ := h.split
    exact ⟨behind, (List.append_assoc _ _ _).symm, by simpa [Nat.add_assoc] using hbehind⟩

theorem violated_cons (h : Violated (offset + word.length) next rest) :
    Violated offset stage (word ++ rest) := by
  obtain ⟨elements, spelled, final, wrong, hderivation, hviolation, behind, rfl⟩ := h
  exact ⟨element :: elements, word ++ spelled, final, wrong, .cons hwritten hleads hderivation,
    by simpa [Nat.add_assoc] using hviolation, behind, by simp⟩

theorem takes_cons (hsound : stage.Sound)
    (h : Takes (atPlace next.place (offset + word.length)) rest elements final) :
    Takes (atPlace stage.place offset) (word ++ rest) (element :: elements) final := by
  have hrun := run_derivation hsound (.cons hwritten hleads (.nil _ _)) rest
  rw [List.append_nil] at hrun
  refine ⟨?_, fun hend => ?_, fun hne => ?_⟩
  · rw [hrun, h.elements]
    rfl
  · rw [hrun]
    exact h.ended hend
  · rw [hrun]
    exact h.wants hne

end Cons

/-- **All bits are explained by the format or break it**, and the elements that explain them are
what a scanner takes. -/
theorem run_cases (hsound : stage.Sound) (offset : Nat) (bits : List Bool) :
    (∃ elements spelled final, Explained offset stage bits elements spelled final
        ∧ Takes (atPlace stage.place offset) bits elements final)
      ∨ Violated offset stage bits := by
  -- by induction on the number of bits: every element takes at least one of them
  induction hlength : bits.length using Nat.strong_induction_on generalizing stage offset bits with
  | _ length ih =>
    by_cases hstage : stage = .finished
    · subst hstage
      exact .inl ⟨[], [], .finished, ⟨.nil _ _, bits, rfl, fun hne => absurd rfl hne⟩,
        takes_of_derivation hsound (.nil _ _) bits⟩
    · cases hfeed : (stage.place.reader offset).feed bits with
      | value element rest =>
        obtain ⟨word, rfl, hwritten⟩ := written_of_feed hsound hfeed
        have hpos := List.length_pos_of_ne_nil (hwritten.ne_nil hsound)
        rw [List.length_append] at hlength
        rcases Stage.leads_or_breaks hsound hwritten with ⟨next, hleads⟩ | hbreaks
        · rcases ih rest.length (by omega) (hleads.sound hsound hwritten) (offset + word.length)
            rest rfl with ⟨elements, spelled, final, hexplained, htakes⟩ | hviolated
          · exact .inl ⟨element :: elements, word ++ spelled, final,
              explained_cons hwritten hleads hexplained, takes_cons hwritten hleads hsound htakes⟩
          · exact .inr (violated_cons hwritten hleads hviolated)
        · exact .inr ⟨[], [], stage, word, .nil _ _, .element hwritten hbreaks,
            List.prefix_append word rest⟩
      | error rest =>
        obtain ⟨wrong, rfl, hviolation⟩ := violation_of_feed hsound hstage hfeed
        exact .inr ⟨[], [], stage, wrong, .nil _ _, hviolation, List.prefix_append wrong rest⟩
      | reading pending =>
        exact .inl ⟨[], [], stage,
          ⟨.nil _ _, bits, rfl, fun _ => unfinished_of_reading hsound hfeed⟩,
          takes_of_reading hstage hfeed⟩

/-- **A scanner fails exactly on bits that break the format.** -/
theorem run_failed_iff (hsound : stage.Sound) :
    ((atPlace stage.place offset).run bits).1 = failed ↔ Violated offset stage bits := by
  refine ⟨fun hfailed => ?_, run_violated hsound⟩
  rcases run_cases hsound offset bits with ⟨elements, spelled, final, -, htakes⟩ | hviolated
  · exact absurd hfailed htakes.ne_failed
  · exact hviolated

end Stages

/-! ## Inside a path -/

end Scanner

/-! ## Counting bytes -/

namespace Inflater

end Inflater

end DeflateEcho.Deflate
