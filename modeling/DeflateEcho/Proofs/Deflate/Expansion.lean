import Mathlib
import DeflateEcho.Proofs.Deflate.Parsing

/-!
# Proofs/Deflate/Expansion — how many bytes some bits can stand for

Nothing is denser than the longest repetition in two bits, one for its length and one for its
distance, and a single bit is a literal at best (`mostBytes`).  An element keeps to this, hence
everything in grammatical order does (`Derivation.sizes_le`).  Bits that are read behind others may do
better by one bit: they may complete an element that was begun before them, which is then longer than
what they add to it (`sizes_run_le`).
-/

namespace DeflateEcho.Deflate

open Bits

/-! ## Sizes -/

theorem length_repeatBack (output : Bytes) (distance length : Nat) :
    (repeatBack output distance length).length = output.length + length := by
  induction length generalizing output with
  | zero => rfl
  | succ length ih =>
    rw [repeatBack, ih, List.length_append, List.length_singleton]
    omega

namespace Element

/-- How many bytes an element stands for. -/
def size : Element → Nat
  | storedByte _ => 1
  | literal _ => 1
  | backref ref => ref.length
  | _ => 0

/-- How many bytes some elements stand for. -/
def sizes (elements : List Element) : Nat := (elements.map size).sum

@[simp] theorem sizes_cons (element : Element) (elements : List Element) :
    sizes (element :: elements) = element.size + sizes elements := by
  simp [sizes]

@[simp] theorem sizes_append (first second : List Element) :
    sizes (first ++ second) = sizes first + sizes second := by
  simp [sizes]

theorem length_extend (element : Element) (output : Bytes) :
    (element.extend output).length = output.length + element.size := by
  cases element with
  | storedByte value => exact List.length_append
  | literal value => exact List.length_append
  | backref ref => exact length_repeatBack output ref.distance ref.length
  | _ => rfl

/-- The output grows by the sizes of the elements. -/
theorem length_foldl_extend (elements : List Element) (output : Bytes) :
    (elements.foldl extend output).length = output.length + sizes elements := by
  induction elements generalizing output with
  | nil => rfl
  | cons element elements ih => rw [List.foldl_cons, ih, length_extend, sizes_cons, Nat.add_assoc]

end Element

/-! ## The densest elements -/

/-- The length of the longest repetition. -/
def longest : Nat := 258

/-- The most bytes that so many bits can stand for: for every two bits the longest repetition, and a
literal for a bit that is left. -/
def mostBytes (bits : Nat) : Nat := longest * (bits / 2) + bits % 2

theorem mostBytes_add_le (first second : Nat) :
    mostBytes first + mostBytes second ≤ mostBytes (first + second) := by
  simp only [mostBytes, longest]
  omega

theorem mostBytes_mono {bits more : Nat} (h : bits ≤ more) : mostBytes bits ≤ mostBytes more := by
  simp only [mostBytes, longest]
  omega

theorem one_le_mostBytes {bits : Nat} (h : 1 ≤ bits) : 1 ≤ mostBytes bits := by
  simp only [mostBytes, longest]
  omega

theorem longest_le_mostBytes {bits : Nat} (h : 2 ≤ bits) : longest ≤ mostBytes bits := by
  simp only [mostBytes, longest]
  omega

/-- A whole byte is four repetitions of the greatest length. -/
theorem mostBytes_bytes (count : Nat) : mostBytes (8 * count) = 1032 * count := by
  simp only [mostBytes, longest]
  omega

/-- The bit that is missing at the end costs all but one byte of a repetition. -/
theorem mostBytes_bytes_sub_one {count : Nat} (h : 0 < count) :
    longest + mostBytes (8 * count - 1) = 1032 * count + 1 := by
  simp only [mostBytes, longest]
  omega

/-- A legal repetition is no longer than the longest one. -/
theorem Backref.Legal.length_le {ref : Backref} (h : ref.Legal) : ref.length ≤ longest := by
  obtain ⟨slot, hslot, hextra⟩ := h.length
  have hall : ∀ slot ∈ lengthSlots.toList, slot.base + 2 ^ slot.extra ≤ longest + 1 := by decide
  have hbound := hall slot (by simpa using Array.mem_of_getElem? hslot)
  have hlength : ref.length = slot.base + ref.lengthExtra := by simp [Backref.length, hslot]
  omega

variable {stage final : Stage} {offset : Nat} {element : Element} {elements : List Element}
  {bits : List Bool}

/-- **No element stands for more bytes than its bits can.** -/
theorem Element.Written.size_le (h : element.Written offset stage bits) :
    element.size ≤ mostBytes bits.length := by
  cases h with
  | storedByte value => exact one_le_mostBytes (by simp)
  | literal hword =>
    exact one_le_mostBytes (List.length_pos_of_ne_nil hword.ne_nil)
  | backref hlegal hlength hdistance =>
    have hfirst := List.length_pos_of_ne_nil hlength.ne_nil
    have hsecond := List.length_pos_of_ne_nil hdistance.ne_nil
    refine hlegal.length_le.trans (longest_le_mostBytes ?_)
    simp only [List.length_append]
    omega
  | _ => exact Nat.zero_le _

theorem Element.Written.size_le_longest (h : element.Written offset stage bits) :
    element.size ≤ longest := by
  cases h with
  | storedByte value => exact (by decide : 1 ≤ longest)
  | literal hword => exact (by decide : 1 ≤ longest)
  | backref hlegal => exact hlegal.length_le
  | _ => exact Nat.zero_le _

/-- **Elements in grammatical order keep to the bound together.** -/
theorem Derivation.sizes_le (h : Derivation stage offset elements bits final) :
    Element.sizes elements ≤ mostBytes bits.length := by
  induction h with
  | nil => exact Nat.zero_le _
  | @cons _ _ _ _ element elements bits rest hwritten _ _ ih =>
    rw [Element.sizes_cons, List.length_append]
    exact (Nat.add_le_add hwritten.size_le ih).trans (mostBytes_add_le bits.length rest.length)

/-! ## Bits behind others -/

/-- **Elements that begin in bits that were not enough for one**: the first one takes at least one more
bit, and the others make the best of the rest. -/
theorem Derivation.sizes_le_of_unfinished {behind more : List Bool}
    (h : Derivation stage offset elements bits final) (hbehind : Unfinished offset stage behind)
    (hbits : bits <+: behind ++ more) :
    Element.sizes elements ≤ longest + mostBytes (more.length - 1) := by
  cases h with
  | nil => exact Nat.zero_le _
  | @cons _ _ _ _ element elements word rest hwritten _ hrest =>
    have hword : word <+: behind ++ more := (List.prefix_append word rest).trans hbits
    have hlonger : behind.length < word.length := by
      by_contra hle
      exact hbehind.no_element element word hwritten
        (List.prefix_of_prefix_length_le hword (List.prefix_append behind more) (by omega))
    have hlength := hbits.length_le
    rw [List.length_append, List.length_append] at hlength
    have hothers : Element.sizes elements ≤ mostBytes (more.length - 1) :=
      hrest.sizes_le.trans (mostBytes_mono (by omega))
    rw [Element.sizes_cons]
    exact Nat.add_le_add hwritten.size_le_longest hothers

/-- Nothing stands behind the end of a stream. -/
theorem Derivation.sizes_of_finished (h : Derivation .finished offset elements bits final) :
    Element.sizes elements = 0 := by
  cases h with
  | nil => rfl
  | cons hwritten => cases hwritten

namespace Scanner

variable {middle : Stage} {spelled behind earlier : List Bool}

/-- What a scanner gives out behind elements in grammatical order, and bits that were left, is in
grammatical order as well. -/
theorem exists_derivation_behind (hsound : stage.Sound)
    (h : Derivation stage offset elements spelled middle)
    (hne : ((atPlace stage.place offset).run (spelled ++ behind ++ bits)).1 ≠ failed) :
    ∃ more taken final, Derivation middle (offset + spelled.length) more taken final
      ∧ taken <+: behind ++ bits
      ∧ Element.sizes (((atPlace stage.place offset).run (spelled ++ behind)).1.run bits).2
        ≤ Element.sizes more := by
  rw [List.append_assoc, run_derivation hsound h] at hne
  rcases run_cases (h.path hsound).2 (offset + spelled.length) (behind ++ bits) with
    ⟨more, taken, final, hexplained, htakes⟩ | hviolated
  · obtain ⟨rest, hsplit, -⟩ := hexplained.split
    refine ⟨more, taken, final, hexplained.derivation, ⟨rest, hsplit.symm⟩, ?_⟩
    rw [run_derivation hsound h, ← htakes.elements, run_append, Element.sizes_append]
    exact Nat.le_add_left _ _
  · exact absurd (run_violated (h.path hsound).2 hviolated) hne

/-- **Behind whole elements, bits give out no more than they can stand for.** -/
theorem sizes_run_le_of_derivation (hsound : stage.Sound)
    (h : Derivation stage offset elements earlier middle)
    (hne : ((atPlace stage.place offset).run (earlier ++ bits)).1 ≠ failed) :
    Element.sizes (((atPlace stage.place offset).run earlier).1.run bits).2
      ≤ mostBytes bits.length := by
  rw [← List.append_nil earlier] at hne ⊢
  obtain ⟨more, taken, final, hmore, htaken, hsizes⟩ := exists_derivation_behind hsound h hne
  exact hsizes.trans (hmore.sizes_le.trans (mostBytes_mono htaken.length_le))

/-- **Behind any bits, they give out no more than the longest repetition and what all but one of them
can stand for.** -/
theorem sizes_run_le (hsound : stage.Sound)
    (hne : ((atPlace stage.place offset).run (earlier ++ bits)).1 ≠ failed) :
    Element.sizes (((atPlace stage.place offset).run earlier).1.run bits).2
      ≤ longest + mostBytes (bits.length - 1) := by
  rcases run_cases hsound offset earlier with
    ⟨elements, spelled, middle, hexplained, -⟩ | hviolated
  · obtain ⟨behind, rfl, hbehind⟩ := hexplained.split
    obtain ⟨more, taken, final, hmore, htaken, hsizes⟩ :=
      exists_derivation_behind hsound hexplained.derivation hne
    refine hsizes.trans ?_
    by_cases hmiddle : middle = .finished
    · subst hmiddle
      rw [hmore.sizes_of_finished]
      exact Nat.zero_le _
    · exact hmore.sizes_le_of_unfinished (hbehind hmiddle) htaken
  · have hfailed := run_violated hsound hviolated
    rw [run_append, hfailed, run_failed] at hne
    exact absurd rfl hne

end Scanner

end DeflateEcho.Deflate
