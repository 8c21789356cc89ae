/-!
# Text/Blank — white space around a text

The characters that Unicode gives the property `White_Space`, and trimming a text of them on both
sides.
-/

namespace DeflateEcho.Text

/-- The ranges of code points with the property `White_Space`, both ends included. -/
def blankRanges : List (Nat × Nat) :=
  [(0x0009, 0x000d), (0x0020, 0x0020), (0x0085, 0x0085), (0x00a0, 0x00a0), (0x1680, 0x1680),
    (0x2000, 0x200a), (0x2028, 0x2029), (0x202f, 0x202f), (0x205f, 0x205f), (0x3000, 0x3000)]

/-- Whether a character is white space. -/
def isBlank (c : Char) : Bool := blankRanges.any fun range => range.1 ≤ c.toNat && c.toNat ≤ range.2

/-- A text without the white space at its end. -/
def trimEnd (text : List Char) : List Char := (text.reverse.dropWhile isBlank).reverse

/-- A text without the white space on both sides. -/
def trim (text : List Char) : List Char := trimEnd (text.dropWhile isBlank)

/-! ## What trimming leaves -/

/-- **A text without the white space around it**: it neither starts nor ends with white space, and
what was taken off on both sides is nothing else. -/
structure Trimmed (text trimmed : List Char) : Prop where
  within : ∃ before after, text = before ++ trimmed ++ after
    ∧ (∀ c ∈ before, isBlank c) ∧ ∀ c ∈ after, isBlank c
  starts : ∀ c ∈ trimmed.head?, ¬ isBlank c
  ends : ∀ c ∈ trimmed.getLast?, ¬ isBlank c

theorem exists_eq_append_dropWhile (text : List Char) :
    ∃ before, text = before ++ text.dropWhile isBlank ∧ ∀ c ∈ before, isBlank c :=
  ⟨text.takeWhile isBlank, List.takeWhile_append_dropWhile.symm,
    List.all_eq_true.mp List.all_takeWhile⟩

theorem not_isBlank_of_mem_head?_dropWhile {text : List Char} {c : Char}
    (h : c ∈ (text.dropWhile isBlank).head?) : ¬ isBlank c := by
  have hhead := List.head?_dropWhile_not isBlank text
  rw [h] at hhead
  simpa using hhead

theorem dropWhile_append {before text : List Char} (hbefore : ∀ c ∈ before, isBlank c)
    (hstarts : ∀ c ∈ text.head?, ¬ isBlank c) :
    (before ++ text).dropWhile isBlank = text := by
  rw [List.dropWhile_append_of_pos hbefore]
  cases text with
  | nil => rfl
  | cons c text => exact List.dropWhile_cons_of_neg (hstarts c rfl)

theorem trimmed_trim (text : List Char) : Trimmed text (trim text) := by
  obtain ⟨before, hbefore, hblank⟩ := exists_eq_append_dropWhile text
  obtain ⟨after, hafter, hblank'⟩ := exists_eq_append_dropWhile (text.dropWhile isBlank).reverse
  have hrest : text.dropWhile isBlank = trim text ++ after.reverse := by
    rw [trim, trimEnd, ← List.reverse_append, ← hafter, List.reverse_reverse]
  refine ⟨⟨before, after.reverse, ?_, hblank, by simpa using hblank'⟩, ?_, ?_⟩
  · rw [List.append_assoc, ← hrest]
    exact hbefore
  · intro c hc
    have hhead : c ∈ (text.dropWhile isBlank).head? := by
      rw [hrest, List.head?_append, hc]
      rfl
    exact not_isBlank_of_mem_head?_dropWhile hhead
  · intro c hc
    rw [trim, trimEnd, List.getLast?_reverse] at hc
    exact not_isBlank_of_mem_head?_dropWhile hc

/-- **Trimming leaves the one text that is left without the white space around it.** -/
theorem trimmed_iff {text trimmed : List Char} : Trimmed text trimmed ↔ trimmed = trim text := by
  refine ⟨fun h => ?_, fun h => h ▸ trimmed_trim text⟩
  obtain ⟨before, after, rfl, hbefore, hafter⟩ := h.within
  rw [List.append_assoc, trim, trimEnd]
  cases trimmed with
  | nil =>
    have hblank : ∀ c ∈ before ++ after, isBlank c := List.forall_mem_append.mpr ⟨hbefore, hafter⟩
    rw [List.nil_append, ← List.append_nil (before ++ after), dropWhile_append hblank (by simp)]
    rfl
  | cons c trimmed =>
    have hfront : (before ++ (c :: trimmed ++ after)).dropWhile isBlank = c :: trimmed ++ after :=
      dropWhile_append hbefore h.starts
    have hback : (after.reverse ++ (c :: trimmed).reverse).dropWhile isBlank
        = (c :: trimmed).reverse :=
      dropWhile_append (by simpa using hafter) (by rw [List.head?_reverse]; exact h.ends)
    rw [hfront, List.reverse_append, hback, List.reverse_reverse]

end DeflateEcho.Text
