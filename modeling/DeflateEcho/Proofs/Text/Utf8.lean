import Mathlib
import DeflateEcho.Text.Utf8

/-!
# Proofs/Text/Utf8 — a byte string falls into characters and maximal ill-formed parts

`Decomposition` says, by the bytes of characters alone, what the pieces of a byte string are:
`decomposition_iff` that there is one way to take it apart, which is the one that `pieces` finds
with one look at each byte.

What is known between two bytes is `Inside`: the characters that the bytes seen may still become are
those whose numbers lie in a range, and their bytes are known but for the ones to come.  Each byte
narrows the range down, or it rules all of them out.
-/

namespace DeflateEcho.Text.Utf8

open String (utf8EncodeChar)

/-! ## What the pieces are -/

/-- These bytes begin the bytes of a character, or are all of them. -/
def Begins (bytes : Bytes) : Prop := ∃ c, bytes <+: utf8EncodeChar c

/-- A single byte, or what begins a character. -/
def Fragment (bytes : Bytes) : Prop := bytes.length = 1 ∨ Begins bytes

/-- **A maximal ill-formed part** stands in front of this rest: no character stands there, and the
part is the longest fragment that does. -/
structure MaximalPart (part rest : Bytes) : Prop where
  nonempty : part ≠ []
  unreadable : ∀ c, ¬ utf8EncodeChar c <+: part ++ rest
  fragment : Fragment part
  longest : ∀ other, other <+: part ++ rest → Fragment other → other.length ≤ part.length

/-- **Bytes taken apart**, from left to right, into characters and maximal ill-formed parts. -/
inductive Decomposition : Bytes → List Piece → Prop where
  | nil : Decomposition [] []
  | char (c : Char) {rest : Bytes} {ps : List Piece} (h : Decomposition rest ps) :
    Decomposition (utf8EncodeChar c ++ rest) (.char c (utf8EncodeChar c) :: ps)
  | illFormed {part rest : Bytes} {ps : List Piece} (hpart : MaximalPart part rest)
    (h : Decomposition rest ps) : Decomposition (part ++ rest) (.illFormed part :: ps)

/-! ## The bytes of a character -/

/-- The number that the first byte of a character's bytes is. -/
def lead (n : Nat) : Nat :=
  if n ≤ 0x7f then n
  else if n ≤ 0x7ff then n / 0x40 + 0xc0
  else if n ≤ 0xffff then n / 0x1000 + 0xe0
  else n / 0x40000 + 0xf0

/-- How many bytes come behind the first one. -/
def width (n : Nat) : Nat :=
  if n ≤ 0x7f then 0 else if n ≤ 0x7ff then 1 else if n ≤ 0xffff then 2 else 3

/-- The sizes of characters: where each begins, and what its first byte is. -/
theorem size_cases (n : Nat) :
    n ≤ 0x7f ∧ lead n = n ∧ width n = 0
      ∨ 0x7f < n ∧ n ≤ 0x7ff ∧ lead n = n / 0x40 + 0xc0 ∧ width n = 1
      ∨ 0x7ff < n ∧ n ≤ 0xffff ∧ lead n = n / 0x1000 + 0xe0 ∧ width n = 2
      ∨ 0xffff < n ∧ lead n = n / 0x40000 + 0xf0 ∧ width n = 3 := by
  unfold lead width
  split
  · omega
  split
  · omega
  split <;> omega

/-- The last bytes of a character's bytes, so many of them: six bits of the number in each. -/
def continuation : (owed : Nat) → (n : Nat) → Bytes
  | 0, _ => []
  | owed + 1, n => UInt8.ofNat (n / 0x40 ^ owed % 0x40 + 0x80) :: continuation owed n

theorem isValidChar_toNat (c : Char) : c.toNat.isValidChar := c.valid

theorem toNat_le (c : Char) : c.toNat ≤ 0x10ffff := by
  have := isValidChar_toNat c
  simp only [Nat.isValidChar] at this
  omega

/-- **The bytes of a character**: the first one, and six bits in each of the others. -/
theorem utf8EncodeChar_eq (c : Char) :
    utf8EncodeChar c = UInt8.ofNat (lead c.toNat) :: continuation (width c.toNat) c.toNat := by
  have hle := toNat_le c
  have htoNat : c.val.toNat = c.toNat := rfl
  unfold utf8EncodeChar lead width
  rw [htoNat]
  dsimp only
  split
  · rfl
  split <;> [skip; split]
  -- The first byte is written as a remainder there, and the number has no more bits than that.
  all_goals
    simp only [continuation, UInt8.ofNat_add, UInt8.reduceOfNat, Nat.reducePow, pow_one, pow_zero,
      Nat.div_one, List.cons.injEq, add_left_inj, and_true]
    congr 1
    omega

theorem lead_lt (c : Char) : lead c.toNat < 0x100 := by
  have hle := toNat_le c
  have hsize := size_cases c.toNat
  omega

/-- What the bytes of a character start with, as a number. -/
theorem toNat_of_utf8EncodeChar_eq_cons {c : Char} {b : UInt8} {bytes : Bytes}
    (h : utf8EncodeChar c = b :: bytes) : b.toNat = lead c.toNat := by
  rw [utf8EncodeChar_eq] at h
  rw [← (List.cons.inj h).1, UInt8.toNat_ofNat', Nat.mod_eq_of_lt (lead_lt c)]

/-- The bytes of a character are found again at the front of any bytes. -/
theorem utf8DecodeChar?_of_front {c : Char} {bytes : Bytes} (h : utf8EncodeChar c <+: bytes) :
    bytes.toByteArray.utf8DecodeChar? 0 = some c := by
  obtain ⟨rest, rfl⟩ := h
  rw [List.toByteArray_append]
  exact ByteArray.utf8DecodeChar?_utf8EncodeChar_append

/-- At most one character stands at the front of some bytes. -/
theorem eq_of_front {c d : Char} {bytes : Bytes} (hc : utf8EncodeChar c <+: bytes)
    (hd : utf8EncodeChar d <+: bytes) : c = d :=
  Option.some.inj ((utf8DecodeChar?_of_front hc).symm.trans (utf8DecodeChar?_of_front hd))

/-! ## Inside a character -/

/-- The numbers of the characters that may still come of what has been seen: their upper bits are
known, and the next six lie in a range, with the mark of a later byte on them. -/
structure Allows (value later : Nat) (low high : UInt8) (n : Nat) : Prop where
  upper : n / 0x40 ^ (later + 1) = value
  low_le : low.toNat ≤ n / 0x40 ^ later % 0x40 + 0x80
  le_high : n / 0x40 ^ later % 0x40 + 0x80 ≤ high.toNat

/-- **Inside a character**: one more byte is to come, and so many `later` ones.  The characters that
begin with what has been seen are those that are allowed, and all of those are characters. -/
structure Inside (seen : Bytes) (value later : Nat) (low high : UInt8) : Prop where
  nonempty : seen ≠ []
  mark_le : 0x80 ≤ low.toNat
  low_le_high : low.toNat ≤ high.toNat
  high_le : high.toNat ≤ 0xbf
  valid : ∀ n, Allows value later low high n → n.isValidChar
  spells : ∀ c : Char, Allows value later low high c.toNat →
    utf8EncodeChar c = seen.reverse ++ continuation (later + 1) c.toNat
  only : ∀ c : Char, seen.reverse <+: utf8EncodeChar c → Allows value later low high c.toNat

theorem toNat_ofNat_of_isValidChar {n : Nat} (h : n.isValidChar) : (Char.ofNat n).toNat = n := by
  rw [Char.ofNat, dif_pos h]
  rfl

theorem length_continuation (owed n : Nat) : (continuation owed n).length = owed := by
  induction owed with
  | zero => rfl
  | succ owed ih => rw [continuation, List.length_cons, ih]

/-- Six bits with the mark of a later byte on them are a byte. -/
theorem toNat_marked (n : Nat) : (UInt8.ofNat (n % 0x40 + 0x80)).toNat = n % 0x40 + 0x80 := by
  rw [UInt8.toNat_ofNat', Nat.mod_eq_of_lt (by omega)]

section Inside

variable {seen : Bytes} {value later : Nat} {low high : UInt8}

theorem Inside.seen_begins (h : Inside seen value later low high) {n : Nat}
    (hallows : Allows value later low high n) :
    seen.reverse <+: utf8EncodeChar (Char.ofNat n) := by
  have hnumber := toNat_ofNat_of_isValidChar (h.valid n hallows)
  rw [h.spells (Char.ofNat n) (hnumber.symm ▸ hallows)]
  exact List.prefix_append _ _

/-- Some character begins so. -/
theorem Inside.exists_allows (h : Inside seen value later low high) :
    ∃ n, Allows value later low high n := by
  have hmark := h.mark_le
  have hrange := h.low_le_high
  have hhigh := h.high_le
  refine ⟨(value * 0x40 + (low.toNat - 0x80)) * 0x40 ^ later, ?_, ?_, ?_⟩
  · rw [Nat.pow_succ, ← Nat.div_div_eq_div_mul, Nat.mul_div_cancel _ (Nat.pow_pos (by decide))]
    omega
  all_goals
    rw [Nat.mul_div_cancel _ (Nat.pow_pos (by decide))]
    omega

/-- The byte that comes next in a character is in the range, and says the next six bits. -/
theorem Inside.next_byte (h : Inside seen value later low high) {c : Char} {b : UInt8}
    (hfront : seen.reverse ++ [b] <+: utf8EncodeChar c) :
    Allows value later low high c.toNat
      ∧ b.toNat = c.toNat / 0x40 ^ later % 0x40 + 0x80 := by
  have hallows := h.only c ((List.prefix_append _ _).trans hfront)
  rw [h.spells c hallows, List.prefix_append_right_inj, continuation,
    List.cons_prefix_cons] at hfront
  exact ⟨hallows, by rw [hfront.1, toNat_marked]⟩

theorem Inside.mem_range (h : Inside seen value later low high) {c : Char} {b : UInt8}
    (hfront : seen.reverse ++ [b] <+: utf8EncodeChar c) : low ≤ b ∧ b ≤ high := by
  obtain ⟨hallows, hbyte⟩ := h.next_byte hfront
  rw [UInt8.le_iff_toNat_le, UInt8.le_iff_toNat_le, hbyte]
  exact ⟨hallows.low_le, hallows.le_high⟩

/-- A number whose next bits are those of a byte in the range is allowed. -/
theorem Inside.allows_of_byte (h : Inside seen value later low high) {b : UInt8} (hlow : low ≤ b)
    (hhigh : b ≤ high) {n : Nat} (hn : n / 0x40 ^ later = value * 0x40 + b.toNat % 0x40) :
    Allows value later low high n ∧ b = UInt8.ofNat (n / 0x40 ^ later % 0x40 + 0x80) := by
  have hmark := h.mark_le
  have hmost := h.high_le
  rw [UInt8.le_iff_toNat_le] at hlow hhigh
  have hbits : n / 0x40 ^ later % 0x40 + 0x80 = b.toNat := by omega
  refine ⟨⟨?_, by omega, by omega⟩, ?_⟩
  · rw [Nat.pow_succ, ← Nat.div_div_eq_div_mul, hn]
    omega
  · rw [hbits, UInt8.ofNat_toNat]

/-- **A byte in the range narrows the characters down.** -/
theorem Inside.next (h : Inside seen value (later + 1) low high) {b : UInt8} (hlow : low ≤ b)
    (hhigh : b ≤ high) : Inside (b :: seen) (value * 0x40 + b.toNat % 0x40) later 0x80 0xbf where
  nonempty := List.cons_ne_nil b seen
  mark_le := by decide
  low_le_high := by decide
  high_le := by decide
  valid n hallows := h.valid n (h.allows_of_byte hlow hhigh hallows.upper).1
  spells c hallows := by
    obtain ⟨hbefore, hbyte⟩ := h.allows_of_byte hlow hhigh hallows.upper
    rw [h.spells c hbefore, continuation, ← hbyte, List.reverse_cons, List.append_assoc]
    rfl
  only c hfront := by
    rw [List.reverse_cons] at hfront
    obtain ⟨hallows, hbyte⟩ := h.next_byte hfront
    have hupper := hallows.upper
    rw [Nat.pow_succ, ← Nat.div_div_eq_div_mul] at hupper
    refine ⟨by omega, ?_, ?_⟩
    · exact Nat.le_add_left _ _
    · have : c.toNat / 0x40 ^ later % 0x40 < 0x40 := Nat.mod_lt _ (by decide)
      exact Nat.add_le_add_right (Nat.le_of_lt_succ this) 0x80

/-- **A byte in the range that is the last one completes a character.** -/
theorem Inside.complete (h : Inside seen value 0 low high) {b : UInt8} (hlow : low ≤ b)
    (hhigh : b ≤ high) :
    utf8EncodeChar (Char.ofNat (value * 0x40 + b.toNat % 0x40)) = (b :: seen).reverse := by
  obtain ⟨hallows, hbyte⟩ := h.allows_of_byte hlow hhigh (n := value * 0x40 + b.toNat % 0x40)
    (by rw [Nat.pow_zero, Nat.div_one])
  have hnumber := toNat_ofNat_of_isValidChar (h.valid _ hallows)
  rw [h.spells _ (hnumber.symm ▸ hallows), hnumber, continuation, ← hbyte, List.reverse_cons]
  rfl

/-- **What has been seen is a maximal ill-formed part** if no byte in the range follows. -/
theorem Inside.maximalPart (h : Inside seen value later low high) {rest : Bytes}
    (hrest : ∀ b more, rest = b :: more → ¬ (low ≤ b ∧ b ≤ high)) :
    MaximalPart seen.reverse rest := by
  obtain ⟨n, hallows⟩ := h.exists_allows
  have hbegins := h.seen_begins hallows
  -- Whatever begins a character and is longer has the next byte of that character in the range.
  have hlongest : ∀ other, other <+: seen.reverse ++ rest → Begins other →
      other.length ≤ seen.length := by
    rintro other hother ⟨c, hc⟩
    refine Nat.le_of_not_lt fun hlt => ?_
    obtain ⟨more, rfl⟩ := List.prefix_of_prefix_length_le (List.prefix_append _ _) hother
      (by rw [List.length_reverse]; exact Nat.le_of_lt hlt)
    rw [List.prefix_append_right_inj] at hother
    cases more with
    | nil => simp at hlt
    | cons b more =>
      obtain ⟨tail, rfl⟩ := hother
      refine hrest b (more ++ tail) rfl (h.mem_range (c := c) ?_)
      exact (List.prefix_append (seen.reverse ++ [b]) more).trans (by simpa using hc)
  refine ⟨by simpa using h.nonempty, fun c hc => ?_, .inr ⟨_, hbegins⟩, fun other hother hfrag => ?_⟩
  · have hshort := hlongest _ hc ⟨c, List.prefix_refl _⟩
    have hinside : utf8EncodeChar c <+: seen.reverse :=
      List.prefix_of_prefix_length_le hc (List.prefix_append _ _) (by simpa using hshort)
    obtain rfl := eq_of_front (hinside.trans hbegins) (List.prefix_refl _)
    have hnumber := toNat_ofNat_of_isValidChar (h.valid n hallows)
    rw [h.spells _ (hnumber.symm ▸ hallows), List.length_append, length_continuation,
      List.length_reverse] at hshort
    omega
  · rw [List.length_reverse]
    rcases hfrag with hone | hbegins'
    · rw [hone]
      exact List.length_pos_iff.mpr h.nonempty
    · exact hlongest other hother hbegins'

end Inside

/-! ## The first byte -/

/-- What is seen of a byte that is the first of several, if those numbers that it leaves are those
of the characters that it leads. -/
theorem inside_of_lead {b : UInt8} {value later : Nat} {low high : UInt8}
    (hmark : 0x80 ≤ low.toNat) (hrange : low.toNat ≤ high.toNat) (hhigh : high.toNat ≤ 0xbf)
    (hallows : ∀ n, Allows value later low high n →
      n.isValidChar ∧ lead n = b.toNat ∧ width n = later + 1)
    (honly : ∀ n, n.isValidChar → lead n = b.toNat → Allows value later low high n) :
    Inside [b] value later low high where
  nonempty := List.cons_ne_nil b []
  mark_le := hmark
  low_le_high := hrange
  high_le := hhigh
  valid n hn := (hallows n hn).1
  spells c hc := by
    obtain ⟨-, hlead, hwidth⟩ := hallows c.toNat hc
    rw [utf8EncodeChar_eq, hlead, hwidth, UInt8.ofNat_toNat]
    rfl
  only c hfront := by
    obtain ⟨bytes, hbytes⟩ := hfront
    exact honly c.toNat (isValidChar_toNat c) (toNat_of_utf8EncodeChar_eq_cons hbytes.symm).symm

/-- **What a byte is where a character starts**: all of one, none at all, or the first of several. -/
inductive Opening (b : UInt8) : State × List Piece → Prop where
  | char (c : Char) (hc : utf8EncodeChar c = [b]) : Opening b (.start, [.char c [b]])
  | illFormed (hb : ∀ c, ¬ [b] <+: utf8EncodeChar c) : Opening b (.start, [.illFormed [b]])
  | inside {value later : Nat} {low high : UInt8} (h : Inside [b] value later low high) :
    Opening b (.inside [b] value (later + 1) low high, [])

/-- A byte that is the first of no number of a character starts none. -/
theorem not_lead (b : UInt8) (hb : ∀ n, n.isValidChar → lead n ≠ b.toNat) (c : Char) :
    ¬ [b] <+: utf8EncodeChar c := by
  rintro ⟨bytes, hbytes⟩
  exact hb c.toNat (isValidChar_toNat c) (toNat_of_utf8EncodeChar_eq_cons hbytes.symm).symm

/-- A bound that is another one for a single byte, as a number. -/
theorem toNat_bound_cases (b k special usual : UInt8) :
    b.toNat = k.toNat ∧ (if b = k then special else usual).toNat = special.toNat
      ∨ b.toNat ≠ k.toNat ∧ (if b = k then special else usual).toNat = usual.toNat := by
  by_cases h : b = k
  · exact .inl ⟨congrArg _ h, by rw [if_pos h]⟩
  · exact .inr ⟨fun h' => h (UInt8.toNat_inj.mp h'), by rw [if_neg h]⟩

theorem utf8EncodeChar_of_ascii {b : UInt8} (hascii : b.toNat ≤ 0x7f) :
    utf8EncodeChar (Char.ofNat b.toNat) = [b] := by
  have hnumber := toNat_ofNat_of_isValidChar (n := b.toNat) (.inl (by omega))
  rw [utf8EncodeChar_eq, hnumber, lead, width, if_pos hascii, if_pos hascii, UInt8.ofNat_toNat]
  rfl

theorem inside_two {b : UInt8} (hfirst : 0xc2 ≤ b.toNat) (hlast : b.toNat ≤ 0xdf) :
    Inside [b] (b.toNat % 0x20) 0 0x80 0xbf := by
  refine inside_of_lead (by decide) (by decide) (by decide) ?_ fun n hn hlead => ?_
  · rintro n ⟨hupper, hlow, hhigh⟩
    have hsize := size_cases n
    simp only [Nat.isValidChar]
    omega
  · have hsize := size_cases n
    constructor <;> simp only [Nat.zero_add, Nat.reducePow, UInt8.reduceToNat] <;> omega

/-- Below the range of the second byte a character is spelled longer than it has to be, above it stand
the surrogates. -/
theorem inside_three {b : UInt8} (hfirst : 0xe0 ≤ b.toNat) (hlast : b.toNat ≤ 0xef) :
    Inside [b] (b.toNat % 0x10) 1 (if b = 0xe0 then 0xa0 else 0x80)
      (if b = 0xed then 0x9f else 0xbf) := by
  have hlow := toNat_bound_cases b 0xe0 0xa0 0x80
  have hhigh := toNat_bound_cases b 0xed 0x9f 0xbf
  generalize (if b = 0xe0 then 0xa0 else 0x80) = low at *
  generalize (if b = 0xed then 0x9f else 0xbf) = high at *
  simp only [UInt8.reduceToNat] at hlow hhigh
  refine inside_of_lead (by omega) (by omega) (by omega) ?_ fun n hn hlead => ?_
  · rintro n ⟨hupper, hle, hge⟩
    have hsize := size_cases n
    simp only [Nat.isValidChar, Nat.reduceAdd, Nat.reducePow] at *
    omega
  · have hsize := size_cases n
    simp only [Nat.isValidChar] at hn
    constructor <;> simp only [Nat.reduceAdd, Nat.reducePow] <;> omega

/-- Below the range of the second byte a character is spelled longer than it has to be, above it stand
numbers that are too large. -/
theorem inside_four {b : UInt8} (hfirst : 0xf0 ≤ b.toNat) (hlast : b.toNat ≤ 0xf4) :
    Inside [b] (b.toNat % 0x08) 2 (if b = 0xf0 then 0x90 else 0x80)
      (if b = 0xf4 then 0x8f else 0xbf) := by
  have hlow := toNat_bound_cases b 0xf0 0x90 0x80
  have hhigh := toNat_bound_cases b 0xf4 0x8f 0xbf
  generalize (if b = 0xf0 then 0x90 else 0x80) = low at *
  generalize (if b = 0xf4 then 0x8f else 0xbf) = high at *
  simp only [UInt8.reduceToNat] at hlow hhigh
  refine inside_of_lead (by omega) (by omega) (by omega) ?_ fun n hn hlead => ?_
  · rintro n ⟨hupper, hle, hge⟩
    have hsize := size_cases n
    simp only [Nat.isValidChar, Nat.reduceAdd, Nat.reducePow] at *
    omega
  · have hsize := size_cases n
    simp only [Nat.isValidChar] at hn
    constructor <;> simp only [Nat.reduceAdd, Nat.reducePow] <;> omega

/-- **The first byte** tells how many are to come, and where the next one lies. -/
theorem opening (b : UInt8) : Opening b (first b) := by
  have hlt := b.toNat_lt
  unfold first
  simp only [UInt8.le_iff_toNat_le, UInt8.lt_iff_toNat_lt, UInt8.reduceToNat]
  split
  · next hascii => exact .char _ (utf8EncodeChar_of_ascii hascii)
  split
  · refine .illFormed (not_lead b fun n hn => ?_)
    have hsize := size_cases n
    omega
  split
  · next htwo => exact .inside (inside_two (by omega) htwo)
  split
  · next hthree => exact .inside (inside_three (by omega) hthree)
  split
  · next hfour => exact .inside (inside_four (by omega) hfour)
  · refine .illFormed (not_lead b fun n hn => ?_)
    have hsize := size_cases n
    simp only [Nat.isValidChar] at hn
    omega

/-! ## Byte after byte -/

theorem utf8EncodeChar_ne_nil (c : Char) : utf8EncodeChar c ≠ [] := by
  rw [utf8EncodeChar_eq]
  exact List.cons_ne_nil _ _

/-- A byte that starts no character is a maximal ill-formed part, whatever follows. -/
theorem maximalPart_singleton {b : UInt8} (hb : ∀ c, ¬ [b] <+: utf8EncodeChar c) (rest : Bytes) :
    MaximalPart [b] rest := by
  -- What stands at the front here and begins a character is empty.
  have hempty : ∀ c other, other <+: utf8EncodeChar c → other <+: [b] ++ rest → other = [] := by
    rintro c (_ | ⟨d, other⟩) hc hother
    · rfl
    · obtain ⟨rfl, -⟩ := List.cons_prefix_cons.mp hother
      exact absurd ((List.prefix_append [d] other).trans hc) (hb c)
  refine ⟨List.cons_ne_nil b [], fun c hc => ?_, .inl rfl, fun other hother hfrag => ?_⟩
  · exact utf8EncodeChar_ne_nil c (hempty c _ (List.prefix_refl _) hc)
  · rcases hfrag with hone | ⟨c, hc⟩
    · exact Nat.le_of_eq hone
    · rw [hempty c other hc hother]
      exact Nat.zero_le 1

/-- What has been seen of a character. -/
def State.seen : State → Bytes
  | .start => []
  | .inside seen _ _ _ _ => seen.reverse

/-- What a state says is so. -/
inductive Sound : State → Prop where
  | start : Sound .start
  | inside {seen : Bytes} {value later : Nat} {low high : UInt8}
    (h : Inside seen value later low high) : Sound (.inside seen value (later + 1) low high)

/-- **What a byte does**: however the bytes from the new state on are taken apart, with the pieces
completed in front of them this is how the bytes before are. -/
structure Advances (before : Bytes) (step : State × List Piece) : Prop where
  sound : Sound step.1
  decomposes : ∀ {rest : Bytes} {ps : List Piece}, Decomposition (step.1.seen ++ rest) ps →
    Decomposition (before ++ rest) (step.2 ++ ps)

theorem Opening.advances {b : UInt8} {step : State × List Piece} (h : Opening b step) :
    Advances [b] step := by
  cases h with
  | char c hc => exact ⟨.start, fun hrest => hc ▸ .char c hrest⟩
  | illFormed hb => exact ⟨.start, fun hrest => .illFormed (maximalPart_singleton hb _) hrest⟩
  | inside hinside => exact ⟨.inside hinside, fun hrest => hrest⟩

section Next

variable {seen : Bytes} {value owed : Nat} {low high b : UInt8}

theorem next_of_last (hrange : low ≤ b ∧ b ≤ high) :
    next (.inside seen value 1 low high) b
      = (.start, [.char (Char.ofNat (value * 0x40 + b.toNat % 0x40)) (b :: seen).reverse]) := by
  rw [next, if_pos hrange, if_pos (Nat.le_refl 1)]

theorem next_of_more (hrange : low ≤ b ∧ b ≤ high) :
    next (.inside seen value (owed + 2) low high) b
      = (.inside (b :: seen) (value * 0x40 + b.toNat % 0x40) (owed + 1) 0x80 0xbf, []) := by
  rw [next, if_pos hrange, if_neg (by omega)]
  rfl

theorem next_of_outside (hrange : ¬ (low ≤ b ∧ b ≤ high)) :
    next (.inside seen value owed low high) b
      = ((first b).1, .illFormed seen.reverse :: (first b).2) := by
  rw [next, if_neg hrange]

end Next

/-- **One byte**: it completes a character, goes on with one, or shows that there is none and is
then looked at as the first of the next piece. -/
theorem Sound.advances {state : State} (h : Sound state) (b : UInt8) :
    Advances (state.seen ++ [b]) (next state b) := by
  have hopening := (opening b).advances
  cases h with
  | start => exact hopening
  | @inside seen value later low high h =>
    by_cases hrange : low ≤ b ∧ b ≤ high
    · cases later with
      | zero =>
        have hbytes := h.complete hrange.1 hrange.2
        rw [next_of_last hrange, State.seen, ← List.reverse_cons, ← hbytes]
        exact ⟨.start, fun hrest => .char _ hrest⟩
      | succ later =>
        rw [next_of_more hrange, State.seen, ← List.reverse_cons]
        exact ⟨.inside (h.next hrange.1 hrange.2), fun hrest => hrest⟩
    · rw [next_of_outside hrange, State.seen]
      refine ⟨hopening.sound, fun hrest => ?_⟩
      rw [List.append_assoc]
      refine .illFormed (h.maximalPart fun d more hd => ?_) (hopening.decomposes hrest)
      rwa [← (List.cons.inj hd).1]

theorem piecesFrom_cons (found : List Piece) (state : State) (b : UInt8) (bytes : Bytes) :
    piecesFrom found state (b :: bytes)
      = piecesFrom ((next state b).2.reverse ++ found) (next state b).1 bytes := rfl

/-- Pieces that were found earlier come first. -/
theorem piecesFrom_eq (found : List Piece) (state : State) (bytes : Bytes) :
    piecesFrom found state bytes = found.reverse ++ piecesFrom [] state bytes := by
  induction bytes generalizing found state with
  | nil => simp [piecesFrom]
  | cons b bytes ih =>
    rw [piecesFrom_cons, ih, piecesFrom_cons, ih ((next state b).2.reverse ++ [])]
    simp

/-- **All bytes**: from a state that is as it says, they are taken apart into what is found. -/
theorem Sound.decomposition {state : State} (h : Sound state) (bytes : Bytes) :
    Decomposition (state.seen ++ bytes) (piecesFrom [] state bytes) := by
  induction bytes generalizing state with
  | nil =>
    cases h with
    | start => exact .nil
    | inside h => exact .illFormed (h.maximalPart fun b more hnil => nomatch hnil) .nil
  | cons b bytes ih =>
    have hstep := h.advances b
    rw [piecesFrom_cons, List.append_nil, piecesFrom_eq, List.reverse_reverse, List.append_cons]
    exact hstep.decomposes (ih hstep.sound)

/-- What is found are pieces that the bytes fall into. -/
theorem decomposition_pieces (bytes : Bytes) : Decomposition bytes (pieces bytes) :=
  Sound.start.decomposition bytes

/-! ## There is one way -/

theorem MaximalPart.eq {part rest part' rest' : Bytes} (h : MaximalPart part rest)
    (h' : MaximalPart part' rest') (hbytes : part ++ rest = part' ++ rest') :
    part = part' ∧ rest = rest' := by
  refine List.append_inj hbytes (Nat.le_antisymm ?_ ?_)
  · exact h'.longest part (hbytes ▸ List.prefix_append _ _) h.fragment
  · exact h.longest part' (hbytes ▸ List.prefix_append _ _) h'.fragment

/-- **At most one way to take bytes apart**: what stands at the front is told by the bytes. -/
theorem Decomposition.unique {bytes : Bytes} {ps qs : List Piece} (hp : Decomposition bytes ps)
    (hq : Decomposition bytes qs) : ps = qs := by
  induction hp generalizing qs with
  | nil =>
    generalize hbytes : ([] : Bytes) = bytes at hq
    cases hq with
    | nil => rfl
    | char c => exact absurd (List.append_eq_nil_iff.mp hbytes.symm).1 (utf8EncodeChar_ne_nil c)
    | illFormed hpart => exact absurd (List.append_eq_nil_iff.mp hbytes.symm).1 hpart.nonempty
  | @char c rest ps hrest ih =>
    have hfront := List.prefix_append (utf8EncodeChar c) rest
    generalize hbytes : utf8EncodeChar c ++ rest = bytes at hq hfront
    cases hq with
    | nil => exact absurd (List.append_eq_nil_iff.mp hbytes).1 (utf8EncodeChar_ne_nil c)
    | char d hrest' =>
      obtain rfl := eq_of_front hfront (List.prefix_append _ _)
      rw [ih (List.append_cancel_left hbytes ▸ hrest')]
    | illFormed hpart => exact absurd hfront (hpart.unreadable c)
  | @illFormed part rest ps hpart hrest ih =>
    generalize hbytes : part ++ rest = bytes at hq
    cases hq with
    | nil => exact absurd (List.append_eq_nil_iff.mp hbytes).1 hpart.nonempty
    | char d => exact absurd (hbytes ▸ List.prefix_append _ _) (hpart.unreadable d)
    | illFormed hpart' hrest' =>
      obtain ⟨rfl, rfl⟩ := hpart.eq hpart' hbytes
      rw [ih hrest']

/-- **The pieces of a byte string are the one way to take it apart.** -/
theorem decomposition_iff (bytes : Bytes) (ps : List Piece) :
    Decomposition bytes ps ↔ ps = pieces bytes :=
  ⟨fun h => h.unique (decomposition_pieces bytes), fun h => h ▸ decomposition_pieces bytes⟩

/-- Four parts that are cut short, each by the start of the next one, and a character. -/
example : lossy [0xe1, 0x80, 0xe2, 0xf0, 0x91, 0x92, 0xf1, 0xbf, 0x41]
    = [replacement, replacement, replacement, replacement, 'A'] := by decide

/-! ## Text in front -/

/-- Where a text is spelled in front, the characters of it are the first pieces. -/
theorem pieces_encode_append (text : List Char) (bytes : Bytes) :
    pieces (encode text ++ bytes)
      = text.map (fun c => .char c (utf8EncodeChar c)) ++ pieces bytes := by
  symm
  rw [← decomposition_iff]
  induction text with
  | nil => exact decomposition_pieces bytes
  | cons c text ih =>
    rw [encode, List.flatMap_cons, List.append_assoc]
    exact .char c ih

theorem lossy_encode_append (text : List Char) (bytes : Bytes) :
    lossy (encode text ++ bytes) = text ++ lossy bytes := by
  rw [lossy, pieces_encode_append, List.map_append, List.map_map]
  exact congrArg (· ++ lossy bytes) (List.map_id text)

theorem lossy_nil : lossy [] = [] := rfl

theorem lossy_encode (text : List Char) : lossy (encode text) = text := by
  have h := lossy_encode_append text []
  rwa [lossy_nil, List.append_nil, List.append_nil] at h

/-- Bytes that fall into characters alone are spelled by those. -/
theorem Decomposition.encode_eq {bytes : Bytes} {ps : List Piece} (h : Decomposition bytes ps)
    (hps : ∀ piece ∈ ps, piece.char?.isSome) : encode (ps.filterMap Piece.char?) = bytes := by
  induction h with
  | nil => rfl
  | char c hrest ih =>
    have hrest := ih fun piece hpiece => hps piece (List.mem_cons_of_mem _ hpiece)
    rw [← hrest]
    rfl
  | illFormed hpart hrest ih => exact absurd (hps _ List.mem_cons_self) (by simp [Piece.char?])

/-- **Bytes are read strictly as the text that spells them**, and not at all if none does. -/
theorem decode?_eq_some_iff {bytes : Bytes} {text : List Char} :
    decode? bytes = some text ↔ bytes = encode text := by
  constructor
  · intro h
    obtain ⟨hall, htext⟩ := Option.ite_none_right_eq_some.mp h
    have hbytes := (decomposition_pieces bytes).encode_eq (by simpa using hall)
    rw [← Option.some.inj htext]
    exact hbytes.symm
  · rintro rfl
    have hpieces := pieces_encode_append text []
    rw [List.append_nil, show pieces [] = [] from rfl, List.append_nil] at hpieces
    rw [decode?, hpieces]
    simp [Piece.char?, Function.comp_def]

/-- The pieces cover all of the bytes, and nothing else. -/
theorem Decomposition.flatMap_bytes {bytes : Bytes} {ps : List Piece} (h : Decomposition bytes ps) :
    ps.flatMap Piece.bytes = bytes := by
  induction h with
  | nil => rfl
  | char c hrest ih => rw [List.flatMap_cons, ih]; rfl
  | illFormed hpart hrest ih => rw [List.flatMap_cons, ih]; rfl

theorem lossy_ne_nil {bytes : Bytes} (h : bytes ≠ []) : lossy bytes ≠ [] := by
  have hbytes := (decomposition_pieces bytes).flatMap_bytes
  rintro hnone
  rw [lossy, List.map_eq_nil_iff] at hnone
  exact h (hbytes.symm.trans (congrArg (List.flatMap Piece.bytes) hnone))

end DeflateEcho.Text.Utf8
