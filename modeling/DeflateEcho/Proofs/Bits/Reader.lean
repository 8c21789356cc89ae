import Mathlib
import DeflateEcho.Bits.Reader

/-!
# Proofs/Bits/Reader — what the outcome of a reader says about its bits

`Bits/Reader` says what a reader makes of the bits that were written for it.  This is the way back: a
value comes from the bits that spell it, and an error from one of the parts of a reader.  Numbers and
raw bits never fail.
-/

namespace DeflateEcho.Bits.Reader

variable {α β : Type}

/-! ## One thing after the other -/

theorem feed_bind_eq_value {r : Reader α} {f : α → Reader β} {bits rest : List Bool} {b : β} :
    (r.bind f).feed bits = .value b rest
      ↔ ∃ a left, r.feed bits = .value a left ∧ (f a).feed left = .value b rest := by
  rw [feed_bind]
  constructor
  · cases hr : r.feed bits with
    | value a left => exact fun h => ⟨a, left, rfl, h⟩
    | error left => simp
    | reading pending => simp
  · rintro ⟨a, left, hr, h⟩
    rw [hr]
    exact h

theorem feed_bind_eq_error {r : Reader α} {f : α → Reader β} {bits rest : List Bool} :
    (r.bind f).feed bits = .error rest
      ↔ r.feed bits = .error rest
        ∨ ∃ a left, r.feed bits = .value a left ∧ (f a).feed left = .error rest := by
  rw [feed_bind]
  constructor
  · cases hr : r.feed bits with
    | value a left => exact fun h => .inr ⟨a, left, rfl, h⟩
    | error left => simp
    | reading pending => simp
  · rintro (hr | ⟨a, left, hr, h⟩)
    · rw [hr]
    · rw [hr]
      exact h

theorem feed_map_eq_value {r : Reader α} {f : α → β} {bits rest : List Bool} {b : β} :
    (r.map f).feed bits = .value b rest ↔ ∃ a, r.feed bits = .value a rest ∧ f a = b := by
  rw [map, feed_bind_eq_value]
  constructor
  · rintro ⟨a, left, hr, h⟩
    obtain ⟨rfl, rfl⟩ : f a = b ∧ left = rest := by simpa using h
    exact ⟨a, hr, rfl⟩
  · rintro ⟨a, hr, rfl⟩
    exact ⟨a, rest, hr, feed_done _ _⟩

theorem feed_map_eq_error {r : Reader α} {f : α → β} {bits rest : List Bool} :
    (r.map f).feed bits = .error rest ↔ r.feed bits = .error rest := by
  rw [feed_map]
  cases r.feed bits <;> simp

/-! ## Numbers -/

/-- **A number was read from the bits that spell it.** -/
theorem feed_number_eq_value {width n : Nat} {bits rest : List Bool}
    (h : (number width).feed bits = .value n rest) :
    n < 2 ^ width ∧ bits = Bits.ofNat width n ++ rest := by
  induction width generalizing bits n with
  | zero =>
    rw [number, feed_done] at h
    obtain ⟨rfl, rfl⟩ : 0 = n ∧ bits = rest := by simpa using h
    exact ⟨by simp, rfl⟩
  | succ width ih =>
    cases bits with
    | nil => simp [number, feed] at h
    | cons bit bits =>
      rw [number, feed_more_cons, feed_map_eq_value] at h
      obtain ⟨m, hm, rfl⟩ := h
      obtain ⟨hlt, rfl⟩ := ih hm
      have hbit : bit.toNat < 2 := by cases bit <;> decide
      have hmod : (bit.toNat + 2 * m) % 2 = bit.toNat := by omega
      have hdiv : (bit.toNat + 2 * m) / 2 = m := by omega
      refine ⟨by rw [Nat.pow_succ]; omega, ?_⟩
      rw [Bits.ofNat, hmod, hdiv]
      cases bit <;> rfl

theorem feed_number_ne_error (width : Nat) (bits rest : List Bool) :
    (number width).feed bits ≠ .error rest := by
  induction width generalizing bits with
  | zero => simp [number]
  | succ width ih =>
    cases bits with
    | nil => simp [number, feed]
    | cons bit bits =>
      rw [number, feed_more_cons, Ne, feed_map_eq_error]
      exact ih bits

/-- What is made of a number was read from the bits that spell the number. -/
theorem feed_map_number_eq_value {f : Nat → β} {width : Nat} {bits rest : List Bool} {b : β}
    (h : ((number width).map f).feed bits = .value b rest) :
    ∃ n < 2 ^ width, f n = b ∧ bits = Bits.ofNat width n ++ rest := by
  obtain ⟨n, hn, hb⟩ := feed_map_eq_value.mp h
  obtain ⟨hlt, hbits⟩ := feed_number_eq_value hn
  exact ⟨n, hlt, hb, hbits⟩

theorem feed_map_number_ne_error (f : Nat → β) (width : Nat) (bits rest : List Bool) :
    ((number width).map f).feed bits ≠ .error rest := by
  rw [Ne, feed_map_eq_error]
  exact feed_number_ne_error width bits rest

/-! ## The same thing several times -/

/-- **Things were read from their own bits**, one after the other. -/
theorem feed_times_eq_value {r : Reader α} {write : α → List Bool} {legal : α → Prop}
    (hr : ∀ a bits left, r.feed bits = .value a left → legal a ∧ bits = write a ++ left)
    {count : Nat} {values : List α} {bits rest : List Bool}
    (h : (times count r).feed bits = .value values rest) :
    values.length = count ∧ (∀ a ∈ values, legal a) ∧ bits = values.flatMap write ++ rest := by
  induction count generalizing bits values with
  | zero =>
    rw [times, feed_done] at h
    obtain ⟨rfl, rfl⟩ : [] = values ∧ bits = rest := by simpa using h
    exact ⟨rfl, by simp, rfl⟩
  | succ count ih =>
    rw [times, feed_bind_eq_value] at h
    obtain ⟨a, left, ha, hleft⟩ := h
    obtain ⟨others, hothers, rfl⟩ := feed_map_eq_value.mp hleft
    obtain ⟨hlegal, rfl⟩ := hr a bits left ha
    obtain ⟨hlength, hlegals, rfl⟩ := ih hothers
    exact ⟨by simp [hlength], List.forall_mem_cons.mpr ⟨hlegal, hlegals⟩, by simp⟩

theorem feed_times_ne_error {r : Reader α} (hr : ∀ bits rest, r.feed bits ≠ .error rest)
    (count : Nat) (bits rest : List Bool) : (times count r).feed bits ≠ .error rest := by
  induction count generalizing bits with
  | zero => simp [times]
  | succ count ih =>
    rw [times, Ne, feed_bind_eq_error]
    rintro (herror | ⟨a, left, -, herror⟩)
    · exact hr bits rest herror
    · exact ih left (feed_map_eq_error.mp herror)

theorem feed_raw_eq_value {count : Nat} {values bits rest : List Bool}
    (h : (raw count).feed bits = .value values rest) :
    values.length = count ∧ bits = values ++ rest := by
  have hbit : ∀ (b : Bool) (bits left : List Bool), bit.feed bits = .value b left →
      True ∧ bits = [b] ++ left := by
    intro b bits left hb
    cases bits with
    | nil => simp [bit, feed] at hb
    | cons b' bits =>
      obtain ⟨rfl, rfl⟩ : b' = b ∧ bits = left := by simpa [bit] using hb
      exact ⟨trivial, rfl⟩
  obtain ⟨hlength, -, hbits⟩ := feed_times_eq_value hbit h
  exact ⟨hlength, by simpa using hbits⟩

theorem feed_raw_ne_error (count : Nat) (bits rest : List Bool) :
    (raw count).feed bits ≠ .error rest := by
  refine feed_times_ne_error (fun bits rest => ?_) count bits rest
  cases bits <;> simp [bit, feed]

end DeflateEcho.Bits.Reader
