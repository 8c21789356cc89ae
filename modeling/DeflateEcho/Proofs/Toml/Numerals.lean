import Mathlib
import DeflateEcho.Proofs.Toml.Words

/-!
# Proofs/Toml/Numerals — numbers and dates are read as they are written

What begins with a digit or a sign is tried as a date, as a floating-point number and as a whole
number, in this order, and the first that fits is taken.  So a number is read as it is written
because **the earlier readings fail**: a date needs a hyphen or a colon right behind its first
digits, and a floating-point number a point or a power of ten behind its whole part.
-/

namespace DeflateEcho.Toml

/-! ## What may stand behind a value -/

/-- The characters that may stand behind a value and its blanks. -/
def closings : List Char := ['\n', '\r', '#', ',', ']', '\x7d']

/-- The characters that may stand right behind a value. -/
def marks : List Char := ' ' :: '\t' :: closings

/-- A text that may stand behind a value. -/
def Closed (rest : List Char) : Prop := NotBefore (· ∉ closings) (skipSpaces rest)

theorem Closed.notBefore {rest : List Char} (h : Closed rest) {p : Char → Prop} [DecidablePred p]
    (hp : marks.all (¬ p ·) = true) : NotBefore p rest := by
  cases rest with
  | nil => exact notBefore_nil
  | cons c rest =>
    refine notBefore_cons.mpr (forall_of_all hp c ?_)
    by_cases hc : isSpace c
    · obtain rfl | rfl := isSpace_cases hc
      all_goals simp [marks]
    · rw [Closed, skipSpaces_eq_self (notBefore_cons.mpr hc)] at h
      have hmem : c ∈ closings := not_not.mp (h c rfl)
      simp [marks, hmem]

theorem Closed.tail {rest : List Char} (h : Closed (' ' :: rest)) : Closed rest := h

/-! ## Digits -/

/-- A character with which digits may go on. -/
def goesOnDigits (base : Nat) (c : Char) : Prop := isDigitOf base c ∨ c = '_'

instance (base : Nat) : DecidablePred (goesOnDigits base) := fun c =>
  inferInstanceAs (Decidable (isDigitOf base c ∨ c = '_'))

theorem ne_underscore {base : Nat} {d : Char} (hd : isDigitOf base d) : d ≠ '_' := by
  rintro rfl
  exact absurd hd (by simp [isDigitOf, Char.isAlphanum, Char.isAlpha, Char.isUpper, Char.isLower,
    Char.isDigit])

theorem Digits.exists_cons {base : Nat} {ds x : List Char} (h : Digits base ds x) :
    ∃ d y, x = d :: y ∧ isDigitOf base d ∧ ds.head? = some d := by
  cases h with
  | one hd => exact ⟨_, _, rfl, hd, rfl⟩
  | next hd => exact ⟨_, _, rfl, hd, rfl⟩
  | underscore hd => exact ⟨_, _, rfl, hd, rfl⟩

theorem moreDigits_digit {base : Nat} {d : Char} (hd : isDigitOf base d) (read x : List Char) :
    moreDigits base read (d :: x) = moreDigits base (d :: read) x := by
  rw [moreDigits]
  · rw [if_pos hd]
  · exact fun _ _ h _ => ne_underscore hd h

theorem moreDigits_underscore {base : Nat} {d : Char} (hd : isDigitOf base d)
    (read x : List Char) :
    moreDigits base read ('_' :: d :: x) = moreDigits base read (d :: x) := by
  rw [moreDigits, if_pos hd, moreDigits_digit hd]

theorem moreDigits_stop {base : Nat} {rest : List Char} (hrest : NotBefore (goesOnDigits base) rest)
    (read : List Char) : moreDigits base read rest = (read.reverse, rest) := by
  cases rest with
  | nil => simp [moreDigits]
  | cons c rest =>
    obtain ⟨hdigit, hunder⟩ := not_or.mp (notBefore_cons.mp hrest)
    rw [moreDigits]
    · rw [if_neg hdigit]
    · exact fun _ _ h _ => hunder h

theorem moreDigits_append {base : Nat} {ds x rest : List Char} (h : Digits base ds x)
    (hrest : NotBefore (goesOnDigits base) rest) (read : List Char) :
    moreDigits base read (x ++ rest) = (read.reverse ++ ds, rest) := by
  induction h generalizing read with
  | one hd => simp [moreDigits_digit hd, moreDigits_stop hrest]
  | next hd _ ih => simp [moreDigits_digit hd, ih]
  | @underscore d ds x hd h ih =>
    obtain ⟨d', y, rfl, hd', -⟩ := h.exists_cons
    rw [List.cons_append, moreDigits_digit hd, List.cons_append, List.cons_append,
      moreDigits_underscore hd', ← List.cons_append, ih]
    simp

/-- **Digits are read as they are written**, without their underscores. -/
theorem digits_append {base : Nat} {ds x rest : List Char} (h : Digits base ds x)
    (hrest : NotBefore (goesOnDigits base) rest) : digits base (x ++ rest) = some (ds, rest) := by
  have hall := moreDigits_append h hrest []
  obtain ⟨d, y, rfl, hd, -⟩ := h.exists_cons
  rw [List.cons_append, moreDigits_digit hd] at hall
  rw [List.cons_append, digits, if_pos hd, hall]
  rfl

theorem wholeDigits_append {ds x rest : List Char} (h : WholeText ds x)
    (hrest : NotBefore (goesOnDigits 10) rest) : wholeDigits (x ++ rest) = some (ds, rest) := by
  cases h with
  | zero => rfl
  | digits h hds =>
    have hread := digits_append h hrest
    obtain ⟨d, y, rfl, hd, hhead⟩ := h.exists_cons
    have hzero : d ≠ '0' := hds d hhead
    rw [List.cons_append] at hread ⊢
    rw [wholeDigits, hread]
    exact fun _ h => hzero (List.cons.inj h).1

theorem WholeText.exists_cons {ds x : List Char} (h : WholeText ds x) :
    ∃ d y, x = d :: y ∧ isDigitOf 10 d := by
  cases h with
  | zero => exact ⟨_, _, rfl, by decide⟩
  | digits h =>
    obtain ⟨d, y, rfl, hd, -⟩ := h.exists_cons
    exact ⟨d, y, rfl, hd⟩

theorem notBefore_sign {base : Nat} {d : Char} (hd : isDigitOf base d) (x : List Char) :
    NotBefore (fun c => c = '+' ∨ c = '-') (d :: x) := by
  refine notBefore_cons.mpr ?_
  rintro (rfl | rfl)
  all_goals exact absurd hd (by simp [isDigitOf, Char.isAlphanum, Char.isAlpha, Char.isUpper,
    Char.isLower, Char.isDigit])

theorem WholeText.notBefore_sign {ds x : List Char} (h : WholeText ds x) (rest : List Char) :
    NotBefore (fun c => c = '+' ∨ c = '-') (x ++ rest) := by
  obtain ⟨d, y, rfl, hd⟩ := h.exists_cons
  exact Toml.notBefore_sign hd _

theorem sign_append {negative : Bool} {s x : List Char} (hs : SignText negative s)
    (hx : NotBefore (fun c => c = '+' ∨ c = '-') x) : sign (s ++ x) = (negative, x) := by
  cases hs with
  | none =>
    rw [List.nil_append, sign]
    · rintro rest rfl
      exact absurd (.inl rfl) (notBefore_cons.mp hx)
    · rintro rest rfl
      exact absurd (.inr rfl) (notBefore_cons.mp hx)
  | plus => rfl
  | minus => rfl

/-! ## Whole and floating-point numbers -/

theorem fraction_append {places y rest : List Char} (h : FractionText places y)
    (hrest : NotBefore (fun c => goesOnDigits 10 c ∨ c = '.') rest) :
    fraction (y ++ rest) = some (places, rest) := by
  cases h with
  | none =>
    rw [List.nil_append, fraction]
    rintro z rfl
    exact absurd (.inr rfl) (notBefore_cons.mp hrest)
  | places h => exact digits_append h (hrest.mono fun _ => .inl)

theorem signed_eq (negative : Bool) (n : Nat) :
    (if negative then -(n : Int) else n) = signed negative n := rfl

theorem exponent_append {power : Option Int} {z rest : List Char} (h : ExponentText power z)
    (hrest : NotBefore (fun c => goesOnDigits 10 c ∨ c = 'e' ∨ c = 'E') rest) :
    exponent (z ++ rest) = some (power, rest) := by
  cases h with
  | none =>
    cases rest with
    | nil => rfl
    | cons c rest =>
      rw [List.nil_append, exponent, if_neg fun h => notBefore_cons.mp hrest (.inr h)]
  | @power c negative s ds x hc hs h =>
    have hx : NotBefore (fun c => c = '+' ∨ c = '-') (x ++ rest) := by
      obtain ⟨d, y, rfl, hd, -⟩ := h.exists_cons
      exact notBefore_sign hd _
    rw [List.cons_append, exponent, if_pos hc, List.append_assoc, sign_append hs hx]
    simp [digits_append h (hrest.mono fun _ => .inl), signed_eq]

/-- A character that neither starts the places nor the power of ten of a number. -/
theorem decimal_none {negative : Bool} {text z ds rest : List Char}
    (hsign : sign text = (negative, z)) (hwhole : wholeDigits z = some (ds, rest))
    (hrest : NotBefore (fun c => c = '.' ∨ c = 'e' ∨ c = 'E') rest) : decimal text = none := by
  have hfraction : fraction rest = some ([], rest) := by
    rw [fraction]
    rintro z rfl
    exact absurd (.inl rfl) (notBefore_cons.mp hrest)
  have hexponent : exponent rest = some (none, rest) := by
    cases rest with
    | nil => rfl
    | cons c rest => rw [exponent, if_neg fun h => notBefore_cons.mp hrest (.inr h)]
  simp [decimal, hsign, hwhole, hfraction, hexponent]

theorem decimal_append {v : Number.Binary64} {x rest : List Char} (h : FloatText v x)
    (hv : v ≠ .infinite false) (hrest : Closed rest) :
    decimal (x ++ rest) = some (.float v, rest) := by
  obtain ⟨hs, hwhole, hplaces, hpower, hsome⟩ := h
  rename_i negative s whole x places y z power
  have hz : NotBefore (fun c => goesOnDigits 10 c ∨ c = '.') (z ++ rest) := by
    cases hpower with
    | none => exact hrest.notBefore (by decide)
    | power hc =>
      refine notBefore_cons.mpr ?_
      obtain rfl | rfl := hc <;> decide
  have hy : NotBefore (goesOnDigits 10) (y ++ (z ++ rest)) := by
    cases hplaces with
    | none => exact hz.mono fun _ => .inl
    | places => exact notBefore_cons.mpr (by decide)
  have hempty : ¬ (places.isEmpty ∧ power.isNone) := fun h =>
    hsome.elim (· (List.isEmpty_iff.mp h.1)) (· (Option.isNone_iff_eq_none.mp h.2))
  simp only [List.append_assoc, decimal, sign_append hs (hwhole.notBefore_sign _),
    wholeDigits_append hwhole hy, fraction_append hplaces hz,
    exponent_append hpower (hrest.notBefore (by decide)), Option.bind_eq_bind, Option.bind_some]
  rw [if_neg hempty, if_neg hv]

theorem signed64_eq {n : Int} (hn : -2 ^ 63 ≤ n ∧ n < 2 ^ 63) :
    signed64 n = some (.integer n) := by
  rw [signed64, if_pos]
  constructor <;> omega

theorem whole_based {letter : Char} {base : Nat} (h : (letter, base) ∈ baseLetters)
    (text : List Char) :
    whole ('0' :: letter :: text) = (digits base text).bind fun found =>
      (signed64 (valueOf base found.1)).bind fun v => some (v, found.2) := by
  simp only [baseLetters, List.mem_cons, Prod.mk.injEq, List.not_mem_nil, or_false] at h
  obtain ⟨rfl, rfl⟩ | ⟨rfl, rfl⟩ | ⟨rfl, rfl⟩ := h
  all_goals rfl

/-- A text that does not announce another base than ten holds a decimal number. -/
theorem whole_decimal {text : List Char} (h : ∀ pair ∈ baseLetters, ¬ ['0', pair.1] <+: text) :
    whole text = (wholeDigits (sign text).2).bind fun found =>
      (signed64 (signed (sign text).1 (valueOf 10 found.1))).bind fun v => some (v, found.2) := by
  simp only [baseLetters, List.forall_mem_cons, List.not_mem_nil, false_implies, implies_true,
    and_true] at h
  rw [whole]
  · rfl
  · rintro rest rfl
    exact h.1 (by simp)
  · rintro rest rfl
    exact h.2.1 (by simp)
  · rintro rest rfl
    exact h.2.2 (by simp)

/-- A decimal number does not announce another base, whatever stands behind it. -/
theorem not_announced {negative : Bool} {s ds x rest : List Char} (hs : SignText negative s)
    (h : WholeText ds x) (hrest : Closed rest) :
    ∀ pair ∈ baseLetters, ¬ ['0', pair.1] <+: s ++ (x ++ rest) := by
  intro pair hpair hannounced
  cases hs with
  | plus => exact absurd hannounced (by simp)
  | minus => exact absurd hannounced (by simp)
  | none =>
    cases h with
    | zero =>
      have hletters : NotBefore (· ∈ baseLetters.map Prod.fst) rest := hrest.notBefore (by decide)
      obtain ⟨z, rfl⟩ : [pair.1] <+: rest := by simpa using hannounced
      exact hletters pair.1 rfl (List.mem_map_of_mem hpair)
    | digits h hds =>
      obtain ⟨d, y, rfl, hd, hhead⟩ := h.exists_cons
      exact hds d hhead (List.cons_prefix_cons.mp hannounced).1.symm

/-- **A whole number is read as it is written.** -/
theorem whole_append {n : Int} {x rest : List Char} (h : IntegerText n x)
    (hn : -2 ^ 63 ≤ n ∧ n < 2 ^ 63) (hrest : Closed rest) :
    whole (x ++ rest) = some (.integer n, rest) := by
  cases h with
  | @decimal negative s ds x hs h =>
    rw [List.append_assoc, whole_decimal (not_announced hs h hrest),
      sign_append hs (h.notBefore_sign rest),
      wholeDigits_append h (hrest.notBefore (by decide)), Option.bind_some, signed64_eq hn,
      Option.bind_some]
  | @based letter base ds x hbase h =>
    have hstop : NotBefore (goesOnDigits base) rest := by
      simp only [baseLetters, List.mem_cons, Prod.mk.injEq, List.not_mem_nil, or_false] at hbase
      obtain ⟨rfl, rfl⟩ | ⟨rfl, rfl⟩ | ⟨rfl, rfl⟩ := hbase
      all_goals exact hrest.notBefore (by decide)
    rw [List.cons_append, List.cons_append, whole_based hbase, digits_append h hstop,
      Option.bind_some, signed64_eq hn, Option.bind_some]

/-- A whole number is no floating-point number. -/
theorem decimal_integer {n : Int} {x rest : List Char} (h : IntegerText n x) (hrest : Closed rest) :
    decimal (x ++ rest) = none := by
  cases h with
  | @decimal negative s ds x hs h =>
    rw [List.append_assoc]
    exact decimal_none (sign_append hs (h.notBefore_sign rest))
      (wholeDigits_append h (hrest.notBefore (by decide))) (hrest.notBefore (by decide))
  | @based letter base ds x hbase h =>
    have hletter : ∀ pair ∈ baseLetters, ¬ (pair.1 = '.' ∨ pair.1 = 'e' ∨ pair.1 = 'E') := by
      decide
    exact decimal_none rfl (z := '0' :: letter :: (x ++ rest)) rfl
      (notBefore_cons.mpr (hletter _ hbase))

theorem special_append {negative : Bool} {s rest : List Char} (hs : SignText negative s) :
    special (s ++ 'i' :: 'n' :: 'f' :: rest) = some (.float (.infinite negative), rest) ∧
    special (s ++ 'n' :: 'a' :: 'n' :: rest) = some (.float .nan, rest) := by
  cases hs <;> exact ⟨rfl, rfl⟩

theorem decimal_special {negative : Bool} {s : List Char} (hs : SignText negative s) {c : Char}
    (hc : c = 'i' ∨ c = 'n') (rest : List Char) : decimal (s ++ c :: rest) = none := by
  obtain rfl | rfl := hc <;> cases hs <;> rfl

theorem special_integer {n : Int} {x rest : List Char} (h : IntegerText n x) :
    special (x ++ rest) = none := by
  cases h with
  | @decimal negative s ds x hs h =>
    obtain ⟨d, y, rfl, hd⟩ := h.exists_cons
    have hi : d ≠ 'i' := by rintro rfl; exact absurd hd (by decide)
    have hn : d ≠ 'n' := by rintro rfl; exact absurd hd (by decide)
    rw [List.append_assoc, special, List.cons_append, sign_append hs (notBefore_sign hd _)]
    simp [hi, hn]
  | based => rfl

/-! ## Dates and times -/

theorem fixedDigits_append {count : Nat} {x : List Char} (h : Field count x) (rest : List Char) :
    fixedDigits count (x ++ rest) = some (valueOf 10 x, rest) := by
  obtain ⟨rfl, hx⟩ := h
  rw [fixedDigits, List.take_left, List.drop_left, if_pos ⟨rfl, List.all_eq_true.mpr hx⟩]

theorem expect_cons (c : Char) (rest : List Char) : expect c (c :: rest) = some rest := if_pos rfl

theorem date_append {d : List Char} (h : DateText d) (rest : List Char) :
    date (d ++ rest) = some rest := by
  obtain ⟨hyear, hmonth, hday, hm, hd⟩ := h
  simp [date, fixedDigits_append hyear, fixedDigits_append hmonth, fixedDigits_append hday,
    expect_cons, hm, hd]

theorem isDigitOf_ten (c : Char) : isDigitOf 10 c = c.isDigit := by
  have hnat : c.toNat = c.val.toNat := rfl
  rw [Bool.eq_iff_iff]
  simp only [isDigitOf, digitValue, Char.isAlphanum, Char.isAlpha, Char.isUpper, Char.isLower,
    Char.isDigit, ge_iff_le, Bool.or_eq_true, Bool.and_eq_true, decide_eq_true_eq, Char.le_def,
    UInt32.le_iff_toNat_le]
  grind

theorem secondParts_append {x rest : List Char} (h : SecondPartsText x)
    (hrest : NotBefore (fun c => isDigitOf 10 c ∨ c = '.') rest) :
    secondParts (x ++ rest) = rest := by
  cases h with
  | none =>
    rw [List.nil_append, secondParts]
    rintro c z rfl
    exact absurd (.inr rfl) (notBefore_cons.mp hrest)
  | @parts x hx h =>
    simp only [isDigitOf_ten] at h hrest
    obtain ⟨c, y, rfl⟩ := List.exists_cons_of_ne_nil hx
    obtain ⟨hc, hy⟩ := List.forall_mem_cons.mp h
    rw [List.cons_append, List.cons_append, secondParts, if_pos hc,
      List.dropWhile_append_of_pos hy]
    cases rest with
    | nil => rfl
    | cons d rest =>
      exact List.dropWhile_cons_of_neg fun h => notBefore_cons.mp hrest (.inl h)

theorem time_append {t rest : List Char} (h : TimeText t)
    (hrest : NotBefore (fun c => isDigitOf 10 c ∨ c = '.') rest) : time (t ++ rest) = some rest := by
  obtain ⟨hhour, hminute, hsecond, hrange, hparts⟩ := h
  simp [time, fixedDigits_append hhour, fixedDigits_append hminute, fixedDigits_append hsecond,
    expect_cons, hrange, secondParts_append hparts hrest]

theorem timeOffset_append {o rest : List Char} (h : OffsetText o) (hrest : Closed rest) :
    (timeOffset (o ++ rest)).getD (o ++ rest) = rest := by
  cases h with
  | none =>
    have hnone : timeOffset rest = none := by
      cases rest with
      | nil => rfl
      | cons c rest =>
        have hzulu : NotBefore (fun c => c = 'Z' ∨ c = 'z') (c :: rest) :=
          hrest.notBefore (by decide)
        have hsign : NotBefore (fun c => c = '+' ∨ c = '-') (c :: rest) :=
          hrest.notBefore (by decide)
        rw [timeOffset, if_neg (hzulu c rfl), if_neg (hsign c rfl)]
    rw [List.nil_append, hnone, Option.getD_none]
  | universal hc => obtain rfl | rfl := hc <;> rfl
  | shifted hc hhour hminute hrange =>
    obtain rfl | rfl := hc
    all_goals
      simp [timeOffset, fixedDigits_append hhour, fixedDigits_append hminute, expect_cons, hrange]

theorem timeBehindDate_append {c : Char} {t o rest : List Char}
    (hc : c = 'T' ∨ c = 't' ∨ c = ' ') (ht : TimeText t) (ho : OffsetText o) (hrest : Closed rest) :
    timeBehindDate (c :: (t ++ (o ++ rest))) = some rest := by
  have hstop : NotBefore (fun c => isDigitOf 10 c ∨ c = '.') (o ++ rest) := by
    cases ho with
    | none => exact hrest.notBefore (by decide)
    | universal hc => obtain rfl | rfl := hc <;> exact notBefore_cons.mpr (by decide)
    | shifted hc => obtain rfl | rfl := hc <;> exact notBefore_cons.mpr (by decide)
  rw [timeBehindDate, if_pos hc, time_append ht hstop]
  exact congrArg some (timeOffset_append ho hrest)

/-- Where so many digits are read and a character behind them, that character stands behind all the
digits at the front of the text. -/
theorem head?_dropWhile_of_fixedDigits {count n : Nat} {text rest rest' : List Char} {c : Char}
    (hc : ¬ isDigitOf 10 c) (h : fixedDigits count text = some (n, rest))
    (hexpect : expect c rest = some rest') : (text.dropWhile (isDigitOf 10)).head? = some c := by
  obtain ⟨z, hz⟩ : ∃ z, rest = c :: z := by
    cases rest with
    | nil => cases hexpect
    | cons d z =>
      rw [expect] at hexpect
      split at hexpect
      · next heq => exact ⟨z, heq ▸ rfl⟩
      · cases hexpect
  rw [fixedDigits] at h
  split at h
  · next htaken =>
    obtain ⟨-, hrest⟩ := Prod.mk.inj (Option.some.inj h)
    rw [← List.take_append_drop count text, hrest, hz,
      List.dropWhile_append_of_pos (List.all_eq_true.mp htaken.2), List.dropWhile_cons_of_neg hc]
    rfl
  · cases h

theorem date_none {text : List Char}
    (h : NotBefore (· = '-') (text.dropWhile (isDigitOf 10))) : date text = none := by
  rw [date]
  cases hyear : fixedDigits 4 text with
  | none => rfl
  | some found =>
    cases hexpect : expect '-' found.2 with
    | none => simp [hexpect]
    | some rest =>
      exact absurd rfl (h '-' (head?_dropWhile_of_fixedDigits (by decide) hyear hexpect))

theorem time_none {text : List Char}
    (h : NotBefore (· = ':') (text.dropWhile (isDigitOf 10))) : time text = none := by
  rw [time]
  cases hhour : fixedDigits 2 text with
  | none => rfl
  | some found =>
    cases hexpect : expect ':' found.2 with
    | none => simp [hexpect]
    | some rest =>
      exact absurd rfl (h ':' (head?_dropWhile_of_fixedDigits (by decide) hhour hexpect))

theorem dateTime_none {text : List Char}
    (h : NotBefore (fun c => c = '-' ∨ c = ':') (text.dropWhile (isDigitOf 10))) :
    dateTime text = none := by
  rw [dateTime, date_none (h.mono fun _ => .inl), time_none (h.mono fun _ => .inr)]
  rfl

theorem fixedDigits_none {count : Nat} {text : List Char} (h : NotBefore (isDigitOf 10 ·) text) :
    fixedDigits (count + 1) text = none := by
  rw [fixedDigits, if_neg]
  rintro ⟨hlength, hall⟩
  cases text with
  | nil => simp at hlength
  | cons c text => exact h c rfl (by simpa using (List.all_eq_true.mp hall) c (by simp))

theorem time_none_of_notBefore {text : List Char} (h : NotBefore (isDigitOf 10 ·) text) :
    time text = none := by
  rw [time, fixedDigits_none h]
  rfl

theorem dateTime_none_of_notBefore {text : List Char} (h : NotBefore (isDigitOf 10 ·) text) :
    dateTime text = none := by
  rw [dateTime, date, fixedDigits_none h, time_none_of_notBefore h]
  rfl

theorem WholeText.goesOnDigits {ds x : List Char} (h : WholeText ds x) :
    ∀ c ∈ x, goesOnDigits 10 c := by
  cases h with
  | zero => simpa using .inl (by decide)
  | digits h hds =>
    clear hds
    induction h with
    | one hd => simpa using .inl hd
    | next hd _ ih => exact List.forall_mem_cons.mpr ⟨.inl hd, ih⟩
    | underscore hd _ ih =>
      exact List.forall_mem_cons.mpr ⟨.inl hd, List.forall_mem_cons.mpr ⟨.inr rfl, ih⟩⟩

/-- **A number is neither a date nor a time**: no hyphen and no colon stands behind its digits. -/
theorem dateTime_number {negative : Bool} {s ds x rest : List Char} (hs : SignText negative s)
    (h : WholeText ds x)
    (hrest : NotBefore (fun c => isDigitOf 10 c ∨ c = '-' ∨ c = ':') rest) :
    dateTime (s ++ (x ++ rest)) = none := by
  cases hs with
  | plus => exact dateTime_none_of_notBefore (notBefore_cons.mpr (by decide))
  | minus => exact dateTime_none_of_notBefore (notBefore_cons.mpr (by decide))
  | none =>
    refine dateTime_none ?_
    rw [List.nil_append]
    have hx := h.goesOnDigits
    clear h
    induction x with
    | nil =>
      have hself : rest.dropWhile (isDigitOf 10) = rest := by
        cases rest with
        | nil => rfl
        | cons c rest => exact List.dropWhile_cons_of_neg fun h => hrest c rfl (.inl h)
      rw [List.nil_append, hself]
      exact hrest.mono fun _ => .inr
    | cons c x ih =>
      obtain ⟨hc, hx⟩ := List.forall_mem_cons.mp hx
      by_cases hdigit : isDigitOf 10 c
      · rw [List.cons_append, List.dropWhile_cons_of_pos hdigit]
        exact ih hx
      · obtain rfl : c = '_' := hc.resolve_left hdigit
        exact notBefore_cons.mpr (by decide)

theorem date_time_of_day {t : List Char} (h : TimeText t) (rest : List Char) :
    date (t ++ rest) = none := by
  obtain ⟨hhour, -, -, -, -⟩ := h
  refine date_none ?_
  rw [List.append_assoc, List.dropWhile_append_of_pos hhour.2, List.cons_append,
    List.dropWhile_cons_of_neg (by decide)]
  exact notBefore_cons.mpr (by decide)

/-- **A date or a time is read as it is written**, with all that belongs to it. -/
theorem dateTime_append {x rest : List Char} (h : DateTimeText x) (hrest : Closed rest) :
    dateTime (x ++ rest) = some (.dateTime, rest) := by
  cases h with
  | date hd =>
    have hnone : timeBehindDate rest = none := by
      cases rest with
      | nil => rfl
      | cons c z =>
        rw [timeBehindDate]
        split
        · next hc =>
          have hletter : NotBefore (fun c => c = 'T' ∨ c = 't') (c :: z) :=
            hrest.notBefore (by decide)
          obtain rfl : c = ' ' := (or_assoc.mpr hc).resolve_left (hletter c rfl)
          rw [time_none_of_notBefore (hrest.tail.notBefore (by decide))]
          rfl
        · rfl
    rw [dateTime, date_append hd]
    simp only [hnone, Option.getD_none]
  | both hd hc ht ho =>
    rw [List.append_assoc, List.cons_append, dateTime, date_append hd, List.append_assoc]
    simp only [timeBehindDate_append hc ht ho hrest, Option.getD_some]
  | time ht =>
    rw [dateTime, date_time_of_day ht, time_append ht (hrest.notBefore (by decide))]
    rfl

/-! ## Values without parts -/

theorem numeral_integer {n : Int} {x rest : List Char} (h : IntegerText n x)
    (hn : -2 ^ 63 ≤ n ∧ n < 2 ^ 63) (hrest : Closed rest) :
    numeral (x ++ rest) = some (.integer n, rest) := by
  have hdate : dateTime (x ++ rest) = none := by
    cases h with
    | decimal hs h =>
      rw [List.append_assoc]
      exact dateTime_number hs h (hrest.notBefore (by decide))
    | @based letter base ds x hbase =>
      have hletter : ∀ pair ∈ baseLetters,
          ¬ isDigitOf 10 pair.1 ∧ ¬ (pair.1 = '-' ∨ pair.1 = ':') := by decide
      refine dateTime_none ?_
      rw [List.cons_append, List.dropWhile_cons_of_pos (by decide), List.cons_append,
        List.dropWhile_cons_of_neg (hletter _ hbase).1]
      exact notBefore_cons.mpr (hletter _ hbase).2
  rw [numeral, hdate, decimal_integer h hrest, special_integer h, whole_append h hn hrest]
  rfl

theorem numeral_float {v : Number.Binary64} {x rest : List Char} (h : FloatText v x)
    (hv : v ≠ .infinite false) (hrest : Closed rest) :
    numeral (x ++ rest) = some (.float v, rest) := by
  have hdate : dateTime (x ++ rest) = none := by
    obtain ⟨hs, hwhole, hplaces, hpower, -⟩ := h
    rw [List.append_assoc, List.append_assoc, List.append_assoc]
    refine dateTime_number hs hwhole ?_
    cases hplaces with
    | places => exact notBefore_cons.mpr (by decide)
    | none =>
      cases hpower with
      | none => exact hrest.notBefore (by decide)
      | power hc => obtain rfl | rfl := hc <;> exact notBefore_cons.mpr (by decide)
  rw [numeral, hdate, decimal_append h hv hrest]
  rfl

theorem numeral_special {negative : Bool} {s rest : List Char} (hs : SignText negative s) :
    numeral (s ++ 'i' :: 'n' :: 'f' :: rest) = some (.float (.infinite negative), rest) ∧
    numeral (s ++ 'n' :: 'a' :: 'n' :: rest) = some (.float .nan, rest) := by
  have hdate : ∀ {c : Char} (_ : c = 'i' ∨ c = 'n') (z : List Char),
      dateTime (s ++ c :: z) = none := by
    intro c hc z
    refine dateTime_none_of_notBefore ?_
    obtain rfl | rfl := hc <;> cases hs <;> exact notBefore_cons.mpr (by decide)
  rw [numeral, numeral, hdate (.inl rfl), hdate (.inr rfl), decimal_special hs (.inl rfl),
    decimal_special hs (.inr rfl), (special_append hs).1, (special_append hs).2]
  exact ⟨rfl, rfl⟩

theorem numeral_dateTime {x rest : List Char} (h : DateTimeText x) (hrest : Closed rest) :
    numeral (x ++ rest) = some (.dateTime, rest) := by
  rw [numeral, dateTime_append h hrest]
  rfl

/-- A character that a number or a date may begin with. -/
def opensNumeral (c : Char) : Prop := isDigitOf 10 c ∨ c ∈ ['+', '-', 'i', 'n']

theorem WholeText.opensNumeral {negative : Bool} {s ds x : List Char} (hs : SignText negative s)
    (h : WholeText ds x) : ∃ c y, s ++ x = c :: y ∧ opensNumeral c := by
  obtain ⟨d, y, rfl, hd⟩ := h.exists_cons
  cases hs with
  | none => exact ⟨d, y, rfl, .inl hd⟩
  | plus => exact ⟨_, _, rfl, .inr (by decide)⟩
  | minus => exact ⟨_, _, rfl, .inr (by decide)⟩

theorem Field.opensNumeral {count : Nat} {x : List Char} (h : Field (count + 1) x) :
    ∃ c y, x = c :: y ∧ opensNumeral c := by
  obtain ⟨hlength, hx⟩ := h
  obtain ⟨c, y, rfl⟩ := List.exists_cons_of_length_eq_add_one hlength
  exact ⟨c, y, rfl, .inl (hx c List.mem_cons_self)⟩

theorem exists_cons_append {p : Char → Prop} {x : List Char} (h : ∃ c y, x = c :: y ∧ p c)
    (z : List Char) : ∃ c y, x ++ z = c :: y ∧ p c := by
  obtain ⟨c, y, rfl, hc⟩ := h
  exact ⟨c, y ++ z, rfl, hc⟩

theorem IntegerText.exists_cons {n : Int} {x : List Char} (h : IntegerText n x) :
    ∃ c y, x = c :: y ∧ opensNumeral c := by
  cases h with
  | decimal hs h => exact h.opensNumeral hs
  | based => exact ⟨_, _, rfl, .inl (by decide)⟩

theorem FloatText.exists_cons {v : Number.Binary64} {x : List Char} (h : FloatText v x) :
    ∃ c y, x = c :: y ∧ opensNumeral c := by
  obtain ⟨hs, hwhole, -, -, -⟩ := h
  exact exists_cons_append (exists_cons_append (hwhole.opensNumeral hs) _) _

theorem DateTimeText.exists_cons {x : List Char} (h : DateTimeText x) :
    ∃ c y, x = c :: y ∧ opensNumeral c := by
  cases h with
  | date hd =>
    obtain ⟨hyear, -, -, -, -⟩ := hd
    exact exists_cons_append hyear.opensNumeral _
  | both hd =>
    obtain ⟨hyear, -, -, -, -⟩ := hd
    exact exists_cons_append (exists_cons_append hyear.opensNumeral _) _
  | time ht =>
    obtain ⟨hhour, -, -, -, -⟩ := ht
    exact exists_cons_append hhour.opensNumeral _

/-- What begins as a number or a date is read as one. -/
theorem simple_eq_numeral {x : List Char} (h : ∃ c y, x = c :: y ∧ opensNumeral c)
    (rest : List Char) : simple (x ++ rest) = numeral (x ++ rest) := by
  obtain ⟨c, y, rfl, hc⟩ := h
  have hother : ∀ d ∈ ['t', 'f', '"', '\''], ∀ z : List Char, c :: (y ++ rest) ≠ d :: z := by
    intro d hd z heq
    obtain rfl := (List.cons.inj heq).1
    have hnumeral : ∀ d ∈ ['t', 'f', '"', '\''],
        ¬ (isDigitOf 10 d ∨ d ∈ ['+', '-', 'i', 'n']) := forall_of_all (by decide)
    exact hnumeral c hd hc
  rw [List.cons_append, simple.eq_def]
  split
  · next heq => exact absurd heq (hother _ (by decide) _)
  · next heq => exact absurd heq (hother _ (by decide) _)
  · split
    · next heq => exact absurd heq (hother _ (by decide) _)
    · next heq => exact absurd heq (hother _ (by decide) _)
    · rfl

/-- What begins with a quote is read as a text. -/
theorem simple_quoted {s : String} {x : List Char} (h : StringText s x) (rest : List Char) :
    simple (x ++ rest) = (quoted (x ++ rest)).map fun found => (.string found.1, found.2) := by
  cases h <;> rfl

/-- **A value without parts is read as it is written.** -/
theorem simple_append {v : Value} {x rest : List Char} (h : ScalarText v x) (hrest : Closed rest) :
    simple (x ++ rest) = some (v, rest) := by
  cases h with
  | string h =>
    rw [simple_quoted h, quoted_append h (hrest.notBefore (by decide))]
    rfl
  | integer h hn => rw [simple_eq_numeral h.exists_cons, numeral_integer h hn hrest]
  | float h hv => rw [simple_eq_numeral h.exists_cons, numeral_float h hv hrest]
  | @infinity negative s hs =>
    have hopens : ∃ c y, s ++ ['i', 'n', 'f'] = c :: y ∧ opensNumeral c := by
      cases hs <;> exact ⟨_, _, rfl, .inr (by decide)⟩
    rw [simple_eq_numeral hopens, List.append_assoc]
    exact (numeral_special hs).1
  | @nan negative s hs =>
    have hopens : ∃ c y, s ++ ['n', 'a', 'n'] = c :: y ∧ opensNumeral c := by
      cases hs <;> exact ⟨_, _, rfl, .inr (by decide)⟩
    rw [simple_eq_numeral hopens, List.append_assoc]
    exact (numeral_special hs).2
  | true => rfl
  | false => rfl
  | dateTime h => rw [simple_eq_numeral h.exists_cons, numeral_dateTime h hrest]

/-- A character that a value without parts may begin with. -/
def opensScalar (c : Char) : Prop := opensNumeral c ∨ c ∈ ['t', 'f', '"', '\'']

theorem ScalarText.exists_cons {v : Value} {x : List Char} (h : ScalarText v x) :
    ∃ c y, x = c :: y ∧ opensScalar c := by
  have hnumeral : (∃ c y, x = c :: y ∧ opensNumeral c) → ∃ c y, x = c :: y ∧ opensScalar c :=
    fun ⟨c, y, hx, hc⟩ => ⟨c, y, hx, .inl hc⟩
  cases h with
  | string h => cases h <;> exact ⟨_, _, rfl, .inr (by decide)⟩
  | integer h => exact hnumeral h.exists_cons
  | float h => exact hnumeral h.exists_cons
  | infinity hs => cases hs <;> exact ⟨_, _, rfl, .inl (.inr (by decide))⟩
  | nan hs => cases hs <;> exact ⟨_, _, rfl, .inl (.inr (by decide))⟩
  | true => exact ⟨_, _, rfl, .inr (by decide)⟩
  | false => exact ⟨_, _, rfl, .inr (by decide)⟩
  | dateTime h => exact hnumeral h.exists_cons

end DeflateEcho.Toml
