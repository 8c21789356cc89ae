import Mathlib
import DeflateEcho.Proofs.Toml.Numerals
import DeflateEcho.Proofs.Toml.Recognition.Words

/-!
# Proofs/Toml/Recognition/Numerals — numbers and dates are written as they are read

The scanners of numbers and dates go through a text part by part, and what each part takes off is
written as the part of the grammar for it.  Here the order in which the readings are tried does not
count: whichever fits, the text is written so.
-/

namespace DeflateEcho.Toml

/-- The same of a scanner that gives no value. -/
def Passes (scan : List Char → Option (List Char)) (form : List Char → Prop) : Prop :=
  ∀ ⦃text rest : List Char⦄, scan text = some rest → ∃ x, text = x ++ rest ∧ form x

/-! ## Digits and signs -/

theorem exists_digits {base : Nat} {read text ds rest : List Char}
    (h : moreDigits base read text = (ds, rest)) :
    ∃ es x, text = x ++ rest ∧ ds = read.reverse ++ es ∧
      ∀ d, isDigitOf base d → Digits base (d :: es) (d :: x) := by
  fun_induction moreDigits base read text with
  | case1 read c text hc ih =>
    obtain ⟨es, x, rfl, rfl, hx⟩ := ih h
    exact ⟨c :: es, '_' :: c :: x, rfl, by simp, fun d hd => .underscore hd (hx c hc)⟩
  | case3 read c text _ hc ih =>
    obtain ⟨es, x, rfl, rfl, hx⟩ := ih h
    exact ⟨c :: es, c :: x, rfl, by simp, fun d hd => .next hd (hx c hc)⟩
  | _ =>
    cases h
    exact ⟨[], [], rfl, by simp, fun _ => .one⟩

theorem recognizes_digits (base : Nat) : Recognizes (digits base) (Digits base) := by
  intro text ds rest h
  rw [digits.eq_def] at h
  split at h
  · split at h
    · next d text hd =>
      obtain ⟨es, x, rfl, rfl, hx⟩ := exists_digits (Option.some.inj h)
      exact ⟨d :: x, rfl, hx d hd⟩
    · cases h
  · cases h

theorem recognizes_wholeDigits : Recognizes wholeDigits WholeText := by
  intro text ds rest h
  rw [wholeDigits.eq_def] at h
  split at h
  · cases h
    exact ⟨['0'], rfl, .zero⟩
  · next hzero =>
    obtain ⟨x, rfl, hx⟩ := recognizes_digits 10 h
    refine ⟨x, rfl, .digits hx ?_⟩
    obtain ⟨d, y, rfl, -, hhead⟩ := hx.exists_cons
    intro c hc heq
    obtain rfl : d = c := Option.some.inj (hhead.symm.trans hc)
    exact hzero (y ++ rest) (by rw [heq]; rfl)

theorem exists_sign (text : List Char) :
    ∃ s, text = s ++ (sign text).2 ∧ SignText (sign text).1 s := by
  rw [sign.eq_def]
  split
  · exact ⟨['+'], rfl, .plus⟩
  · exact ⟨['-'], rfl, .minus⟩
  · exact ⟨[], rfl, .none⟩

/-! ## Dates and times -/

theorem recognizes_fixedDigits (count : Nat) :
    Recognizes (fixedDigits count) fun n x => Field count x ∧ n = valueOf 10 x := by
  intro text n rest h
  rw [fixedDigits] at h
  split at h
  · next htaken =>
    cases h
    exact ⟨text.take count, (List.take_append_drop count text).symm,
      ⟨htaken.1, List.all_eq_true.mp htaken.2⟩, rfl⟩
  · cases h

theorem eq_cons_of_expect {c : Char} {text rest : List Char} (h : expect c text = some rest) :
    text = c :: rest := by
  rw [expect.eq_def] at h
  split at h
  · split at h
    · next heq =>
      cases h
      rw [heq]
    · cases h
  · cases h

theorem passes_date : Passes date DateText := by
  intro text rest h
  simp only [date, Option.bind_eq_bind, Option.bind_eq_some_iff, Prod.exists] at h
  obtain ⟨_, text, hyear, _, hhyphen, _, _, hmonth, _, hhyphen', _, _, hday, h⟩ := h
  obtain ⟨year, rfl, hy, rfl⟩ := recognizes_fixedDigits 4 hyear
  obtain rfl := eq_cons_of_expect hhyphen
  obtain ⟨month, rfl, hm, rfl⟩ := recognizes_fixedDigits 2 hmonth
  obtain rfl := eq_cons_of_expect hhyphen'
  obtain ⟨day, rfl, hd, rfl⟩ := recognizes_fixedDigits 2 hday
  split at h
  · next hrange =>
    cases h
    exact ⟨year ++ '-' :: (month ++ '-' :: day), by simp,
      .mk hy hm hd ⟨hrange.1, hrange.2.1⟩ hrange.2.2⟩
  · cases h

theorem exists_secondParts (text : List Char) :
    ∃ x, text = x ++ secondParts text ∧ SecondPartsText x := by
  rw [secondParts.eq_def]
  split
  · next c text =>
    split
    · next hc =>
      refine ⟨'.' :: c :: text.takeWhile Char.isDigit,
        by rw [List.cons_append, List.cons_append, List.takeWhile_append_dropWhile],
        .parts (by simp) (List.forall_mem_cons.mpr ⟨?_, fun d hd => ?_⟩)⟩
      · rw [isDigitOf_ten, hc]
      · rw [isDigitOf_ten, List.mem_takeWhile_imp hd]
    · exact ⟨[], rfl, .none⟩
  · exact ⟨[], rfl, .none⟩

theorem passes_time : Passes time TimeText := by
  intro text rest h
  simp only [time, Option.bind_eq_bind, Option.bind_eq_some_iff, Prod.exists] at h
  obtain ⟨_, text, hhour, _, hcolon, _, _, hminute, _, hcolon', _, behind, hsecond, h⟩ := h
  obtain ⟨hour, rfl, hh, rfl⟩ := recognizes_fixedDigits 2 hhour
  obtain rfl := eq_cons_of_expect hcolon
  obtain ⟨minute, rfl, hm, rfl⟩ := recognizes_fixedDigits 2 hminute
  obtain rfl := eq_cons_of_expect hcolon'
  obtain ⟨second, rfl, hs, rfl⟩ := recognizes_fixedDigits 2 hsecond
  split at h
  · next hrange =>
    obtain ⟨parts, hbehind, hparts⟩ := exists_secondParts behind
    rw [Option.some.inj h] at hbehind
    subst hbehind
    exact ⟨hour ++ ':' :: (minute ++ ':' :: (second ++ parts)), by simp,
      .mk hh hm hs hrange hparts⟩
  · cases h

theorem passes_timeOffset : Passes timeOffset OffsetText := by
  intro text rest h
  rw [timeOffset.eq_def] at h
  split at h
  · split at h
    · next c text hzulu =>
      cases h
      exact ⟨[c], rfl, .universal hzulu⟩
    · split at h
      · next c text _ hsign =>
        simp only [Option.bind_eq_bind, Option.bind_eq_some_iff, Prod.exists] at h
        obtain ⟨_, text, hhour, _, hcolon, _, _, hminute, h⟩ := h
        obtain ⟨hour, rfl, hh, rfl⟩ := recognizes_fixedDigits 2 hhour
        obtain rfl := eq_cons_of_expect hcolon
        obtain ⟨minute, rfl, hm, rfl⟩ := recognizes_fixedDigits 2 hminute
        split at h
        · next hrange =>
          cases h
          exact ⟨c :: (hour ++ ':' :: minute), by simp, .shifted hsign hh hm hrange⟩
        · cases h
      · cases h
  · cases h

theorem passes_timeBehindDate : Passes timeBehindDate fun x =>
    ∃ c t o, x = c :: (t ++ o) ∧ (c = 'T' ∨ c = 't' ∨ c = ' ') ∧ TimeText t ∧ OffsetText o := by
  intro text rest h
  rw [timeBehindDate.eq_def] at h
  split at h
  · split at h
    · next c text hc =>
      obtain ⟨behind, htime, hrest⟩ := Option.bind_eq_some_iff.mp h
      obtain ⟨t, rfl, ht⟩ := passes_time htime
      have hoffset : ∃ o, behind = o ++ (timeOffset behind).getD behind ∧ OffsetText o := by
        cases ho : timeOffset behind with
        | none => exact ⟨[], rfl, .none⟩
        | some z => exact passes_timeOffset ho
      obtain ⟨o, hbehind, ho⟩ := hoffset
      rw [Option.some.inj hrest] at hbehind
      exact ⟨c :: (t ++ o), by rw [hbehind]; simp, c, t, o, rfl, hc, ht, ho⟩
    · cases h
  · cases h

theorem recognizes_dateTime : Recognizes dateTime ScalarText := by
  intro text v rest h
  rw [dateTime] at h
  split at h
  · next behind hdate =>
    obtain ⟨d, rfl, hd⟩ := passes_date hdate
    cases h
    cases htime : timeBehindDate behind with
    | none => exact ⟨d, rfl, .dateTime (.date hd)⟩
    | some z =>
      obtain ⟨_, rfl, c, t, o, rfl, hc, ht, ho⟩ := passes_timeBehindDate htime
      exact ⟨d ++ c :: (t ++ o), by simp, .dateTime (.both hd hc ht ho)⟩
  · obtain ⟨behind, htime, heq⟩ := Option.map_eq_some_iff.mp h
    obtain ⟨t, rfl, ht⟩ := passes_time htime
    cases heq
    exact ⟨t, rfl, .dateTime (.time ht)⟩

/-! ## Numbers -/

theorem recognizes_fraction : Recognizes fraction FractionText := by
  intro text places rest h
  rw [fraction.eq_def] at h
  split at h
  · obtain ⟨x, rfl, hx⟩ := recognizes_digits 10 h
    exact ⟨'.' :: x, rfl, .places hx⟩
  · cases h
    exact ⟨[], rfl, .none⟩

theorem recognizes_exponent : Recognizes exponent ExponentText := by
  intro text power rest h
  rw [exponent.eq_def] at h
  split at h
  · split at h
    · next c text hc =>
      simp only [Option.bind_eq_bind, Option.bind_eq_some_iff, Prod.exists] at h
      obtain ⟨ds, behind, hds, h⟩ := h
      obtain ⟨s, htext, hs⟩ := exists_sign text
      obtain ⟨x, hx, hdigits⟩ := recognizes_digits 10 hds
      cases h
      exact ⟨c :: (s ++ x), by rw [htext, hx]; simp, .power hc hs hdigits⟩
    · cases h
      exact ⟨[], rfl, .none⟩
  · cases h
    exact ⟨[], rfl, .none⟩

theorem recognizes_decimal : Recognizes decimal ScalarText := by
  intro text v rest h
  simp only [decimal, Option.bind_eq_bind, Option.bind_eq_some_iff, Prod.exists] at h
  obtain ⟨whole, _, hwhole, places, _, hplaces, power, _, hpower, h⟩ := h
  obtain ⟨s, htext, hs⟩ := exists_sign text
  obtain ⟨x, hbehind, hx⟩ := recognizes_wholeDigits hwhole
  obtain ⟨y, rfl, hy⟩ := recognizes_fraction hplaces
  obtain ⟨z, rfl, hz⟩ := recognizes_exponent hpower
  split at h
  · cases h
  · next hsome =>
    split at h
    · cases h
    · next hfinite =>
      cases h
      refine ⟨s ++ x ++ y ++ z, by rw [htext, hbehind]; simp, .float (.mk hs hx hy hz ?_) hfinite⟩
      by_contra hnone
      obtain ⟨hempty, hnone⟩ := not_or.mp hnone
      exact hsome ⟨List.isEmpty_iff.mpr (not_not.mp hempty),
        Option.isNone_iff_eq_none.mpr (not_not.mp hnone)⟩

theorem exists_integer {n : Int} {v : Value} (h : signed64 n = some v) :
    v = .integer n ∧ -2 ^ 63 ≤ n ∧ n < 2 ^ 63 := by
  rw [signed64] at h
  split at h
  · next hn =>
    cases h
    exact ⟨rfl, hn⟩
  · cases h

theorem recognizes_whole : Recognizes whole ScalarText := by
  intro text v rest h
  by_cases hannounced : ∃ pair ∈ baseLetters, ['0', pair.1] <+: text
  · obtain ⟨⟨letter, base⟩, hpair, text, rfl⟩ := hannounced
    rw [List.cons_append, List.cons_append, List.nil_append, whole_based hpair] at h
    obtain ⟨⟨ds, rest⟩, hds, h⟩ := Option.bind_eq_some_iff.mp h
    obtain ⟨v, hv, h⟩ := Option.bind_eq_some_iff.mp h
    obtain ⟨x, rfl, hx⟩ := recognizes_digits base hds
    obtain ⟨rfl, hn⟩ := exists_integer hv
    cases h
    exact ⟨'0' :: letter :: x, rfl, .integer (.based hpair hx) hn⟩
  · rw [whole_decimal fun pair hpair hbegins => hannounced ⟨pair, hpair, hbegins⟩] at h
    obtain ⟨⟨ds, rest⟩, hds, h⟩ := Option.bind_eq_some_iff.mp h
    obtain ⟨v, hv, h⟩ := Option.bind_eq_some_iff.mp h
    obtain ⟨s, htext, hs⟩ := exists_sign text
    obtain ⟨x, hx, hwhole⟩ := recognizes_wholeDigits hds
    obtain ⟨rfl, hn⟩ := exists_integer hv
    cases h
    exact ⟨s ++ x, by rw [htext, hx]; simp, .integer (.decimal hs hwhole) hn⟩

theorem recognizes_special : Recognizes special ScalarText := by
  intro text v rest h
  obtain ⟨s, htext, hs⟩ := exists_sign text
  simp only [special] at h
  split at h
  · next heq =>
    cases h
    exact ⟨s ++ ['i', 'n', 'f'], by rw [htext, heq]; simp, .infinity hs⟩
  · next heq =>
    cases h
    exact ⟨s ++ ['n', 'a', 'n'], by rw [htext, heq]; simp, .nan hs⟩
  · cases h

theorem recognizes_numeral : Recognizes numeral ScalarText := by
  intro text v rest h
  obtain h | ⟨-, h⟩ := Option.or_eq_some_iff.mp h
  · exact recognizes_dateTime h
  obtain h | ⟨-, h⟩ := Option.or_eq_some_iff.mp h
  · exact recognizes_decimal h
  obtain h | ⟨-, h⟩ := Option.or_eq_some_iff.mp h
  · exact recognizes_special h
  · exact recognizes_whole h

/-- **A value without parts is written as it is read.** -/
theorem recognizes_simple : Recognizes simple ScalarText := by
  have hquoted : ∀ {text v rest}, ((quoted text).map fun found => (.string found.1, found.2)) =
      some (v, rest) → ∃ x, text = x ++ rest ∧ ScalarText v x := by
    intro text v rest h
    obtain ⟨⟨s, behind⟩, hs, heq⟩ := Option.map_eq_some_iff.mp h
    obtain ⟨x, rfl, hx⟩ := recognizes_quoted hs
    cases heq
    exact ⟨x, rfl, .string hx⟩
  intro text v rest h
  rw [simple.eq_def] at h
  split at h
  · cases h
    exact ⟨['t', 'r', 'u', 'e'], rfl, .true⟩
  · cases h
    exact ⟨['f', 'a', 'l', 's', 'e'], rfl, .false⟩
  · split at h
    · exact hquoted h
    · exact hquoted h
    · exact recognizes_numeral h

end DeflateEcho.Toml
