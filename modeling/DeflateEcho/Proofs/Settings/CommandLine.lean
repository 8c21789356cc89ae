import Mathlib
import DeflateEcho.Proofs.Settings.Sessions

/-!
# Proofs/Settings/CommandLine — command lines are read back as they are spelled

A command line spells its options one after the other, each in one of several ways.  However an
option is spelled, **reading it takes over the option with the text of its value**: a value that
stands apart is taken over later, but before anything behind it is looked at (`foldlM_next_finish`).
So reading a command line is taking over its options from left to right (`parse_eq`).

What remains is about that.  Options that are all different set settings that are all different, in
any order; the first option that has been given before ends it, and so does a number that is too
large.
-/

namespace DeflateEcho.Settings

/-! ## Numbers -/

/-- **How a number may be written in decimal**: zeros may stand before its digits, and a plus before
all of them. -/
inductive NumberText (n : Nat) : String → Prop where
  | unsigned (zeros : Nat) :
    NumberText n (String.ofList (List.replicate zeros '0' ++ Nat.toDigits 10 n))
  | plus (zeros : Nat) :
    NumberText n (String.ofList ('+' :: (List.replicate zeros '0' ++ Nat.toDigits 10 n)))

theorem le_ofDigitChars (n : Nat) (digits : List Char) : n ≤ Nat.ofDigitChars 10 digits n := by
  induction digits generalizing n with
  | nil => exact le_rfl
  | cons c digits ih =>
    rw [Nat.ofDigitChars_cons]
    exact (by omega : n ≤ 10 * n + (c.toNat - '0'.toNat)).trans (ih _)

/-- Digits are read as their number, if that lies below the bound. -/
theorem decimalBelow_eq {bound n : Nat} (hn : n < bound) {digits : List Char}
    (hdigits : ∀ c ∈ digits, c.isDigit) :
    decimalBelow bound n digits =
      if Nat.ofDigitChars 10 digits n < bound then .ok (Nat.ofDigitChars 10 digits n)
      else .error .tooLarge := by
  induction digits generalizing n with
  | nil => rw [decimalBelow, Nat.ofDigitChars_nil, if_pos hn]
  | cons c digits ih =>
    obtain ⟨hc, hrest⟩ := List.forall_mem_cons.mp hdigits
    simp only [decimalBelow, if_pos hc, Nat.ofDigitChars_cons]
    by_cases hnext : 10 * n + (c.toNat - '0'.toNat) < bound
    · rw [if_pos hnext, ih hnext hrest]
    · have hle := le_ofDigitChars (10 * n + (c.toNat - '0'.toNat)) digits
      rw [if_neg hnext, if_neg fun hlt => hnext (hle.trans_lt hlt)]

theorem numberBelow_plus (bound : Nat) {digits : List Char} (h : digits ≠ []) :
    numberBelow bound (String.ofList ('+' :: digits)) = decimalBelow bound 0 digits := by
  obtain ⟨c, rest, rfl⟩ := List.exists_cons_of_ne_nil h
  rw [numberBelow, String.toList_ofList]
  rfl

theorem numberBelow_digits (bound : Nat) {digits : List Char} (h : digits ≠ [])
    (hdigits : ∀ c ∈ digits, c.isDigit) :
    numberBelow bound (String.ofList digits) = decimalBelow bound 0 digits := by
  obtain ⟨c, rest, rfl⟩ := List.exists_cons_of_ne_nil h
  have hplus : c ≠ '+' := by
    rintro rfl
    exact absurd (hdigits '+' List.mem_cons_self) (by decide)
  rw [numberBelow, String.toList_ofList]
  split <;> simp_all

/-- **A number that is written in decimal is read back**, if it lies below the bound. -/
theorem numberBelow_eq {bound n : Nat} (hbound : 0 < bound) {text : String}
    (h : NumberText n text) :
    numberBelow bound text = if n < bound then .ok n else .error .tooLarge := by
  have hnil : ∀ zeros, List.replicate zeros '0' ++ Nat.toDigits 10 n ≠ [] := by
    simp [Nat.toDigits_ne_nil]
  have hdigits : ∀ zeros, ∀ c ∈ List.replicate zeros '0' ++ Nat.toDigits 10 n, c.isDigit :=
    fun zeros c hc => by
      obtain hzero | hdigit := List.mem_append.mp hc
      · rw [List.eq_of_mem_replicate hzero]
        rfl
      · exact Nat.isDigit_of_mem_toDigits (by decide) le_rfl hdigit
  have hread : ∀ zeros, decimalBelow bound 0 (List.replicate zeros '0' ++ Nat.toDigits 10 n) =
      if n < bound then .ok n else .error .tooLarge := fun zeros => by
    rw [decimalBelow_eq hbound (hdigits zeros), Nat.ofDigitChars_append,
      Nat.ofDigitChars_replicate_zero, Nat.mul_zero, Nat.ofDigitChars_ten_toDigits]
  cases h with
  | unsigned zeros => rw [numberBelow_digits bound (hnil zeros) (hdigits zeros), hread]
  | plus zeros => rw [numberBelow_plus bound (hnil zeros), hread]

/-! ## How options are spelled -/

/-- A value that is not empty and begins with another character than this one. -/
def BeginsOtherThan (c : Char) (value : String) : Prop :=
  ∃ first rest, value.toList = first :: rest ∧ first ≠ c

/-- **How an option may be spelled**, without a value or with one: by its name or its letter, and
with the value in an argument of its own, behind an equals sign, or right behind the letter. -/
inductive OptionText (o : CliOption) : Option String → List String → Prop where
  | flag : OptionText o none ["--" ++ o.long]
  | nameApart {value : String} (h : BeginsOtherThan '-' value) :
    OptionText o (some value) ["--" ++ o.long, value]
  | nameEquals (value : String) : OptionText o (some value) ["--" ++ o.long ++ "=" ++ value]
  | letterApart {letter : Char} {value : String} (hletter : o.short? = some letter)
    (h : BeginsOtherThan '-' value) : OptionText o (some value) ["-" ++ letter.toString, value]
  | letterAttached {letter : Char} {value : String} (hletter : o.short? = some letter)
    (h : BeginsOtherThan '=' value) : OptionText o (some value) ["-" ++ letter.toString ++ value]
  | letterEquals {letter : Char} (value : String) (hletter : o.short? = some letter) :
    OptionText o (some value) ["-" ++ letter.toString ++ "=" ++ value]

/-- An option that is given, with what it says. -/
inductive Occurrence where
  | config (path : String)
  | listen (address : String)
  | concurrent
  | maxSessions (n : Nat)
  | logLevel (level : String)
  deriving DecidableEq, Repr

namespace Occurrence

def option : Occurrence → CliOption
  | config _ => .config
  | listen _ => .listen
  | concurrent => .concurrent
  | maxSessions _ => .maxSessions
  | logLevel _ => .logLevel

/-- The text of the value, if there is one.  There is none for an empty path. -/
inductive ValueText : Occurrence → Option String → Prop where
  | config {path : String} (h : path ≠ "") : ValueText (.config path) (some path)
  | listen (address : String) : ValueText (.listen address) (some address)
  | concurrent : ValueText .concurrent none
  | maxSessions {n : Nat} {text : String} (h : NumberText n text) :
    ValueText (.maxSessions n) (some text)
  | logLevel (level : String) : ValueText (.logLevel level) (some level)

/-- A number of sessions fits into 64 bits. -/
def Fits : Occurrence → Prop
  | maxSessions n => n < 2 ^ 64
  | _ => True

end Occurrence

/-- An option that is given, with a text of its value. -/
structure Written where
  occurrence : Occurrence
  value? : Option String
  valueText : occurrence.ValueText value?

/-- **How options that come one after the other may be spelled.** -/
inductive CommandLine : List Written → List String → Prop where
  | nil : CommandLine [] []
  | cons {w : Written} {ws : List Written} {piece arguments : List String}
    (hpiece : OptionText w.occurrence.option w.value? piece) (h : CommandLine ws arguments) :
    CommandLine (w :: ws) (piece ++ arguments)

/-- **The options that settings are given with.** -/
def Arguments.given (a : Arguments) : List Occurrence :=
  (a.config.map .config).toList ++ (a.listen.map .listen).toList ++
    (if a.concurrent then [.concurrent] else []) ++ (a.maxSessions.map .maxSessions).toList ++
    (a.logLevel.map .logLevel).toList

/-! ## Reading one option -/

/-- A value where the option takes one, and none where it does not. -/
def CliOption.Takes (o : CliOption) (value? : Option String) : Prop :=
  value?.isSome = o.valueName?.isSome

theorem Occurrence.ValueText.takes {occurrence : Occurrence} {value? : Option String}
    (h : occurrence.ValueText value?) : occurrence.option.Takes value? := by
  cases h <;> rfl

namespace CliOption

theorem ofLong?_long (o : CliOption) : ofLong? o.long.toList = some o := by
  cases o <;> simp [ofLong?, all, long]

theorem ofShort?_of_short? {o : CliOption} {letter : Char} (h : o.short? = some letter) :
    ofShort? letter = some o ∧ letter ≠ '-' := by
  cases o <;> cases h <;> decide

theorem ne_equals_of_mem_long (o : CliOption) : ∀ c ∈ o.long.toList, decide (c ≠ '=') := by
  cases o <;> simp [long]

theorem long_ne_nil (o : CliOption) : o.long.toList ≠ [] := by
  cases o <;> simp [long]

end CliOption

namespace Progress

variable {p : Progress}

/-- The settings of a command line that ends here. -/
def finish (p : Progress) : Except ArgumentError Arguments := do
  let p ← p.settle
  return p.arguments

theorem finish_pending (a : Arguments) (o : CliOption) (value? : Option String) :
    finish { arguments := a, pending := some (o, value?) } = a.take o value? := by
  simp only [finish, settle]
  cases a.take o value? <;> rfl

theorem settle_eq (hp : p.trailing = false) :
    p.settle = p.finish.map fun a => { arguments := a } := by
  obtain ⟨a, pending, trailing⟩ := p
  obtain rfl : trailing = false := hp
  cases pending with
  | none => rfl
  | some pair =>
    simp only [finish, settle]
    cases a.take pair.1 pair.2 <;> rfl

/-- An option whose value comes later is open from now on. -/
theorem option_open (hp : p.trailing = false) {o : CliOption} (ho : o.valueName?.isSome) :
    p.option o none = p.finish.map fun a => { arguments := a, pending := some (o, none) } := by
  obtain ⟨name, hname⟩ := Option.isSome_iff_exists.mp ho
  rw [option, settle_eq hp, hname]
  cases p.finish <;> rfl

/-- An option with all that belongs to it is taken over at once. -/
theorem option_closed (hp : p.trailing = false) {o : CliOption} {value? : Option String}
    (h : o.Takes value?) :
    p.option o value? =
      (p.finish >>= fun a => a.take o value?).map fun a => { arguments := a } := by
  rw [option, settle_eq hp]
  cases p.finish with
  | error error => rfl
  | ok a =>
    simp only [Except.map, bind, Except.bind]
    split
    · next hname => simp [CliOption.Takes, hname] at h
    · next attached? _ _ _ => cases a.take o attached? <;> rfl

theorem next_value (hp : p.trailing = false) {value : String} (h : BeginsOtherThan '-' value) :
    p.next value = p.plain value := by
  obtain ⟨c, rest, htext, hc⟩ := h
  rw [next, if_neg (by simp [hp]), htext]
  split <;> simp_all

theorem next_longName (hp : p.trailing = false) (o : CliOption) (text : String) :
    p.next ("--" ++ o.long ++ text) = p.longName (o.long.toList ++ text.toList) := by
  obtain ⟨c, rest, hlong⟩ := List.exists_cons_of_ne_nil o.long_ne_nil
  have htext : ("--" ++ o.long ++ text).toList = '-' :: '-' :: c :: (rest ++ text.toList) := by
    simp [hlong]
  rw [next, if_neg (by simp [hp]), htext, hlong]
  rfl

theorem longName_long (o : CliOption) : p.longName o.long.toList = p.option o none := by
  have hname := o.ne_equals_of_mem_long
  simp only [longName, List.takeWhile_eq_self_iff.mpr hname, List.dropWhile_eq_nil_iff.mpr hname,
    o.ofLong?_long]

theorem longName_equals {o : CliOption} (ho : o.valueName?.isSome) (value : String) :
    p.longName (o.long.toList ++ '=' :: value.toList) = p.option o (some value) := by
  obtain ⟨name, hname⟩ := Option.isSome_iff_exists.mp ho
  have hlong := o.ne_equals_of_mem_long
  simp only [longName, List.takeWhile_append_of_pos hlong, List.dropWhile_append_of_pos hlong,
    List.takeWhile_cons, List.dropWhile_cons]
  simp [o.ofLong?_long, hname]

theorem next_letter (hp : p.trailing = false) {o : CliOption} {letter : Char}
    (hletter : o.short? = some letter) (ho : o.valueName?.isSome) (text : String) :
    p.next ("-" ++ letter.toString ++ text) = p.option o (attachedValue? text.toList) := by
  obtain ⟨name, hname⟩ := Option.isSome_iff_exists.mp ho
  obtain ⟨hofShort, hdash⟩ := CliOption.ofShort?_of_short? hletter
  have htext : ("-" ++ letter.toString ++ text).toList = '-' :: letter :: text.toList := by
    simp
  rw [next, if_neg (by simp [hp]), htext]
  split
  · simp_all
  · simp_all
  · next h =>
    cases h
    simp only [letters, hofShort, hname]
  · simp_all

/-- **What reading some arguments comes to**: an option is taken over behind all that came before,
and more options may come. -/
structure TakesOver (p : Progress) (piece : List String) (o : CliOption)
    (value? : Option String) : Prop where
  finish : (piece.foldlM next p >>= finish) = (p.finish >>= fun a => a.take o value?)
  trailing : ∀ q, piece.foldlM next p = .ok q → q.trailing = false

theorem takesOver_closed (hp : p.trailing = false) {o : CliOption} {value? : Option String}
    (ho : o.Takes value?) {argument : String} (h : p.next argument = p.option o value?) :
    p.TakesOver [argument] o value? := by
  have hread : [argument].foldlM next p =
      (p.finish >>= fun a => a.take o value?).map fun a => { arguments := a } := by
    rw [List.foldlM_cons, h, option_closed hp ho]
    cases p.finish >>= fun a => a.take o value? <;> rfl
  constructor
  · rw [hread]
    cases p.finish >>= fun a => a.take o value? <;> rfl
  · rw [hread]
    cases p.finish >>= fun a => a.take o value? with
    | error error => exact fun q hq => nomatch hq
    | ok a => exact fun q hq => Except.ok.inj hq ▸ rfl

/-- An option whose value stands apart is taken over when that has come. -/
theorem takesOver_open (hp : p.trailing = false) {o : CliOption} {value : String}
    (ho : o.Takes (some value)) (hvalue : BeginsOtherThan '-' value) {argument : String}
    (h : p.next argument = p.option o none) : p.TakesOver [argument, value] o (some value) := by
  have hread : [argument, value].foldlM next p =
      p.finish.map fun a => { arguments := a, pending := some (o, some value) } := by
    rw [List.foldlM_cons, h, option_open hp ho.symm]
    cases p.finish with
    | error error => rfl
    | ok a =>
      have hplain := next_value (p := { arguments := a, pending := some (o, none) }) rfl hvalue
      simp only [Except.map, bind, Except.bind, List.foldlM_cons, hplain]
      rfl
  constructor
  · rw [hread]
    cases p.finish with
    | error error => rfl
    | ok a => exact finish_pending a o (some value)
  · rw [hread]
    cases p.finish with
    | error error => exact fun q hq => nomatch hq
    | ok a => exact fun q hq => Except.ok.inj hq ▸ rfl

/-- **Reading an option, however it is spelled, takes it over.** -/
theorem takesOver (hp : p.trailing = false) {o : CliOption} {value? : Option String}
    {piece : List String} (h : OptionText o value? piece) (ho : o.Takes value?) :
    p.TakesOver piece o value? := by
  have hname : p.next ("--" ++ o.long) = p.option o none := by
    have hread := next_longName hp o ""
    rwa [String.append_empty, String.toList_empty, List.append_nil, longName_long] at hread
  cases h with
  | flag => exact takesOver_closed hp ho hname
  | nameApart hvalue => exact takesOver_open hp ho hvalue hname
  | nameEquals value =>
    refine takesOver_closed hp ho ?_
    rw [String.append_assoc, next_longName hp, ← longName_equals ho.symm]
    simp
  | letterApart hletter hvalue =>
    refine takesOver_open hp ho hvalue ?_
    have hread := next_letter hp hletter ho.symm ""
    rwa [String.append_empty] at hread
  | @letterAttached letter value hletter hvalue =>
    refine takesOver_closed hp ho ?_
    obtain ⟨c, rest, htext, hc⟩ := hvalue
    rw [next_letter hp hletter ho.symm, htext, attachedValue?, ← htext, String.ofList_toList]
    · simp
    · simpa using hc
  | letterEquals value hletter =>
    refine takesOver_closed hp ho ?_
    rw [String.append_assoc, next_letter hp hletter ho.symm, String.toList_append]
    simp [attachedValue?]

end Progress

/-! ## Reading a command line -/

/-- Takes over an option with its value as it is written. -/
def Arguments.takeWritten (a : Arguments) (w : Written) : Except ArgumentError Arguments :=
  a.take w.occurrence.option w.value?

theorem Progress.foldlM_next_finish {ws : List Written} {arguments : List String}
    (h : CommandLine ws arguments) {p : Progress} (hp : p.trailing = false) :
    (arguments.foldlM next p >>= finish) = (p.finish >>= ws.foldlM Arguments.takeWritten) := by
  induction h generalizing p with
  | nil => cases hfinish : p.finish <;> exact hfinish
  | @cons w ws piece arguments hpiece _ ih =>
    obtain ⟨hfinish, htrailing⟩ := p.takesOver hp hpiece w.valueText.takes
    calc ((piece ++ arguments).foldlM next p >>= finish)
        = (piece.foldlM next p >>= fun q => arguments.foldlM next q >>= finish) := by
          rw [List.foldlM_append, bind_assoc]
      _ = (piece.foldlM next p >>= fun q => q.finish >>= ws.foldlM Arguments.takeWritten) := by
          cases hq : piece.foldlM next p with
          | error error => rfl
          | ok q => exact ih (htrailing q hq)
      _ = (p.finish >>= fun a => a.takeWritten w >>= ws.foldlM Arguments.takeWritten) := by
          rw [← bind_assoc, hfinish, bind_assoc]
          rfl
      _ = _ := by simp only [List.foldlM_cons]

/-- **Reading a command line takes over its options**, from left to right. -/
theorem Arguments.parse_eq {ws : List Written} {arguments : List String}
    (h : CommandLine ws arguments) : parse arguments = ws.foldlM takeWritten {} :=
  Progress.foldlM_next_finish h rfl

/-! ## Taking over one option -/

/-- Settings with those of an option. -/
def Arguments.set (a : Arguments) : Occurrence → Arguments
  | .config path => { a with config := some path }
  | .listen address => { a with listen := some address }
  | .concurrent => { a with concurrent := true }
  | .maxSessions n => { a with maxSessions := some n }
  | .logLevel level => { a with logLevel := some level }

namespace Arguments

variable (a : Arguments) (w : Written)

theorem has_set (occurrence : Occurrence) (o : CliOption) :
    (a.set occurrence).has o = (a.has o || o = occurrence.option) := by
  cases occurrence <;> cases o <;> simp [set, has, Occurrence.option]

theorem takeWritten_again (h : a.has w.occurrence.option) :
    a.takeWritten w = .error (.repeated w.occurrence.option) := by
  obtain ⟨occurrence, value?, hvalue⟩ := w
  cases hvalue <;> simp_all [takeWritten, take, Occurrence.option]

theorem takeWritten_new (h : a.has w.occurrence.option = false) (hfits : w.occurrence.Fits) :
    a.takeWritten w = .ok (a.set w.occurrence) := by
  obtain ⟨occurrence, value?, hvalue⟩ := w
  cases hvalue with
  | @maxSessions n text htext =>
    have hread : numberBelow (1 <<< 64) text = .ok n :=
      (numberBelow_eq (by decide) htext).trans (if_pos hfits)
    simp_all [takeWritten, take, Occurrence.option, set]
  | _ => simp_all [takeWritten, take, Occurrence.option, set]

theorem takeWritten_tooLarge (h : a.has w.occurrence.option = false)
    (hfits : ¬ w.occurrence.Fits) :
    ∃ text, w.value? = some text ∧
      a.takeWritten w = .error (.invalidNumber .maxSessions text .tooLarge) := by
  obtain ⟨occurrence, value?, hvalue⟩ := w
  cases hvalue with
  | @maxSessions n text htext =>
    have hread : numberBelow (1 <<< 64) text = .error .tooLarge :=
      (numberBelow_eq (by decide) htext).trans (if_neg hfits)
    exact ⟨text, rfl, by simp_all [takeWritten, take, Occurrence.option]⟩
  | _ => exact absurd trivial hfits

/-! ## Taking over all of them -/

/-- How often an option has been given, before and among others that come. -/
def timesGiven (ws : List Written) (o : CliOption) : Nat :=
  (a.has o).toNat + (ws.map fun w => w.occurrence.option).count o

variable {a} {ws : List Written}

theorem timesGiven_set (h : a.has w.occurrence.option = false) (o : CliOption) :
    (a.set w.occurrence).timesGiven ws o = a.timesGiven (w :: ws) o := by
  rw [timesGiven, timesGiven, has_set, List.map_cons, List.count_cons]
  by_cases ho : o = w.occurrence.option
  · subst ho
    simp [h]
    omega
  · simp [ho, Ne.symm ho]

theorem two_le_timesGiven (h : a.has w.occurrence.option) :
    2 ≤ a.timesGiven (w :: ws) w.occurrence.option := by
  simp [timesGiven, h]
  omega

theorem new_of_once (h : a.timesGiven (w :: ws) w.occurrence.option ≤ 1) :
    a.has w.occurrence.option = false := by
  by_contra hhas
  have htwice : 2 ≤ a.timesGiven (w :: ws) w.occurrence.option :=
    two_le_timesGiven w (Bool.of_not_eq_false hhas)
  omega

/-- **Options that are all different, and fit, are all taken over.** -/
theorem foldlM_takeWritten_once (honce : ∀ o, a.timesGiven ws o ≤ 1)
    (hfits : ∀ w ∈ ws, w.occurrence.Fits) :
    ws.foldlM takeWritten a = .ok ((ws.map Written.occurrence).foldl set a) := by
  induction ws generalizing a with
  | nil => rfl
  | cons w ws ih =>
    obtain ⟨hw, hws⟩ := List.forall_mem_cons.mp hfits
    have hnew := new_of_once w (honce _)
    rw [List.foldlM_cons, takeWritten_new a w hnew hw]
    exact ih (fun o => timesGiven_set w hnew o ▸ honce o) hws

/-- **Where an option is given twice, reading ends at one that is.** -/
theorem foldlM_takeWritten_twice {o : CliOption} (htwice : 2 ≤ a.timesGiven ws o)
    (hfits : ∀ w ∈ ws, w.occurrence.Fits) :
    ∃ o, 2 ≤ a.timesGiven ws o ∧ ws.foldlM takeWritten a = .error (.repeated o) := by
  induction ws generalizing a with
  | nil =>
    have hle := Bool.toNat_le (a.has o)
    simp [timesGiven] at htwice
    omega
  | cons w ws ih =>
    obtain ⟨hw, hws⟩ := List.forall_mem_cons.mp hfits
    rw [List.foldlM_cons]
    cases hhas : a.has w.occurrence.option with
    | true => exact ⟨_, two_le_timesGiven w hhas, by rw [takeWritten_again a w hhas]; rfl⟩
    | false =>
      rw [takeWritten_new a w hhas hw]
      simp only [← timesGiven_set w hhas] at htwice ⊢
      exact ih htwice hws

/-- **Where a number is too large, reading ends at it**, if no option is given twice. -/
theorem foldlM_takeWritten_tooLarge (honce : ∀ o, a.timesGiven ws o ≤ 1)
    (hfits : ∃ w ∈ ws, ¬ w.occurrence.Fits) :
    ∃ w ∈ ws, ∃ text, ¬ w.occurrence.Fits ∧ w.value? = some text ∧
      ws.foldlM takeWritten a = .error (.invalidNumber .maxSessions text .tooLarge) := by
  induction ws generalizing a with
  | nil => simp at hfits
  | cons w ws ih =>
    have hnew := new_of_once w (honce _)
    by_cases hw : w.occurrence.Fits
    · rw [List.foldlM_cons, takeWritten_new a w hnew hw]
      obtain ⟨other, hother, hnot⟩ := hfits
      have hrest : other ∈ ws := by
        obtain rfl | hmem := List.mem_cons.mp hother
        · exact absurd hw hnot
        · exact hmem
      obtain ⟨found, hfound, htail⟩ :=
        ih (fun o => timesGiven_set w hnew o ▸ honce o) ⟨other, hrest, hnot⟩
      exact ⟨found, List.mem_cons_of_mem _ hfound, htail⟩
    · obtain ⟨text, htext, htake⟩ := takeWritten_tooLarge a w hnew hw
      exact ⟨w, List.mem_cons_self, text, hw, htext, by rw [List.foldlM_cons, htake]; rfl⟩

/-! ## The order of options does not matter -/

theorem set_comm (a : Arguments) {first second : Occurrence}
    (h : first.option = second.option → first = second) :
    (a.set first).set second = (a.set second).set first := by
  cases first <;> cases second <;> first | rfl | (cases h rfl; rfl)

theorem foldl_set_given (a : Arguments) : a.given.foldl set {} = a := by
  obtain ⟨config, listen, concurrent, maxSessions, logLevel⟩ := a
  cases config <;> cases listen <;> cases concurrent <;> cases maxSessions <;> cases logLevel <;>
    rfl

theorem nodup_given (a : Arguments) : (a.given.map Occurrence.option).Nodup := by
  obtain ⟨config, listen, concurrent, maxSessions, logLevel⟩ := a
  cases config <;> cases listen <;> cases concurrent <;> cases maxSessions <;> cases logLevel <;>
    simp [given, Occurrence.option]

theorem foldl_set_of_perm {a : Arguments} {occurrences : List Occurrence}
    (h : occurrences.Perm a.given) : occurrences.foldl set {} = a := by
  calc occurrences.foldl set {} = a.given.foldl set {} := by
        refine h.foldl_eq' (fun first hfirst second hsecond a' => set_comm a' fun hsame => ?_) {}
        exact List.inj_on_of_nodup_map a.nodup_given (h.mem_iff.mp hfirst) (h.mem_iff.mp hsecond)
          hsame
    _ = a := foldl_set_given a

theorem timesGiven_nil (ws : List Written) (o : CliOption) :
    ({} : Arguments).timesGiven ws o =
      ((ws.map Written.occurrence).map Occurrence.option).count o := by
  have hnone : ({} : Arguments).has o = false := by cases o <;> rfl
  rw [timesGiven, hnone, List.map_map]
  exact Nat.zero_add _

theorem maxSessions_mem_given {a : Arguments} {n : Nat} :
    .maxSessions n ∈ a.given ↔ a.maxSessions = some n := by
  cases hconcurrent : a.concurrent <;> simp [given, hconcurrent]

theorem fit_iff (a : Arguments) : a.Fit ↔ ∀ occurrence ∈ a.given, occurrence.Fits := by
  refine ⟨fun h occurrence hgiven => ?_, fun h n hn => h _ (maxSessions_mem_given.mpr hn)⟩
  cases occurrence with
  | maxSessions n => exact h n (maxSessions_mem_given.mp hgiven)
  | _ => trivial

/-- **A command line is read back as it is spelled**: settings whose options are given in any order
and in any spelling are read just so, and what is not given is absent.  One of the options given
again is refused as a repetition, and a number of sessions that does not fit into 64 bits is refused
as too large. -/
theorem parse_of_commandLine {ws : List Written} {arguments : List String}
    (h : CommandLine ws arguments) (a : Arguments) :
    (a.Fit → (ws.map Written.occurrence).Perm a.given → parse arguments = .ok a) ∧
    (∀ again : Occurrence, again.option ∈ a.given.map Occurrence.option → a.Fit → again.Fits →
      (ws.map Written.occurrence).Perm (again :: a.given) →
      parse arguments = .error (.repeated again.option)) ∧
    (∀ n ∈ a.maxSessions, 2 ^ 64 ≤ n → (ws.map Written.occurrence).Perm a.given →
      ∃ w ∈ ws, ∃ text, w.occurrence = .maxSessions n ∧ w.value? = some text ∧
        parse arguments = .error (.invalidNumber .maxSessions text .tooLarge)) := by
  have honce : (ws.map Written.occurrence).Perm a.given →
      ∀ o, ({} : Arguments).timesGiven ws o ≤ 1 := fun hperm o => by
    rw [timesGiven_nil, (hperm.map Occurrence.option).count_eq]
    exact List.nodup_iff_count_le_one.mp a.nodup_given o
  rw [parse_eq h]
  refine ⟨fun hfit hperm => ?_, fun again hagain hfit hfits hperm => ?_,
    fun n hn hlarge hperm => ?_⟩
  · have hfits : ∀ w ∈ ws, w.occurrence.Fits := fun w hw =>
      a.fit_iff.mp hfit _ (hperm.mem_iff.mp (List.mem_map_of_mem hw))
    rw [foldlM_takeWritten_once (honce hperm) hfits, foldl_set_of_perm hperm]
  · have hall : ∀ w ∈ ws, w.occurrence.Fits := fun w hw =>
      (List.forall_mem_cons (l := a.given)).mpr ⟨hfits, a.fit_iff.mp hfit⟩ _
        (hperm.mem_iff.mp (List.mem_map_of_mem hw))
    have hcount : ∀ o, ({} : Arguments).timesGiven ws o =
        (a.given.map Occurrence.option).count o + if again.option = o then 1 else 0 := fun o => by
      rw [timesGiven_nil, (hperm.map Occurrence.option).count_eq, List.map_cons, List.count_cons]
      simp
    have hgiven := List.nodup_iff_count_le_one.mp a.nodup_given
    have htwice : 2 ≤ ({} : Arguments).timesGiven ws again.option := by
      have hpos := List.count_pos_iff.mpr hagain
      rw [hcount, if_pos rfl]
      omega
    obtain ⟨o, ho, hread⟩ := foldlM_takeWritten_twice htwice hall
    have hsame : again.option = o := by
      by_contra hne
      have hle := hgiven o
      rw [hcount, if_neg hne] at ho
      omega
    rw [hread, hsame]
  · have hmem := hperm.mem_iff.mpr (maxSessions_mem_given.mpr hn)
    obtain ⟨w, hw, hoccurrence⟩ := List.mem_map.mp hmem
    have hunfit : ¬ w.occurrence.Fits := hoccurrence ▸ Nat.not_lt.mpr hlarge
    obtain ⟨found, hfound, text, hfoundUnfit, htext, hread⟩ :=
      foldlM_takeWritten_tooLarge (honce hperm) ⟨w, hw, hunfit⟩
    refine ⟨found, hfound, text, ?_, htext, hread⟩
    have hgiven := hperm.mem_iff.mp (List.mem_map_of_mem hfound)
    cases hfoundOccurrence : found.occurrence with
    | maxSessions m =>
      rw [hfoundOccurrence, maxSessions_mem_given, Option.mem_def.mp hn] at hgiven
      rw [Option.some.inj hgiven]
    | _ => exact absurd (by rw [hfoundOccurrence]; trivial) hfoundUnfit

/-- Several spellings, an option given again, and one session more than 64 bits can count. -/
theorem parse_of_commandLine_spellings :
    parse ["-m=+007", "--config", "a=b", "--concurrent", "-l--x", "--log-level="] =
      .ok { config := some "a=b", listen := some "--x", concurrent := true, maxSessions := some 7,
            logLevel := some "" } ∧
    parse ["-l", "a", "--listen=b"] = .error (.repeated .listen) ∧
    ∃ text, parse ["--concurrent", "-m18446744073709551616"] =
      .error (.invalidNumber .maxSessions text .tooLarge) := by
  have hsessions : OptionText .maxSessions (some "+007") ["-m=+007"] :=
    .letterEquals "+007" (rfl : CliOption.maxSessions.short? = some 'm')
  have hconfig : OptionText .config (some "a=b") ["--config", "a=b"] :=
    .nameApart ⟨'a', _, rfl, by decide⟩
  have hconcurrent : OptionText .concurrent none ["--concurrent"] := .flag
  have hlisten : OptionText .listen (some "--x") ["-l--x"] :=
    .letterAttached (rfl : CliOption.listen.short? = some 'l') ⟨'-', _, rfl, by decide⟩
  have hlevel : OptionText .logLevel (some "") ["--log-level="] := .nameEquals ""
  have hfirst : OptionText .listen (some "a") ["-l", "a"] :=
    .letterApart (rfl : CliOption.listen.short? = some 'l') ⟨'a', _, rfl, by decide⟩
  have hagain : OptionText .listen (some "b") ["--listen=b"] := .nameEquals "b"
  have hmany : OptionText .maxSessions (some "18446744073709551616") ["-m18446744073709551616"] :=
    .letterAttached (rfl : CliOption.maxSessions.short? = some 'm') ⟨'1', _, rfl, by decide⟩
  refine ⟨?_, ?_, ?_⟩
  · have h : CommandLine
        [⟨.maxSessions 7, "+007", .maxSessions (.plus 2)⟩,
          ⟨.config "a=b", _, .config (by decide)⟩, ⟨.concurrent, _, .concurrent⟩,
          ⟨.listen "--x", _, .listen _⟩, ⟨.logLevel "", _, .logLevel _⟩] _ :=
      .cons hsessions (.cons hconfig (.cons hconcurrent (.cons hlisten (.cons hlevel .nil))))
    exact (parse_of_commandLine h _).1 (by simp [Fit]) (by decide)
  · have h : CommandLine [⟨.listen "a", _, .listen _⟩, ⟨.listen "b", _, .listen _⟩] _ :=
      .cons hfirst (.cons hagain .nil)
    exact (parse_of_commandLine h { listen := some "a" }).2.1 (.listen "b") (by decide)
      (by simp [Fit]) trivial (by decide)
  · have h : CommandLine
        [⟨.concurrent, _, .concurrent⟩,
          ⟨.maxSessions (2 ^ 64), "18446744073709551616", .maxSessions (.unsigned 0)⟩] _ :=
      .cons hconcurrent (.cons hmany .nil)
    obtain ⟨w, -, text, -, -, hread⟩ :=
      (parse_of_commandLine h { concurrent := true, maxSessions := some (2 ^ 64) }).2.2 (2 ^ 64) rfl
        le_rfl (by decide)
    exact ⟨text, hread⟩

end Arguments

end DeflateEcho.Settings
