/-!
# Number/Binary64 — floating-point numbers of 64 bits, read from decimals

A finite number is a mantissa below `2 ^ 53` times a power of two from `2 ^ (-1074)` to
`2 ^ 971`, the mantissa at least `2 ^ 52` unless the power is the least one.  `ofDecimal` takes the
nearest of these to an exact decimal, the even one of two that are equally near; all of it is
arithmetic on natural numbers.
-/

namespace DeflateEcho.Number

/-- A floating-point number of 64 bits. -/
inductive Binary64 where
  | nan
  | infinite (negative : Bool)
  /-- The number `mantissa * 2 ^ exponent`, with its sign. -/
  | finite (negative : Bool) (mantissa : Nat) (exponent : Int)
  deriving DecidableEq, Repr

namespace Binary64

/-- The exponent of the least positive number. -/
def minExponent : Int := -1074

/-- The exponent of the greatest finite numbers. -/
def maxExponent : Int := 971

/-- The quotient of two numbers, to the nearest whole number; a half goes to the even neighbour. -/
def roundDiv (num den : Nat) : Nat :=
  let quotient := num / den
  let twice := 2 * (num % den)
  if twice < den ∨ (twice = den ∧ quotient % 2 = 0) then quotient else quotient + 1

/-- A quotient over a power of two, to the nearest whole number. -/
def scaled (num den : Nat) (exponent : Int) : Nat :=
  if 0 ≤ exponent then roundDiv num (den <<< exponent.toNat)
  else roundDiv (num <<< (-exponent).toNat) den

/-- The exponent with which a positive quotient has a mantissa of 53 bits, before rounding. -/
def exponentOf (num den : Nat) : Int :=
  let guess : Int := (num.log2 : Int) - (den.log2 : Int) - 52
  let full :=
    if 0 ≤ guess then den <<< (52 + guess.toNat) ≤ num
    else den <<< 52 ≤ num <<< (-guess).toNat
  if full then guess else guess - 1

/-- The nearest number to a quotient. -/
def ofQuotient (negative : Bool) (num den : Nat) : Binary64 :=
  if num = 0 then finite negative 0 minExponent
  else
    let exponent := max minExponent (exponentOf num den)
    let mantissa := scaled num den exponent
    let (mantissa, exponent) :=
      if mantissa = 1 <<< 53 then (1 <<< 52, exponent + 1) else (mantissa, exponent)
    if maxExponent < exponent then infinite negative else finite negative mantissa exponent

/-- A power of ten. -/
def tenTo (exponent : Nat) : Nat := Nat.pow 10 exponent

/-- How many digits a number has. -/
def decimalsOf (digits : Nat) : Nat := (Nat.toDigits 10 digits).length

/-- **The nearest number to a decimal** `digits * 10 ^ exponent`.  A decimal that is far out of
range is decided by its number of digits. -/
def ofDecimal (negative : Bool) (digits : Nat) (exponent : Int) : Binary64 :=
  let magnitude := exponent + decimalsOf digits
  if digits = 0 then finite negative 0 minExponent
  else if 400 < magnitude then infinite negative
  else if magnitude < -400 then finite negative 0 minExponent
  else if 0 ≤ exponent then ofQuotient negative (digits * tenTo exponent.toNat) 1
  else ofQuotient negative digits (tenTo (-exponent).toNat)

end Binary64

end DeflateEcho.Number
