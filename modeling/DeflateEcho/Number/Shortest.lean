import DeflateEcho.Number.Binary64

/-!
# Number/Shortest — the fewest decimal digits that read back

The decimals with a given last place form a grid.  The coarsest grid that has a point among the
reals that round to a number gives its shortest decimals, and the point nearest to the number is
taken; of two equally near ones, the greater.  If a grid has such a point at all, one of the two
neighbours of the number on it is one, so only these are looked at.
-/

namespace DeflateEcho.Number

/-- The decimal `digits * 10 ^ exponent`. -/
structure Decimal where
  digits : Nat
  exponent : Int
  deriving DecidableEq, Repr

namespace Shortest

/-- The reals that round to a positive finite number, as multiples of a quarter of its last place:
the number itself, the lower and the upper end, and whether the ends belong to it. -/
structure Interval where
  value : Nat
  low : Nat
  high : Nat
  closed : Bool

def interval (mantissa : Nat) (exponent : Int) : Interval where
  value := 4 * mantissa
  low := if mantissa = 1 <<< 52 ∧ Binary64.minExponent < exponent then 4 * mantissa - 1
    else 4 * mantissa - 2
  high := 4 * mantissa + 2
  closed := mantissa % 2 == 0

/-- Whether a point lies in an interval, both on one scale. -/
def Interval.holds (i : Interval) (unit point : Nat) : Bool :=
  if i.closed then i.low * unit ≤ point && point ≤ i.high * unit
  else i.low * unit < point && point < i.high * unit

/-- The point of the grid with last place `10 ^ place` to write, if one reads back. -/
def onGrid (i : Interval) (exponent place : Int) : Option Nat :=
  let quarter := exponent - 2
  let unit := Binary64.tenTo (-place).toNat <<< quarter.toNat
  let step := Binary64.tenTo place.toNat <<< (-quarter).toNat
  let value := i.value * unit
  let below := value / step
  let above := below + 1
  match i.holds unit (below * step), i.holds unit (above * step) with
  | true, true => some (if value - below * step < above * step - value then below else above)
  | true, false => some below
  | false, true => some above
  | false, false => none

/-- Looks at finer and finer grids. -/
def search (i : Interval) (exponent : Int) : (grids : Nat) → (place : Int) → Decimal
  | 0, place => ⟨0, place⟩
  | grids + 1, place =>
    match onGrid i exponent place with
    | some digits => ⟨digits, place⟩
    | none => search i exponent grids (place - 1)

/-- The coarsest place that is looked at; no number has more places before the point. -/
def firstPlace : Int := 310

/-- **The shortest decimal** of a positive finite number. -/
def ofFinite (mantissa : Nat) (exponent : Int) : Decimal :=
  search (interval mantissa exponent) exponent 700 firstPlace

end Shortest

namespace Decimal

/-- A decimal with all its places and always a point. -/
def positional (d : Decimal) : String :=
  let digits := Nat.toDigits 10 d.digits
  if 0 ≤ d.exponent then
    String.ofList (digits ++ List.replicate d.exponent.toNat '0') ++ ".0"
  else
    let places := (-d.exponent).toNat
    let padded := List.replicate (places + 1 - digits.length) '0' ++ digits
    let whole := padded.length - places
    String.ofList (padded.take whole) ++ "." ++ String.ofList (padded.drop whole)

end Decimal

/-- **The text of a number**: its shortest decimal, always with a point and never with an
exponent. -/
def Binary64.text : Binary64 → String
  | nan => "NaN"
  | infinite negative => (if negative then "-" else "") ++ "inf"
  | finite negative mantissa exponent =>
    (if negative then "-" else "")
      ++ (if mantissa = 0 then "0.0" else (Shortest.ofFinite mantissa exponent).positional)

end DeflateEcho.Number
