import Interner.Number.Binary64

namespace Interner

structure Decimal where
  coefficient : Nat
  exponent : Int
  deriving DecidableEq, Repr

namespace Decimal

def digits (d : Decimal) : List Char := Nat.toDigits 10 d.coefficient

/-- How many digits stand before the decimal point; negative when zeros follow it first. -/
def pointAt (d : Decimal) : Int := d.digits.length + d.exponent

/-- All numbers between `low` and `high`, in quarters of a unit, read back as the same word. -/
structure Interval where
  low : Nat
  value : Nat
  high : Nat
  closed : Bool

/-- Below a power of two the words lie twice as close. -/
def Interval.of (x : Binary64) : Interval :=
  let step := Nat.pow 2 (x.exponent - 1)
  let below := if x.fraction = 0 ∧ 1 < x.exponent then step else 2 * step
  ⟨4 * x.units - below, 4 * x.units, 4 * x.units + 2 * step, x.fraction % 2 = 0⟩

def Interval.reaches (i : Interval) (first second : Nat) : Bool :=
  if i.closed then first ≤ second else first < second

/-- The multiple of `10 ^ exponent` in the interval that is nearest to its value; a tie goes up. -/
def Interval.onGrid? (i : Interval) (exponent : Int) : Option Decimal :=
  let up := Nat.pow 10 exponent.toNat * (4 * Binary64.unitsPerOne)
  let down := Nat.pow 10 (-exponent).toNat
  let whole := i.value * down / up
  let rest := i.value * down % up
  let lower := i.reaches (i.low * down) (whole * up)
  let upper := i.reaches ((whole + 1) * up) (i.high * down)
  if lower && (!upper || 2 * rest < up) then some ⟨whole, exponent⟩
  else if upper then some ⟨whole + 1, exponent⟩
  else none

def withoutTrailingZero (d : Decimal) : Decimal :=
  if d.coefficient % 10 = 0 then ⟨d.coefficient / 10, d.exponent + 1⟩ else d

/-- The coarsest grid that meets the interval of a finite number other than zero gives the fewest
digits; the finest grid tried is fine enough for the smallest number. -/
def shortest (x : Binary64) : Decimal :=
  let interval := Interval.of x
  match (List.range 700).findSome? fun (step : Nat) => interval.onGrid? (310 - (step : Int)) with
  | some found => found.withoutTrailingZero
  | none => ⟨x.units * Nat.pow 5 1074, -1074⟩

def positional (d : Decimal) (pointZero : Bool) : List Char :=
  let point := d.pointAt
  if point ≤ 0 then '0' :: '.' :: (List.replicate (-point).toNat '0' ++ d.digits)
  else if point < d.digits.length then d.digits.take point.toNat ++ '.' :: d.digits.drop point.toNat
  else d.digits ++ List.replicate (point.toNat - d.digits.length) '0' ++
    (if pointZero then ['.', '0'] else [])

def scientific (d : Decimal) : List Char :=
  let mantissa := match d.digits with
    | [] => []
    | [only] => [only]
    | first :: rest => first :: '.' :: rest
  mantissa ++ 'e' :: (toString (d.pointAt - 1)).toList

end Decimal

/-- How a number is written: the range of decimal exponents written positionally, if limited, and
whether an integer shows `.0`. -/
structure NumberFormat where
  positionalRange : Option (Int × Int)
  pointZero : Bool

namespace NumberFormat

def plain : NumberFormat := ⟨none, false⟩

def detailed : NumberFormat := ⟨some (-4, 15), true⟩

def isPositional (format : NumberFormat) (d : Decimal) : Bool :=
  match format.positionalRange with
  | none => true
  | some (least, greatest) => decide (least ≤ d.pointAt - 1 ∧ d.pointAt - 1 ≤ greatest)

def unsigned (format : NumberFormat) (x : Binary64) : List Char :=
  if x.magnitude = 0 then if format.pointZero then ['0', '.', '0'] else ['0']
  else
    let d := Decimal.shortest x
    if format.isPositional d then d.positional format.pointZero else d.scientific

def write (format : NumberFormat) (x : Binary64) : String :=
  if x.isNaN then "NaN"
  else
    let body := if x.isFinite then format.unsigned x else "inf".toList
    String.ofList (if x.negative then '-' :: body else body)

end NumberFormat

end Interner
