import Interner.Number.Binary64

namespace Interner

structure Numeral where
  negative : Bool
  coefficient : Nat
  exponent : Int
  integral : Bool
  deriving DecidableEq, Repr

namespace Numeral

/-- An integer from 0 up to the largest 64-bit word. A minus sign makes it none, even before 0. -/
def toWord? (n : Numeral) : Option Nat :=
  if n.integral && !n.negative && n.exponent == 0 && n.coefficient < Binary64.wordLimit
  then some n.coefficient else none

def powerLimit : Nat := 400

/-- The nearest number, ties to even. A magnitude that rounds past the largest finite number has
none. Exponents beyond the limits round like the limits themselves. -/
def toBinary64? (n : Numeral) : Option Binary64 :=
  let x :=
    if 0 ≤ n.exponent then
      Binary64.nearest
        (n.coefficient * Nat.pow 10 (min n.exponent.toNat powerLimit) * Binary64.unitsPerOne) 1
    else
      Binary64.nearest (n.coefficient * Binary64.unitsPerOne)
        (Nat.pow 10 (min (-n.exponent).toNat (Nat.log2 n.coefficient + 1 + powerLimit)))
  if x.isFinite then some (if n.negative then x.negate else x) else none

end Numeral

end Interner
