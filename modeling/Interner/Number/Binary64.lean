/-!
Double-precision numbers as words, computed exactly. A finite number is a natural multiple of
2^-1074, up to sign; products, quotients and integers round to the nearest word, ties to even.
-/

namespace Interner

structure Binary64 where
  bits : BitVec 64
  deriving DecidableEq, Repr

namespace Binary64

def negative (x : Binary64) : Bool := x.bits.msb

def magnitude (x : Binary64) : Nat := x.bits.toNat % Nat.pow 2 63

def exponent (x : Binary64) : Nat := x.magnitude / Nat.pow 2 52

def fraction (x : Binary64) : Nat := x.magnitude % Nat.pow 2 52

def infinity : Nat := 2047 * Nat.pow 2 52

def isFinite (x : Binary64) : Bool := x.magnitude < infinity

def isNaN (x : Binary64) : Bool := infinity < x.magnitude

/-- The absolute value of a finite number in units of 2^-1074. -/
def units (x : Binary64) : Nat :=
  if x.exponent = 0 then x.fraction else (Nat.pow 2 52 + x.fraction) * Nat.pow 2 (x.exponent - 1)

def unitsPerOne : Nat := Nat.pow 2 1074

def one : Binary64 := ⟨0x3ff0000000000000#64⟩

def negate (x : Binary64) : Binary64 := ⟨x.bits ^^^ 0x8000000000000000#64⟩

/-- Equality of numbers: zeros of either sign are equal, and a NaN equals nothing. -/
def sameValue (x y : Binary64) : Bool :=
  !x.isNaN && !y.isNaN && (x.bits == y.bits || (x.magnitude == 0 && y.magnitude == 0))

/-- Rounds a quotient of naturals to the nearest natural, a half to the even neighbour. -/
def roundQuotient (numerator denominator : Nat) : Nat :=
  let whole := numerator / denominator
  let rest := numerator % denominator
  if denominator < 2 * rest ∨ (2 * rest = denominator ∧ whole % 2 = 1) then whole + 1 else whole

/-- The word nearest to `numerator / denominator` units. Adding the rounded significand to the
shifted exponent carries into the exponent where rounding reaches the next power of two. -/
def nearestWord (numerator denominator : Nat) : Nat :=
  let shift := Nat.log2 (numerator / denominator) - 52
  min (shift * Nat.pow 2 52 + roundQuotient numerator (denominator * Nat.pow 2 shift)) infinity

def nearest (numerator denominator : Nat) : Binary64 :=
  ⟨BitVec.ofNat 64 (nearestWord numerator denominator)⟩

def ofNat (n : Nat) : Binary64 := nearest (n * unitsPerOne) 1

def times (x y : Binary64) : Binary64 := nearest (x.units * y.units) unitsPerOne

def dividedBy (x y : Binary64) : Binary64 := nearest (x.units * unitsPerOne) y.units

def wordLimit : Nat := Nat.pow 2 64

/-- The integer part as a 64-bit word: too large gives the largest word, negative or NaN gives zero. -/
def floorWord (x : Binary64) : Nat :=
  if x.negative || x.isNaN then 0
  else if x.isFinite then min (x.units / unitsPerOne) (wordLimit - 1)
  else wordLimit - 1

end Binary64

end Interner
