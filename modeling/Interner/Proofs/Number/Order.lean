import Interner.Proofs.Number.Rounding
import Mathlib.Algebra.Order.Field.Rat
import Mathlib.Algebra.Order.Ring.Cast

namespace Interner.Binary64

variable {x y : Binary64}

def signedUnits (x : Binary64) : Int := if x.negative then -x.units else x.units

/-- The number that a finite double stands for. -/
def value (x : Binary64) : ℚ := x.signedUnits / unitsPerOne

/-- Where a double stands among the others; zeros of either sign stand together. -/
def rank (x : Binary64) : Int := if x.negative then -x.magnitude else x.magnitude

/-- The comparison of doubles, which fails where one of them is a NaN. -/
def atMost (x y : Binary64) : Bool := !x.isNaN && !y.isNaN && decide (x.rank ≤ y.rank)

theorem isNaN_of_finite (finite : x.isFinite = true) : x.isNaN = false := by
  have less : x.magnitude < infinity := of_decide_eq_true finite
  exact decide_eq_false (Nat.not_lt.mpr (Nat.le_of_lt less))

theorem rank_of_positive (positive : x.negative = false) : x.rank = x.magnitude := by
  rw [rank, positive, if_neg Bool.false_ne_true]

theorem value_of_positive (positive : x.negative = false) : x.value = x.units / unitsPerOne := by
  rw [value, signedUnits, positive, if_neg Bool.false_ne_true, Int.cast_natCast]

theorem unitsAt_le_iff {word other : Nat} (finite : word ≤ infinity) (bound : other ≤ infinity) :
    unitsAt word ≤ unitsAt other ↔ word ≤ other := by
  constructor
  · intro less
    rw [← nearestWord_unitsAt finite, ← nearestWord_unitsAt bound]
    exact nearestWord_mono Nat.one_pos Nat.one_pos (Nat.mul_le_mul_right 1 less)
  · exact fun less => unitsAt_mono less

theorem signedUnits_le_iff (finite : x.isFinite = true) (other : y.isFinite = true) :
    x.signedUnits ≤ y.signedUnits ↔ x.rank ≤ y.rank := by
  have first : x.magnitude ≤ infinity := Nat.le_of_lt (of_decide_eq_true finite)
  have second : y.magnitude ≤ infinity := Nat.le_of_lt (of_decide_eq_true other)
  have zero : unitsAt 0 = 0 := by decide
  have upward := unitsAt_le_iff first second
  have downward := unitsAt_le_iff second first
  have none := unitsAt_le_iff first (Nat.zero_le infinity)
  have noneOther := unitsAt_le_iff second (Nat.zero_le infinity)
  simp only [signedUnits, rank, units_eq]
  split <;> split <;> omega

/-- Finite doubles are compared as the numbers they stand for. -/
theorem atMost_iff_value_le (finite : x.isFinite = true) (other : y.isFinite = true) :
    x.atMost y = true ↔ x.value ≤ y.value := by
  have positive : (0 : ℚ) < unitsPerOne := Nat.cast_pos.mpr unitsPerOne_pos
  rw [value, value, div_le_div_iff_of_pos_right positive, Int.cast_le,
    signedUnits_le_iff finite other]
  simp [atMost, isNaN_of_finite finite, isNaN_of_finite other]

/-- An exact bound on a quotient of integers survives its rounding. -/
theorem dividedBy_atMost {n count : Nat} (small : n < 2 ^ 53) (bound : count < 2 ^ 53)
    (some : 0 < count) (finite : x.isFinite = true) (positive : x.negative = false)
    (below : n * unitsPerOne ≤ count * x.units) :
    ((ofNat n).dividedBy (ofNat count)).atMost x = true := by
  have less : x.magnitude < infinity := of_decide_eq_true finite
  have rounded : nearestWord ((ofNat n).units * unitsPerOne) (ofNat count).units ≤ x.magnitude := by
    rw [← nearestWord_unitsAt (Nat.le_of_lt less), ← units_eq, units_ofNat small, units_ofNat bound]
    apply nearestWord_mono (Nat.mul_pos some unitsPerOne_pos) Nat.one_pos
    rw [Nat.mul_one, ← Nat.mul_assoc, Nat.mul_comm x.units]
    exact Nat.mul_le_mul_right _ below
  have same : (ofNat n).dividedBy (ofNat count) =
      ofWord (nearestWord ((ofNat n).units * unitsPerOne) (ofNat count).units) := rfl
  have inside := nearestWord_le ((ofNat n).units * unitsPerOne) (ofNat count).units
  have number : (ofWord (nearestWord ((ofNat n).units * unitsPerOne)
      (ofNat count).units)).isNaN = false := by
    rw [isNaN, magnitude_ofWord inside]
    exact decide_eq_false (Nat.not_lt.mpr inside)
  have bounded : decide (((nearestWord ((ofNat n).units * unitsPerOne) (ofNat count).units : Nat) :
      Int) ≤ x.magnitude) = true := decide_eq_true (Int.ofNat_le.mpr rounded)
  rw [same, atMost, number, isNaN_of_finite finite, rank_of_positive (negative_ofWord inside),
    rank_of_positive positive, magnitude_ofWord inside, bounded]
  rfl

end Interner.Binary64
