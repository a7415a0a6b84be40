import Interner.Number.Binary64
import Mathlib.Algebra.Order.Ring.Nat
import Mathlib.Data.Nat.Log
import Mathlib.Order.Monotone.Basic

/-!
Rounding to the nearest double. It is monotone, keeps every number that is a double already, and
integers below 2^53 are doubles. A word is read as `shift * 2^52 + significand`, which stands for
`significand * 2^shift` units also where the significand carries into the exponent.
-/

namespace Interner.Binary64

/-- What a magnitude stands for, in units. -/
def unitsAt (magnitude : Nat) : Nat :=
  if magnitude / 2 ^ 52 = 0 then magnitude % 2 ^ 52
  else (2 ^ 52 + magnitude % 2 ^ 52) * 2 ^ (magnitude / 2 ^ 52 - 1)

theorem units_eq (x : Binary64) : x.units = unitsAt x.magnitude := rfl

/-- The pairs of shift and significand that occur in words. -/
structure Normal (shift significand : Nat) : Prop where
  top : significand ≤ 2 ^ 53
  bottom : shift = 0 ∨ 2 ^ 52 ≤ significand

theorem exists_normal (magnitude : Nat) :
    ∃ shift significand, magnitude = shift * 2 ^ 52 + significand ∧ significand < 2 ^ 53 ∧
      Normal shift significand := by
  refine ⟨magnitude / 2 ^ 52 - 1, magnitude - (magnitude / 2 ^ 52 - 1) * 2 ^ 52, ?_, ?_, ?_, ?_⟩ <;>
    omega

theorem unitsAt_word {shift significand : Nat} (normal : Normal shift significand) :
    unitsAt (shift * 2 ^ 52 + significand) = significand * 2 ^ shift := by
  have top := normal.top
  rcases Nat.lt_or_ge significand (2 ^ 52) with small | large
  · obtain rfl : shift = 0 := normal.bottom.resolve_right (Nat.not_le.mpr small)
    have exponent : (0 * 2 ^ 52 + significand) / 2 ^ 52 = 0 := by omega
    rw [unitsAt, if_pos exponent]
    omega
  · rcases Nat.lt_or_eq_of_le top with inside | carried
    · have exponent : (shift * 2 ^ 52 + significand) / 2 ^ 52 = shift + 1 := by omega
      have fraction : 2 ^ 52 + (shift * 2 ^ 52 + significand) % 2 ^ 52 = significand := by omega
      rw [unitsAt, exponent, if_neg (Nat.succ_ne_zero shift), fraction, Nat.add_sub_cancel]
    · -- the significand has carried: one more in the exponent, and a fraction of zero
      have exponent : (shift * 2 ^ 52 + significand) / 2 ^ 52 = shift + 2 := by omega
      have fraction : 2 ^ 52 + (shift * 2 ^ 52 + significand) % 2 ^ 52 = 2 ^ 52 := by omega
      rw [unitsAt, exponent, if_neg (Nat.succ_ne_zero _), fraction, carried]
      have doubled : 2 ^ (shift + 2 - 1) = 2 * 2 ^ shift := Nat.pow_succ'
      omega

theorem unitsAt_mono : Monotone unitsAt := by
  apply monotone_nat_of_le_succ
  intro magnitude
  obtain ⟨shift, significand, rfl, below, normal⟩ := exists_normal magnitude
  have next : Normal shift (significand + 1) := ⟨below, normal.bottom.imp_right Nat.le_succ_of_le⟩
  rw [Nat.add_assoc, unitsAt_word normal, unitsAt_word next]
  exact Nat.mul_le_mul_right _ (Nat.le_succ significand)

section Quotient

variable {a b c d : Nat}

theorem div_le_div_of_cross (positive : 0 < b) (other : 0 < d) (cross : a * d ≤ c * b) :
    a / b ≤ c / d := by
  rw [Nat.le_div_iff_mul_le other]
  apply Nat.le_of_mul_le_mul_right _ positive
  calc
    a / b * d * b = a / b * b * d := Nat.mul_right_comm _ _ _
    _ ≤ a * d := Nat.mul_le_mul_right d (Nat.div_mul_le_self a b)
    _ ≤ c * b := cross

theorem le_roundQuotient (a b : Nat) : a / b ≤ roundQuotient a b := by
  simp only [roundQuotient]
  split <;> omega

theorem roundQuotient_le (a b : Nat) : roundQuotient a b ≤ a / b + 1 := by
  simp only [roundQuotient]
  split <;> omega

theorem roundQuotient_mul (positive : 0 < b) (n : Nat) : roundQuotient (n * b) b = n := by
  simp only [roundQuotient, Nat.mul_div_cancel n positive, Nat.mul_mod_left]
  rw [if_neg]
  omega

/-- Where two quotients have the same integer part, the remainders decide. -/
theorem roundQuotient_mono_of_whole (positive : 0 < b) (other : 0 < d) (cross : a * d ≤ c * b)
    (same : a / b = c / d) : roundQuotient a b ≤ roundQuotient c d := by
  have first := Nat.div_add_mod a b
  have second := Nat.div_add_mod c d
  have rests : 2 * (a % b) * d ≤ 2 * (c % d) * b := by
    rw [← first, ← second, same, Nat.add_mul, Nat.add_mul, Nat.mul_right_comm b,
      Nat.mul_comm b d, Nat.mul_right_comm d] at cross
    rw [Nat.mul_assoc, Nat.mul_assoc]
    exact Nat.mul_le_mul_left 2 (Nat.le_of_add_le_add_left cross)
  have above : b < 2 * (a % b) → d < 2 * (c % d) := by
    intro more
    apply Nat.lt_of_mul_lt_mul_right (a := b)
    calc
      d * b = b * d := Nat.mul_comm d b
      _ < 2 * (a % b) * d := Nat.mul_lt_mul_of_pos_right more other
      _ ≤ 2 * (c % d) * b := rests
  have reached : 2 * (a % b) = b → d ≤ 2 * (c % d) := by
    intro half
    rw [half, Nat.mul_comm] at rests
    exact Nat.le_of_mul_le_mul_right rests positive
  simp only [roundQuotient, same]
  split
  · rename_i up
    rw [if_pos]
    omega
  · split <;> omega

theorem roundQuotient_mono (positive : 0 < b) (other : 0 < d) (cross : a * d ≤ c * b) :
    roundQuotient a b ≤ roundQuotient c d := by
  rcases Nat.lt_or_eq_of_le (div_le_div_of_cross positive other cross) with less | same
  · calc
      roundQuotient a b ≤ a / b + 1 := roundQuotient_le a b
      _ ≤ c / d := less
      _ ≤ roundQuotient c d := le_roundQuotient c d
  · exact roundQuotient_mono_of_whole positive other cross same

/-- By how many places the significand of a quotient stands above the units. -/
def shiftOf (a b : Nat) : Nat := Nat.log2 (a / b) - 52

def significandOf (a b : Nat) : Nat := roundQuotient a (b * 2 ^ shiftOf a b)

theorem nearestWord_eq (a b : Nat) :
    nearestWord a b = min (shiftOf a b * 2 ^ 52 + significandOf a b) infinity := rfl

theorem shiftOf_mono (positive : 0 < b) (other : 0 < d) (cross : a * d ≤ c * b) :
    shiftOf a b ≤ shiftOf c d := by
  have whole := div_le_div_of_cross positive other cross
  apply Nat.sub_le_sub_right
  rw [Nat.log2_eq_log_two, Nat.log2_eq_log_two]
  exact Nat.log_mono_right whole

theorem normal_shiftOf (a b : Nat) : Normal (shiftOf a b) (significandOf a b) := by
  have whole : a / (b * 2 ^ shiftOf a b) = a / b / 2 ^ shiftOf a b := (Nat.div_div_eq_div_mul ..).symm
  constructor
  · have above : a / b < 2 ^ (53 + shiftOf a b) := by
      calc
        a / b < 2 ^ (Nat.log2 (a / b) + 1) := Nat.lt_log2_self
        _ ≤ 2 ^ (53 + shiftOf a b) := Nat.pow_le_pow_right (by decide) (by rw [shiftOf]; omega)
    have below : a / b / 2 ^ shiftOf a b < 2 ^ 53 := by
      rw [Nat.div_lt_iff_lt_mul (Nat.two_pow_pos _), ← Nat.pow_add]
      exact above
    have rounded := roundQuotient_le a (b * 2 ^ shiftOf a b)
    rw [whole] at rounded
    exact Nat.le_trans rounded below
  · rcases Nat.eq_zero_or_pos (shiftOf a b) with none | some
    · exact .inl none
    · right
      have large : a / b ≠ 0 := by
        intro zero
        rw [shiftOf, zero] at some
        exact absurd some (by decide)
      have reached : 2 ^ (52 + shiftOf a b) ≤ a / b := by
        calc
          2 ^ (52 + shiftOf a b) = 2 ^ Nat.log2 (a / b) := by
            rw [shiftOf] at some ⊢
            congr 1
            omega
          _ ≤ a / b := Nat.log2_self_le large
      have rounded := le_roundQuotient a (b * 2 ^ shiftOf a b)
      rw [whole] at rounded
      refine Nat.le_trans ?_ rounded
      rw [Nat.le_div_iff_mul_le (Nat.two_pow_pos _), ← Nat.pow_add]
      exact reached

/-- Rounding is monotone. -/
theorem nearestWord_mono (positive : 0 < b) (other : 0 < d) (cross : a * d ≤ c * b) :
    nearestWord a b ≤ nearestWord c d := by
  rw [nearestWord_eq, nearestWord_eq]
  apply min_le_min_right
  rcases Nat.lt_or_eq_of_le (shiftOf_mono positive other cross) with less | same
  · -- the smaller one reaches at most the power of two at which the larger one starts
    have top := (normal_shiftOf a b).top
    have bottom : 2 ^ 52 ≤ significandOf c d :=
      (normal_shiftOf c d).bottom.resolve_left (Nat.ne_zero_of_lt less)
    omega
  · have scaled : a * (d * 2 ^ shiftOf c d) ≤ c * (b * 2 ^ shiftOf c d) := by
      rw [← Nat.mul_assoc, ← Nat.mul_assoc]
      exact Nat.mul_le_mul_right _ cross
    have rounded := roundQuotient_mono (Nat.mul_pos positive (Nat.two_pow_pos _))
      (Nat.mul_pos other (Nat.two_pow_pos _)) scaled
    rw [significandOf, significandOf, same]
    exact Nat.add_le_add_left rounded _

end Quotient

theorem nearestWord_unitsAt {magnitude : Nat} (finite : magnitude ≤ infinity) :
    nearestWord (unitsAt magnitude) 1 = magnitude := by
  obtain ⟨shift, significand, rfl, below, normal⟩ := exists_normal magnitude
  have shifted : shiftOf (significand * 2 ^ shift) 1 = shift := by
    rw [shiftOf, Nat.div_one]
    rcases normal.bottom with rfl | large
    · rw [Nat.pow_zero, Nat.mul_one]
      have small : Nat.log2 significand < 53 := by
        rcases Nat.eq_zero_or_pos significand with rfl | positive
        · decide
        · exact (Nat.log2_lt (Nat.ne_of_gt positive)).mpr below
      omega
    · have exponent : Nat.log2 (significand * 2 ^ shift) = 52 + shift := by
        have positive : 0 < 2 ^ shift := Nat.two_pow_pos shift
        rw [Nat.log2_eq_iff (Nat.ne_of_gt (Nat.mul_pos (by omega) positive)), Nat.add_right_comm,
          Nat.pow_add, Nat.pow_add]
        exact ⟨Nat.mul_le_mul_right _ large, Nat.mul_lt_mul_of_pos_right below positive⟩
      omega
  rw [unitsAt_word normal, nearestWord_eq, significandOf, shifted, Nat.one_mul,
    roundQuotient_mul (Nat.two_pow_pos shift), Nat.min_eq_left finite]

theorem nearestWord_of_units {a b magnitude : Nat} (positive : 0 < b) (finite : magnitude ≤ infinity)
    (units : a = unitsAt magnitude * b) : nearestWord a b = magnitude := by
  have exact := nearestWord_unitsAt finite
  apply Nat.le_antisymm
  · rw [← exact]
    exact nearestWord_mono positive Nat.one_pos (by rw [Nat.mul_one, units])
  · rw [← exact]
    exact nearestWord_mono Nat.one_pos positive (by rw [Nat.mul_one, units])

theorem nearestWord_le (a b : Nat) : nearestWord a b ≤ infinity := min_le_right _ _

theorem infinity_lt : infinity < 2 ^ 63 := by decide

section Words

variable {word : Nat}

def ofWord (word : Nat) : Binary64 := ⟨BitVec.ofNat 64 word⟩

theorem magnitude_ofWord (bound : word ≤ infinity) : (ofWord word).magnitude = word := by
  have below := infinity_lt
  simp only [magnitude, ofWord, BitVec.toNat_ofNat, Nat.pow_eq]
  omega

theorem negative_ofWord (bound : word ≤ infinity) : (ofWord word).negative = false := by
  have below := infinity_lt
  simp only [negative, ofWord, BitVec.msb_eq_decide, BitVec.toNat_ofNat, decide_eq_false_iff_not]
  omega

theorem floorWord_mono {other : Nat} (bound : other ≤ infinity) (less : word ≤ other) :
    (ofWord word).floorWord ≤ (ofWord other).floorWord := by
  have inside := Nat.le_trans less bound
  simp only [floorWord, negative_ofWord inside, negative_ofWord bound, isNaN, isFinite, units_eq,
    magnitude_ofWord inside, magnitude_ofWord bound, Nat.not_lt.mpr inside, Nat.not_lt.mpr bound,
    decide_false, Bool.or_self, Bool.false_eq_true, if_false, decide_eq_true_eq]
  by_cases finite : other < infinity
  · rw [if_pos finite, if_pos (Nat.lt_of_le_of_lt less finite)]
    exact min_le_min_right _ (Nat.div_le_div_right (unitsAt_mono less))
  · rw [if_neg finite]
    split
    · exact min_le_right _ _
    · exact Nat.le_refl _

end Words

theorem unitsPerOne_eq {low high : Nat} (total : low + high = 1074) :
    unitsPerOne = 2 ^ low * 2 ^ high := by
  unfold unitsPerOne
  rw [← total]
  exact Nat.pow_add 2 low high

theorem unitsPerOne_pos : 0 < unitsPerOne := by
  obtain ⟨low, high, total⟩ : ∃ low high, low + high = 1074 := ⟨1074, 0, rfl⟩
  rw [unitsPerOne_eq total]
  exact Nat.mul_pos (Nat.two_pow_pos low) (Nat.two_pow_pos high)

theorem exists_word_of_lt {n : Nat} (small : n < 2 ^ 53) :
    ∃ word < infinity, unitsAt word = n * unitsPerOne := by
  rcases Nat.eq_zero_or_pos n with rfl | positive
  · exact ⟨0, by decide, by rw [Nat.zero_mul]; decide⟩
  · have present : n ≠ 0 := Nat.ne_of_gt positive
    have width : Nat.log2 n < 53 := (Nat.log2_lt present).mpr small
    have split : ∀ top, Nat.log2 n ≤ top → 2 ^ top = 2 ^ Nat.log2 n * 2 ^ (top - Nat.log2 n) := by
      intro top bound
      rw [← Nat.pow_add, Nat.add_sub_cancel' bound]
    have normal : Normal (1022 + Nat.log2 n) (n * 2 ^ (52 - Nat.log2 n)) := by
      constructor
      · have above : n ≤ 2 ^ (Nat.log2 n + 1) := Nat.le_of_lt Nat.lt_log2_self
        calc
          n * 2 ^ (52 - Nat.log2 n) ≤ 2 ^ (Nat.log2 n + 1) * 2 ^ (52 - Nat.log2 n) :=
            Nat.mul_le_mul_right _ above
          _ = 2 ^ 53 := by
            rw [← Nat.pow_add]
            congr 1
            omega
      · right
        rw [split 52 (by omega)]
        exact Nat.mul_le_mul_right _ (Nat.log2_self_le present)
    refine ⟨_, ?_, (unitsAt_word normal).trans ?_⟩
    · have top := normal.top
      simp only [infinity, Nat.pow_eq]
      omega
    · rw [unitsPerOne_eq (by omega : 52 - Nat.log2 n + (1022 + Nat.log2 n) = 1074), Nat.mul_assoc]

theorem ofNat_eq {n : Nat} (small : n < 2 ^ 53) :
    ∃ word < infinity, ofNat n = ofWord word ∧ unitsAt word = n * unitsPerOne := by
  obtain ⟨word, finite, units⟩ := exists_word_of_lt small
  refine ⟨word, finite, ?_, units⟩
  have same := nearestWord_of_units Nat.one_pos (Nat.le_of_lt finite)
    (by rw [Nat.mul_one, units] : n * unitsPerOne = unitsAt word * 1)
  rw [ofNat, nearest, same, ofWord]

theorem units_ofNat {n : Nat} (small : n < 2 ^ 53) : (ofNat n).units = n * unitsPerOne := by
  obtain ⟨word, finite, same, units⟩ := ofNat_eq small
  rw [same, units_eq, magnitude_ofWord (Nat.le_of_lt finite), units]

theorem floorWord_ofNat {n : Nat} (small : n < 2 ^ 53) : (ofNat n).floorWord = n := by
  obtain ⟨word, finite, same, units⟩ := ofNat_eq small
  have inside := Nat.le_of_lt finite
  simp only [same, floorWord, negative_ofWord inside, isNaN, isFinite, units_eq,
    magnitude_ofWord inside, Nat.not_lt.mpr inside, finite, decide_true, decide_false, Bool.or_self,
    Bool.false_eq_true, if_false, if_true, units]
  rw [Nat.mul_div_cancel n unitsPerOne_pos, wordLimit, Nat.pow_eq]
  omega

section Arithmetic

variable {x : Binary64} {n bound : Nat}

/-- A rounded product does not pass an integer that the exact product does not pass. -/
theorem floorWord_times_le (small : n < 2 ^ 53) (inside : bound < 2 ^ 53)
    (below : n * x.units ≤ bound * unitsPerOne) : ((ofNat n).times x).floorWord ≤ bound := by
  obtain ⟨word, finite, same, units⟩ := ofNat_eq inside
  have rounded : nearestWord ((ofNat n).units * x.units) unitsPerOne ≤ word := by
    rw [← nearestWord_unitsAt (Nat.le_of_lt finite), units, units_ofNat small]
    apply nearestWord_mono unitsPerOne_pos Nat.one_pos
    rw [Nat.mul_one, Nat.mul_right_comm]
    exact Nat.mul_le_mul_right _ below
  calc
    ((ofNat n).times x).floorWord ≤ (ofWord word).floorWord :=
      floorWord_mono (Nat.le_of_lt finite) rounded
    _ = bound := by rw [← same, floorWord_ofNat inside]

/-- Nor does it stay below an integer that the exact product reaches. -/
theorem le_floorWord_times (small : n < 2 ^ 53) (inside : bound < 2 ^ 53)
    (above : bound * unitsPerOne ≤ n * x.units) : bound ≤ ((ofNat n).times x).floorWord := by
  obtain ⟨word, finite, same, units⟩ := ofNat_eq inside
  have rounded : word ≤ nearestWord ((ofNat n).units * x.units) unitsPerOne := by
    rw [← nearestWord_unitsAt (Nat.le_of_lt finite), units, units_ofNat small]
    apply nearestWord_mono Nat.one_pos unitsPerOne_pos
    rw [Nat.mul_one, Nat.mul_right_comm n]
    exact Nat.mul_le_mul_right _ above
  calc
    bound = (ofWord word).floorWord := by rw [← same, floorWord_ofNat inside]
    _ ≤ ((ofNat n).times x).floorWord := floorWord_mono (nearestWord_le _ _) rounded

theorem units_ofNat_mono {other : Nat} (less : n ≤ other) : (ofNat n).units ≤ (ofNat other).units := by
  have words : ∀ number, (ofNat number).units =
      unitsAt (nearestWord (number * unitsPerOne) 1) := by
    intro number
    rw [units_eq]
    exact congrArg unitsAt (magnitude_ofWord (nearestWord_le _ _))
  rw [words, words]
  apply unitsAt_mono
  apply nearestWord_mono Nat.one_pos Nat.one_pos
  exact Nat.mul_le_mul_right 1 (Nat.mul_le_mul_right unitsPerOne less)

theorem floorWord_times_mono {other : Nat} (less : n ≤ other) :
    ((ofNat n).times x).floorWord ≤ ((ofNat other).times x).floorWord := by
  apply floorWord_mono (nearestWord_le _ _)
  apply nearestWord_mono unitsPerOne_pos unitsPerOne_pos
  exact Nat.mul_le_mul_right _ (Nat.mul_le_mul_right _ (units_ofNat_mono less))

end Arithmetic

end Interner.Binary64
