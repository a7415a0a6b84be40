import Interner.Generator.Random
import Mathlib.Algebra.BigOperators.Group.Finset.Basic
import Mathlib.Data.FinEnum
import Mathlib.Order.Interval.Finset.Nat

/-!
How an index is drawn. Multiplied by the number of indices, the words that select an index are the
multiples of that number in an interval, and these intervals have one length; so every index has as many
words as any other. A draw reads words until one is accepted, and returns what that word selects.
-/

namespace Interner

variable {n index : Nat} {word : BitVec 64}

namespace DrawStream

theorem clz_eq (positive : 1 ≤ n) (bound : n < 2 ^ 64) :
    (BitVec.ofNat 64 n).clz.toNat = 63 - Nat.log2 n := by
  have value : (BitVec.ofNat 64 n).toNat = n := by
    rw [BitVec.toNat_ofNat, Nat.mod_eq_of_lt bound]
  have nonzero : BitVec.ofNat 64 n ≠ 0#64 := by
    intro zero
    rw [zero, BitVec.toNat_ofNat, Nat.zero_mod] at value
    omega
  have low := BitVec.two_pow_sub_clz_le_toNat_of_ne_zero (by decide) nonzero
  have high := BitVec.toNat_lt_two_pow_sub_clz (x := BitVec.ofNat 64 n)
  rw [value] at low high
  have few : (BitVec.ofNat 64 n).clz.toNat < 64 := by
    apply Nat.lt_of_not_le
    intro many
    rw [Nat.sub_eq_zero_of_le many] at high
    omega
  have top : 63 - (BitVec.ofNat 64 n).clz.toNat + 1 = 64 - (BitVec.ofNat 64 n).clz.toNat := by omega
  have length : Nat.log2 n = 63 - (BitVec.ofNat 64 n).clz.toNat := by
    apply (Nat.log2_eq_iff (by omega)).mpr
    rw [top]
    exact ⟨low, high⟩
  omega

theorem shifted_bounds (positive : 1 ≤ n) (bound : n < 2 ^ 64) :
    2 ^ 63 ≤ n * 2 ^ (63 - Nat.log2 n) ∧ n * 2 ^ (63 - Nat.log2 n) < 2 ^ 64 := by
  have nonzero : n ≠ 0 := by omega
  have short : Nat.log2 n ≤ 63 := Nat.le_of_lt_succ ((Nat.log2_lt nonzero).mpr bound)
  have top : Nat.log2 n + 1 + (63 - Nat.log2 n) = 64 := by omega
  constructor
  · calc
      2 ^ 63 = 2 ^ Nat.log2 n * 2 ^ (63 - Nat.log2 n) := by
        rw [← Nat.pow_add, Nat.add_sub_cancel' short]
      _ ≤ n * 2 ^ (63 - Nat.log2 n) := Nat.mul_le_mul_right _ (Nat.log2_self_le nonzero)
  · calc
      n * 2 ^ (63 - Nat.log2 n) < 2 ^ (Nat.log2 n + 1) * 2 ^ (63 - Nat.log2 n) :=
        Nat.mul_lt_mul_of_pos_right Nat.lt_log2_self (Nat.two_pow_pos _)
      _ = 2 ^ 64 := by rw [← Nat.pow_add, top]

theorem zone_eq (positive : 1 ≤ n) (bound : n < 2 ^ 64) :
    zone n + 1 = n * 2 ^ (63 - Nat.log2 n) := by
  rcases shifted_bounds positive bound with ⟨low, high⟩
  rw [zone, Nat.pow_eq, Nat.shiftLeft_eq, Nat.mod_eq_of_lt high]
  omega

/-- The words that select an index are those whose products lie in an interval of its own. -/
theorem accept?_eq_some (positive : 1 ≤ n) (bound : n < 2 ^ 64) :
    accept? n word = some index ↔ index * 2 ^ 64 ≤ word.toNat * n ∧
      word.toNat * n < index * 2 ^ 64 + n * 2 ^ (63 - Nat.log2 n) := by
  have high := (shifted_bounds positive bound).2
  rw [← zone_eq positive bound] at high ⊢
  simp only [accept?, Nat.pow_eq, Option.ite_none_right_eq_some, Option.some.injEq]
  generalize word.toNat * n = product
  generalize zone n = limit at high ⊢
  omega

theorem accept?_lt (positive : 0 < n) (selected : accept? n word = some index) : index < n := by
  simp only [accept?, Nat.pow_eq, Option.ite_none_right_eq_some, Option.some.injEq] at selected
  rcases selected with ⟨_, rfl⟩
  exact Nat.div_lt_of_lt_mul (Nat.mul_lt_mul_of_pos_right word.isLt positive)

/-- The first multiple of `n` that is not below `start`, as a multiplicity. -/
def firstMultiple (n start : Nat) : Nat := (start + (n - 1)) / n

theorem firstMultiple_le (positive : 0 < n) (start value : Nat) :
    firstMultiple n start ≤ value ↔ start ≤ value * n := by
  rw [firstMultiple, Nat.div_le_iff_le_mul_add_pred positive, Nat.mul_comm n value]
  omega

theorem firstMultiple_add (positive : 0 < n) (start count : Nat) :
    firstMultiple n (start + n * count) = firstMultiple n start + count := by
  rw [firstMultiple, Nat.add_right_comm, Nat.add_mul_div_left _ _ positive]
  rfl

theorem accept?_eq_some_iff_mem (positive : 1 ≤ n) (bound : n < 2 ^ 64) :
    accept? n word = some index ↔ word.toNat ∈ Finset.Ico (firstMultiple n (index * 2 ^ 64))
      (firstMultiple n (index * 2 ^ 64) + 2 ^ (63 - Nat.log2 n)) := by
  have last := not_congr (firstMultiple_le positive
    (index * 2 ^ 64 + n * 2 ^ (63 - Nat.log2 n)) word.toNat)
  rw [Nat.not_le, Nat.not_le, firstMultiple_add positive] at last
  rw [accept?_eq_some positive bound, Finset.mem_Ico, firstMultiple_le positive, last]

/-- As many words select one index as any other. -/
theorem card_selecting (positive : 1 ≤ n) (bound : n < 2 ^ 64) (inside : index < n) :
    (Finset.univ.filter fun word : BitVec 64 => accept? n word = some index).card =
      2 ^ (63 - Nat.log2 n) := by
  have high := (shifted_bounds positive bound).2
  -- the interval ends before the product of 2 ^ 64 begins
  have words : firstMultiple n (index * 2 ^ 64) + 2 ^ (63 - Nat.log2 n) ≤ 2 ^ 64 := by
    rw [← firstMultiple_add positive, firstMultiple_le positive]
    calc
      index * 2 ^ 64 + n * 2 ^ (63 - Nat.log2 n) ≤ index * 2 ^ 64 + 2 ^ 64 := by omega
      _ = (index + 1) * 2 ^ 64 := (Nat.succ_mul index _).symm
      _ ≤ 2 ^ 64 * n := by
        rw [Nat.mul_comm (2 ^ 64)]
        exact Nat.mul_le_mul_right _ inside
  calc
    _ = (Finset.Ico (firstMultiple n (index * 2 ^ 64))
          (firstMultiple n (index * 2 ^ 64) + 2 ^ (63 - Nat.log2 n))).card := by
      apply Finset.card_nbij' BitVec.toNat (BitVec.ofNat 64)
      · intro word selected
        exact (accept?_eq_some_iff_mem positive bound).mp (Finset.mem_filter.mp selected).2
      · intro value listed
        have small : value < 2 ^ 64 := Nat.lt_of_lt_of_le (Finset.mem_Ico.mp listed).2 words
        apply Finset.mem_filter.mpr
        refine ⟨Finset.mem_univ _, (accept?_eq_some_iff_mem positive bound).mpr ?_⟩
        rw [BitVec.toNat_ofNat, Nat.mod_eq_of_lt small]
        exact listed
      · intro word _
        simp
      · intro value listed
        have small : value < 2 ^ 64 := Nat.lt_of_lt_of_le (Finset.mem_Ico.mp listed).2 words
        rw [BitVec.toNat_ofNat, Nat.mod_eq_of_lt small]
    _ = 2 ^ (63 - Nat.log2 n) := by
      rw [Nat.card_Ico, Nat.add_sub_cancel_left]

theorem card_accepted (positive : 1 ≤ n) (bound : n < 2 ^ 64) :
    (Finset.univ.filter fun word : BitVec 64 => (accept? n word).isSome).card =
      n * 2 ^ (63 - Nat.log2 n) := by
  have inside : ∀ word ∈ Finset.univ.filter (fun word : BitVec 64 => (accept? n word).isSome),
      (accept? n word).getD 0 ∈ Finset.range n := by
    intro word accepted
    rcases Option.isSome_iff_exists.mp (Finset.mem_filter.mp accepted).2 with ⟨index, selected⟩
    rw [selected, Finset.mem_range]
    exact accept?_lt positive selected
  have each : ∀ index ∈ Finset.range n, ((Finset.univ.filter fun word : BitVec 64 =>
      (accept? n word).isSome).filter fun word => (accept? n word).getD 0 = index).card =
        2 ^ (63 - Nat.log2 n) := by
    intro index listed
    rw [← card_selecting positive bound (Finset.mem_range.mp listed), Finset.filter_filter]
    apply congrArg Finset.card
    apply Finset.filter_congr
    intro word _
    cases accept? n word <;> simp
  rw [Finset.card_eq_sum_card_fiberwise inside, Finset.sum_congr rfl each, Finset.sum_const,
    Finset.card_range, Nat.nsmul_eq_mul]

section Loop

variable {draws : DrawStream} {patience skipped : Nat}

theorem word_advance (draws : DrawStream) (k : Nat) :
    (draws.advance 1).word ((draws.advance 1).position + k) = draws.word (draws.position + (k + 1)) := by
  rw [Nat.add_comm k, ← Nat.add_assoc]
  rfl

theorem advance_advance (draws : DrawStream) (first second : Nat) :
    (draws.advance first).advance second = draws.advance (first + second) := by
  simp only [advance, Nat.add_assoc]

theorem indexWithin_accepted (first : accept? n draws.current = some index) :
    indexWithin n (patience + 1) draws = (some index, draws.advance 1) := by
  simp only [indexWithin, first]

theorem indexWithin_rejected (first : accept? n draws.current = none) :
    indexWithin n (patience + 1) draws = indexWithin n patience (draws.advance 1) := by
  simp only [indexWithin, first]

/-- The words up to the first accepted one, which selects `index` after `skipped` others. -/
structure FirstAccepted (n : Nat) (draws : DrawStream) (skipped index : Nat) : Prop where
  rejected : ∀ k < skipped, accept? n (draws.word (draws.position + k)) = none
  accepted : accept? n (draws.word (draws.position + skipped)) = some index

theorem FirstAccepted.tail (first : FirstAccepted n draws (skipped + 1) index) :
    FirstAccepted n (draws.advance 1) skipped index where
  rejected := by
    intro k inside
    rw [word_advance]
    exact first.rejected (k + 1) (Nat.succ_lt_succ inside)
  accepted := by
    rw [word_advance]
    exact first.accepted

theorem FirstAccepted.cons (rejects : accept? n draws.current = none)
    (later : FirstAccepted n (draws.advance 1) skipped index) :
    FirstAccepted n draws (skipped + 1) index where
  rejected := by
    intro k inside
    cases k with
    | zero => exact rejects
    | succ k =>
        rw [← word_advance]
        exact later.rejected k (Nat.lt_of_succ_lt_succ inside)
  accepted := by
    rw [← word_advance]
    exact later.accepted

theorem FirstAccepted.indexWithin_eq (first : FirstAccepted n draws skipped index)
    (enough : skipped < patience) :
    indexWithin n patience draws = (some index, draws.advance (skipped + 1)) := by
  induction skipped generalizing draws patience with
  | zero =>
      cases patience with
      | zero => omega
      | succ patience => exact indexWithin_accepted first.accepted
  | succ skipped ih =>
      cases patience with
      | zero => omega
      | succ patience =>
          rw [indexWithin_rejected (first.rejected 0 (Nat.succ_pos skipped)),
            ih first.tail (Nat.lt_of_succ_lt_succ enough), advance_advance, Nat.add_comm 1]

theorem firstAccepted_of_indexWithin (drawn : (indexWithin n patience draws).1 = some index) :
    ∃ skipped < patience, FirstAccepted n draws skipped index := by
  induction patience generalizing draws with
  | zero => cases drawn
  | succ patience ih =>
      cases first : accept? n draws.current with
      | some other =>
          rw [indexWithin_accepted first] at drawn
          cases drawn
          exact ⟨0, Nat.succ_pos patience, by simp, first⟩
      | none =>
          rw [indexWithin_rejected first] at drawn
          rcases ih drawn with ⟨skipped, enough, later⟩
          exact ⟨skipped + 1, Nat.succ_lt_succ enough, later.cons first⟩

theorem index_eq_some : (draws.index n).1 = some index ↔
    ∃ skipped < draws.patience, FirstAccepted n draws skipped index := by
  constructor
  · exact firstAccepted_of_indexWithin
  · rintro ⟨skipped, enough, first⟩
    rw [DrawStream.index, first.indexWithin_eq enough]

end Loop

end DrawStream

open DrawStream

/-- Drawing among `n` indices is fair. -/
structure FairDraws (n : Nat) : Prop where
  zone : zone n = (n <<< (BitVec.ofNat 64 n).clz.toNat) % 2 ^ 64 - 1
  /-- What is returned is what the first accepted word selects. -/
  returned : ∀ (draws : DrawStream) (index : Nat), (draws.index n).1 = some index ↔
    ∃ skipped < draws.patience, FirstAccepted n draws skipped index
  within : ∀ (draws : DrawStream) (index : Nat), (draws.index n).1 = some index →
    index < n ∧ ∀ table : CharacterTable, table.size = n → ∃ char, table.chars[index]? = some char
  /-- Of all words equally many select each index. -/
  uniform : ∀ index < n, (Finset.univ.filter fun word : BitVec 64 =>
    accept? n word = some index).card = 2 ^ (BitVec.ofNat 64 n).clz.toNat
  /-- At least half of all words are accepted. -/
  likely : 2 ^ 64 ≤ 2 * (Finset.univ.filter fun word : BitVec 64 => (accept? n word).isSome).card

/-- Every index among `n` is drawn by the same number of words, and these are at least half of all. -/
theorem draws_fair (positive : 1 ≤ n) (bound : n < 2 ^ 64) : FairDraws n where
  zone := by
    rw [clz_eq positive bound]
    rfl
  returned := fun _ _ => index_eq_some
  within := by
    intro draws index drawn
    rcases index_eq_some.mp drawn with ⟨_, _, first⟩
    have inside := accept?_lt positive first.accepted
    refine ⟨inside, ?_⟩
    rintro table rfl
    exact ⟨_, List.getElem?_eq_getElem inside⟩
  uniform := by
    intro index inside
    rw [clz_eq positive bound]
    exact card_selecting positive bound inside
  likely := by
    have half := (shifted_bounds positive bound).1
    rw [card_accepted positive bound]
    omega

theorem draws_fair_standard : FairDraws CharacterTable.standard.size ∧ FairDraws (2 ^ 64 - 1) :=
  ⟨draws_fair (by decide +kernel) (by decide +kernel), draws_fair (by decide) (by decide)⟩

end Interner
