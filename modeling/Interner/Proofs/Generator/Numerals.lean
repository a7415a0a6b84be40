import Interner.Proofs.Generator.Words
import Mathlib.Tactic.Ring.RingNF

namespace Interner

variable {w : Width} {text other : Bytes} {digit : UInt8} {n width : Nat}

def OfDigits (text : Bytes) : Prop := ∀ digit ∈ text, digit ∈ decimalDigits

def digitValue (digit : UInt8) : Nat := digit.toNat - 48

def numeralValue : Bytes → Nat
  | [] => 0
  | digit :: rest => 10 ^ rest.length * digitValue digit + numeralValue rest

/-- `text` is a decimal numeral of `n`; the only one that starts with a zero is a lone zero. -/
structure IsNumeral (text : Bytes) (n : Nat) : Prop where
  nonempty : text ≠ []
  digits : OfDigits text
  value : numeralValue text = n
  leading : text.head? = some 48 → text = [48]

theorem digitValue_ofNat (small : n < 10) : digitValue (UInt8.ofNat (48 + n)) = n := by
  rw [digitValue, UInt8.toNat_ofNat']
  omega

theorem ofNat_digitValue (member : digit ∈ decimalDigits) :
    digitValue digit < 10 ∧ UInt8.ofNat (48 + digitValue digit) = digit := by
  rcases List.mem_map.mp member with ⟨n, inside, rfl⟩
  have small := List.mem_range.mp inside
  rw [digitValue_ofNat small]
  exact ⟨small, rfl⟩

namespace OfDigits

theorem cons_iff : OfDigits (digit :: text) ↔ digit ∈ decimalDigits ∧ OfDigits text :=
  List.forall_mem_cons

theorem drop (digits : OfDigits text) (count : Nat) : OfDigits (text.drop count) :=
  fun digit member => digits digit (List.mem_of_mem_drop member)

theorem value_lt (digits : OfDigits text) : numeralValue text < 10 ^ text.length := by
  induction text with
  | nil => exact Nat.one_pos
  | cons digit rest ih =>
      obtain ⟨first, others⟩ := cons_iff.mp digits
      calc
        numeralValue (digit :: rest) < 10 ^ rest.length * digitValue digit + 10 ^ rest.length :=
          Nat.add_lt_add_left (ih others) _
        _ = 10 ^ rest.length * (digitValue digit + 1) := by ring
        _ ≤ 10 ^ rest.length * 10 := Nat.mul_le_mul_left _ (ofNat_digitValue first).1
        _ = 10 ^ (digit :: rest).length := rfl

theorem ext (digits : OfDigits text) (others : OfDigits other) (lengths : text.length = other.length)
    (same : numeralValue text = numeralValue other) : text = other := by
  induction text generalizing other with
  | nil => exact (List.length_eq_zero_iff.mp lengths.symm).symm
  | cons x text ih =>
      cases other with
      | nil => cases lengths
      | cons y other =>
          obtain ⟨first, rest⟩ := cons_iff.mp digits
          obtain ⟨second, behind⟩ := cons_iff.mp others
          have tails : text.length = other.length := Nat.succ.inj lengths
          have positive : 0 < 10 ^ other.length := Nat.pow_pos (by decide)
          have below := rest.value_lt
          rw [tails] at below
          rw [numeralValue, numeralValue, tails] at same
          -- the quotient by the weight of the first digit is that digit, and the rest is what remains
          have heads := congrArg (· / 10 ^ other.length) same
          have remains := congrArg (· % 10 ^ other.length) same
          simp only [Nat.mul_add_div positive, Nat.div_eq_of_lt below,
            Nat.div_eq_of_lt behind.value_lt, Nat.add_zero] at heads
          simp only [Nat.mul_add_mod, Nat.mod_eq_of_lt below,
            Nat.mod_eq_of_lt behind.value_lt] at remains
          rw [ih rest behind tails remains, ← (ofNat_digitValue first).2, heads,
            (ofNat_digitValue second).2]

end OfDigits

theorem numeralValue_singleton (digit : UInt8) : numeralValue [digit] = digitValue digit := by
  simp [numeralValue]

theorem numeralValue_append (front back : Bytes) :
    numeralValue (front ++ back) = 10 ^ back.length * numeralValue front + numeralValue back := by
  induction front with
  | nil => simp [numeralValue]
  | cons digit rest ih =>
      rw [List.cons_append, numeralValue, ih, numeralValue, List.length_append, Nat.pow_add]
      ring

theorem numeralValue_zeros (count : Nat) (text : Bytes) :
    numeralValue (List.replicate count 48 ++ text) = numeralValue text := by
  induction count with
  | zero => rfl
  | succ count ih =>
      rw [List.replicate_succ, List.cons_append, numeralValue, ih, show digitValue 48 = 0 from rfl,
        Nat.mul_zero, Nat.zero_add]

theorem numeralValue_drop (digits : OfDigits text) (count : Nat) :
    numeralValue (text.drop count) = numeralValue text % 10 ^ (text.length - count) := by
  have below := (digits.drop count).value_lt
  have parts := numeralValue_append (text.take count) (text.drop count)
  rw [List.take_append_drop] at parts
  rw [List.length_drop] at below parts
  rw [parts, Nat.mul_add_mod, Nat.mod_eq_of_lt below]

theorem numeralValue_decimalBytes (n : Nat) : numeralValue (decimalBytes n) = n := by
  induction n using decimalBytes.induct with
  | case1 n small => rw [decimalBytes, if_pos small, numeralValue_singleton, digitValue_ofNat small]
  | case2 n large ih =>
      have small : n % 10 < 10 := Nat.mod_lt n (by decide)
      rw [decimalBytes, if_neg large, numeralValue_append, ih, numeralValue_singleton,
        digitValue_ofNat small]
      exact Nat.div_add_mod n 10

theorem decimalBytes_ne_nil (n : Nat) : decimalBytes n ≠ [] := by
  rw [decimalBytes]
  split <;> simp

theorem head_decimalBytes (positive : 0 < n) : (decimalBytes n).head? ≠ some 48 := by
  induction n using decimalBytes.induct with
  | case1 n small =>
      rw [decimalBytes, if_pos small, List.head?_cons, ne_eq, Option.some.injEq]
      intro zero
      have value := digitValue_ofNat small
      rw [zero, show digitValue 48 = 0 from rfl] at value
      omega
  | case2 n large ih =>
      rw [decimalBytes, if_neg large, List.head?_append_of_ne_nil _ (decimalBytes_ne_nil _)]
      exact ih (by omega)

theorem decimalBytes_isNumeral (n : Nat) : IsNumeral (decimalBytes n) n where
  nonempty := decimalBytes_ne_nil n
  digits := decimalBytes_digits n
  value := numeralValue_decimalBytes n
  leading := by
    intro zero
    rcases Nat.eq_zero_or_pos n with rfl | positive
    · decide +kernel
    · exact absurd zero (head_decimalBytes positive)

namespace IsNumeral

theorem pow_le (numeral : IsNumeral text n) (other : text ≠ [48]) : 10 ^ (text.length - 1) ≤ n := by
  cases text with
  | nil => exact absurd rfl numeral.nonempty
  | cons digit rest =>
      have member := (OfDigits.cons_iff.mp numeral.digits).1
      have positive : 0 < digitValue digit := by
        apply Nat.pos_of_ne_zero
        intro zero
        have first := (ofNat_digitValue member).2
        rw [zero] at first
        exact other (numeral.leading (congrArg Option.some first.symm))
      calc
        10 ^ rest.length ≤ 10 ^ rest.length * digitValue digit := Nat.le_mul_of_pos_right _ positive
        _ ≤ numeralValue (digit :: rest) := Nat.le_add_right _ _
        _ = n := numeral.value

theorem length_pos (numeral : IsNumeral text n) : 0 < text.length :=
  List.length_pos_iff.mpr numeral.nonempty

theorem length_le (numeral : IsNumeral text n) (another : IsNumeral other n) :
    text.length ≤ other.length := by
  by_cases zero : text = [48]
  · rw [zero]
    exact another.length_pos
  · have less : 10 ^ (text.length - 1) < 10 ^ other.length := by
      calc
        10 ^ (text.length - 1) ≤ n := numeral.pow_le zero
        _ = numeralValue other := another.value.symm
        _ < 10 ^ other.length := another.digits.value_lt
    have shorter := (Nat.pow_lt_pow_iff_right (by decide)).mp less
    omega

theorem unique (numeral : IsNumeral text n) (another : IsNumeral other n) : text = other := by
  apply numeral.digits.ext another.digits
  · exact Nat.le_antisymm (numeral.length_le another) (another.length_le numeral)
  · rw [numeral.value, another.value]

end IsNumeral

namespace CounterGenerator

theorem write_append (buffer : Bytes) (counter : BitVec 64) (width : Nat) :
    write buffer counter width = buffer ++ write [] counter width := by
  simp only [write]
  split
  · rfl
  · split
    · simp only [List.nil_append, List.append_assoc]
    · rfl

theorem write_plain (counter : BitVec 64) : write [] counter 0 = decimalBytes counter.toNat := rfl

/-- Leading zeros add nothing, and what is cut off in front is a multiple of the power of ten. -/
theorem numeralValue_write (counter : BitVec 64) (positive : 1 ≤ width) :
    numeralValue (write [] counter width) = counter.toNat % 10 ^ width := by
  have digits : OfDigits (decimalBytes counter.toNat) := decimalBytes_digits counter.toNat
  simp only [write, if_neg (Nat.ne_of_gt positive), List.nil_append]
  split
  · rename_i short
    have small := digits.value_lt
    rw [numeralValue_decimalBytes] at small
    rw [numeralValue_zeros, numeralValue_decimalBytes, Nat.mod_eq_of_lt]
    exact Nat.lt_trans small (Nat.pow_lt_pow_right (by decide) short)
  · rename_i long
    rw [numeralValue_drop digits, numeralValue_decimalBytes, Nat.sub_sub_self (Nat.le_of_not_lt long)]

theorem eq_write_zero_iff (counter : BitVec 64) :
    text = write [] counter 0 ↔ IsNumeral text counter.toNat := by
  rw [write_plain]
  constructor
  · rintro rfl
    exact decimalBytes_isNumeral counter.toNat
  · exact fun numeral => numeral.unique (decimalBytes_isNumeral counter.toNat)

theorem eq_write_iff (counter : BitVec 64) (positive : 1 ≤ width) :
    text = write [] counter width ↔
      OfDigits text ∧ text.length = width ∧ numeralValue text = counter.toNat % 10 ^ width := by
  obtain ⟨length, digits⟩ := mem_words.mp (write_mem_words counter positive)
  have value := numeralValue_write counter positive
  constructor
  · rintro rfl
    exact ⟨digits, length, value⟩
  · rintro ⟨others, lengths, same⟩
    exact others.ext digits (lengths.trans length.symm) (same.trans value.symm)

theorem write_inj_mod (first second : BitVec 64) (positive : 1 ≤ width) :
    write [] first width = write [] second width ↔
      first.toNat % 10 ^ width = second.toNat % 10 ^ width := by
  rw [eq_write_iff second positive, numeralValue_write first positive]
  obtain ⟨length, digits⟩ := mem_words.mp (write_mem_words first positive)
  exact ⟨fun same => same.2.2, fun same => ⟨digits, length, same⟩⟩

theorem write_inj (first second : BitVec 64) (whole : width = 0 ∨ 20 ≤ width) :
    write [] first width = write [] second width ↔ first = second := by
  rcases whole with rfl | wide
  · rw [eq_write_zero_iff]
    constructor
    · intro numeral
      exact BitVec.eq_of_toNat_eq ((numeralValue_decimalBytes _).symm.trans numeral.value)
    · rintro rfl
      exact decimalBytes_isNumeral first.toNat
  · have small (counter : BitVec 64) : counter.toNat < 10 ^ width := by
      calc
        counter.toNat < 2 ^ 64 := counter.isLt
        _ ≤ 10 ^ 20 := by decide
        _ ≤ 10 ^ width := Nat.pow_le_pow_right (by decide) wide
    rw [write_inj_mod first second (Nat.le_trans (by decide) wide), Nat.mod_eq_of_lt (small first),
      Nat.mod_eq_of_lt (small second)]
    exact BitVec.toNat_inj

/-- What a counter of a width appends to a buffer. -/
structure Writes (width : Nat) : Prop where
  appended : ∀ buffer counter, write buffer counter width = buffer ++ write [] counter width
  plain : width = 0 → ∀ counter text,
    text = write [] counter width ↔ IsNumeral text counter.toNat
  fixed : 1 ≤ width → ∀ counter text, text = write [] counter width ↔
    OfDigits text ∧ text.length = width ∧ numeralValue text = counter.toNat % 10 ^ width
  whole : width = 0 ∨ 20 ≤ width → ∀ first second,
    write [] first width = write [] second width ↔ first = second
  cut : 1 ≤ width → width < 20 → ∀ first second,
    write [] first width = write [] second width ↔
      first.toNat % 10 ^ width = second.toNat % 10 ^ width

/-- Whatever width is asked for, a counter writes exact numerals, and it repeats one only where the
digits it keeps run out. -/
theorem numerals_exact (generator : CounterGenerator w) (asked : Nat) :
    (generator.withWidth asked).width = min asked 32 ∧
      Writes (generator.withWidth asked).width where
  left := rfl
  right := {
    appended := fun buffer counter => write_append buffer counter _
    plain := by
      intro zero counter text
      rw [zero]
      exact eq_write_zero_iff counter
    fixed := fun positive counter _ => eq_write_iff counter positive
    whole := fun whole first second => write_inj first second whole
    cut := fun positive _ first second => write_inj_mod first second positive }

theorem numerals_exact_cut : write [] 12345 2 = write [] 45 2 := by
  have writes : Writes 2 := (numerals_exact ({ stem := 7 } : CounterGenerator .narrow) 2).2
  exact (writes.cut (by decide) (by decide) 12345 45).mpr rfl

end CounterGenerator

end Interner
