import Interner.Intern
import Mathlib.Logic.Function.Basic

/-!
Extension runs backwards. The prime of each width has an inverse, so a byte that was absorbed can be
taken out again, and so can a string, last byte first. Nothing of the hash before is lost.
-/

namespace Interner

/-- Undoes multiplication by the prime. -/
def Width.primeInverse : Width → Nat
  | narrow => 0x359c449b
  | wide => 0xce965057aff6957b

/-- The number of places at which two strings of one length differ. -/
def mismatches (first second : Bytes) : Nat :=
  (first.zip second).countP fun pair => pair.1 ≠ pair.2

theorem mismatches_cons (x y : UInt8) (front back : Bytes) :
    mismatches (x :: front) (y :: back) = mismatches front back + if x = y then 0 else 1 := by
  rw [mismatches, List.zip_cons_cons, List.countP_cons, mismatches]
  by_cases same : x = y <;> simp [same]

theorem eq_of_mismatches {text other : Bytes} (lengths : text.length = other.length)
    (zero : mismatches text other = 0) : text = other := by
  induction text generalizing other with
  | nil => exact (List.length_eq_zero_iff.mp lengths.symm).symm
  | cons x text ih =>
      cases other with
      | nil => cases lengths
      | cons y other =>
          rw [mismatches_cons] at zero
          have same : x = y := by
            by_contra differs
            rw [if_neg differs] at zero
            cases zero
          rw [same, ih (Nat.succ.inj lengths) (Nat.eq_zero_of_add_eq_zero zero).1]

namespace Hash

variable {w : Width} {hash first second : Hash w} {suffix : Bytes} {x y : UInt8}

def release (hash : Hash w) (byte : UInt8) : Hash w :=
  hash * BitVec.ofNat w.bits w.primeInverse ^^^ BitVec.ofNat w.bits byte.toNat

def retract (hash : Hash w) (bytes : Bytes) : Hash w :=
  bytes.foldr (fun byte later => release later byte) hash

theorem prime_mul_inverse (w : Width) :
    BitVec.ofNat w.bits w.prime * BitVec.ofNat w.bits w.primeInverse = 1#w.bits := by
  cases w <;> decide

theorem inverse_mul_prime (w : Width) :
    BitVec.ofNat w.bits w.primeInverse * BitVec.ofNat w.bits w.prime = 1#w.bits := by
  rw [BitVec.mul_comm, prime_mul_inverse]

theorem release_absorb (hash : Hash w) (byte : UInt8) : release (absorb hash byte) byte = hash := by
  rw [release, absorb, BitVec.mul_assoc, prime_mul_inverse, BitVec.mul_one, BitVec.xor_assoc,
    BitVec.xor_self, BitVec.xor_zero]

theorem absorb_release (hash : Hash w) (byte : UInt8) : absorb (release hash byte) byte = hash := by
  rw [absorb, release, BitVec.xor_assoc, BitVec.xor_self, BitVec.xor_zero, BitVec.mul_assoc,
    inverse_mul_prime, BitVec.mul_one]

theorem extend_cons (hash : Hash w) (byte : UInt8) (bytes : Bytes) :
    extend hash (byte :: bytes) = extend (absorb hash byte) bytes := rfl

theorem retract_cons (hash : Hash w) (byte : UInt8) (bytes : Bytes) :
    retract hash (byte :: bytes) = release (retract hash bytes) byte := rfl

theorem retract_extend (hash : Hash w) (bytes : Bytes) : retract (extend hash bytes) bytes = hash := by
  induction bytes generalizing hash with
  | nil => rfl
  | cons byte bytes ih => rw [extend_cons, retract_cons, ih, release_absorb]

theorem extend_retract (hash : Hash w) (bytes : Bytes) : extend (retract hash bytes) bytes = hash := by
  induction bytes with
  | nil => rfl
  | cons byte bytes ih => rw [retract_cons, extend_cons, absorb_release, ih]

theorem extend_inj : extend first suffix = extend second suffix ↔ first = second := by
  constructor
  · intro same
    rw [← retract_extend first suffix, same, retract_extend]
  · rintro rfl
    rfl

theorem absorb_inj : absorb hash x = absorb hash y ↔ x = y := by
  constructor
  · intro same
    have product := congrArg (· * BitVec.ofNat w.bits w.primeInverse) same
    simp only [absorb, BitVec.mul_assoc, prime_mul_inverse, BitVec.mul_one,
      BitVec.xor_right_inj] at product
    -- every byte fits into a hash of either width
    have small (byte : UInt8) : byte.toNat < 2 ^ w.bits := by
      apply Nat.lt_of_lt_of_le byte.toNat_lt
      cases w <;> decide
    have values := congrArg BitVec.toNat product
    rw [BitVec.toNat_ofNat, BitVec.toNat_ofNat, Nat.mod_eq_of_lt (small x),
      Nat.mod_eq_of_lt (small y)] at values
    exact UInt8.toNat_inj.mp values
  · rintro rfl
    rfl

theorem extend_ne_of_mismatch {text other : Bytes} (lengths : text.length = other.length)
    (once : mismatches text other = 1) : extend hash text ≠ extend hash other := by
  induction text generalizing hash other with
  | nil => cases once
  | cons x text ih =>
      cases other with
      | nil => cases lengths
      | cons y other =>
          have rest := Nat.succ.inj lengths
          rw [mismatches_cons] at once
          rw [extend_cons, extend_cons]
          by_cases same : x = y
          · subst same
            exact ih rest (by simpa using once)
          · rw [if_neg same] at once
            rw [eq_of_mismatches rest (Nat.succ.inj once), ne_eq, extend_inj, absorb_inj]
            exact same

end Hash

theorem IdStore.internExtension_hash {σ : Type} {w : Width} [IdStore σ w] {store : σ}
    {stem id : Hash w} {suffix : Bytes}
    (interned : (internExtension store stem suffix).answer = .ok id) :
    id = Hash.extend stem suffix := by
  simp only [internExtension, Program.internExtension, Program.run_insertExtension,
    Outcome.after] at interned
  split at interned
  · cases interned
  · cases interned
  · exact (Except.ok.inj interned).symm

/-- Extension keeps apart what was apart before it. -/
structure Hash.Lossless (w : Width) : Prop where
  bijective : ∀ bytes, Function.Bijective fun hash : Hash w => extend hash bytes
  /-- Strings that are the same up to one byte, and behind it. -/
  byte : ∀ (hash : Hash w) (front back : Bytes) (x y : UInt8),
    extend hash (front ++ [x] ++ back) = extend hash (front ++ [y] ++ back) ↔ x = y
  mismatch : ∀ (hash : Hash w) (text other : Bytes), text.length = other.length →
    mismatches text other = 1 → extend hash text ≠ extend hash other
  stem : ∀ (first second : Hash w) (suffix : Bytes),
    extend first suffix = extend second suffix ↔ first = second
  /-- Different stems have different ids with one suffix, whatever the stores hold. -/
  id : ∀ {σ τ : Type} [IdStore σ w] [IdStore τ w] (store : σ) (other : τ) (first second : Hash w)
    (suffix : Bytes) (id : Hash w), (IdStore.internExtension store first suffix).answer = .ok id →
      (IdStore.internExtension other second suffix).answer = .ok id → first = second

theorem extension_lossless (w : Width) : Hash.Lossless w where
  bijective := by
    intro bytes
    apply Function.bijective_iff_has_inverse.mpr
    exact ⟨fun hash => Hash.retract hash bytes, fun hash => Hash.retract_extend hash bytes,
      fun hash => Hash.extend_retract hash bytes⟩
  byte := by
    intro hash front back x y
    simp only [Hash.extend_append, Hash.extend_inj]
    exact Hash.absorb_inj
  mismatch := fun _ _ _ lengths once => Hash.extend_ne_of_mismatch lengths once
  stem := fun _ _ _ => Hash.extend_inj
  id := by
    intro σ τ _ _ store other first second suffix id interned again
    rw [IdStore.internExtension_hash interned] at again
    exact Hash.extend_inj.mp (IdStore.internExtension_hash again)

theorem extension_lossless_names :
    mismatches (Bytes.ofAscii "node_41") (Bytes.ofAscii "node_47") = 1 ∧
      (Hash.ofBytes (Bytes.ofAscii "node_41") : Hash .narrow) ≠
        Hash.ofBytes (Bytes.ofAscii "node_47") := by
  refine ⟨by decide, ?_⟩
  exact (extension_lossless .narrow).mismatch _ _ _ (by decide) (by decide)

end Interner
