import Interner.Proofs.Session.Basic
import Interner.Proofs.Store.Truthful

namespace Interner

variable {w : Width} {alphabet : Bytes} {text : Bytes} {length : Nat}

def words (alphabet : Bytes) : Nat → List Bytes
  | 0 => [[]]
  | length + 1 => alphabet.flatMap fun char => (words alphabet length).map (char :: ·)

theorem length_words (alphabet : Bytes) (length : Nat) :
    (words alphabet length).length = alphabet.length ^ length := by
  induction length with
  | zero => rfl
  | succ length ih => simp [words, List.length_flatMap, ih, Nat.pow_succ, Nat.mul_comm]

theorem mem_words : text ∈ words alphabet length ↔
    text.length = length ∧ ∀ char ∈ text, char ∈ alphabet := by
  induction length generalizing text with
  | zero =>
      cases text with
      | nil => simp [words]
      | cons char text => simp [words]
  | succ length ih =>
      cases text with
      | nil => simp [words]
      | cons char text => simp [words, ih, and_left_comm]

def decimalDigits : Bytes := (List.range 10).map fun digit => UInt8.ofNat (48 + digit)

theorem digit_mem {digit : Nat} (small : digit < 10) : UInt8.ofNat (48 + digit) ∈ decimalDigits :=
  List.mem_map_of_mem (List.mem_range.mpr small)

theorem decimalBytes_digits (n : Nat) : ∀ char ∈ decimalBytes n, char ∈ decimalDigits := by
  induction n using decimalBytes.induct with
  | case1 n small =>
      rw [decimalBytes, if_pos small]
      simpa using digit_mem small
  | case2 n large ih =>
      rw [decimalBytes, if_neg large]
      intro char member
      rcases List.mem_append.mp member with front | last
      · exact ih char front
      · rw [List.mem_singleton.mp last]
        exact digit_mem (Nat.mod_lt n (by decide))

namespace CounterGenerator

theorem write_mem_words (value : BitVec 64) {width : Nat} (some : 1 ≤ width) :
    write [] value width ∈ words decimalDigits width := by
  have digits := decimalBytes_digits value.toNat
  have zero : (48 : UInt8) ∈ decimalDigits := by decide
  rw [mem_words]
  simp only [write, if_neg (Nat.ne_of_gt some), List.nil_append]
  split
  · rename_i short
    constructor
    · simp
      omega
    · intro char member
      rcases List.mem_append.mp member with padding | digit
      · rw [List.eq_of_mem_replicate padding]
        exact zero
      · exact digits char digit
  · rename_i long
    constructor
    · simp
      omega
    · exact fun char member => digits char (List.mem_of_mem_drop member)

theorem drawn_eq (generator : CounterGenerator w) (n : Nat) :
    ∃ value, CandidateSource.drawn (Generator.counter generator) n =
      some (write [] value generator.width) := by
  induction n generalizing generator with
  | zero => exact ⟨generator.counter, rfl⟩
  | succ n ih => exact ih (generator.advance 1)

end CounterGenerator

namespace RandomGenerator

theorem drawText_mem_words (table : CharacterTable) (length : Nat) (draws : DrawStream)
    (drawn : (drawText table length draws).1 = some text) : text ∈ words table.chars length := by
  rw [mem_words]
  induction length generalizing text draws with
  | zero =>
      cases drawn
      simp
  | succ length ih =>
      rw [drawText] at drawn
      split at drawn
      · cases drawn
      · rename_i index later _
        simp only [Option.bind_eq_some_iff, Option.map_eq_some_iff] at drawn
        rcases drawn with ⟨char, listed, rest, more, rfl⟩
        rcases ih later more with ⟨exact, inside⟩
        constructor
        · simp [exact]
        · simp only [List.forall_mem_cons]
          exact ⟨List.mem_of_getElem? listed, inside⟩

theorem drawn_eq (generator : RandomGenerator w) (n : Nat) :
    CandidateSource.drawn (Generator.random generator) n = CandidateSource.drawn generator n := by
  induction n generalizing generator with
  | zero => rfl
  | succ n ih => exact ih (CandidateSource.next generator).2

theorem drawn_mem_words (generator : RandomGenerator w) (n : Nat)
    (drawn : CandidateSource.drawn generator n = some text) :
    text ∈ words generator.table.chars generator.length := by
  induction n generalizing generator with
  | zero => exact drawText_mem_words _ _ generator.draws drawn
  | succ n ih => exact ih (CandidateSource.next generator).2 drawn

end RandomGenerator

end Interner
