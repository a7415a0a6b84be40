import Interner.Proofs.Text.Encoding
import Mathlib.Tactic.SplitIfs

namespace Interner.Utf8

variable {byte low high : UInt8} {found : Lead} {bytes rest first second : Bytes} {c : Char}
  {value missing taken : Nat}

/-- What a lead byte of a value may announce. The bounds on the next byte keep overlong forms, surrogates
and too large numbers out. -/
inductive Announces (value : Nat) : Lead → Prop where
  | one (small : value < 0x80) : Announces value ⟨0, 0x80, 0xbf, value⟩
  | two {share : Nat} (whole : value = share + 0xc0) (least : 2 ≤ share) (small : share < 32) :
      Announces value ⟨1, 0x80, 0xbf, share⟩
  | three {share : Nat} {low high : UInt8} (whole : value = share + 0xe0) (small : share < 16)
      (above : 0x80 ≤ low.toNat) (below : high.toNat ≤ 0xbf) (least : share = 0 → 0xa0 ≤ low.toNat)
      (surrogates : share = 13 → high.toNat ≤ 0x9f) : Announces value ⟨2, low, high, share⟩
  | four {share : Nat} {low high : UInt8} (whole : value = share + 0xf0) (small : share ≤ 4)
      (above : 0x80 ≤ low.toNat) (below : high.toNat ≤ 0xbf) (least : share = 0 → 0x90 ≤ low.toNat)
      (greatest : share = 4 → high.toNat ≤ 0x8f) : Announces value ⟨3, low, high, share⟩

theorem announces_of_ofByte? (announced : Lead.ofByte? byte = some found) :
    Announces byte.toNat found := by
  rw [ofByte?_eq] at announced
  split_ifs at announced with one none two e0 ed three f0 four f4 <;> cases announced
  · exact .one one
  · exact .two (by omega) (by omega) (by omega)
  · exact .three e0 (by decide) (by decide) (by decide) (fun _ => by decide) (by decide)
  · exact .three ed (by decide) (by decide) (by decide) (by decide) fun _ => by decide
  · exact .three (by omega) (by omega) (by decide) (by decide) (by omega) (by omega)
  · exact .four f0 (by decide) (by decide) (by decide) (fun _ => by decide) (by decide)
  · exact .four (by omega) (by omega) (by decide) (by decide) (by omega) (by omega)
  · exact .four f4 (by decide) (by decide) (by decide) (by decide) fun _ => by decide

theorem toNat_ofNat (valid : value.isValidChar) : (Char.ofNat value).toNat = value := by
  rw [Char.ofNat, dif_pos valid]
  rfl

theorem follow_done (read : follow 0 low high value rest = (some c, taken)) :
    Char.ofNat value = c ∧ taken = 0 := by
  rw [follow, Prod.mk.injEq, Option.some.injEq] at read
  exact ⟨read.1, read.2.symm⟩

theorem follow_more (above : 0x80 ≤ low.toNat) (below : high.toNat ≤ 0xbf)
    (read : follow (missing + 1) low high value bytes = (some c, taken)) :
    ∃ share rest later, bytes = UInt8.ofNat (share + 0x80) :: rest ∧ share < 64 ∧
      low.toNat ≤ share + 0x80 ∧ share + 0x80 ≤ high.toNat ∧ taken = later + 1 ∧
      follow missing 0x80 0xbf (value * 64 + share) rest = (some c, later) := by
  cases bytes with
  | nil => cases read
  | cons byte rest =>
      rw [follow] at read
      split at read
      · rename_i inside
        rw [UInt8.le_iff_toNat_le, UInt8.le_iff_toNat_le] at inside
        have same : byte.toNat - 0x80 + 0x80 = byte.toNat := by omega
        rcases Prod.mk.inj read with ⟨char, count⟩
        refine ⟨byte.toNat - 0x80, rest, _, ?_, by omega, by omega, by omega, count.symm, ?_⟩
        · rw [same, UInt8.ofNat_toNat]
        · rw [← char]
      · cases read

section Follow

variable {share : Nat}

theorem encodeChar_of_one (least : 2 ≤ share) (small : share < 32)
    (read : follow 1 0x80 0xbf share rest = (some c, taken)) :
    String.utf8EncodeChar c = UInt8.ofNat (share + 0xc0) :: rest.take taken := by
  rcases follow_more (by decide) (by decide) read with
    ⟨last, rest, _, rfl, six, _, _, rfl, more⟩
  rcases follow_done more with ⟨char, rfl⟩
  have value : c.toNat = share * 64 + last := by
    rw [← char, toNat_ofNat (by left; omega)]
  have lead : (share * 64 + last) / 64 % 32 = share := by omega
  have tail : (share * 64 + last) % 64 = last := by omega
  rw [encodeChar_two value (by omega) (by omega), lead, tail]
  rfl

theorem encodeChar_of_two (small : share < 16) (above : 0x80 ≤ low.toNat)
    (below : high.toNat ≤ 0xbf) (least : share = 0 → 0xa0 ≤ low.toNat)
    (surrogates : share = 13 → high.toNat ≤ 0x9f)
    (read : follow 2 low high share rest = (some c, taken)) :
    String.utf8EncodeChar c = UInt8.ofNat (share + 0xe0) :: rest.take taken := by
  rcases follow_more above below read with ⟨second, rest, _, rfl, six, fromLow, toHigh, rfl, more⟩
  rcases follow_more (by decide) (by decide) more with
    ⟨last, rest, _, rfl, sixLast, _, _, rfl, done⟩
  rcases follow_done done with ⟨char, rfl⟩
  have valid : ((share * 64 + second) * 64 + last).isValidChar := by
    change _ < 0xd800 ∨ 0xdfff < _ ∧ _ < 0x110000
    omega
  have value : c.toNat = (share * 64 + second) * 64 + last := by
    rw [← char, toNat_ofNat valid]
  have lead : ((share * 64 + second) * 64 + last) / 4096 % 16 = share := by omega
  have middle : ((share * 64 + second) * 64 + last) / 64 % 64 = second := by omega
  have tail : ((share * 64 + second) * 64 + last) % 64 = last := by omega
  rw [encodeChar_three value (by omega) (by omega), lead, middle, tail]
  rfl

theorem encodeChar_of_three (small : share ≤ 4) (above : 0x80 ≤ low.toNat)
    (below : high.toNat ≤ 0xbf) (least : share = 0 → 0x90 ≤ low.toNat)
    (greatest : share = 4 → high.toNat ≤ 0x8f)
    (read : follow 3 low high share rest = (some c, taken)) :
    String.utf8EncodeChar c = UInt8.ofNat (share + 0xf0) :: rest.take taken := by
  rcases follow_more above below read with ⟨second, rest, _, rfl, six, fromLow, toHigh, rfl, more⟩
  rcases follow_more (by decide) (by decide) more with
    ⟨third, rest, _, rfl, sixThird, _, _, rfl, further⟩
  rcases follow_more (by decide) (by decide) further with
    ⟨last, rest, _, rfl, sixLast, _, _, rfl, done⟩
  rcases follow_done done with ⟨char, rfl⟩
  have valid : (((share * 64 + second) * 64 + third) * 64 + last).isValidChar := by
    right
    omega
  have value : c.toNat = ((share * 64 + second) * 64 + third) * 64 + last := by
    rw [← char, toNat_ofNat valid]
  have lead : (((share * 64 + second) * 64 + third) * 64 + last) / 262144 % 8 = share := by omega
  have behind : (((share * 64 + second) * 64 + third) * 64 + last) / 4096 % 64 = second := by omega
  have middle : (((share * 64 + second) * 64 + third) * 64 + last) / 64 % 64 = third := by omega
  have tail : (((share * 64 + second) * 64 + third) * 64 + last) % 64 = last := by omega
  rw [encodeChar_four value (by omega), lead, behind, middle, tail]
  rfl

end Follow

theorem encodeChar_of_piece (read : piece byte rest = (some c, taken)) :
    String.utf8EncodeChar c = byte :: rest.take taken := by
  cases announced : Lead.ofByte? byte with
  | none =>
      rw [piece, announced] at read
      cases read
  | some found =>
      rw [piece_of_lead announced] at read
      have same : UInt8.ofNat byte.toNat = byte := UInt8.ofNat_toNat
      cases announces_of_ofByte? announced with
      | one small =>
          rcases follow_done read with ⟨char, rfl⟩
          have value : c.toNat = byte.toNat := by
            rw [← char]
            exact toNat_ofNat (Or.inl (Nat.lt_trans small (by decide)))
          rw [encodeChar_one value (Nat.le_of_lt_succ small), same, List.take_zero]
      | two whole least small =>
          rw [whole] at same
          rw [encodeChar_of_one least small read, same]
      | three whole small above below least surrogates =>
          rw [whole] at same
          rw [encodeChar_of_two small above below least surrogates read, same]
      | four whole small above below least greatest =>
          rw [whole] at same
          rw [encodeChar_of_three small above below least greatest read, same]

/-- A byte string that is a text as UTF-8. -/
def IsText (bytes : Bytes) : Prop := ∃ text, encode text = bytes

theorem isText_of_valid (valid : isValid bytes = true) : IsText bytes := by
  induction bytes using pieces.induct with
  | case1 => exact ⟨"", rfl⟩
  | case2 lead rest found ih =>
      rw [isValid, pieces, List.all_cons, Bool.and_eq_true, Option.isSome_iff_exists] at valid
      rcases valid with ⟨⟨c, char⟩, others⟩
      rcases ih others with ⟨text, same⟩
      have read : piece lead rest = (some c, found.2) := Prod.ext char rfl
      refine ⟨String.ofList (c :: text.toList), ?_⟩
      rw [encode, String.toList_ofList, List.flatMap_cons, encodeChar_of_piece read,
        List.cons_append]
      change lead :: (rest.take found.2 ++ encode text) = lead :: rest
      rw [same, List.take_append_drop]

theorem isValid_iff : isValid bytes = true ↔ IsText bytes := by
  constructor
  · exact isText_of_valid
  · intro ⟨text, same⟩
    rw [← same, isValid, encode, pieces_encodeChars]
    simp

theorem IsText.append (head : IsText first) (tail : IsText second) :
    IsText (first ++ second) := by
  rcases head with ⟨text, rfl⟩
  rcases tail with ⟨more, rfl⟩
  refine ⟨text ++ more, ?_⟩
  rw [encode, String.toList_append, List.flatMap_append, encode, encode]

end Interner.Utf8
