import Interner.Bytes

namespace Interner.Utf8

def encode (text : String) : Bytes := text.toList.flatMap String.utf8EncodeChar

/-- The announcements of a lead byte, read off its value. -/
theorem ofByte?_eq (byte : UInt8) :
    Lead.ofByte? byte =
      if byte.toNat < 0x80 then some ⟨0, 0x80, 0xbf, byte.toNat⟩
      else if byte.toNat < 0xc2 then none
      else if byte.toNat < 0xe0 then some ⟨1, 0x80, 0xbf, byte.toNat - 0xc0⟩
      else if byte.toNat = 0xe0 then some ⟨2, 0xa0, 0xbf, 0⟩
      else if byte.toNat = 0xed then some ⟨2, 0x80, 0x9f, 0xd⟩
      else if byte.toNat < 0xf0 then some ⟨2, 0x80, 0xbf, byte.toNat - 0xe0⟩
      else if byte.toNat = 0xf0 then some ⟨3, 0x90, 0xbf, 0⟩
      else if byte.toNat < 0xf4 then some ⟨3, 0x80, 0xbf, byte.toNat - 0xf0⟩
      else if byte.toNat = 0xf4 then some ⟨3, 0x80, 0x8f, 4⟩
      else none := by
  simp only [Lead.ofByte?, UInt8.lt_iff_toNat_lt, ← UInt8.toNat_inj]
  rfl

theorem follow_byte {low high : UInt8} {share : Nat} (small : share < 64)
    (above : low.toNat ≤ share + 0x80) (below : share + 0x80 ≤ high.toNat) (missing value : Nat)
    (rest : Bytes) :
    follow (missing + 1) low high value (UInt8.ofNat (share + 0x80) :: rest) =
      ((follow missing 0x80 0xbf (value * 64 + share) rest).1,
        (follow missing 0x80 0xbf (value * 64 + share) rest).2 + 1) := by
  have read : (UInt8.ofNat (share + 0x80)).toNat = share + 0x80 := by
    rw [UInt8.toNat_ofNat']
    omega
  rw [follow, if_pos]
  · rw [read, Nat.add_sub_cancel]
  · rw [UInt8.le_iff_toNat_le, UInt8.le_iff_toNat_le, read]
    exact ⟨above, below⟩

theorem follow_last {low high : UInt8} {share value : Nat} {c : Char} (small : share < 64)
    (above : low.toNat ≤ share + 0x80) (below : share + 0x80 ≤ high.toNat)
    (whole : value * 64 + share = c.toNat) (rest : Bytes) :
    follow 1 low high value (UInt8.ofNat (share + 0x80) :: rest) = (some c, 1) := by
  rw [follow_byte small above below, follow, whole, Char.ofNat_toNat]

theorem piece_of_lead {byte : UInt8} {found : Lead} (announced : Lead.ofByte? byte = some found)
    (rest : Bytes) :
    piece byte rest = follow found.following found.low found.high found.payload rest := by
  rw [piece, announced]

theorem toNat_ofNat_of_lt {n : Nat} (small : n < 256) : (UInt8.ofNat n).toNat = n := by
  rw [UInt8.toNat_ofNat']
  exact Nat.mod_eq_of_lt small

theorem lead_two {v : Nat} (low : 0x80 ≤ v) (high : v ≤ 0x7ff) :
    Lead.ofByte? (UInt8.ofNat (v / 64 % 32 + 0xc0)) = some ⟨1, 0x80, 0xbf, v / 64⟩ := by
  have share : v / 64 % 32 = v / 64 := Nat.mod_eq_of_lt (by omega)
  rw [ofByte?_eq, toNat_ofNat_of_lt (by omega), share, if_neg (by omega), if_neg (by omega),
    if_pos (by omega), Nat.add_sub_cancel]

theorem lead_three {v : Nat} (low : 0x800 ≤ v) (high : v ≤ 0xffff)
    (valid : v < 0xd800 ∨ 0xdfff < v) :
    ∃ first last, Lead.ofByte? (UInt8.ofNat (v / 4096 % 16 + 0xe0)) =
        some ⟨2, first, last, v / 4096⟩ ∧
      first.toNat ≤ v / 64 % 64 + 0x80 ∧ v / 64 % 64 + 0x80 ≤ last.toNat := by
  have share : v / 4096 % 16 = v / 4096 := Nat.mod_eq_of_lt (by omega)
  rw [ofByte?_eq, toNat_ofNat_of_lt (by omega), share, if_neg (by omega), if_neg (by omega),
    if_neg (by omega)]
  by_cases least : v / 4096 = 0
  · rw [if_pos (by omega), least]
    exact ⟨0xa0, 0xbf, rfl, by change 160 ≤ _; omega, by change _ ≤ 191; omega⟩
  · rw [if_neg (by omega)]
    by_cases surrogates : v / 4096 = 0xd
    · rw [if_pos (by omega), surrogates]
      exact ⟨0x80, 0x9f, rfl, by change 128 ≤ _; omega, by change _ ≤ 159; omega⟩
    · rw [if_neg (by omega), if_pos (by omega), Nat.add_sub_cancel]
      exact ⟨0x80, 0xbf, rfl, by change 128 ≤ _; omega, by change _ ≤ 191; omega⟩

theorem lead_four {v : Nat} (low : 0x10000 ≤ v) (high : v < 0x110000) :
    ∃ first last, Lead.ofByte? (UInt8.ofNat (v / 262144 % 8 + 0xf0)) =
        some ⟨3, first, last, v / 262144⟩ ∧
      first.toNat ≤ v / 4096 % 64 + 0x80 ∧ v / 4096 % 64 + 0x80 ≤ last.toNat := by
  have share : v / 262144 % 8 = v / 262144 := Nat.mod_eq_of_lt (by omega)
  rw [ofByte?_eq, toNat_ofNat_of_lt (by omega), share, if_neg (by omega), if_neg (by omega),
    if_neg (by omega), if_neg (by omega), if_neg (by omega), if_neg (by omega)]
  by_cases least : v / 262144 = 0
  · rw [if_pos (by omega), least]
    exact ⟨0x90, 0xbf, rfl, by change 144 ≤ _; omega, by change _ ≤ 191; omega⟩
  · rw [if_neg (by omega)]
    by_cases greatest : v / 262144 = 4
    · rw [if_neg (by omega), if_pos (by omega), greatest]
      exact ⟨0x80, 0x8f, rfl, by change 128 ≤ _; omega, by change _ ≤ 143; omega⟩
    · rw [if_pos (by omega), Nat.add_sub_cancel]
      exact ⟨0x80, 0xbf, rfl, by change 128 ≤ _; omega, by change _ ≤ 191; omega⟩

theorem continuation (share : Nat) : (0x80 : UInt8).toNat ≤ share + 0x80 := Nat.le_add_left 128 share

theorem continuation_le {share : Nat} (small : share < 64) :
    share + 0x80 ≤ (0xbf : UInt8).toNat := by
  change _ ≤ 191
  omega

section EncodeChar

variable {c : Char} {v : Nat}

theorem encodeChar_one (value : c.toNat = v) (high : v ≤ 0x7f) :
    String.utf8EncodeChar c = [UInt8.ofNat v] := by
  subst value
  exact if_pos high

theorem encodeChar_two (value : c.toNat = v) (low : 0x80 ≤ v) (high : v ≤ 0x7ff) :
    String.utf8EncodeChar c = [UInt8.ofNat (v / 64 % 32 + 0xc0), UInt8.ofNat (v % 64 + 0x80)] := by
  subst value
  exact (if_neg (Nat.not_le_of_gt low)).trans (if_pos high)

theorem encodeChar_three (value : c.toNat = v) (low : 0x800 ≤ v) (high : v ≤ 0xffff) :
    String.utf8EncodeChar c = [UInt8.ofNat (v / 4096 % 16 + 0xe0),
      UInt8.ofNat (v / 64 % 64 + 0x80), UInt8.ofNat (v % 64 + 0x80)] := by
  subst value
  have one : 0x7f < c.toNat := Nat.lt_of_lt_of_le (by decide) low
  exact (if_neg (Nat.not_le_of_gt one)).trans
    ((if_neg (Nat.not_le_of_gt low)).trans (if_pos high))

theorem encodeChar_four (value : c.toNat = v) (low : 0x10000 ≤ v) :
    String.utf8EncodeChar c = [UInt8.ofNat (v / 262144 % 8 + 0xf0),
      UInt8.ofNat (v / 4096 % 64 + 0x80), UInt8.ofNat (v / 64 % 64 + 0x80),
      UInt8.ofNat (v % 64 + 0x80)] := by
  subst value
  have one : 0x7f < c.toNat := Nat.lt_of_lt_of_le (by decide) low
  have two : 0x7ff < c.toNat := Nat.lt_of_lt_of_le (by decide) low
  exact (if_neg (Nat.not_le_of_gt one)).trans
    ((if_neg (Nat.not_le_of_gt two)).trans (if_neg (Nat.not_le_of_gt low)))

end EncodeChar

theorem piece_encodeChar (c : Char) (rest : Bytes) :
    ∃ lead tail, String.utf8EncodeChar c = lead :: tail ∧
      piece lead (tail ++ rest) = (some c, tail.length) := by
  have valid : c.toNat < 0xd800 ∨ 0xdfff < c.toNat ∧ c.toNat < 0x110000 := c.valid
  have six (n : Nat) : n % 64 < 64 := Nat.mod_lt n (by decide)
  by_cases one : c.toNat ≤ 0x7f
  · refine ⟨_, _, encodeChar_one rfl one, ?_⟩
    have announced : Lead.ofByte? (UInt8.ofNat c.toNat) = some ⟨0, 0x80, 0xbf, c.toNat⟩ := by
      rw [ofByte?_eq, toNat_ofNat_of_lt (by omega), if_pos (by omega)]
    rw [piece_of_lead announced, follow, Char.ofNat_toNat]
    rfl
  by_cases two : c.toNat ≤ 0x7ff
  · refine ⟨_, _, encodeChar_two rfl (by omega) two, ?_⟩
    have announced := lead_two (by omega) two
    have whole : c.toNat / 64 * 64 + c.toNat % 64 = c.toNat := by omega
    rw [piece_of_lead announced]
    exact follow_last (six _) (continuation _) (continuation_le (six _)) whole rest
  by_cases three : c.toNat ≤ 0xffff
  · refine ⟨_, _, encodeChar_three rfl (by omega) three, ?_⟩
    obtain ⟨first, last, announced, above, below⟩ := lead_three (by omega) three (by omega)
    have whole : (c.toNat / 4096 * 64 + c.toNat / 64 % 64) * 64 + c.toNat % 64 = c.toNat := by
      omega
    rw [piece_of_lead announced, List.cons_append, follow_byte (six _) above below,
      List.cons_append, follow_last (six _) (continuation _) (continuation_le (six _)) whole]
    rfl
  · have low : 0x10000 ≤ c.toNat := by omega
    refine ⟨_, _, encodeChar_four rfl low, ?_⟩
    obtain ⟨first, last, announced, above, below⟩ := lead_four low (by omega)
    have whole : ((c.toNat / 262144 * 64 + c.toNat / 4096 % 64) * 64 + c.toNat / 64 % 64) * 64 +
        c.toNat % 64 = c.toNat := by
      omega
    rw [piece_of_lead announced, List.cons_append, follow_byte (six _) above below,
      List.cons_append, follow_byte (six _) (continuation _) (continuation_le (six _)),
      List.cons_append, follow_last (six _) (continuation _) (continuation_le (six _)) whole]
    rfl

theorem pieces_encodeChars (chars : List Char) :
    pieces (chars.flatMap String.utf8EncodeChar) = chars.map some := by
  induction chars with
  | nil => rw [List.flatMap_nil, pieces, List.map_nil]
  | cons c chars ih =>
      obtain ⟨lead, tail, bytes, whole⟩ := piece_encodeChar c (chars.flatMap String.utf8EncodeChar)
      rw [List.flatMap_cons, bytes, List.cons_append, pieces, whole, List.drop_left, ih,
        List.map_cons]

/-- The lossy reading of a text's own bytes is the text. -/
theorem lossy_encode (text : String) : lossy (encode text) = text := by
  rw [lossy, encode, pieces_encodeChars, List.map_map]
  change String.ofList (text.toList.map id) = text
  rw [List.map_id, String.ofList_toList]

end Interner.Utf8
