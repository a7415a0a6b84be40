/-!
Byte strings, their terminated form, and the UTF-8 text inside them. A byte string splits into pieces,
each a character or the longest part of one that can still be completed; what cannot be completed reads
as U+FFFD.
-/

namespace Interner

abbrev Bytes := List UInt8

namespace Bytes

/-- A stored string is its content followed by one zero byte. -/
def terminated (content : Bytes) : Bytes := content ++ [0]

def withoutLast (bytes : Bytes) : Bytes := bytes.dropLast

def ofAscii (text : String) : Bytes := text.toList.map fun c => UInt8.ofNat c.toNat

theorem withoutLast_terminated (content : Bytes) : withoutLast (terminated content) = content := by
  simp [withoutLast, terminated]

end Bytes

namespace Utf8

/-- What a lead byte announces: how many bytes follow, the range of the first of them, and its
own share of the code point. -/
structure Lead where
  following : Nat
  low : UInt8
  high : UInt8
  payload : Nat

/-- The ranges leave out overlong forms, surrogates and code points past U+10FFFF. -/
def Lead.ofByte? (byte : UInt8) : Option Lead :=
  let value := byte.toNat
  if byte < 0x80 then some ⟨0, 0x80, 0xbf, value⟩
  else if byte < 0xc2 then none
  else if byte < 0xe0 then some ⟨1, 0x80, 0xbf, value - 0xc0⟩
  else if byte = 0xe0 then some ⟨2, 0xa0, 0xbf, 0⟩
  else if byte = 0xed then some ⟨2, 0x80, 0x9f, 0xd⟩
  else if byte < 0xf0 then some ⟨2, 0x80, 0xbf, value - 0xe0⟩
  else if byte = 0xf0 then some ⟨3, 0x90, 0xbf, 0⟩
  else if byte < 0xf4 then some ⟨3, 0x80, 0xbf, value - 0xf0⟩
  else if byte = 0xf4 then some ⟨3, 0x80, 0x8f, 4⟩
  else none

/-- Reads the bytes after a lead: the character, if complete, and how many bytes belong to it. -/
def follow : Nat → UInt8 → UInt8 → Nat → Bytes → Option Char × Nat
  | 0, _, _, value, _ => (some (Char.ofNat value), 0)
  | _ + 1, _, _, _, [] => (none, 0)
  | missing + 1, low, high, value, byte :: rest =>
      if low ≤ byte ∧ byte ≤ high then
        let tail := follow missing 0x80 0xbf (value * 64 + (byte.toNat - 0x80)) rest
        (tail.1, tail.2 + 1)
      else (none, 0)

def piece (lead : UInt8) (rest : Bytes) : Option Char × Nat :=
  match Lead.ofByte? lead with
  | some found => follow found.following found.low found.high found.payload rest
  | none => (none, 0)

/-- The pieces of a byte string in order; `none` stands for a broken one. -/
def pieces : Bytes → List (Option Char)
  | [] => []
  | lead :: rest =>
      let found := piece lead rest
      found.1 :: pieces (rest.drop found.2)
termination_by bytes => bytes.length
decreasing_by simp only [List.length_drop, List.length_cons]; omega

def isValid (bytes : Bytes) : Bool := (pieces bytes).all Option.isSome

/-- Every broken piece reads as one U+FFFD. -/
def lossy (bytes : Bytes) : String := String.ofList ((pieces bytes).map (·.getD '\ufffd'))

end Utf8

end Interner
