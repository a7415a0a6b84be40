import Interner.Bytes

/-! Fixed-width string hashes: FNV-1a, its extension by further bytes, and bucket selection. -/

namespace Interner

inductive Width where
  | narrow
  | wide
  deriving DecidableEq, Repr

namespace Width

def bits : Width → Nat
  | narrow => 32
  | wide => 64

def offsetBasis : Width → Nat
  | narrow => 0x811c9dc5
  | wide => 0xcbf29ce484222325

def prime : Width → Nat
  | narrow => 0x01000193
  | wide => 0x100000001b3

end Width

abbrev Hash (w : Width) := BitVec w.bits

namespace Hash

def basis {w : Width} : Hash w := BitVec.ofNat w.bits w.offsetBasis

def absorb {w : Width} (hash : Hash w) (byte : UInt8) : Hash w :=
  (hash ^^^ BitVec.ofNat w.bits byte.toNat) * BitVec.ofNat w.bits w.prime

/-- Continues a hash with more bytes, as if they had followed the bytes hashed so far. -/
def extend {w : Width} (hash : Hash w) (bytes : Bytes) : Hash w := bytes.foldl absorb hash

def ofBytes {w : Width} (bytes : Bytes) : Hash w := extend basis bytes

/-- The bucket of a hash among `count`; there is none when there are no buckets. -/
def bucket? {w : Width} (hash : Hash w) (count : Nat) : Option Nat :=
  if count = 0 then none else some (hash.toNat % count)

def hex {w : Width} (hash : Hash w) : String := String.ofList (Nat.toDigits 16 hash.toNat)

theorem extend_append {w : Width} (hash : Hash w) (first second : Bytes) :
    extend hash (first ++ second) = extend (extend hash first) second := by
  simp [extend]

theorem ofBytes_append {w : Width} (first second : Bytes) :
    (ofBytes (first ++ second) : Hash w) = extend (ofBytes first) second :=
  extend_append basis first second

end Hash

end Interner
