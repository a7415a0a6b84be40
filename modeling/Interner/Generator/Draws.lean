/-!
Streams of 64-bit random words, and indices drawn from them. A word `v` scaled to `v * n` has an
index in its upper half; lower halves past the zone are drawn again, so that every index is equally
likely.
-/

namespace Interner

/-- An endless stream of words and how far it has been read. -/
structure DrawStream where
  word : Nat → BitVec 64
  position : Nat := 0
  /-- After this many rejected words in a row the stream counts as dry. -/
  patience : Nat

namespace DrawStream

def current (stream : DrawStream) : BitVec 64 := stream.word stream.position

def advance (stream : DrawStream) (n : Nat) : DrawStream :=
  { stream with position := stream.position + n }

/-- The greatest accepted lower half: `n` shifted left until its top bit is set, less one. -/
def zone (n : Nat) : Nat := n <<< (63 - Nat.log2 n) % Nat.pow 2 64 - 1

/-- The index that a word selects among `n`, if the word is accepted. -/
def accept? (n : Nat) (word : BitVec 64) : Option Nat :=
  let product := word.toNat * n
  if product % Nat.pow 2 64 ≤ zone n then some (product / Nat.pow 2 64) else none

def indexWithin (n : Nat) : Nat → DrawStream → Option Nat × DrawStream
  | 0, stream => (none, stream)
  | patience + 1, stream =>
      match accept? n stream.current with
      | some index => (some index, stream.advance 1)
      | none => indexWithin n patience (stream.advance 1)

/-- Reads words until one selects an index among `n`. -/
def index (n : Nat) (stream : DrawStream) : Option Nat × DrawStream :=
  indexWithin n stream.patience stream

def cycle (words : List (BitVec 64)) : DrawStream where
  word i := words.getD (i % words.length) 0
  patience := words.length

/-- SplitMix64: each word scrambles a state that grows by a constant. -/
def splitMix (seed : BitVec 64) : DrawStream where
  word i :=
    let state := seed + BitVec.ofNat 64 (i + 1) * 0x9e3779b97f4a7c15#64
    let once := (state ^^^ (state >>> 30)) * 0xbf58476d1ce4e5b9#64
    let twice := (once ^^^ (once >>> 27)) * 0x94d049bb133111eb#64
    twice ^^^ (twice >>> 31)
  patience := 4096

end DrawStream

end Interner
