import Interner.Generator.Basic
import Interner.Generator.Draws

namespace Interner

structure CharacterTable where
  chars : Bytes
  nonempty : chars ≠ []
  deriving DecidableEq, Repr

namespace CharacterTable

def ofBytes? (chars : Bytes) : Option CharacterTable :=
  if nonempty : chars ≠ [] then some ⟨chars, nonempty⟩ else none

def letters : Bytes := Bytes.ofAscii "ABCDEFGHIJKLMNOPQRSTUVWXYZabcdefghijklmnopqrstuvwxyz"

def alpha : CharacterTable := ⟨letters, by decide⟩

def alnum : CharacterTable := ⟨letters ++ Bytes.ofAscii "0123456789", by decide⟩

def standard : CharacterTable := alnum

def size (table : CharacterTable) : Nat := table.chars.length

end CharacterTable

structure RandomGenerator (w : Width) where
  stem : Hash w
  draws : DrawStream
  length : Nat
  table : CharacterTable := .standard
  policy : RetryPolicy w := .standard

namespace RandomGenerator

variable {w : Width}

def drawText (table : CharacterTable) : Nat → DrawStream → Option Bytes × DrawStream
  | 0, draws => (some [], draws)
  | length + 1, draws =>
      match draws.index table.size with
      | (none, draws) => (none, draws)
      | (some index, draws) =>
          match drawText table length draws with
          | (rest, draws) =>
              ((table.chars[index]?).bind fun char => rest.map (char :: ·), draws)

instance : CandidateSource (RandomGenerator w) where
  next generator :=
    match drawText generator.table generator.length generator.draws with
    | (text, draws) => (text, { generator with draws })

def discard (generator : RandomGenerator w) (n : Nat) : RandomGenerator w :=
  { generator with draws := generator.draws.advance n }

def program (generator : RandomGenerator w) : Program w (Generation w) :=
  Program.generate .random generator.stem generator.policy

def generate {σ : Type} [IdStore σ w] (generator : RandomGenerator w) (store : σ) :
    Outcome σ (RandomGenerator w) w (Generation w) :=
  generator.program.run store generator

end RandomGenerator

end Interner
