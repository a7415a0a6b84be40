import Interner.Generator.Basic

namespace Interner

def decimalBytes (n : Nat) : Bytes :=
  if n < 10 then [UInt8.ofNat (48 + n)]
  else decimalBytes (n / 10) ++ [UInt8.ofNat (48 + n % 10)]
termination_by n
decreasing_by omega

structure CounterGenerator (w : Width) where
  stem : Hash w
  counter : BitVec 64 := 0
  /-- How many digits a candidate has; zero means as many as the number needs. -/
  width : Nat := 0
  policy : RetryPolicy w := .standard

namespace CounterGenerator

variable {w : Width}

def maxWidth : Nat := 32

def withWidth (generator : CounterGenerator w) (width : Nat) : CounterGenerator w :=
  { generator with width := min width maxWidth }

/-- Appends the counter to a buffer: shorter numerals get leading zeros, and of longer ones only the
last `width` digits stay. -/
def write (buffer : Bytes) (counter : BitVec 64) (width : Nat) : Bytes :=
  let digits := decimalBytes counter.toNat
  if width = 0 then buffer ++ digits
  else if digits.length < width then
    buffer ++ List.replicate (width - digits.length) 48 ++ digits
  else buffer ++ digits.drop (digits.length - width)

def advance (generator : CounterGenerator w) (n : BitVec 64) : CounterGenerator w :=
  { generator with counter := generator.counter + n }

instance : CandidateSource (CounterGenerator w) where
  next generator := (some (write [] generator.counter generator.width), generator.advance 1)

def discard (generator : CounterGenerator w) (n : BitVec 64) : CounterGenerator w :=
  generator.advance n

def program (generator : CounterGenerator w) : Program w (Generation w) :=
  Program.generate .counter generator.stem generator.policy

def generate {σ : Type} [IdStore σ w] (generator : CounterGenerator w) (store : σ) :
    Outcome σ (CounterGenerator w) w (Generation w) :=
  generator.program.run store generator

end CounterGenerator

end Interner
