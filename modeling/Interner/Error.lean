import Interner.Hash

namespace Interner

inductive GeneratorKind where
  | counter
  | random
  deriving DecidableEq, Repr

def GeneratorKind.name : GeneratorKind → String
  | counter => "string_id::counter_generator"
  | random => "string_id::random_generator"

inductive StoreError (w : Width) where
  /-- The string to extend is not stored. -/
  | unknownStem (stem : Hash w)
  /-- Two different strings have one hash; the texts are their lossy readings. -/
  | collision (hash : Hash w) (existing candidate : String)
  deriving DecidableEq, Repr

def StoreError.message {w : Width} : StoreError w → String
  | unknownStem stem => "prefix hash 0x" ++ Hash.hex stem ++ " was never inserted"
  | collision hash existing candidate =>
      "strings \"" ++ existing ++ "\" and \"" ++ candidate ++
        "\" are both producing the value 0x" ++ Hash.hex hash

inductive GenerationError (w : Width) where
  | store (error : StoreError w)
  | exhausted (generator : GeneratorKind) (attempts : Nat)
  deriving DecidableEq, Repr

def GenerationError.message {w : Width} : GenerationError w → String
  | store error => error.message
  | exhausted generator attempts =>
      "generator \"" ++ generator.name ++ "\" was unable to generate a new string id after " ++
        toString attempts ++ " attempts"

end Interner
