import Interner.Number.Decimal
import Interner.Number.Numeral

namespace Interner

structure Config where
  buckets : Nat := 1024
  maxLoadFactor : Binary64 := Binary64.one
  deriving DecidableEq, Repr

inductive ConfigError where
  | invalidBucketCount (count : Nat)
  | invalidLoadFactor (factor : Binary64)
  deriving DecidableEq, Repr

def ConfigError.message : ConfigError → String
  | invalidBucketCount count => "invalid bucket count: " ++ toString count
  | invalidLoadFactor factor => "invalid max load factor: " ++ NumberFormat.plain.write factor

inductive Document where
  | null
  | boolean (value : Bool)
  | number (value : Numeral)
  | text (value : String)
  | list (items : List Document)
  | record (fields : List (String × Document))

namespace Document

/-- The last field of a name counts. -/
def field? (fields : List (String × Document)) (name : String) : Option Document :=
  (fields.reverse.find? fun field => field.1 == name).map (·.2)

def toNumeral? : Document → Option Numeral
  | number value => some value
  | _ => none

end Document

namespace Config

/-- 2^-16 in units: the least load factor at which the first entry needs a bounded table. -/
def minLoadUnits : Nat := Nat.pow 2 1058

def acceptableLoad (factor : Binary64) : Bool :=
  factor.isFinite && !factor.negative && minLoadUnits ≤ factor.units

def validate (config : Config) : Except ConfigError Unit :=
  if config.buckets = 0 then .error (.invalidBucketCount config.buckets)
  else if acceptableLoad config.maxLoadFactor then .ok ()
  else .error (.invalidLoadFactor config.maxLoadFactor)

def sameAs (first second : Config) : Bool :=
  first.buckets == second.buckets && first.maxLoadFactor.sameValue second.maxLoadFactor

/-- A part that is absent keeps the default; one that is present has to read. -/
def ofParts? (buckets factor : Option Document) : Option Config := do
  let standard : Config := {}
  let buckets ← match buckets with
    | none => some standard.buckets
    | some part => part.toNumeral? >>= Numeral.toWord?
  let factor ← match factor with
    | none => some standard.maxLoadFactor
    | some part => part.toNumeral? >>= Numeral.toBinary64?
  some ⟨buckets, factor⟩

/-- A record by field name, other fields ignored, or a list of at most the two parts in order. -/
def ofDocument? : Document → Option Config
  | .record fields =>
      ofParts? (Document.field? fields "initial_buckets") (Document.field? fields "max_load_factor")
  | .list [] => ofParts? none none
  | .list [buckets] => ofParts? (some buckets) none
  | .list [buckets, factor] => ofParts? (some buckets) (some factor)
  | _ => none

end Config

end Interner
