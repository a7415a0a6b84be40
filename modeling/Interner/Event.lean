import Interner.Error

namespace Interner

/-- What an insertion finds under its hash. -/
inductive Status where
  /-- Nothing was stored; the string is stored now. -/
  | new
  /-- The same string was stored. -/
  | old
  /-- A different string was stored, and stays. -/
  | collision
  deriving DecidableEq, Repr

inductive Level where
  | debug
  | warn
  deriving DecidableEq, Repr

def Level.name : Level → String
  | debug => "DEBUG"
  | warn => "WARN"

inductive Event (w : Width) where
  /-- The bucket array grew while `items` strings were stored. -/
  | rehashed (before after items : Nat)
  /-- A string was refused because another one has its hash. -/
  | collided (hash : Hash w) (existing candidate : String)
  | candidateCollides (generator : GeneratorKind) (attempt : Nat) (hash : Hash w)
      (existing : String)
  | candidateExists (generator : GeneratorKind) (attempt : Nat) (hash : Hash w)
  deriving DecidableEq, Repr

namespace Event

variable {w : Width}

def level : Event w → Level
  | rehashed .. | candidateExists .. => .debug
  | collided .. | candidateCollides .. => .warn

def message : Event w → String
  | rehashed .. => "string id database rehashed"
  | collided .. => "string id collision"
  | candidateCollides .. => "generated string id collides"
  | candidateExists .. => "generated string id already exists"

def fields : Event w → List (String × String)
  | rehashed before after items =>
      [("from", toString before), ("to", toString after), ("items", toString items)]
  | collided hash existing candidate =>
      [("hash", toString hash.toNat), ("existing", existing), ("candidate", candidate)]
  | candidateCollides generator attempt hash existing =>
      [("generator", generator.name), ("attempt", toString attempt),
        ("hash", toString hash.toNat), ("existing", existing)]
  | candidateExists generator attempt hash =>
      [("generator", generator.name), ("attempt", toString attempt),
        ("hash", toString hash.toNat)]

end Event

/-- A question to a retry policy: the `attempt`-th candidate was not new, and `stored` is what its
hash holds. -/
structure Consultation (w : Width) where
  attempt : Nat
  generator : GeneratorKind
  hash : Hash w
  stored : Bytes
  status : Status
  deriving DecidableEq, Repr

inductive Entry (w : Width) where
  | event (event : Event w)
  | consulted (consultation : Consultation w)
  deriving DecidableEq, Repr

abbrev Journal (w : Width) := List (Entry w)

namespace Journal

variable {w : Width}

def events (journal : Journal w) : List (Event w) :=
  journal.filterMap fun entry => match entry with
    | .event event => some event
    | .consulted _ => none

def consultations (journal : Journal w) : List (Consultation w) :=
  journal.filterMap fun entry => match entry with
    | .event _ => none
    | .consulted consultation => some consultation

end Journal

end Interner
