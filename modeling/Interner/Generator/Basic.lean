import Interner.Generator.Retry
import Interner.Program

namespace Interner

structure Generated (w : Width) where
  hash : Hash w
  status : Status
  deriving DecidableEq, Repr

/-- `none` is a run that ran out of patience or of candidates. -/
abbrev Generation (w : Width) := Option (Except (GenerationError w) (Generated w))

namespace Program

variable {w : Width}

def candidateEvent (asked : Consultation w) : Event w :=
  if asked.status = .collision then
    .candidateCollides asked.generator asked.attempt asked.hash (Utf8.lossy asked.stored)
  else .candidateExists asked.generator asked.attempt asked.hash

/-- Tries up to `patience` candidates, counting attempts from `attempt`. -/
def generateFrom (kind : GeneratorKind) (stem : Hash w)
    (decide : Consultation w → Except (GenerationError w) Decision) :
    (patience attempt : Nat) → Program w (Generation w)
  | 0, _ => done none
  | patience + 1, attempt =>
      candidate fun suffix =>
        match suffix with
        | none => done none
        | some suffix =>
            let hash := Hash.extend stem suffix
            insertExtension hash stem suffix fun result =>
              match result with
              | .error error => done (some (.error (.store error)))
              | .ok .new => done (some (.ok ⟨hash, .new⟩))
              | .ok status =>
                  lookup hash fun stored =>
                    let asked : Consultation w := ⟨attempt, kind, hash, stored.getD [], status⟩
                    record (.event (candidateEvent asked)) (record (.consulted asked)
                      (match decide asked with
                        | .error error => done (some (.error error))
                        | .ok .accept => done (some (.ok ⟨hash, status⟩))
                        | .ok .retry => generateFrom kind stem decide patience (attempt + 1)))

def generate (kind : GeneratorKind) (stem : Hash w) (policy : RetryPolicy w) :
    Program w (Generation w) :=
  generateFrom kind stem policy.decide policy.patience 1

end Program

end Interner
