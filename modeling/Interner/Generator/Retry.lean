import Interner.Event

/-!
Retry policies. A policy is asked after each candidate that was not new, and either tries the next
candidate, accepts the id as it is, or gives up.
-/

namespace Interner

inductive Decision where
  | retry
  | accept
  deriving DecidableEq, Repr

structure RetryPolicy (w : Width) where
  decide : Consultation w → Except (GenerationError w) Decision
  /-- How many candidates to try before leaving a run unfinished. -/
  patience : Nat

namespace RetryPolicy

variable {w : Width}

def bounded (limit : Nat) : RetryPolicy w where
  decide asked :=
    if limit ≤ asked.attempt then .error (.exhausted asked.generator asked.attempt) else .ok .retry
  patience := max limit 1

def standardLimit : Nat := 8

def standard : RetryPolicy w := bounded standardLimit

inductive Reply where
  | retry
  | accept
  | giveUp
  /-- Reports the candidate's own hash as a stem that is not stored. -/
  | storeError
  deriving DecidableEq, Repr

def Reply.answer (asked : Consultation w) : Reply → Except (GenerationError w) Decision
  | retry => .ok .retry
  | accept => .ok .accept
  | giveUp => .error (.exhausted asked.generator asked.attempt)
  | storeError => .error (.store (.unknownStem asked.hash))

/-- Entry `attempt - 1` of the answers; the last one repeats, and none at all means giving up. -/
def replyAt (replies : List Reply) (attempt : Nat) : Reply :=
  (replies[attempt - 1]? <|> replies.getLast?).getD .giveUp

/-- A prepared policy gives up at this attempt at the latest. -/
def preparedLimit : Nat := 200

/-- Answers by attempt, from one list for old candidates and one for colliding ones. -/
def prepared (old collision : List Reply) : RetryPolicy w where
  decide asked :=
    let replies := if asked.status = .collision then collision else old
    let reply := if preparedLimit ≤ asked.attempt then .giveUp else replyAt replies asked.attempt
    reply.answer asked
  patience := preparedLimit

end RetryPolicy

end Interner
