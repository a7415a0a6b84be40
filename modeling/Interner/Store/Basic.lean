import Interner.Event

/-!
What every string store can do. A store inserts a string under a hash, inserts an extension of a
stored string, and looks a hash up; everything else follows from these three.
-/

namespace Interner

/-- An answer, the store afterwards, and the events reported on the way. -/
structure Step (σ : Type) (w : Width) (α : Type) where
  store : σ
  answer : α
  events : List (Event w) := []

namespace Step

variable {σ τ α β : Type} {w : Width}

def mapStore (f : σ → τ) (step : Step σ w α) : Step τ w α := ⟨f step.store, step.answer, step.events⟩

def mapAnswer (f : α → β) (step : Step σ w α) : Step σ w β :=
  ⟨step.store, f step.answer, step.events⟩

end Step

/-- Inserts an extension the plain way: looks `stem` up and inserts the joined string. -/
def insertJoined {σ : Type} {w : Width} (insert : σ → Hash w → Bytes → Step σ w Status)
    (lookupTerminated : σ → Hash w → Option Bytes) (store : σ) (hash stem : Hash w)
    (suffix : Bytes) : Step σ w (Except (StoreError w) Status) :=
  match (lookupTerminated store stem).map Bytes.withoutLast with
  | none => ⟨store, .error (.unknownStem stem), []⟩
  | some head => (insert store hash (head ++ suffix)).mapAnswer .ok

class IdStore (σ : Type) (w : outParam Width) where
  insert : σ → Hash w → Bytes → Step σ w Status
  /-- The bytes stored under a hash, with their terminator. -/
  lookupTerminated : σ → Hash w → Option Bytes
  /-- Inserts under the first hash the string stored under the second followed by more bytes. -/
  insertExtension : σ → Hash w → Hash w → Bytes → Step σ w (Except (StoreError w) Status) :=
    insertJoined insert lookupTerminated

/-- The four readings of what a hash holds. -/
structure Views where
  terminated : Option Bytes
  content : Option Bytes
  /-- The content, if it is UTF-8 text. -/
  text : Option Bytes
  /-- The content, if its only zero byte is the terminator. -/
  cString : Option Bytes
  deriving DecidableEq, Repr

namespace Views

def textOf (content : Bytes) : Option Bytes := if Utf8.isValid content then some content else none

def cStringOf (terminated : Bytes) : Option Bytes :=
  if terminated.getLast? = some 0 ∧ 0 ∉ terminated.dropLast then some terminated.dropLast else none

def ofTerminated (found : Option Bytes) : Views where
  terminated := found
  content := found.map Bytes.withoutLast
  text := (found.map Bytes.withoutLast).bind textOf
  cString := found.bind cStringOf

end Views

namespace IdStore

variable {σ : Type} {w : Width} [IdStore σ w]

def lookup (store : σ) (hash : Hash w) : Option Bytes :=
  (lookupTerminated store hash).map Bytes.withoutLast

def views (store : σ) (hash : Hash w) : Views := Views.ofTerminated (lookupTerminated store hash)

end IdStore

end Interner
