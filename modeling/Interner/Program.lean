import Interner.Store.Basic

/-!
Compound operations as programs of single store operations. Each node of a program is one step that
no other thread can divide; `run` takes the steps in order on one store.
-/

namespace Interner

class CandidateSource (γ : Type) where
  /-- The next candidate and the source after it; `none` when the source has dried up. -/
  next : γ → Option Bytes × γ

instance : CandidateSource Unit where
  next source := (none, source)

inductive Program (w : Width) (α : Type) where
  | done (answer : α)
  | insert (hash : Hash w) (content : Bytes) (next : Status → Program w α)
  | insertExtension (hash stem : Hash w) (suffix : Bytes)
      (next : Except (StoreError w) Status → Program w α)
  /-- Reads the bytes under a hash, with their terminator. -/
  | lookupTerminated (hash : Hash w) (next : Option Bytes → Program w α)
  /-- Takes the next candidate suffix from the source at hand. -/
  | candidate (next : Option Bytes → Program w α)
  | record (entry : Entry w) (next : Program w α)

/-- What a program leaves behind. -/
structure Outcome (σ γ : Type) (w : Width) (α : Type) where
  answer : α
  store : σ
  source : γ
  journal : Journal w

namespace Outcome

variable {σ γ α : Type} {w : Width}

def after (outcome : Outcome σ γ w α) (earlier : Journal w) : Outcome σ γ w α :=
  ⟨outcome.answer, outcome.store, outcome.source, earlier ++ outcome.journal⟩

end Outcome

namespace Program

variable {σ γ α : Type} {w : Width} [IdStore σ w] [CandidateSource γ]

def lookup (hash : Hash w) (next : Option Bytes → Program w α) : Program w α :=
  lookupTerminated hash fun found => next (found.map Bytes.withoutLast)

def run : Program w α → σ → γ → Outcome σ γ w α
  | done answer, store, source => ⟨answer, store, source, []⟩
  | insert hash content next, store, source =>
      match IdStore.insert store hash content with
      | ⟨store, status, events⟩ => ((next status).run store source).after (events.map .event)
  | insertExtension hash stem suffix next, store, source =>
      match IdStore.insertExtension store hash stem suffix with
      | ⟨store, result, events⟩ => ((next result).run store source).after (events.map .event)
  | lookupTerminated hash next, store, source =>
      (next (IdStore.lookupTerminated store hash)).run store source
  | candidate next, store, source =>
      match CandidateSource.next source with
      | (suffix, source) => (next suffix).run store source
  | record entry next, store, source => (next.run store source).after [entry]

@[simp] theorem run_done (answer : α) (store : σ) (source : γ) :
    (done answer : Program w α).run store source = ⟨answer, store, source, []⟩ := rfl

@[simp] theorem run_insert (hash : Hash w) (content : Bytes) (next : Status → Program w α)
    (store : σ) (source : γ) :
    (insert hash content next).run store source =
      ((next (IdStore.insert store hash content).answer).run
        (IdStore.insert store hash content).store source).after
        ((IdStore.insert store hash content).events.map .event) := rfl

@[simp] theorem run_insertExtension (hash stem : Hash w) (suffix : Bytes)
    (next : Except (StoreError w) Status → Program w α) (store : σ) (source : γ) :
    (insertExtension hash stem suffix next).run store source =
      ((next (IdStore.insertExtension store hash stem suffix).answer).run
        (IdStore.insertExtension store hash stem suffix).store source).after
        ((IdStore.insertExtension store hash stem suffix).events.map .event) := rfl

@[simp] theorem run_lookupTerminated (hash : Hash w) (next : Option Bytes → Program w α)
    (store : σ) (source : γ) :
    (lookupTerminated hash next).run store source =
      (next (IdStore.lookupTerminated store hash)).run store source := rfl

@[simp] theorem run_lookup (hash : Hash w) (next : Option Bytes → Program w α)
    (store : σ) (source : γ) :
    (lookup hash next).run store source = (next (IdStore.lookup store hash)).run store source := rfl

@[simp] theorem run_candidate (next : Option Bytes → Program w α) (store : σ) (source : γ) :
    (candidate next).run store source =
      (next (CandidateSource.next source).1).run store (CandidateSource.next source).2 := rfl

@[simp] theorem run_record (entry : Entry w) (next : Program w α) (store : σ) (source : γ) :
    (record entry next).run store source = (next.run store source).after [entry] := rfl

end Program

end Interner
