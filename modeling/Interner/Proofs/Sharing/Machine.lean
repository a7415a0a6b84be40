import Interner.Proofs.Store.Settled

/-!
Threads that share one store. Each thread has calls to make, one after the other, and at every
moment any thread may take the next step of its call; steps of different threads mix freely.
-/

namespace Interner

variable {ι κ σ γ α : Type} {w : Width}

structure Thread (κ : Type) (w : Width) (α : Type) where
  waiting : List κ
  pending : Option (Program w α) := none
  returned : List α := []

structure Machine (ι κ σ γ : Type) (w : Width) (α : Type) where
  store : σ
  source : γ
  threads : ι → Thread κ w α
  /-- The calls in the order of their first steps, each with its thread. -/
  started : List (ι × κ) := []

namespace Machine

def launch (store : σ) (source : γ) (calls : ι → List κ) : Machine ι κ σ γ w α where
  store := store
  source := source
  threads who := { waiting := calls who }

def calls (machine : Machine ι κ σ γ w α) : List κ := machine.started.map Prod.snd

variable [DecidableEq ι]

def callsOf (machine : Machine ι κ σ γ w α) (who : ι) : List κ :=
  (machine.started.filter fun call => call.1 = who).map Prod.snd

/-- The answers to the calls of one thread among the answers to all calls started. -/
def answersTo (machine : Machine ι κ σ γ w α) (answers : List α) (who : ι) : List α :=
  ((machine.started.zip answers).filter fun call => call.1.1 = who).map Prod.snd

def setThread (machine : Machine ι κ σ γ w α) (who : ι) (thread : Thread κ w α) :
    Machine ι κ σ γ w α :=
  { machine with threads := Function.update machine.threads who thread }

theorem setThread_self (machine : Machine ι κ σ γ w α) (who : ι) (thread : Thread κ w α) :
    (machine.setThread who thread).threads who = thread := by
  simp only [setThread, Function.update_self]

theorem setThread_of_ne (machine : Machine ι κ σ γ w α) {who other : ι} (different : other ≠ who)
    (thread : Thread κ w α) :
    (machine.setThread who thread).threads other = machine.threads other := by
  simp only [setThread, Function.update_of_ne different]

section Steps

variable [IdStore σ w] [CandidateSource γ]

def advance (machine : Machine ι κ σ γ w α) (who : ι) (program : Program w α)
    (waiting : List κ) : Machine ι κ σ γ w α :=
  let taken := program.step machine.store machine.source
  { machine.setThread who ⟨waiting, some taken.answer, (machine.threads who).returned⟩ with
    store := taken.store
    source := taken.source }

def begin (program : κ → Program w α) (machine : Machine ι κ σ γ w α) (who : ι) (call : κ)
    (waiting : List κ) : Machine ι κ σ γ w α :=
  { machine.advance who (program call) waiting with
    started := machine.started ++ [(who, call)] }

/-- One step of thread `who`: it returns an answer, goes on with its call, or starts the next. -/
def step (program : κ → Program w α) (machine : Machine ι κ σ γ w α) (who : ι) :
    Machine ι κ σ γ w α :=
  match machine.threads who with
  | ⟨waiting, some (.done answer), returned⟩ =>
      machine.setThread who ⟨waiting, none, returned ++ [answer]⟩
  | ⟨waiting, some rest, _⟩ => machine.advance who rest waiting
  | ⟨call :: waiting, none, _⟩ => machine.begin program who call waiting
  | ⟨[], none, _⟩ => machine

def run (program : κ → Program w α) (machine : Machine ι κ σ γ w α) (schedule : List ι) :
    Machine ι κ σ γ w α :=
  schedule.foldl (step program) machine

section Begin

variable (program : κ → Program w α) (machine : Machine ι κ σ γ w α) (who : ι) (call : κ)
  (waiting : List κ) {other : ι} {answers : List α}

theorem begin_threads_self : (machine.begin program who call waiting).threads who =
    ⟨waiting, some ((program call).step machine.store machine.source).answer,
      (machine.threads who).returned⟩ :=
  machine.setThread_self who _

theorem begin_threads_of_ne (different : other ≠ who) :
    (machine.begin program who call waiting).threads other = machine.threads other :=
  machine.setThread_of_ne different _

theorem calls_begin : (machine.begin program who call waiting).calls = machine.calls ++ [call] := by
  simp [calls, begin]

theorem callsOf_begin_self :
    (machine.begin program who call waiting).callsOf who = machine.callsOf who ++ [call] := by
  simp [callsOf, begin]

theorem callsOf_begin_of_ne (different : other ≠ who) :
    (machine.begin program who call waiting).callsOf other = machine.callsOf other := by
  simp [callsOf, begin, Ne.symm different]

theorem answersTo_begin_self (lengths : machine.started.length = answers.length) (answer : α) :
    (machine.begin program who call waiting).answersTo (answers ++ [answer]) who =
      machine.answersTo answers who ++ [answer] := by
  simp [answersTo, begin, List.zip_append lengths]

theorem answersTo_begin_of_ne (lengths : machine.started.length = answers.length) (answer : α)
    (different : other ≠ who) :
    (machine.begin program who call waiting).answersTo (answers ++ [answer]) other =
      machine.answersTo answers other := by
  simp [answersTo, begin, List.zip_append lengths, Ne.symm different]

end Begin

end Steps

end Machine

end Interner
