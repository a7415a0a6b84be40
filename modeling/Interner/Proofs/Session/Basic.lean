import Interner.Generator.Counter
import Interner.Generator.Random
import Interner.Intern
import Interner.Table.Insert
import Mathlib.Logic.Function.Basic

namespace Interner

inductive Request (w : Width) where
  | insert (hash : Hash w) (content : Bytes)
  | insertExtension (hash stem : Hash w) (suffix : Bytes)
  | views (hash : Hash w)
  | intern (content : Bytes)
  | internExtension (stem : Hash w) (suffix : Bytes)

inductive Answer (w : Width) where
  | inserted (status : Status)
  | extended (result : Except (StoreError w) Status)
  | viewed (views : Views)
  | interned (result : Except (StoreError w) (Hash w))
  | generated (result : Generation w)
  | skipped

namespace Program

def map {w : Width} {α β : Type} (f : α → β) : Program w α → Program w β
  | done answer => done (f answer)
  | insert hash content next => insert hash content fun status => (next status).map f
  | insertExtension hash stem suffix next =>
      insertExtension hash stem suffix fun result => (next result).map f
  | lookupTerminated hash next => lookupTerminated hash fun found => (next found).map f
  | candidate next => candidate fun suffix => (next suffix).map f
  | record entry next => record entry (next.map f)

/-- The next step of the program is an operation on the store. -/
def TakesStore {w : Width} {α : Type} : Program w α → Prop
  | insert .. | insertExtension .. | lookupTerminated .. => True
  | done _ | candidate _ | record .. => False

end Program

variable {σ : Type} {w : Width} [IdStore σ w]

namespace Request

def program : Request w → Program w (Answer w)
  | insert hash content => .insert hash content fun status => .done (.inserted status)
  | insertExtension hash stem suffix =>
      .insertExtension hash stem suffix fun result => .done (.extended result)
  | views hash => .lookupTerminated hash fun found => .done (.viewed (Views.ofTerminated found))
  | intern content => (Program.intern content).map .interned
  | internExtension stem suffix => (Program.internExtension stem suffix).map .interned

theorem program_takesStore (request : Request w) : request.program.TakesStore := by
  cases request <;> trivial

def outcome (request : Request w) (store : σ) : Outcome σ Unit w (Answer w) :=
  request.program.run store ()

def answers (store : σ) : List (Request w) → List (Answer w)
  | [] => []
  | request :: requests =>
      (request.outcome store).answer :: answers (request.outcome store).store requests

def finish (store : σ) (requests : List (Request w)) : σ :=
  requests.foldl (fun store request => (request.outcome store).store) store

end Request

inductive Generator (w : Width) where
  | counter (generator : CounterGenerator w)
  | random (generator : RandomGenerator w)

namespace Generator

instance : CandidateSource (Generator w) where
  next
    | counter generator => (CandidateSource.next generator).map id counter
    | random generator => (CandidateSource.next generator).map id random

def program : Generator w → Program w (Generation w)
  | counter generator => generator.program
  | random generator => generator.program

def discard : Generator w → Nat → Generator w
  | counter generator, n => counter (generator.discard (BitVec.ofNat 64 n))
  | random generator, n => random (generator.discard n)

end Generator

inductive Call (w : Width) where
  | request (request : Request w)
  | generate (name : Nat)
  | discard (name amount : Nat)

structure Session (σ : Type) (w : Width) where
  store : σ
  generators : Nat → Generator w

namespace Session

def outcome (session : Session σ w) :
    Call w → Outcome σ (Nat → Generator w) w (Answer w)
  | .request request =>
      let made := request.outcome session.store
      ⟨made.answer, made.store, session.generators, made.journal⟩
  | .generate name =>
      let generator := session.generators name
      let made := generator.program.run session.store generator
      ⟨.generated made.answer, made.store, Function.update session.generators name made.source,
        made.journal⟩
  | .discard name amount =>
      let generator := (session.generators name).discard amount
      ⟨.skipped, session.store, Function.update session.generators name generator, []⟩

def answer (session : Session σ w) (call : Call w) : Answer w := (session.outcome call).answer

def after (session : Session σ w) (call : Call w) : Session σ w :=
  ⟨(session.outcome call).store, (session.outcome call).source⟩

def run (session : Session σ w) (calls : List (Call w)) : Session σ w := calls.foldl after session

/-- Every answer together with the size of the store right after it. -/
def transcript (size : σ → Nat) (session : Session σ w) : List (Call w) → List (Answer w × Nat)
  | [] => []
  | call :: calls =>
      (session.answer call, size (session.after call).store) ::
        transcript size (session.after call) calls

theorem run_append (session : Session σ w) (earlier later : List (Call w)) :
    session.run (earlier ++ later) = (session.run earlier).run later :=
  List.foldl_append

end Session

/-- The tables that calls can lead to from an empty table of an acceptable configuration. -/
def Table.Reachable (table : Table w) : Prop :=
  ∃ (config : Config) (generators : Nat → Generator w) (calls : List (Call w)),
    config.validate = .ok () ∧
      table = ((⟨Table.ofConfig config, generators⟩ : Session (Table w) w).run calls).store

end Interner
