import Interner.Proofs.Store.Settled

/-!
Workers that share one store and one counter. A call of a worker is taken step by step, and steps of
different workers mix freely: drawing a counter value, one operation on the store and one discard are
steps that nothing divides. What the workers drew and what their calls returned is kept on record.
-/

namespace Interner

variable {ι σ : Type} {w : Width}

/-- What a worker may ask for. -/
inductive SharedCall (w : Width) where
  | request (request : Request w)
  | generate (policy : RetryPolicy w)
  | discard (amount : BitVec 64)

namespace SharedCall

def program (stem : Hash w) : SharedCall w → Program w (Answer w)
  | request asked => asked.program
  | generate policy => (Program.generate .counter stem policy).map .generated
  | discard _ => .done .skipped

def skip : SharedCall w → BitVec 64
  | discard amount => amount
  | request _ | generate _ => 0

def isGenerate : SharedCall w → Bool
  | generate _ => true
  | request _ | discard _ => false

end SharedCall

/-- A call under way, with the counter value that it drew last. -/
structure Job (w : Width) where
  call : SharedCall w
  rest : Program w (Answer w)
  drawn : Option (BitVec 64) := none

structure Worker (w : Width) where
  waiting : List (SharedCall w)
  job : Option (Job w) := none

/-- A call that returned, with the counter value that it drew last. -/
structure Returned (w : Width) where
  call : SharedCall w
  drawn : Option (BitVec 64)
  answer : Answer w

structure Crew (ι σ : Type) (w : Width) where
  store : σ
  generator : CounterGenerator w
  workers : ι → Worker w
  /-- The counter values that attempts have drawn, in order. -/
  drawn : List (BitVec 64) := []
  /-- By how much the counter was moved altogether. -/
  advanced : Nat := 0
  journal : Journal w := []
  /-- The calls that have returned, in order. -/
  returned : List (Returned w) := []

def Program.drawn? {α : Type} (generator : CounterGenerator w) : Program w α → Option (BitVec 64)
  | candidate _ => some generator.counter
  | done _ | insert .. | insertExtension .. | lookupTerminated .. | record .. => none

namespace Crew

def launch (store : σ) (generator : CounterGenerator w) (calls : ι → List (SharedCall w)) :
    Crew ι σ w where
  store := store
  generator := generator
  workers who := { waiting := calls who }

def Done (crew : Crew ι σ w) : Prop := ∀ who, crew.workers who = ⟨[], none⟩

variable [DecidableEq ι]

def setWorker (crew : Crew ι σ w) (who : ι) (worker : Worker w) : Crew ι σ w :=
  { crew with workers := Function.update crew.workers who worker }

theorem setWorker_self (crew : Crew ι σ w) (who : ι) (worker : Worker w) :
    (crew.setWorker who worker).workers who = worker :=
  Function.update_self ..

theorem setWorker_of_ne (crew : Crew ι σ w) {who other : ι} (different : other ≠ who)
    (worker : Worker w) : (crew.setWorker who worker).workers other = crew.workers other :=
  Function.update_of_ne different ..

def begin (crew : Crew ι σ w) (who : ι) (call : SharedCall w) (waiting : List (SharedCall w)) :
    Crew ι σ w :=
  { crew.setWorker who ⟨waiting, some ⟨call, call.program crew.generator.stem, none⟩⟩ with
    generator := crew.generator.discard call.skip
    advanced := crew.advanced + call.skip.toNat }

def finish (crew : Crew ι σ w) (who : ι) (waiting : List (SharedCall w)) (returned : Returned w) :
    Crew ι σ w :=
  { crew.setWorker who ⟨waiting, none⟩ with returned := crew.returned ++ [returned] }

theorem begin_self (crew : Crew ι σ w) (who : ι) (call : SharedCall w)
    (waiting : List (SharedCall w)) : (crew.begin who call waiting).workers who =
      ⟨waiting, some ⟨call, call.program crew.generator.stem, none⟩⟩ :=
  crew.setWorker_self who _

theorem finish_self (crew : Crew ι σ w) (who : ι) (waiting : List (SharedCall w))
    (returned : Returned w) : (crew.finish who waiting returned).workers who = ⟨waiting, none⟩ :=
  crew.setWorker_self who _

variable [IdStore σ w]

/-- One step of the call that `who` has under way. -/
def take (crew : Crew ι σ w) (who : ι) (waiting : List (SharedCall w)) (job : Job w) :
    Crew ι σ w :=
  let taken := job.rest.step crew.store crew.generator
  let drawn := job.rest.drawn? crew.generator
  { crew.setWorker who ⟨waiting, some ⟨job.call, taken.answer, drawn <|> job.drawn⟩⟩ with
    store := taken.store
    generator := taken.source
    drawn := crew.drawn ++ drawn.toList
    advanced := crew.advanced + drawn.toList.length
    journal := crew.journal ++ taken.journal }

theorem take_self (crew : Crew ι σ w) (who : ι) (waiting : List (SharedCall w)) (job : Job w) :
    (crew.take who waiting job).workers who =
      ⟨waiting, some ⟨job.call, (job.rest.step crew.store crew.generator).answer,
        job.rest.drawn? crew.generator <|> job.drawn⟩⟩ :=
  crew.setWorker_self who _

/-- One step of worker `who`: its call returns or goes on, or its next call begins. -/
def step (crew : Crew ι σ w) (who : ι) : Crew ι σ w :=
  match crew.workers who with
  | ⟨waiting, some ⟨call, .done answer, drawn⟩⟩ => crew.finish who waiting ⟨call, drawn, answer⟩
  | ⟨waiting, some job⟩ => crew.take who waiting job
  | ⟨call :: waiting, none⟩ => crew.begin who call waiting
  | ⟨[], none⟩ => crew

def run (crew : Crew ι σ w) (schedule : List ι) : Crew ι σ w := schedule.foldl step crew

/-- What one step of `who` can make of a crew. -/
inductive Stepped (crew : Crew ι σ w) (who : ι) : Crew ι σ w → Prop where
  | idle (turn : crew.workers who = ⟨[], none⟩) : Stepped crew who crew
  | begin {call : SharedCall w} {waiting : List (SharedCall w)}
      (turn : crew.workers who = ⟨call :: waiting, none⟩) :
      Stepped crew who (crew.begin who call waiting)
  | take {waiting : List (SharedCall w)} {job : Job w}
      (turn : crew.workers who = ⟨waiting, some job⟩) (busy : ∀ answer, job.rest ≠ .done answer) :
      Stepped crew who (crew.take who waiting job)
  | finish {waiting : List (SharedCall w)} {call : SharedCall w} {answer : Answer w}
      {drawn : Option (BitVec 64)}
      (turn : crew.workers who = ⟨waiting, some ⟨call, .done answer, drawn⟩⟩) :
      Stepped crew who (crew.finish who waiting ⟨call, drawn, answer⟩)

theorem stepped (crew : Crew ι σ w) (who : ι) : crew.Stepped who (crew.step who) := by
  rw [step]
  split
  · rename_i turn
    exact .finish turn
  · rename_i job busy turn
    refine .take turn ?_
    intro answer same
    exact busy job.call answer job.drawn (by rw [← same])
  · rename_i turn
    exact .begin turn
  · rename_i turn
    exact .idle turn

theorem Stepped.elsewhere {crew after : Crew ι σ w} {who other : ι}
    (stepped : crew.Stepped who after) (different : other ≠ who) :
    after.workers other = crew.workers other := by
  cases stepped with
  | idle => rfl
  | begin | take | finish => exact crew.setWorker_of_ne different _

theorem Stepped.each {crew after : Crew ι σ w} {who : ι} {holds : Worker w → Prop}
    (stepped : crew.Stepped who after) (others : ∀ other, holds (crew.workers other))
    (self : holds (after.workers who)) (other : ι) : holds (after.workers other) := by
  by_cases same : other = who
  · rw [same]
    exact self
  · rw [stepped.elsewhere same]
    exact others other

theorem run_induction {holds : Crew ι σ w → Prop} {crew : Crew ι σ w} (start : holds crew)
    (kept : ∀ (crew after : Crew ι σ w) (who : ι), holds crew → crew.Stepped who after →
      holds after) (schedule : List ι) : holds (crew.run schedule) := by
  induction schedule generalizing crew with
  | nil => exact start
  | cons who schedule ih => exact ih (kept _ _ who start (crew.stepped who))

end Crew

namespace FirstWins

variable [IdStore σ w] [DecidableEq ι] {good : σ → Prop} {size : σ → Nat} {crew after : Crew ι σ w}
  {who : ι}

theorem good_stepped (laws : FirstWins good size) (ok : good crew.store)
    (stepped : crew.Stepped who after) : good after.store := by
  cases stepped with
  | take => exact laws.good_step ok _ crew.generator
  | idle | begin | finish => exact ok

theorem keeps_stepped (laws : FirstWins good size) (ok : good crew.store)
    (stepped : crew.Stepped who after) : Extends crew.store after.store := by
  cases stepped with
  | take => exact laws.keeps_step ok _ crew.generator
  | idle | begin | finish => exact Extends.refl crew.store

theorem keeps_crew (laws : FirstWins good size) (ok : good crew.store) (schedule : List ι) :
    Extends crew.store (crew.run schedule).store := by
  induction schedule generalizing crew with
  | nil => exact Extends.refl crew.store
  | cons who schedule ih =>
      have stepped := crew.stepped who
      exact (laws.keeps_stepped ok stepped).trans (ih (laws.good_stepped ok stepped))

end FirstWins

end Interner
