import Interner.Proofs.Sharing.Machine

/-!
Requests of many threads take effect one after another, in the order of their first steps. What a
request does to the store it does in that step; everything it still reads afterwards stays as it is.
-/

namespace Interner

variable {ι σ : Type} {w : Width} [IdStore σ w] {good : σ → Prop} {size : σ → Nat}

namespace Request

theorem finish_concat (start : σ) (requests : List (Request w)) (request : Request w) :
    finish start (requests ++ [request]) = (request.outcome (finish start requests)).store := by
  rw [finish, finish, List.foldl_append, List.foldl_cons, List.foldl_nil]

@[simp] theorem length_answers (start : σ) (requests : List (Request w)) :
    (answers start requests).length = requests.length := by
  induction requests generalizing start with
  | nil => rfl
  | cons request requests ih => rw [answers, List.length_cons, List.length_cons, ih]

theorem answers_concat (start : σ) (requests : List (Request w)) (request : Request w) :
    answers start (requests ++ [request]) =
      answers start requests ++ [(request.outcome (finish start requests)).answer] := by
  induction requests generalizing start with
  | nil => rfl
  | cons first requests ih =>
      rw [List.cons_append, answers, ih, answers, List.cons_append]
      rfl

end Request

/-- The answers still to come from what a thread has under way. -/
inductive Outstanding {α : Type} (store : σ) : Option (Program w α) → List α → Prop where
  | idle : Outstanding store none []
  | busy {rest : Program w α} {answer : α} (settled : Settled store rest answer) :
      Outstanding store (some rest) [answer]

theorem Outstanding.length_eq {α : Type} {store : σ} {pending : Option (Program w α)}
    {unreturned : List α} (outstanding : Outstanding store pending unreturned) :
    unreturned.length = pending.toList.length := by
  cases outstanding <;> rfl

theorem Outstanding.mono {α : Type} {store later : σ} {pending : Option (Program w α)}
    {unreturned : List α} (outstanding : Outstanding store pending unreturned)
    (growth : Extends store later) : Outstanding later pending unreturned := by
  cases outstanding with
  | idle => exact .idle
  | busy settled => exact .busy (settled.mono growth)

/-- Of `answers`, a thread has returned all but the one it has under way. -/
def Served {κ α : Type} (store : σ) (thread : Thread κ w α) (answers : List α) : Prop :=
  ∃ unreturned, answers = thread.returned ++ unreturned ∧
    Outstanding store thread.pending unreturned

namespace Served

variable {κ α : Type} {store later : σ} {waiting : List κ} {rest : Program w α}
  {returned answers : List α} {answer : α}

theorem mono {thread : Thread κ w α} (served : Served store thread answers)
    (growth : Extends store later) : Served later thread answers := by
  rcases served with ⟨unreturned, split, outstanding⟩
  exact ⟨unreturned, split, outstanding.mono growth⟩

theorem returns (served : Served store ⟨waiting, some (.done answer), returned⟩ answers) :
    Served store (⟨waiting, none, returned ++ [answer]⟩ : Thread κ w α) answers := by
  rcases served with ⟨unreturned, split, outstanding⟩
  cases outstanding with
  | busy settled =>
      cases settled with
      | done => exact ⟨[], by rw [split, List.append_nil], .idle⟩

theorem advance (served : Served store ⟨waiting, some rest, returned⟩ answers)
    (laws : FirstWins good size) (ok : good store) :
    (rest.step store ()).store = store ∧
      Served store (⟨waiting, some (rest.step store ()).answer, returned⟩ : Thread κ w α)
        answers := by
  rcases served with ⟨unreturned, split, outstanding⟩
  cases outstanding with
  | busy settled =>
      obtain ⟨unchanged, onward⟩ := settled.step laws ok ()
      exact ⟨unchanged, _, split, .busy onward⟩

theorem start {call : κ} (served : Served store ⟨call :: waiting, none, returned⟩ answers)
    (settled : Settled later rest answer) :
    Served later (⟨waiting, some rest, returned⟩ : Thread κ w α) (answers ++ [answer]) := by
  rcases served with ⟨unreturned, split, outstanding⟩
  cases outstanding with
  | idle =>
      rw [List.append_nil] at split
      exact ⟨[answer], by rw [split], .busy settled⟩

end Served

variable [DecidableEq ι]

/-- What has happened so far is what the started requests do one after another. -/
structure Linear (good : σ → Prop) (start : σ) (requests : ι → List (Request w))
    (machine : Machine ι (Request w) σ Unit w (Answer w)) : Prop where
  ok : good machine.store
  store : machine.store = Request.finish start machine.calls
  order : ∀ who, machine.callsOf who ++ (machine.threads who).waiting = requests who
  served : ∀ who, Served machine.store (machine.threads who)
    (machine.answersTo (Request.answers start machine.calls) who)

namespace Linear

variable {start : σ} {requests : ι → List (Request w)}
  {machine : Machine ι (Request w) σ Unit w (Answer w)} {who : ι}

theorem launch (ok : good start) (requests : ι → List (Request w)) :
    Linear good start requests (Machine.launch start () requests) where
  ok := ok
  store := rfl
  order := fun _ => rfl
  served := fun _ => ⟨[], rfl, .idle⟩

theorem setThread (linear : Linear good start requests machine)
    {thread : Thread (Request w) w (Answer w)}
    (waiting : thread.waiting = (machine.threads who).waiting)
    (served : Served machine.store thread
      (machine.answersTo (Request.answers start machine.calls) who)) :
    Linear good start requests (machine.setThread who thread) where
  ok := linear.ok
  store := linear.store
  order := by
    intro other
    by_cases same : other = who
    · subst same
      rw [machine.setThread_self, waiting]
      exact linear.order other
    · rw [machine.setThread_of_ne same]
      exact linear.order other
  served := by
    intro other
    by_cases same : other = who
    · subst same
      rw [machine.setThread_self]
      exact served
    · rw [machine.setThread_of_ne same]
      exact linear.served other

theorem advance {waiting : List (Request w)} {rest : Program w (Answer w)}
    {returned : List (Answer w)} (linear : Linear good start requests machine)
    (laws : FirstWins good size) (thread : machine.threads who = ⟨waiting, some rest, returned⟩) :
    Linear good start requests (machine.advance who rest waiting) := by
  have served := linear.served who
  rw [thread] at served
  obtain ⟨unchanged, onward⟩ := served.advance laws linear.ok
  have same : machine.advance who rest waiting =
      machine.setThread who ⟨waiting, some (rest.step machine.store ()).answer, returned⟩ := by
    simp only [Machine.advance, Machine.setThread, thread, unchanged]
  rw [same]
  exact linear.setThread (by rw [thread]) onward

theorem begin {call : Request w} {waiting : List (Request w)} {returned : List (Answer w)}
    (linear : Linear good start requests machine) (laws : FirstWins good size)
    (thread : machine.threads who = ⟨call :: waiting, none, returned⟩) :
    Linear good start requests (machine.begin Request.program who call waiting) := by
  obtain ⟨after, settled⟩ := laws.request_settled linear.ok call
  have growth := laws.keeps_step linear.ok call.program ()
  have lengths : machine.started.length =
      (Request.answers start machine.calls).length := by
    rw [Request.length_answers, Machine.calls, List.length_map]
  constructor
  · exact laws.good_step linear.ok call.program ()
  · rw [Machine.calls_begin, Request.finish_concat, ← linear.store, after]
    rfl
  · intro other
    by_cases same : other = who
    · subst same
      have order := linear.order other
      rw [thread] at order
      rw [Machine.callsOf_begin_self, machine.begin_threads_self, List.append_assoc]
      exact order
    · rw [machine.callsOf_begin_of_ne _ _ _ _ same, machine.begin_threads_of_ne _ _ _ _ same]
      exact linear.order other
  · intro other
    rw [Machine.calls_begin, Request.answers_concat, ← linear.store]
    by_cases same : other = who
    · subst same
      have served := linear.served other
      rw [thread] at served
      rw [machine.answersTo_begin_self _ _ _ _ lengths, machine.begin_threads_self, thread]
      exact served.start settled
    · rw [machine.answersTo_begin_of_ne _ _ _ _ lengths _ same,
        machine.begin_threads_of_ne _ _ _ _ same]
      exact (linear.served other).mono growth

theorem step (linear : Linear good start requests machine) (laws : FirstWins good size)
    (who : ι) : Linear good start requests (machine.step Request.program who) := by
  rw [Machine.step]
  split
  · rename_i waiting answer returned thread
    have served := linear.served who
    rw [thread] at served
    exact linear.setThread (by rw [thread]) served.returns
  · rename_i waiting rest returned _ thread
    exact linear.advance laws thread
  · rename_i call waiting returned thread
    exact linear.begin laws thread
  · exact linear

theorem run (linear : Linear good start requests machine) (laws : FirstWins good size)
    (schedule : List ι) : Linear good start requests (machine.run Request.program schedule) := by
  induction schedule generalizing machine with
  | nil => exact linear
  | cons who schedule ih => exact ih (linear.step laws who)

end Linear

end Interner
