import Interner.Proofs.Sharing.Crew
import Mathlib.Algebra.Ring.Nat

namespace Interner

variable {ι σ γ α β : Type} {w : Width}

namespace Program

/-- However its questions are answered, the program ends after at most so many steps. -/
inductive Within : Nat → Program w α → Prop where
  | done (limit : Nat) (answer : α) : Within limit (.done answer)
  | insert {limit : Nat} {hash : Hash w} {content : Bytes} {next : Status → Program w α}
      (rest : ∀ status, Within limit (next status)) : Within (limit + 1) (.insert hash content next)
  | insertExtension {limit : Nat} {hash stem : Hash w} {suffix : Bytes}
      {next : Except (StoreError w) Status → Program w α}
      (rest : ∀ result, Within limit (next result)) :
      Within (limit + 1) (.insertExtension hash stem suffix next)
  | lookupTerminated {limit : Nat} {hash : Hash w} {next : Option Bytes → Program w α}
      (rest : ∀ found, Within limit (next found)) :
      Within (limit + 1) (.lookupTerminated hash next)
  | candidate {limit : Nat} {next : Option Bytes → Program w α}
      (rest : ∀ suffix, Within limit (next suffix)) : Within (limit + 1) (.candidate next)
  | record {limit : Nat} {entry : Entry w} {next : Program w α} (rest : Within limit next) :
      Within (limit + 1) (.record entry next)

namespace Within

variable {limit : Nat} {program : Program w α}

theorem lookup {hash : Hash w} {next : Option Bytes → Program w α}
    (rest : ∀ found, Within limit (next found)) : Within (limit + 1) (Program.lookup hash next) :=
  .lookupTerminated fun found => rest (found.map Bytes.withoutLast)

theorem map (within : Within limit program) (f : α → β) : Within limit (program.map f) := by
  induction within with
  | done limit answer => exact .done limit (f answer)
  | insert _ ih => exact .insert ih
  | insertExtension _ ih => exact .insertExtension ih
  | lookupTerminated _ ih => exact .lookupTerminated ih
  | candidate _ ih => exact .candidate ih
  | record _ ih => exact .record ih

theorem step [IdStore σ w] [CandidateSource γ] (within : Within (limit + 1) program) (store : σ)
    (source : γ) : Within limit (program.step store source).answer := by
  cases within with
  | done _ answer => exact .done limit answer
  | insert rest => exact rest _
  | insertExtension rest => exact rest _
  | lookupTerminated rest => exact rest _
  | candidate rest => exact rest _
  | record rest => exact rest

theorem busy (within : Within limit program) (busy : ∀ answer, program ≠ .done answer) :
    0 < limit := by
  cases within with
  | done _ answer => exact absurd rfl (busy answer)
  | insert | insertExtension | lookupTerminated | candidate | record => exact Nat.succ_pos _

end Within

theorem collide_within (limit : Nat) (hash : Hash w) (candidate : Bytes) :
    (collide hash candidate).Within (limit + 2) :=
  .lookup fun _ => .record (.done limit _)

theorem intern_within (content : Bytes) : (intern content : Program w _).Within 4 := by
  refine .insert fun status => ?_
  split
  · exact collide_within 1 _ content
  · exact .done 3 _

theorem internExtension_within (stem : Hash w) (suffix : Bytes) :
    (internExtension stem suffix).Within 4 := by
  refine .insertExtension fun result => ?_
  split
  · exact .done 3 _
  · exact .lookup fun head => collide_within 0 _ (head.getD [] ++ suffix)
  · exact .done 3 _

theorem generateFrom_within (kind : GeneratorKind) (stem : Hash w)
    (decide : Consultation w → Except (GenerationError w) Decision) (patience attempt : Nat) :
    (generateFrom kind stem decide patience attempt).Within (5 * patience) := by
  induction patience generalizing attempt with
  | zero => exact .done 0 none
  | succ patience ih =>
      change Within (5 * patience + 5) _
      refine .candidate fun suffix => ?_
      split
      · exact .done _ none
      · refine .insertExtension fun result => ?_
        split
        · exact .done _ _
        · exact .done _ _
        · refine .lookup fun stored => .record (.record ?_)
          split
          · exact .done _ _
          · exact .done _ _
          · exact ih (attempt + 1)

end Program

theorem Request.program_within (request : Request w) : request.program.Within 4 := by
  cases request with
  | insert hash content => exact .insert fun status => .done 3 _
  | insertExtension hash stem suffix => exact .insertExtension fun result => .done 3 _
  | views hash => exact .lookupTerminated fun found => .done 3 _
  | intern content => exact (Program.intern_within content).map _
  | internExtension stem suffix => exact (Program.internExtension_within stem suffix).map _

namespace SharedCall

/-- How many turns the call takes at most. -/
def turns : SharedCall w → Nat
  | request _ => 6
  | generate policy => 5 * policy.patience + 2
  | discard _ => 2

theorem program_within (call : SharedCall w) (stem : Hash w) :
    ∃ limit, call.turns = limit + 2 ∧ (call.program stem).Within limit := by
  cases call with
  | request asked => exact ⟨4, rfl, asked.program_within⟩
  | generate policy =>
      exact ⟨5 * policy.patience, rfl,
        (Program.generateFrom_within .counter stem policy.decide policy.patience 1).map _⟩
  | discard amount => exact ⟨0, rfl, .done 0 _⟩

end SharedCall

namespace Worker

/-- The turns in which the call under way returns. -/
inductive Busy : Nat → Option (Job w) → Prop where
  | free : Busy 0 none
  | underway {limit : Nat} {job : Job w} (within : job.rest.Within limit) :
      Busy (limit + 1) (some job)

def Within (limit : Nat) (worker : Worker w) : Prop :=
  ∃ first, Busy first worker.job ∧ first + (worker.waiting.map SharedCall.turns).sum ≤ limit

theorem Within.free {worker : Worker w} (within : worker.Within 0) : worker = ⟨[], none⟩ := by
  obtain ⟨first, busy, bound⟩ := within
  rcases worker with ⟨waiting, job⟩
  cases busy with
  | underway => simp at bound
  | free =>
      cases waiting with
      | nil => rfl
      | cons call waiting =>
          obtain ⟨limit, turns, _⟩ := call.program_within 0
          simp [turns] at bound

end Worker

namespace Crew

variable [DecidableEq ι] [IdStore σ w] {crew after : Crew ι σ w} {who : ι}

theorem Stepped.within (stepped : crew.Stepped who after) {limit : Nat}
    (within : (crew.workers who).Within (limit + 1)) : (after.workers who).Within limit := by
  obtain ⟨first, busy, bound⟩ := within
  cases stepped with
  | idle turn =>
      rw [turn]
      exact ⟨0, .free, Nat.zero_le _⟩
  | @begin call waiting turn =>
      obtain ⟨steps, turns, program⟩ := call.program_within crew.generator.stem
      rw [turn] at busy bound
      cases busy
      rw [List.map_cons, List.sum_cons, turns] at bound
      rw [crew.begin_self]
      refine ⟨steps + 1, .underway program, ?_⟩
      simp only
      omega
  | @take waiting job turn unfinished =>
      rw [turn] at busy bound
      cases busy with
      | @underway steps _ program =>
          have some := program.busy unfinished
          obtain ⟨steps, rfl⟩ := Nat.exists_eq_succ_of_ne_zero (Nat.ne_of_gt some)
          rw [crew.take_self]
          refine ⟨steps + 1, .underway (program.step crew.store crew.generator), ?_⟩
          simp only at bound ⊢
          omega
  | @finish waiting call answer drawn turn =>
      rw [turn] at busy bound
      rw [crew.finish_self]
      refine ⟨0, .free, ?_⟩
      cases busy
      simp only at bound ⊢
      omega

theorem run_within {limit : Nat} {schedule : List ι}
    (within : (crew.workers who).Within (limit + schedule.count who)) :
    ((crew.run schedule).workers who).Within limit := by
  induction schedule generalizing crew with
  | nil => exact within
  | cons turn schedule ih =>
      have stepped := crew.stepped turn
      apply ih
      by_cases same : turn = who
      · subst same
        rw [List.count_cons_self, ← Nat.add_assoc] at within
        exact stepped.within within
      · rw [List.count_cons_of_ne same] at within
        rw [stepped.elsewhere (Ne.symm same)]
        exact within

/-- Once every worker has had the turns that its calls take, all calls have returned. -/
theorem done_of_turns (store : σ) (generator : CounterGenerator w) {calls : ι → List (SharedCall w)}
    {schedule : List ι}
    (turns : ∀ who, ((calls who).map SharedCall.turns).sum ≤ schedule.count who) :
    ((launch store generator calls).run schedule).Done := by
  intro who
  apply Worker.Within.free
  apply run_within
  exact ⟨0, .free, by simpa [launch] using turns who⟩

end Crew

end Interner
