import Interner.Proofs.Session.Basic
import Interner.Proofs.Store.Truthful

namespace Interner

variable {σ γ α : Type} {w : Width}

namespace CandidateSource

variable [CandidateSource γ]

def skip (source : γ) : Nat → γ
  | 0 => source
  | n + 1 => skip (next source).2 n

theorem skip_skip (source : γ) (first second : Nat) :
    skip (skip source first) second = skip source (first + second) := by
  induction first generalizing source with
  | zero => rw [skip, Nat.zero_add]
  | succ first ih => rw [skip, ih, Nat.succ_add, skip]

theorem drawn_skip (source : γ) (skipped n : Nat) :
    drawn (skip source skipped) n = drawn source (skipped + n) := by
  induction skipped generalizing source with
  | zero => rw [skip, Nat.zero_add]
  | succ skipped ih => rw [skip, ih, Nat.succ_add, drawn]

/-- The listed candidates are the next ones. -/
def Supplies (source : γ) : List Bytes → Prop
  | [] => True
  | suffix :: suffixes => (next source).1 = some suffix ∧ Supplies (next source).2 suffixes

theorem supplies_append {source : γ} {front back : List Bytes} :
    Supplies source (front ++ back) ↔ Supplies source front ∧
      Supplies (skip source front.length) back := by
  induction front generalizing source with
  | nil => simp [Supplies, skip]
  | cons suffix front ih => simp only [List.cons_append, Supplies, ih, List.length_cons, skip, and_assoc]

theorem Supplies.drawn {source : γ} {suffixes : List Bytes} (supplied : Supplies source suffixes)
    {n : Nat} (inside : n < suffixes.length) : CandidateSource.drawn source n = suffixes[n]? := by
  induction suffixes generalizing source n with
  | nil => cases inside
  | cons suffix suffixes ih =>
      cases n with
      | zero => exact supplied.1
      | succ n => exact ih supplied.2 (Nat.lt_of_succ_lt_succ inside)

theorem supplies_concat {source : γ} {front : List Bytes} {suffix : Bytes} :
    Supplies source (front ++ [suffix]) ↔ Supplies source front ∧
      CandidateSource.drawn source front.length = some suffix := by
  rw [supplies_append, ← Nat.add_zero front.length, ← drawn_skip, Nat.add_zero]
  simp [Supplies, CandidateSource.drawn]

theorem exists_supplied {source : γ} {n : Nat} {p : Bytes → Prop}
    (given : ∀ i < n, ∃ suffix, CandidateSource.drawn source i = some suffix ∧ p suffix) :
    ∃ suffixes, Supplies source suffixes ∧ suffixes.length = n ∧ ∀ suffix ∈ suffixes, p suffix := by
  induction n generalizing source with
  | zero => exact ⟨[], trivial, rfl, by simp⟩
  | succ n ih =>
      rcases given 0 (Nat.succ_pos n) with ⟨suffix, next, holds⟩
      rcases ih fun i inside => given (i + 1) (Nat.succ_lt_succ inside) with
        ⟨suffixes, supplied, length, all⟩
      exact ⟨suffix :: suffixes, ⟨next, supplied⟩, congrArg (· + 1) length,
        List.forall_mem_cons.mpr ⟨holds, all⟩⟩

def Endless (source : γ) : Prop := ∀ n, (CandidateSource.drawn source n).isSome

theorem Endless.tail {source : γ} (endless : Endless source) : Endless (next source).2 :=
  fun n => endless (n + 1)

theorem Endless.skip {source : γ} (endless : Endless source) (n : Nat) :
    Endless (CandidateSource.skip source n) := by
  intro m
  rw [drawn_skip]
  exact endless (n + m)

end CandidateSource

namespace Outcome

variable (outcome : Outcome σ γ w α) (earlier : Journal w)

@[simp] theorem after_answer : (outcome.after earlier).answer = outcome.answer := rfl

@[simp] theorem after_store : (outcome.after earlier).store = outcome.store := rfl

@[simp] theorem after_source : (outcome.after earlier).source = outcome.source := rfl

@[simp] theorem after_journal : (outcome.after earlier).journal = earlier ++ outcome.journal := rfl

theorem after_after (later : Journal w) :
    (outcome.after later).after earlier = outcome.after (earlier ++ later) := by
  simp [after]

end Outcome

variable [IdStore σ w]

section Programs

variable [CandidateSource γ]

/-- The candidates that a run takes from its source, in order. -/
def Program.tried : Program w α → σ → γ → List Bytes
  | done _, _, _ => []
  | insert hash content next, store, source =>
      let made := IdStore.insert store hash content
      (next made.answer).tried made.store source
  | insertExtension hash stem suffix next, store, source =>
      let made := IdStore.insertExtension store hash stem suffix
      (next made.answer).tried made.store source
  | lookupTerminated hash next, store, source =>
      (next (IdStore.lookupTerminated store hash)).tried store source
  | candidate next, store, source =>
      match CandidateSource.next source with
      | (suffix, source) => suffix.toList ++ (next suffix).tried store source
  | record _ next, store, source => next.tried store source

namespace Program

variable (store : σ) (source : γ)

@[simp] theorem tried_done (answer : α) : (done answer : Program w α).tried store source = [] := rfl

@[simp] theorem tried_insertExtension (hash stem : Hash w) (suffix : Bytes)
    (next : Except (StoreError w) Status → Program w α) :
    (insertExtension hash stem suffix next).tried store source =
      (next (IdStore.insertExtension store hash stem suffix).answer).tried
        (IdStore.insertExtension store hash stem suffix).store source := rfl

@[simp] theorem tried_lookup (hash : Hash w) (next : Option Bytes → Program w α) :
    (lookup hash next).tried store source = (next (IdStore.lookup store hash)).tried store source := rfl

@[simp] theorem tried_candidate (next : Option Bytes → Program w α) :
    (candidate next).tried store source = (CandidateSource.next source).1.toList ++
      (next (CandidateSource.next source).1).tried store (CandidateSource.next source).2 := rfl

@[simp] theorem tried_record (entry : Entry w) (next : Program w α) :
    (record entry next).tried store source = next.tried store source := rfl

/-- A run takes the next candidates and leaves the source just behind them. -/
theorem supplies_tried (program : Program w α) (endless : CandidateSource.Endless source) :
    CandidateSource.Supplies source (program.tried store source) ∧
      (program.run store source).source =
        CandidateSource.skip source (program.tried store source).length := by
  induction program generalizing store source with
  | done answer => exact ⟨trivial, rfl⟩
  | insert hash content next ih => exact ih _ _ source endless
  | insertExtension hash stem suffix next ih => exact ih _ _ source endless
  | lookupTerminated hash next ih => exact ih _ store source endless
  | candidate next ih =>
      rcases Option.isSome_iff_exists.mp (endless 0) with ⟨suffix, drawn⟩
      have first : (CandidateSource.next source).1 = some suffix := drawn
      rcases ih (some suffix) store _ endless.tail with ⟨later, source⟩
      rw [tried_candidate, run_candidate, first, Option.toList_some, List.singleton_append,
        List.length_cons]
      exact ⟨⟨first, later⟩, source⟩
  | record entry next ih => exact ih store source endless

end Program

end Programs

namespace Generator

theorem discard_zero (generator : Generator w) : generator.discard 0 = generator := by
  cases generator with
  | counter generator => simp [discard, CounterGenerator.discard, CounterGenerator.advance]
  | random generator => rfl

end Generator

def Call.discarded (name : Nat) : Call w → Nat
  | .discard other amount => if other = name then amount else 0
  | .request _ | .generate _ => 0

namespace Session

def triedBy (session : Session σ w) (name : Nat) : Call w → List Bytes
  | .generate other =>
      if other = name then
        (session.generators name).program.tried session.store (session.generators name)
      else []
  | .request _ | .discard .. => []

/-- The candidates that calls try with the generator `name`, one after another. -/
def tried (session : Session σ w) (name : Nat) : List (Call w) → List Bytes
  | [] => []
  | call :: calls => session.triedBy name call ++ tried (session.after call) name calls

/-- A call moves a generator by the candidates that it tries and by what it discards. -/
theorem generators_after (session : Session σ w) {name : Nat}
    (endless : CandidateSource.Endless (session.generators name)) (call : Call w) :
    CandidateSource.Supplies (session.generators name) (session.triedBy name call) ∧
      (session.after call).generators name =
        (CandidateSource.skip (session.generators name) (session.triedBy name call).length).discard
          (call.discarded name) := by
  cases call with
  | request request => exact ⟨trivial, (Generator.discard_zero _).symm⟩
  | generate other =>
      rw [Call.discarded, Generator.discard_zero]
      by_cases same : other = name
      · subst same
        rw [triedBy, if_pos rfl]
        rcases (session.generators other).program.supplies_tried session.store _ endless with
          ⟨supplied, source⟩
        refine ⟨supplied, ?_⟩
        rw [← source]
        exact Function.update_self other _ session.generators
      · rw [triedBy, if_neg same]
        exact ⟨trivial, Function.update_of_ne (Ne.symm same) _ session.generators⟩
  | discard other amount =>
      rw [Call.discarded]
      refine ⟨trivial, ?_⟩
      by_cases same : other = name
      · subst same
        rw [if_pos rfl]
        exact Function.update_self other _ session.generators
      · rw [if_neg same, Generator.discard_zero]
        exact Function.update_of_ne (Ne.symm same) _ session.generators

theorem generators_undiscarded (session : Session σ w) {name : Nat}
    (endless : CandidateSource.Endless (session.generators name)) (calls : List (Call w))
    (undiscarded : ∀ amount, .discard name amount ∉ calls) :
    CandidateSource.Supplies (session.generators name) (session.tried name calls) ∧
      (session.run calls).generators name =
        CandidateSource.skip (session.generators name) (session.tried name calls).length := by
  induction calls generalizing session with
  | nil => exact ⟨trivial, rfl⟩
  | cons call calls ih =>
      rcases session.generators_after endless call with ⟨supplied, moved⟩
      have none : call.discarded name = 0 := by
        cases call with
        | request | generate => rfl
        | discard other amount =>
            rw [Call.discarded, if_neg]
            rintro rfl
            exact undiscarded amount List.mem_cons_self
      rw [none, Generator.discard_zero] at moved
      have later := ih (session.after call) (moved ▸ endless.skip _)
        fun amount member => undiscarded amount (List.mem_cons_of_mem _ member)
      rw [moved] at later
      rw [tried, List.length_append, CandidateSource.supplies_append]
      exact ⟨⟨supplied, later.1⟩, later.2.trans (CandidateSource.skip_skip _ _ _)⟩

end Session

end Interner
