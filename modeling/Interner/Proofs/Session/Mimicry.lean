import Interner.Proofs.Generator.Fairness
import Interner.Proofs.Generator.Trials

/-!
Generators that hand out the same candidates. A run sees nothing else of a generator, so sessions that
differ in such a generator cannot be told apart as long as the generator is read no further.
-/

namespace Interner

variable {σ γ δ α : Type} {w : Width}

structure Outcome.Alike (related : γ → δ → Prop) (first : Outcome σ γ w α) (second : Outcome σ δ w α) :
    Prop where
  answer : second.answer = first.answer
  store : second.store = first.store
  source : related first.source second.source
  journal : second.journal = first.journal

theorem Outcome.Alike.after {related : γ → δ → Prop} {first : Outcome σ γ w α}
    {second : Outcome σ δ w α} (alike : first.Alike related second) (earlier : Journal w) :
    (first.after earlier).Alike related (second.after earlier) :=
  ⟨alike.answer, alike.store, alike.source, congrArg (earlier ++ ·) alike.journal⟩

namespace DrawStream

theorem indexWithin_advance (n patience : Nat) (draws : DrawStream) :
    ∃ read, (indexWithin n patience draws).2 = draws.advance read := by
  induction patience generalizing draws with
  | zero => exact ⟨0, rfl⟩
  | succ patience ih =>
      rw [indexWithin]
      split
      · exact ⟨1, rfl⟩
      · rcases ih (draws.advance 1) with ⟨read, later⟩
        exact ⟨1 + read, later.trans (draws.advance_advance 1 read)⟩

end DrawStream

namespace RandomGenerator

theorem drawText_advance (table : CharacterTable) (length : Nat) (draws : DrawStream) :
    ∃ read, (drawText table length draws).2 = draws.advance read := by
  induction length generalizing draws with
  | zero => exact ⟨0, rfl⟩
  | succ length ih =>
      rcases DrawStream.indexWithin_advance table.size draws.patience draws with ⟨first, drawn⟩
      rw [drawText]
      split
      · rename_i later dry
        exact ⟨first, (congrArg Prod.snd dry).symm.trans drawn⟩
      · rename_i index later found
        have here : later = draws.advance first := (congrArg Prod.snd found).symm.trans drawn
        rcases ih later with ⟨rest, text⟩
        exact ⟨first + rest, text.trans (here ▸ draws.advance_advance first rest)⟩

end RandomGenerator

namespace Generator

def position : Generator w → Nat
  | counter _ => 0
  | random generator => generator.draws.position

theorem position_next (generator : Generator w) :
    generator.position ≤ (CandidateSource.next generator).2.position := by
  cases generator with
  | counter => exact Nat.le_refl 0
  | random generator =>
      rcases RandomGenerator.drawText_advance generator.table generator.length generator.draws with
        ⟨read, drawn⟩
      have moved : (CandidateSource.next (random generator)).2.position =
          (RandomGenerator.drawText generator.table generator.length generator.draws).2.position := rfl
      rw [moved, drawn]
      exact Nat.le_add_right _ read

theorem position_discard (generator : Generator w) (amount : Nat) :
    generator.position ≤ (generator.discard amount).position := by
  cases generator with
  | counter => exact Nat.le_refl 0
  | random => exact Nat.le_add_right _ amount

/-- Related generators have one program and hand out the same candidates, as long as the first one is
not read past `bound`; what is `allowed` can be discarded of both. -/
structure Mimics (bound : Nat) (allowed : Nat → Prop) (related : Generator w → Generator w → Prop) :
    Prop where
  program : ∀ {first second : Generator w}, related first second → second.program = first.program
  next : ∀ {first second : Generator w}, related first second →
    (CandidateSource.next first).2.position ≤ bound →
      (CandidateSource.next second).1 = (CandidateSource.next first).1 ∧
        related (CandidateSource.next first).2 (CandidateSource.next second).2
  discard : ∀ {first second : Generator w} {amount : Nat}, related first second → allowed amount →
    related (first.discard amount) (second.discard amount)

end Generator

variable [IdStore σ w]

theorem Program.position_le_run (program : Program w α) (store : σ) (generator : Generator w) :
    generator.position ≤ (program.run store generator).source.position := by
  induction program generalizing store generator with
  | done answer => exact Nat.le_refl _
  | insert hash content next ih => exact ih _ _ generator
  | insertExtension hash stem suffix next ih => exact ih _ _ generator
  | lookupTerminated hash next ih => exact ih _ store generator
  | candidate next ih => exact Nat.le_trans generator.position_next (ih _ store _)
  | record entry next ih => exact ih store generator

namespace Session

/-- Sessions that differ in the generator `name` only. -/
structure Matched (name : Nat) (related : Generator w → Generator w → Prop)
    (first second : Session σ w) : Prop where
  store : second.store = first.store
  others : ∀ other, other ≠ name → second.generators other = first.generators other
  own : related (first.generators name) (second.generators name)

omit [IdStore σ w] in
theorem Matched.update {name : Nat} {related : Generator w → Generator w → Prop}
    {first second : Session σ w} (matched : first.Matched name related second) (store : σ) (other : Nat)
    {moved alike : Generator w} (own : other = name → related moved alike)
    (same : other ≠ name → alike = moved) :
    Matched name related ⟨store, Function.update first.generators other moved⟩
      ⟨store, Function.update second.generators other alike⟩ where
  store := rfl
  others := by
    intro another different
    by_cases again : another = other
    · subst again
      simp only [Function.update_self]
      exact same different
    · simp only [Function.update_of_ne again]
      exact matched.others another different
  own := by
    by_cases here : other = name
    · subst here
      simp only [Function.update_self]
      exact own rfl
    · simp only [Function.update_of_ne (Ne.symm here)]
      exact matched.own

/-- All that calls show: their answers, the stores that they leave, and their journals. -/
def seen (session : Session σ w) : List (Call w) → List (Answer w × σ × Journal w)
  | [] => []
  | call :: calls =>
      (session.answer call, (session.after call).store, (session.outcome call).journal) ::
        seen (session.after call) calls

theorem seen_append (session : Session σ w) (earlier later : List (Call w)) :
    session.seen (earlier ++ later) = session.seen earlier ++ (session.run earlier).seen later := by
  induction earlier generalizing session with
  | nil => rfl
  | cons call earlier ih => exact congrArg (_ :: ·) (ih (session.after call))

theorem position_after (session : Session σ w) (name : Nat) (call : Call w) :
    (session.generators name).position ≤ ((session.after call).generators name).position := by
  have updated (other : Nat) (generator : Generator w)
      (less : (session.generators other).position ≤ generator.position) :
      (session.generators name).position ≤
        (Function.update session.generators other generator name).position := by
    by_cases same : name = other
    · subst same
      rw [Function.update_self]
      exact less
    · rw [Function.update_of_ne same]
  cases call with
  | request request => exact Nat.le_refl _
  | generate other => exact updated other _ (Program.position_le_run _ session.store _)
  | discard other amount => exact updated other _ (Generator.position_discard _ amount)

theorem position_le_run (session : Session σ w) (name : Nat) (calls : List (Call w)) :
    (session.generators name).position ≤ ((session.run calls).generators name).position := by
  induction calls generalizing session with
  | nil => exact Nat.le_refl _
  | cons call calls ih => exact Nat.le_trans (session.position_after name call) (ih _)

end Session

namespace Generator.Mimics

variable {bound name : Nat} {allowed : Nat → Prop} {related : Generator w → Generator w → Prop}
  (mimics : Mimics bound allowed related)

include mimics

theorem run (program : Program w α) (store : σ) {first second : Generator w}
    (own : related first second) (stays : (program.run store first).source.position ≤ bound) :
    (program.run store first).Alike related (program.run store second) ∧
      program.tried store second = program.tried store first := by
  induction program generalizing store first second with
  | done answer => exact ⟨⟨rfl, rfl, own, rfl⟩, rfl⟩
  | insert hash content next ih =>
      rcases ih _ _ own stays with ⟨alike, tried⟩
      exact ⟨alike.after _, tried⟩
  | insertExtension hash stem suffix next ih =>
      rcases ih _ _ own stays with ⟨alike, tried⟩
      exact ⟨alike.after _, tried⟩
  | lookupTerminated hash next ih => exact ih _ store own stays
  | candidate next ih =>
      -- streams are only read forward, so the bound on the end holds here too
      have within : (CandidateSource.next first).2.position ≤ bound :=
        Nat.le_trans (Program.position_le_run _ store _) stays
      rcases mimics.next own within with ⟨suffix, later⟩
      rw [Program.run_candidate, Program.run_candidate, Program.tried_candidate,
        Program.tried_candidate, suffix]
      rcases ih _ store later stays with ⟨alike, tried⟩
      exact ⟨alike, congrArg (_ ++ ·) tried⟩
  | record entry next ih =>
      rcases ih store own stays with ⟨alike, tried⟩
      exact ⟨alike.after _, tried⟩

theorem after {first second : Session σ w} (matched : first.Matched name related second)
    (call : Call w) (permitted : ∀ amount, call = .discard name amount → allowed amount)
    (stays : ((first.after call).generators name).position ≤ bound) :
    (second.answer call = first.answer call ∧
      (second.outcome call).journal = (first.outcome call).journal ∧
        second.triedBy name call = first.triedBy name call) ∧
      (first.after call).Matched name related (second.after call) := by
  cases call with
  | request request =>
      simp only [Session.answer, Session.after, Session.outcome, Session.triedBy, matched.store]
      exact ⟨⟨trivial, trivial, trivial⟩, rfl, matched.others, matched.own⟩
  | generate other =>
      by_cases same : other = name
      · subst same
        simp only [Session.after, Session.outcome, Function.update_self] at stays
        rcases mimics.run _ first.store matched.own stays with ⟨alike, tried⟩
        simp only [Session.answer, Session.after, Session.outcome, Session.triedBy, matched.store,
          mimics.program matched.own, if_pos, tried, alike.answer, alike.journal, alike.store]
        exact ⟨⟨trivial, trivial, trivial⟩,
          matched.update _ other (fun _ => alike.source) (absurd rfl)⟩
      · simp only [Session.answer, Session.after, Session.outcome, Session.triedBy, matched.store,
          matched.others other same, if_neg same]
        exact ⟨⟨trivial, trivial, trivial⟩, matched.update _ other (absurd · same) fun _ => rfl⟩
  | discard other amount =>
      simp only [Session.answer, Session.after, Session.outcome, Session.triedBy, matched.store]
      refine ⟨⟨trivial, trivial, trivial⟩, matched.update _ other ?_ ?_⟩
      · rintro rfl
        exact mimics.discard matched.own (permitted amount rfl)
      · exact fun different => congrArg (·.discard amount) (matched.others other different)

/-- Matched sessions show the same and stay matched. -/
theorem seen {first second : Session σ w} (matched : first.Matched name related second)
    (calls : List (Call w)) (permitted : ∀ amount, .discard name amount ∈ calls → allowed amount)
    (stays : ((first.run calls).generators name).position ≤ bound) :
    second.seen calls = first.seen calls ∧ second.tried name calls = first.tried name calls ∧
      (first.run calls).Matched name related (second.run calls) := by
  induction calls generalizing first second with
  | nil => exact ⟨rfl, rfl, matched⟩
  | cons call calls ih =>
      have within := Nat.le_trans ((first.after call).position_le_run name calls) stays
      rcases mimics.after matched call
        (fun amount here => permitted amount (here ▸ List.mem_cons_self)) within with
        ⟨⟨answer, journal, tried⟩, after⟩
      rcases ih after (fun amount later => permitted amount (List.mem_cons_of_mem _ later)) stays with
        ⟨seen, triedLater, matched⟩
      refine ⟨?_, ?_, matched⟩
      · rw [Session.seen, Session.seen, answer, journal, after.store, seen]
      · rw [Session.tried, Session.tried, tried, triedLater]

end Generator.Mimics

end Interner
