import Interner.Proofs.Session.Capacity

namespace Interner

variable {σ : Type} {w : Width} [IdStore σ w] {name limit : Nat}

namespace CounterGenerator

variable (generator : CounterGenerator w) (n : Nat)

theorem skip_counter : CandidateSource.skip (Generator.counter generator) n =
    .counter (generator.advance (BitVec.ofNat 64 n)) := by
  induction n generalizing generator with
  | zero => exact congrArg Generator.counter generator.advance_zero.symm
  | succ n ih =>
      rw [CandidateSource.skip, Nat.add_comm, BitVec.ofNat_add, ← advance_advance]
      exact ih (generator.advance 1)

theorem drawn_counter : CandidateSource.drawn (Generator.counter generator) n =
    some (generator.suffixOf (generator.valueAt n)) := by
  have skipped := CandidateSource.drawn_skip (Generator.counter generator) n 0
  rw [skip_counter, Nat.add_zero] at skipped
  exact skipped.symm

theorem endless : CandidateSource.Endless (Generator.counter generator) := by
  intro n
  rw [drawn_counter]
  rfl

end CounterGenerator

namespace Session

/-- How far calls move the counter `name`: what they discard of it, and what they try with it. -/
def moves (session : Session σ w) (name : Nat) (calls : List (Call w)) : Nat :=
  (calls.map (Call.discarded name)).sum + (session.tried name calls).length

theorem generators_run {session : Session σ w} {start : CounterGenerator w}
    (own : session.generators name = .counter start) (calls : List (Call w)) :
    (session.run calls).generators name =
      .counter (start.advance (BitVec.ofNat 64 (session.moves name calls))) := by
  induction calls generalizing session start with
  | nil => exact own.trans (congrArg Generator.counter start.advance_zero.symm)
  | cons call calls ih =>
      have moved := (session.generators_after (own ▸ start.endless) call).2
      rw [own, CounterGenerator.skip_counter, Generator.discard, CounterGenerator.discard,
        CounterGenerator.advance_advance, ← BitVec.ofNat_add] at moved
      refine (ih moved).trans ?_
      rw [CounterGenerator.advance_advance, ← BitVec.ofNat_add, moves, moves, tried,
        List.length_append, List.map_cons, List.sum_cons]
      congr 3
      omega

end Session

/-- What a generate call does with the counter `generator`, which `name` stands for and whose policy is
bounded by `limit`. -/
structure Session.FirstFree (session : Session (Table w) w) (name : Nat)
    (generator : CounterGenerator w) (limit : Nat) : Prop where
  unknown : IdStore.lookup session.store generator.stem = none →
    session.answer (.generate name) = .generated (some (.error (.store (.unknownStem generator.stem)))) ∧
      (session.after (.generate name)).generators name = .counter (generator.advance 1) ∧
      SameEntries Table.size Table.size (session.after (.generate name)).store session.store
  /-- Candidate `j` is the first one that is free. -/
  free : ∀ head j, IdStore.lookup session.store generator.stem = some head → j < max limit 1 →
    (∀ i < j, IdStore.lookup session.store (generator.hashOf (generator.valueAt i)) ≠ none) →
      IdStore.lookup session.store (generator.hashOf (generator.valueAt j)) = none →
        session.answer (.generate name) =
            .generated (some (.ok ⟨generator.hashOf (generator.valueAt j), .new⟩)) ∧
          (session.after (.generate name)).generators name =
            .counter (generator.advance (BitVec.ofNat 64 (j + 1))) ∧
          Offered Table.size session.store (session.after (.generate name)).store
            (generator.hashOf (generator.valueAt j)) (head ++ generator.suffixOf (generator.valueAt j))
  exhausted : IdStore.lookup session.store generator.stem ≠ none →
    (∀ i < max limit 1,
      IdStore.lookup session.store (generator.hashOf (generator.valueAt i)) ≠ none) →
        session.answer (.generate name) =
            .generated (some (.error (.exhausted .counter (max limit 1)))) ∧
          (session.after (.generate name)).generators name =
            .counter (generator.advance (BitVec.ofNat 64 (max limit 1))) ∧
          SameEntries Table.size Table.size (session.after (.generate name)).store session.store

namespace Session

variable {session : Session (Table w) w} {generator : CounterGenerator w}

theorem generate_counter (own : session.generators name = .counter generator)
    (policy : generator.policy = .bounded limit) :
    let made := (Program.generate .counter generator.stem (.bounded limit)).run session.store
      (Generator.counter generator)
    session.answer (.generate name) = .generated made.answer ∧
      (session.after (.generate name)).store = made.store ∧
      (session.after (.generate name)).generators name = made.source := by
  have made : (session.generators name).program.run session.store (session.generators name) =
      (Program.generate .counter generator.stem (.bounded limit)).run session.store
        (Generator.counter generator) := by
    rw [own, Generator.program, CounterGenerator.program, policy]
  rw [← made]
  exact ⟨rfl, rfl, Function.update_self name _ session.generators⟩

theorem taken_candidates {n : Nat} (taken : ∀ i < n,
      IdStore.lookup session.store (generator.hashOf (generator.valueAt i)) ≠ none) :
    ∀ i < n, ∃ suffix, CandidateSource.drawn (Generator.counter generator) i = some suffix ∧
      ∃ kept, IdStore.lookup session.store (Hash.extend generator.stem suffix) = some kept := by
  intro i inside
  exact ⟨_, generator.drawn_counter i, Option.ne_none_iff_exists'.mp (taken i inside)⟩

theorem firstFree (sound : session.store.Sound) (own : session.generators name = .counter generator)
    (policy : generator.policy = .bounded limit) : session.FirstFree name generator limit := by
  rcases generate_counter own policy with ⟨answer, store, source⟩
  constructor
  · intro unknown
    rcases Table.firstWins.bounded_refuses sound .counter limit unknown (generator.drawn_counter 0)
      with ⟨refused, moved, same⟩
    rw [answer, store, source, refused, moved, generator.skip_counter]
    exact ⟨rfl, rfl, same⟩
  · intro head j known inside taken free
    rcases Table.firstWins.bounded_takes_free sound .counter known inside (taken_candidates taken)
      (generator.drawn_counter j) free with ⟨made, moved, offered⟩
    rw [answer, store, source, made, moved, generator.skip_counter]
    exact ⟨rfl, rfl, offered⟩
  · intro known taken
    rcases Option.ne_none_iff_exists'.mp known with ⟨head, known⟩
    rcases Table.firstWins.bounded_exhausts sound .counter known (taken_candidates taken) with
      ⟨exhausted, moved, same⟩
    rw [answer, store, source, exhausted, moved, generator.skip_counter]
    exact ⟨rfl, rfl, same⟩

end Session

/-- Whatever calls a counter has been through: it stands at its start moved by all that was discarded and
tried, and the next generate call takes its first free candidate and accounts for what it consumed. -/
theorem counter_takes_first_free {session : Session (Table w) w} (reachable : session.store.Reachable)
    {start : CounterGenerator w} (own : session.generators name = .counter start)
    (policy : start.policy = .bounded limit) (calls : List (Call w)) :
    let generator := start.advance (BitVec.ofNat 64 (session.moves name calls))
    (session.run calls).generators name = .counter generator ∧
      (session.run calls).FirstFree name generator limit := by
  have moved := Session.generators_run own calls
  exact ⟨moved, Session.firstFree (Table.firstWins.good_calls reachable.sound calls) moved policy⟩

def wrappingCounter : CounterGenerator .narrow :=
  { stem := 7, counter := -2#64, policy := .bounded 3 }

def wrappingSession : Session (Table .narrow) .narrow where
  store := spentTable
  generators _ := .counter wrappingCounter

/-- After ten values are discarded the next candidates are `8` and `9`, which are taken, and `10`. -/
theorem counter_takes_first_free_wrapping :
    let session := wrappingSession.run [.discard 0 10]
    wrappingSession.moves 0 [.discard 0 10] = 10 ∧
      session.answer (.generate 0) = .generated (some (.ok ⟨Hash.extend 7 [49, 48], .new⟩)) ∧
      (session.after (.generate 0)).generators 0 = .counter { wrappingCounter with counter := 11 } := by
  have reachable : wrappingSession.store.Reachable := by
    simp only [wrappingSession]
    exact ⟨_, _, _, by decide +kernel, rfl⟩
  have own : wrappingSession.generators 0 = .counter wrappingCounter := rfl
  have moves : wrappingSession.moves 0 [.discard 0 10] = 10 := by decide +kernel
  have first := (counter_takes_first_free reachable own rfl [.discard 0 10]).2
  rw [moves] at first
  rcases first.free [65] 2 (by decide +kernel) (by decide) (by decide +kernel) (by decide +kernel) with
    ⟨answer, generator, _⟩
  have hash : (wrappingCounter.advance 10).hashOf ((wrappingCounter.advance 10).valueAt 2) =
      Hash.extend 7 [49, 48] := by decide +kernel
  refine ⟨moves, ?_, generator⟩
  rw [← hash]
  exact answer

end Interner
