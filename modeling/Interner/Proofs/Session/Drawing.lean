import Interner.Proofs.Generator.Streams
import Interner.Proofs.Session.Mimicry

namespace Interner

open DrawStream RandomGenerator

variable {σ : Type} {w : Width} {generator : RandomGenerator w} {draws : DrawStream} {name : Nat}

namespace RandomGenerator

def reading (generator : RandomGenerator w) (draws : DrawStream) : RandomGenerator w :=
  { generator with draws }

theorem next_eq_drawText (generator : RandomGenerator w) (draws : DrawStream) :
    CandidateSource.next (Generator.random (generator.reading draws)) =
      ((drawText generator.table generator.length draws).1,
        .random (generator.reading (drawText generator.table generator.length draws).2)) := rfl

theorem next_reading (goesOn : draws.GoesOn generator.table.size) {k : Nat}
    (lasts : draws.Lasts generator.table.size (k + generator.length)) :
    CandidateSource.next (Generator.random
        (generator.reading (draws.movedTo (past generator.table.size draws k)))) =
      (some (spelled generator.table draws generator.length k), .random (generator.reading
        (draws.movedTo (past generator.table.size draws (k + generator.length))))) := by
  have still : (draws.movedTo (past generator.table.size draws k)).GoesOn generator.table.size := goesOn
  have text := drawText_eq still (lasts.moved goesOn)
  rw [spelled_moved goesOn, past_moved goesOn, Nat.add_zero] at text
  rw [next_eq_drawText, text]
  rfl

variable (generator) in
/-- The generator on the accepted words alone. -/
noncomputable def sifting (draws : DrawStream) (k : Nat) : Generator w :=
  .random (generator.reading ((sifted generator.table.size draws).movedTo k))

section Sifting

variable (goesOn : draws.GoesOn generator.table.size)

include goesOn

theorem next_sifting (k : Nat) : CandidateSource.next (generator.sifting draws k) =
    (some (spelled generator.table draws generator.length k),
      generator.sifting draws (k + generator.length)) := by
  have next := next_reading (k := k) (goesOn_sifted goesOn) (lasts_sifted goesOn _)
  simp only [past_sifted goesOn, spelled_sifted goesOn] at next
  exact next

theorem skip_sifting (k n : Nat) : CandidateSource.skip (generator.sifting draws k) n =
    generator.sifting draws (k + n * generator.length) := by
  induction n generalizing k with
  | zero => rw [CandidateSource.skip, Nat.zero_mul, Nat.add_zero]
  | succ n ih =>
      rw [CandidateSource.skip, next_sifting goesOn, ih, Nat.succ_mul, Nat.add_assoc,
        Nat.add_comm generator.length]

theorem drawn_sifting (k n : Nat) : CandidateSource.drawn (generator.sifting draws k) n =
    some (spelled generator.table draws generator.length (k + n * generator.length)) := by
  have skipped := CandidateSource.drawn_skip (generator.sifting draws k) n 0
  rw [skip_sifting goesOn, Nat.add_zero] at skipped
  rw [← skipped, CandidateSource.drawn, next_sifting goesOn]

theorem endless_sifting (k : Nat) : CandidateSource.Endless (generator.sifting draws k) := by
  intro n
  rw [drawn_sifting goesOn]
  rfl

theorem mimics_sifting {bound : Nat} (lasts : draws.Lasts generator.table.size bound) :
    Generator.Mimics bound (fun _ => False) fun first second => ∃ k,
      first = generator.sifting draws k ∧
        second = .random (generator.reading
          (draws.movedTo (past generator.table.size draws k))) where
  program := by
    rintro _ _ ⟨k, rfl, rfl⟩
    rfl
  next := by
    rintro _ _ ⟨k, rfl, rfl⟩ within
    rw [next_sifting goesOn] at within ⊢
    rw [next_reading goesOn (lasts.mono within)]
    exact ⟨rfl, _, rfl, rfl⟩
  discard := fun _ none => none.elim

end Sifting

end RandomGenerator

namespace DrawStream

/-- The stream with another patience. -/
def waiting (draws : DrawStream) (patience : Nat) : DrawStream := { draws with patience }

end DrawStream

namespace Session

def put (session : Session σ w) (name : Nat) (generator : Generator w) : Session σ w :=
  ⟨session.store, Function.update session.generators name generator⟩

@[simp] theorem put_self (session : Session σ w) (name : Nat) (generator : Generator w) :
    (session.put name generator).generators name = generator := by
  simp only [put, Function.update_self]

theorem put_of_ne (session : Session σ w) {name other : Nat} (different : other ≠ name)
    (generator : Generator w) :
    (session.put name generator).generators other = session.generators other := by
  simp only [put, Function.update_of_ne different]

theorem matched_put (session : Session σ w) {related : Generator w → Generator w → Prop}
    {first second : Generator w} (own : related first second) :
    (session.put name first).Matched name related (session.put name second) where
  store := rfl
  others := by
    intro other different
    rw [put_of_ne session different, put_of_ne session different]
  own := by
    rw [put_self, put_self]
    exact own

theorem Matched.eq_put {related : Generator w → Generator w → Prop} {first second : Session σ w}
    (matched : first.Matched name related second) :
    second = first.put name (second.generators name) := by
  have generators : second.generators =
      Function.update first.generators name (second.generators name) := by
    funext other
    by_cases same : other = name
    · subst same
      rw [Function.update_self]
    · rw [Function.update_of_ne same]
      exact matched.others other same
  cases second
  cases matched.store
  exact congrArg (Session.mk first.store) generators

variable [IdStore σ w] (session : Session σ w) (goesOn : draws.GoesOn generator.table.size)

include goesOn

/-- Undiscarded calls try what the accepted words spell, and read no further. -/
theorem tried_sifting {calls : List (Call w)} (undiscarded : ∀ amount, .discard name amount ∉ calls) :
    let ideal := session.put name (generator.sifting draws 0)
    CandidateSource.Supplies (generator.sifting draws 0) (ideal.tried name calls) ∧
      (ideal.run calls).generators name =
        generator.sifting draws ((ideal.tried name calls).length * generator.length) := by
  have own := session.put_self name (generator.sifting draws 0)
  have endless : CandidateSource.Endless (generator.sifting draws 0) :=
    RandomGenerator.endless_sifting goesOn 0
  rw [← own] at endless
  rcases (session.put name (generator.sifting draws 0)).generators_undiscarded endless calls
    undiscarded with ⟨supplied, moved⟩
  rw [own] at supplied moved
  rw [RandomGenerator.skip_sifting goesOn, Nat.zero_add] at moved
  exact ⟨supplied, moved⟩

/-- With patience enough for all that is read, a generator shows what its accepted words alone would. -/
theorem run_sifted {calls : List (Call w)} (undiscarded : ∀ amount, .discard name amount ∉ calls) :
    let ideal := session.put name (generator.sifting draws 0)
    let read := (ideal.tried name calls).length * generator.length
    ∃ enough, ∀ patience, enough ≤ patience →
      let real := session.put name (.random (generator.reading (draws.waiting patience)))
      real.seen calls = ideal.seen calls ∧ real.tried name calls = ideal.tried name calls ∧
        real.run calls = (ideal.run calls).put name (.random (generator.reading
          ((draws.waiting patience).movedTo (past generator.table.size draws read)))) := by
  intro ideal read
  refine ⟨past generator.table.size draws read, ?_⟩
  intro patience enough real
  have still : (draws.waiting patience).GoesOn generator.table.size := goesOn
  rw [← past_patience generator.table.size patience draws] at enough ⊢
  have moved := (session.tried_sifting goesOn undiscarded).2
  have mimics := RandomGenerator.mimics_sifting still (lasts_of_past_le still enough)
  rcases mimics.seen (session.matched_put ⟨0, rfl, rfl⟩) calls
    (fun amount member => undiscarded amount member)
    (Nat.le_of_eq (congrArg Generator.position moved)) with ⟨seen, tried, after⟩
  refine ⟨seen, tried, after.eq_put.trans ?_⟩
  rcases after.own with ⟨k, first, second⟩
  have same : read = k := congrArg Generator.position (moved.symm.trans first)
  rw [second, same]
  rfl

variable (name)

theorem settles_after (call : Call w) : ∃ (enough : Nat) (middle : Session σ w) (position : Nat),
    ∀ patience, enough ≤ patience →
      (session.put name (.random (generator.reading (draws.waiting patience)))).after call =
        middle.put name (.random (generator.reading ((draws.movedTo position).waiting patience))) := by
  cases call with
  | request request => exact ⟨0, session.after (.request request), draws.position, fun _ _ => rfl⟩
  | generate other =>
      by_cases same : other = name
      · subst same
        have undiscarded : ∀ amount, Call.discard other amount ∉ [Call.generate (w := w) other] := by
          simp
        rcases session.run_sifted goesOn undiscarded with ⟨enough, sifted⟩
        exact ⟨enough, _, _, fun patience long => (sifted patience long).2.2⟩
      · refine ⟨0, session.after (.generate other), draws.position, fun patience _ => ?_⟩
        simp only [Session.after, Session.outcome, put, Function.update_of_ne same]
        rw [Function.update_comm (Ne.symm same)]
        rfl
  | discard other amount =>
      by_cases same : other = name
      · subst same
        refine ⟨0, session, draws.position + amount, fun patience _ => ?_⟩
        simp only [Session.after, Session.outcome, put, Function.update_self, Function.update_idem]
        rfl
      · refine ⟨0, session.after (.discard other amount), draws.position, fun patience _ => ?_⟩
        simp only [Session.after, Session.outcome, put, Function.update_of_ne same]
        rw [Function.update_comm (Ne.symm same)]
        rfl

/-- With patience enough, calls lead to the same session whatever the patience is. -/
theorem settles (calls : List (Call w)) : ∃ (enough : Nat) (last : Session σ w) (position : Nat),
    ∀ patience, enough ≤ patience →
      (session.put name (.random (generator.reading (draws.waiting patience)))).run calls =
        last.put name (.random (generator.reading ((draws.movedTo position).waiting patience))) := by
  induction calls generalizing session draws with
  | nil => exact ⟨0, session, draws.position, fun _ _ => rfl⟩
  | cons call calls ih =>
      rcases session.settles_after name goesOn call with ⟨first, middle, here, after⟩
      have still : (draws.movedTo here).GoesOn generator.table.size := goesOn
      rcases ih middle still with ⟨second, last, position, later⟩
      refine ⟨max first second, last, position, fun patience enough => ?_⟩
      have both := Nat.max_le.mp enough
      exact (congrArg (·.run calls) (after patience both.1)).trans (later patience both.2)

end Session

end Interner
