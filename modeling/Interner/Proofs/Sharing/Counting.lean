import Interner.Proofs.Sharing.Crew
import Mathlib.Algebra.Ring.Nat
import Mathlib.Data.List.Nodup

namespace Interner

variable {ι σ α : Type} {w : Width}

namespace CounterGenerator

def valueAt (generator : CounterGenerator w) (n : Nat) : BitVec 64 :=
  generator.counter + BitVec.ofNat 64 n

theorem advance_zero (generator : CounterGenerator w) : generator.advance 0 = generator := by
  simp [advance]

theorem advance_advance (generator : CounterGenerator w) (first second : BitVec 64) :
    (generator.advance first).advance second = generator.advance (first + second) := by
  simp [advance, BitVec.add_assoc]

theorem valueAt_injective (generator : CounterGenerator w) {first second : Nat}
    (bound : first < 2 ^ 64) (other : second < 2 ^ 64)
    (same : generator.valueAt first = generator.valueAt second) : first = second := by
  have words : BitVec.ofNat 64 first = BitVec.ofNat 64 second := (BitVec.add_right_inj _).mp same
  have numbers := congrArg BitVec.toNat words
  rw [BitVec.toNat_ofNat, BitVec.toNat_ofNat] at numbers
  omega

end CounterGenerator

namespace Program

variable {program : Program w α} {generator : CounterGenerator w} {value : BitVec 64}

theorem drawn?_eq (drawn : program.drawn? generator = some value) : value = generator.counter := by
  cases program with
  | candidate next => exact (Option.some.inj drawn).symm
  | done | insert | insertExtension | lookupTerminated | record => cases drawn

theorem step_source [IdStore σ w] (program : Program w α) (store : σ)
    (generator : CounterGenerator w) :
    (program.step store generator).source =
      generator.advance (BitVec.ofNat 64 (program.drawn? generator).toList.length) := by
  cases program with
  | candidate next => rfl
  | done | insert | insertExtension | lookupTerminated | record =>
      exact generator.advance_zero.symm

end Program

/-- The counter is as far from its start as it was moved, and every value that was drawn has an offset
of its own. -/
structure Counted (start : CounterGenerator w) (crew : Crew ι σ w) : Prop where
  generator : crew.generator = start.advance (BitVec.ofNat 64 crew.advanced)
  offsets : ∃ offsets : List Nat, offsets.Pairwise (· < ·) ∧
    (∀ offset ∈ offsets, offset < crew.advanced) ∧ crew.drawn = offsets.map start.valueAt

namespace Counted

variable {start : CounterGenerator w} {crew after : Crew ι σ w} {who : ι}

theorem launch (store : σ) (start : CounterGenerator w) (calls : ι → List (SharedCall w)) :
    Counted start (Crew.launch store start calls) where
  generator := start.advance_zero.symm
  offsets := ⟨[], .nil, by simp, rfl⟩

theorem stem (counted : Counted start crew) : crew.generator.stem = start.stem := by
  rw [counted.generator]
  rfl

theorem width (counted : Counted start crew) : crew.generator.width = start.width := by
  rw [counted.generator]
  rfl

theorem counter (counted : Counted start crew) :
    crew.generator.counter = start.valueAt crew.advanced := by
  rw [counted.generator]
  rfl

/-- As long as the counter has not gone round, no two attempts have drawn the same value. -/
theorem drawn_nodup (counted : Counted start crew) (bound : crew.advanced ≤ 2 ^ 64) :
    crew.drawn.Nodup := by
  obtain ⟨offsets, ordered, below, drawn⟩ := counted.offsets
  rw [drawn]
  refine List.Nodup.map_on ?_ (ordered.imp Nat.ne_of_lt)
  intro first member second other same
  exact start.valueAt_injective (Nat.lt_of_lt_of_le (below first member) bound)
    (Nat.lt_of_lt_of_le (below second other) bound) same

theorem begin [DecidableEq ι] (counted : Counted start crew) (call : SharedCall w)
    (waiting : List (SharedCall w)) : Counted start (crew.begin who call waiting) := by
  obtain ⟨offsets, ordered, below, drawn⟩ := counted.offsets
  constructor
  · simp only [Crew.begin, CounterGenerator.discard, counted.generator,
      CounterGenerator.advance_advance, BitVec.ofNat_add, BitVec.ofNat_toNat, BitVec.setWidth_eq]
  · exact ⟨offsets, ordered, fun offset member => Nat.lt_add_right _ (below offset member), drawn⟩

variable [DecidableEq ι] [IdStore σ w]

theorem take (counted : Counted start crew) (waiting : List (SharedCall w)) (job : Job w) :
    Counted start (crew.take who waiting job) := by
  obtain ⟨offsets, ordered, below, drawn⟩ := counted.offsets
  constructor
  · simp only [Crew.take, Program.step_source, BitVec.ofNat_add]
    rw [counted.generator, CounterGenerator.advance_advance, ← counted.generator]
  · simp only [Crew.take]
    cases value : job.rest.drawn? crew.generator with
    | none => exact ⟨offsets, ordered, below, by rw [drawn, Option.toList_none, List.append_nil]⟩
    | some value' =>
        refine ⟨offsets ++ [crew.advanced], ?_, ?_, ?_⟩
        · refine List.pairwise_append.mpr ⟨ordered, List.pairwise_singleton _ _, ?_⟩
          intro offset member last same
          rw [List.mem_singleton.mp same]
          exact below offset member
        · intro offset member
          rcases List.mem_append.mp member with earlier | last
          · exact Nat.lt_add_right _ (below offset earlier)
          · rw [List.mem_singleton.mp last]
            exact Nat.lt_succ_self _
        · rw [Program.drawn?_eq value, counted.counter, drawn, List.map_append]
          rfl

theorem step (counted : Counted start crew) (stepped : crew.Stepped who after) :
    Counted start after := by
  cases stepped with
  | idle => exact counted
  | begin => exact counted.begin _ _
  | take => exact counted.take _ _
  | finish => exact ⟨counted.generator, counted.offsets⟩

end Counted

end Interner
