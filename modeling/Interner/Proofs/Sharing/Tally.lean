import Interner.Proofs.Sharing.Crew
import Mathlib.Algebra.BigOperators.Group.Finset.Basic

namespace Interner

open scoped BigOperators

variable {ι σ M : Type} {w : Width} {crew after : Crew ι σ w} {who : ι}

def Worker.unreturned (worker : Worker w) : Nat :=
  worker.waiting.countP SharedCall.isGenerate + worker.job.toList.countP (·.call.isGenerate)

def generateCalls [Fintype ι] (calls : ι → List (SharedCall w)) : Nat :=
  ∑ who, (calls who).countP SharedCall.isGenerate

/-- Each of `total` generate calls has returned or has still to return. -/
def Crew.Tallied [Fintype ι] (crew : Crew ι σ w) (total : Nat) : Prop :=
  crew.returned.countP (·.call.isGenerate) + ∑ who, (crew.workers who).unreturned = total

theorem Crew.Tallied.of_done [Fintype ι] {total : Nat} (tallied : crew.Tallied total)
    (done : crew.Done) : crew.returned.countP (·.call.isGenerate) = total := by
  rw [← tallied]
  simp [done _, Worker.unreturned]

variable [IdStore σ w] [DecidableEq ι]

theorem Crew.Stepped.unreturned (stepped : crew.Stepped who after) :
    after.returned.countP (·.call.isGenerate) + (after.workers who).unreturned =
      crew.returned.countP (·.call.isGenerate) + (crew.workers who).unreturned := by
  cases stepped with
  | idle => rfl
  | begin turn =>
      rw [crew.begin_self, turn]
      simp only [Crew.begin, setWorker, Worker.unreturned, List.countP_cons, Option.toList_some,
        Option.toList_none, List.countP_nil]
      omega
  | take turn busy =>
      rw [crew.take_self, turn]
      simp only [Crew.take, setWorker, Worker.unreturned, Option.toList_some, List.countP_cons]
  | finish turn =>
      rw [crew.finish_self, turn]
      simp only [Crew.finish, setWorker, Worker.unreturned, List.countP_append, List.countP_cons,
        Option.toList_some, Option.toList_none, List.countP_nil]
      omega

variable [Fintype ι]

theorem Crew.Stepped.sum [AddCommMonoid M] (stepped : crew.Stepped who after)
    (share : Worker w → M) :
    ∑ other, share (after.workers other) + share (crew.workers who) =
      ∑ other, share (crew.workers other) + share (after.workers who) := by
  have rest : ∑ other ∈ Finset.univ.erase who, share (after.workers other) =
      ∑ other ∈ Finset.univ.erase who, share (crew.workers other) := by
    apply Finset.sum_congr rfl
    intro other member
    rw [stepped.elsewhere (Finset.ne_of_mem_erase member)]
  have here := Finset.mem_univ who
  rw [← Finset.sum_erase_add Finset.univ (fun other => share (after.workers other)) here,
    ← Finset.sum_erase_add Finset.univ (fun other => share (crew.workers other)) here, rest,
    add_assoc, add_assoc, add_comm (share _)]

theorem Crew.tallied (store : σ) (generator : CounterGenerator w)
    (calls : ι → List (SharedCall w)) (schedule : List ι) :
    ((launch store generator calls).run schedule).Tallied (generateCalls calls) := by
  have kept : ∀ (crew after : Crew ι σ w) (who : ι),
      crew.Tallied (generateCalls calls) → crew.Stepped who after →
        after.Tallied (generateCalls calls) := by
    intro crew after who tally stepped
    have here := stepped.unreturned
    have sums := stepped.sum Worker.unreturned
    rw [Tallied] at tally ⊢
    omega
  apply run_induction _ kept schedule
  simp [Tallied, launch, generateCalls, Worker.unreturned]

end Interner
