import Interner.Proofs.Session.Basic
import Interner.Proofs.Store.Programs
import Interner.Proofs.Store.Tabled

/-!
Strings that are inserted one after another. What a store holds under some hashes afterwards, and
what it answered about them, comes from the insertions under these hashes alone. So insertions under
different hashes commute, and only the order of those under one hash can matter.
-/

namespace Interner

variable {σ : Type} {w : Width} [IdStore σ w] {good : σ → Prop} {size : σ → Nat} {store : σ}
  {first second : σ} {pairs others : List (Hash w × Bytes)}

namespace Request

def inserts (pairs : List (Hash w × Bytes)) : List (Request w) :=
  pairs.map fun pair => insert pair.1 pair.2

@[simp] theorem finish_inserts_nil (store : σ) : finish store (inserts []) = store := rfl

@[simp] theorem finish_inserts_cons (store : σ) (pair : Hash w × Bytes)
    (pairs : List (Hash w × Bytes)) :
    finish store (inserts (pair :: pairs)) =
      finish (IdStore.insert store pair.1 pair.2).store (inserts pairs) := rfl

@[simp] theorem answers_inserts_nil (store : σ) : answers store (inserts []) = [] := rfl

@[simp] theorem answers_inserts_cons (store : σ) (pair : Hash w × Bytes)
    (pairs : List (Hash w × Bytes)) :
    answers store (inserts (pair :: pairs)) =
      .inserted (IdStore.insert store pair.1 pair.2).answer ::
        answers (IdStore.insert store pair.1 pair.2).store (inserts pairs) := rfl

end Request

/-- Equal hashes carry equal bytes. -/
def Coherent (pairs : List (Hash w × Bytes)) : Prop :=
  ∀ pair ∈ pairs, ∀ other ∈ pairs, pair.1 = other.1 → pair.2 = other.2

theorem Coherent.of_subset (coherent : Coherent others) (subset : pairs ⊆ others) :
    Coherent pairs :=
  fun pair member other present => coherent pair (subset member) other (subset present)

/-- Every hash that is `mine` shows the same in both stores. -/
def Agree (mine : Hash w → Bool) (first second : σ) : Prop :=
  ∀ hash, mine hash = true → IdStore.lookup first hash = IdStore.lookup second hash

namespace Agree

variable {mine : Hash w → Bool} {after later : σ} {hash : Hash w} {content : Bytes}

theorem offered (agree : Agree mine first second) (own : mine hash = true)
    (taken : Offered size first after hash content)
    (alike : Offered size second later hash content) : Agree mine after later := by
  intro other here
  rw [taken.lookup, alike.lookup, agree hash own, agree other here]

theorem offered_elsewhere (agree : Agree mine first second) (foreign : mine hash = false)
    (taken : Offered size first after hash content) : Agree mine after second := by
  intro other here
  have apart : other ≠ hash := by
    rintro rfl
    simp [foreign] at here
  rw [taken.lookup, if_neg apart, agree other here]

end Agree

namespace FirstWins

variable (laws : FirstWins good size)

include laws

theorem good_inserts (ok : good store) (pairs : List (Hash w × Bytes)) :
    good (Request.finish store (Request.inserts pairs)) := by
  induction pairs generalizing store with
  | nil => exact ok
  | cons pair pairs ih => exact ih (laws.insert ok pair.1 pair.2).1

theorem inserts_filter (mine : Hash w → Bool) (ok : good first) (okay : good second)
    (agree : Agree mine first second) (pairs : List (Hash w × Bytes)) :
    ((pairs.zip (Request.answers first (Request.inserts pairs))).filter fun entry =>
        mine entry.1.1).map Prod.snd =
      Request.answers second (Request.inserts (pairs.filter fun pair => mine pair.1)) ∧
    Agree mine (Request.finish first (Request.inserts pairs))
      (Request.finish second (Request.inserts (pairs.filter fun pair => mine pair.1))) := by
  induction pairs generalizing first second with
  | nil => exact ⟨rfl, agree⟩
  | cons pair pairs ih =>
      rcases laws.insert ok pair.1 pair.2 with ⟨okayFirst, answer, offered⟩
      cases own : mine pair.1 with
      | false =>
          have rest := ih okayFirst okay (agree.offered_elsewhere own offered)
          simpa [own] using rest
      | true =>
          rcases laws.insert okay pair.1 pair.2 with ⟨okaySecond, told, alike⟩
          have rest := ih okayFirst okaySecond (agree.offered own offered alike)
          rw [agree pair.1 own, ← told] at answer
          simpa [own, answer] using rest

theorem lookup_inserts (ok : good store) (pairs : List (Hash w × Bytes)) (hash : Hash w) :
    IdStore.lookup (Request.finish store (Request.inserts pairs)) hash =
      IdStore.lookup (Request.finish store
        (Request.inserts (pairs.filter fun pair => pair.1 == hash))) hash :=
  (laws.inserts_filter (· == hash) ok ok (fun _ _ => rfl) pairs).2 hash (by simp)

theorem requests_same (ok : good first) (okay : good second)
    (entries : SameEntries size size first second) (requests : List (Request w)) :
    Request.answers first requests = Request.answers second requests ∧
      SameEntries size size (Request.finish first requests) (Request.finish second requests) := by
  induction requests generalizing first second with
  | nil => exact ⟨rfl, entries⟩
  | cons request requests ih =>
      rcases laws.run_same laws request.program ok okay entries () with ⟨answer, _, after⟩
      have rest := ih (laws.good_run request.program ok ()) (laws.good_run request.program okay ())
        after
      refine ⟨?_, rest.2⟩
      rw [Request.answers, Request.answers, Request.outcome, Request.outcome, answer, rest.1]

theorem inserts_swap (ok : good store) {pair other : Hash w × Bytes}
    (coherent : pair.1 = other.1 → pair.2 = other.2) :
    (Request.answers store (Request.inserts [pair, other])).Perm
        (Request.answers store (Request.inserts [other, pair])) ∧
      SameEntries size size (Request.finish store (Request.inserts [pair, other]))
        (Request.finish store (Request.inserts [other, pair])) := by
  by_cases same : pair.1 = other.1
  · obtain rfl : pair = other := Prod.ext same (coherent same)
    exact ⟨.refl _, .refl _⟩
  · rcases laws.insert ok pair.1 pair.2 with ⟨okFirst, answer, offered⟩
    rcases laws.insert ok other.1 other.2 with ⟨okSecond, told, alike⟩
    rcases laws.insert okFirst other.1 other.2 with ⟨_, answerLater, offeredLater⟩
    rcases laws.insert okSecond pair.1 pair.2 with ⟨_, toldLater, alikeLater⟩
    -- neither of the two changes what the other one meets
    have here := offered.lookup other.1
    have there := alike.lookup pair.1
    rw [if_neg (Ne.symm same)] at here
    rw [if_neg same] at there
    refine ⟨?_, ?_, ?_⟩
    · rw [here] at answerLater
      rw [there] at toldLater
      simpa [answer, told, answerLater, toldLater] using List.Perm.swap _ _ _
    · intro hash
      simp only [Request.finish_inserts_cons, Request.finish_inserts_nil]
      rw [offeredLater.lookup, alikeLater.lookup, offered.lookup hash, alike.lookup hash, here, there]
      by_cases left : hash = pair.1
      · subst left
        simp [same]
      · simp [left]
    · simp only [Request.finish_inserts_cons, Request.finish_inserts_nil]
      rw [offeredLater.size, alikeLater.size, offered.size, alike.size, here, there]
      omega

/-- Where equal hashes carry equal bytes, the order of the insertions can only be seen in the order
of the answers. -/
theorem inserts_perm (ok : good store) (order : pairs.Perm others) (coherent : Coherent pairs) :
    (Request.answers store (Request.inserts pairs)).Perm
        (Request.answers store (Request.inserts others)) ∧
      SameEntries size size (Request.finish store (Request.inserts pairs))
        (Request.finish store (Request.inserts others)) := by
  induction order generalizing store with
  | nil => exact ⟨.refl _, .refl _⟩
  | cons pair order ih =>
      have rest := ih (laws.insert ok pair.1 pair.2).1
        (coherent.of_subset (List.subset_cons_self ..))
      exact ⟨rest.1.cons _, rest.2⟩
  | swap pair other pairs =>
      have swapped := laws.inserts_swap ok (coherent other (by simp) pair (by simp))
      have rest := laws.requests_same (laws.good_inserts ok [other, pair])
        (laws.good_inserts ok [pair, other]) swapped.2 (Request.inserts pairs)
      refine ⟨?_, rest.2⟩
      have both := swapped.1.append_right (Request.answers
        (Request.finish store (Request.inserts [other, pair])) (Request.inserts pairs))
      nth_rewrite 2 [rest.1] at both
      exact both
  | trans earlier later first second =>
      have before := first ok coherent
      have after := second ok (coherent.of_subset earlier.symm.subset)
      exact ⟨before.1.trans after.1, before.2.trans after.2⟩

end FirstWins

/-- Distinct hashes that the store does not know. -/
structure Fresh (store : σ) (pairs : List (Hash w × Bytes)) : Prop where
  distinct : (pairs.map Prod.fst).Nodup
  absent : ∀ hash ∈ pairs.map Prod.fst, IdStore.lookup store hash = none

namespace Fresh

theorem tail {pair : Hash w × Bytes} {after : σ} (fresh : Fresh store (pair :: pairs))
    (offered : Offered size store after pair.1 pair.2) : Fresh after pairs := by
  rcases List.nodup_cons.mp fresh.distinct with ⟨unlike, distinct⟩
  refine ⟨distinct, ?_⟩
  intro hash member
  rw [offered.elsewhere unlike hash member]
  exact fresh.absent hash (List.mem_cons_of_mem _ member)

end Fresh

/-- The bucket count after more strings were added to `size` others, where `room` is the bucket count
that one more string needs. -/
def grownCount (room : Nat → Nat → Nat) : Nat → Nat → Nat → Nat
  | 0, _, count => count
  | more + 1, size, count => grownCount room more (size + 1) (room size count)

theorem Table.bucketCount_inserts {table : Table w} (sound : table.Sound)
    (fresh : Fresh table pairs) :
    (Request.finish table (Request.inserts pairs)).bucketCount =
      grownCount (fun size => roomyCount table.maxLoadFactor size maxDoublings) pairs.length
        table.size table.bucketCount := by
  induction pairs generalizing table with
  | nil => rfl
  | cons pair pairs ih =>
      have room := (inserted sound pair.1 pair.2).roomed
      rcases firstWins.insert sound pair.1 pair.2 with ⟨okay, _, offered⟩
      have grown := offered.size
      rw [if_pos (fresh.absent pair.1 (by simp))] at grown
      have rest := ih okay (fresh.tail offered)
      rw [grown, room.bucketCount, room.maxLoadFactor, countWithRoom] at rest
      rw [Request.finish_inserts_cons, rest, List.length_cons, grownCount]

end Interner
