import Interner.Proofs.Table.Room

namespace Interner

variable {w : Width} {table grown : Table w} {chains : Nat → List Key} {key : Key}

namespace Table

/-- The table after its bucket array was doubled `doublings` times. -/
def rehashTimes : Nat → Table w → Except Fault (Table w)
  | 0, table => .ok table
  | doublings + 1, table => do
      let doubled ← table.rehash
      rehashTimes doublings doubled

/-- Following the links from the head of a bucket meets the keys that `chains` lists for it. -/
def LeadsTo (table : Table w) (chains : Nat → List Key) : Prop :=
  ∀ bucket head, table.heads[bucket]? = some head → Chain table.nodes head (chains bucket)

def splitChains (table : Table w) (chains : Nat → List Key) (count bucket : Nat) : List Key :=
  goingTo table.nodes count bucket (chains (bucket % table.bucketCount))

theorem reserveWithin_rehashTimes {limit : Nat} {reserved : Grown w}
    (reserves : table.reserveWithin limit = .ok reserved) :
    ∃ doublings, table.rehashTimes doublings = .ok reserved.table := by
  induction limit generalizing table reserved with
  | zero =>
      cases reserves
      exact ⟨0, rfl⟩
  | succ limit ih =>
      rcases reserveWithin_cases reserves with ⟨_, doubled, later, rehashes, rest, rfl⟩ | ⟨_, rfl⟩
      · rcases ih rest with ⟨doublings, same⟩
        refine ⟨doublings + 1, ?_⟩
        simp only [rehashTimes, rehashes, bind, Except.bind, same]
      · exact ⟨0, rfl⟩

theorem Sound.bucketCount_rehashTimes (sound : table.Sound) {doublings : Nat}
    (rehashes : table.rehashTimes doublings = .ok grown) :
    grown.bucketCount = 2 ^ doublings * table.bucketCount := by
  induction doublings generalizing table with
  | zero =>
      cases rehashes
      simp
  | succ doublings ih =>
      rcases sound with ⟨chains, arranged⟩
      rcases arranged.rehash_eq with ⟨doubled, first, arrangedNext, _, count, _⟩
      simp only [rehashTimes, first, bind, Except.bind] at rehashes
      rw [ih ⟨_, arrangedNext⟩ rehashes, count, Nat.pow_succ, Nat.mul_assoc]

end Table

namespace Enlarged

theorem homeAt_mod (enlarged : Enlarged table grown) (nodes : Array (Node w)) (key : Key) :
    homeAt nodes grown.bucketCount key % table.bucketCount = homeAt nodes table.bucketCount key := by
  rcases enlarged.bucketCount with ⟨doublings, count⟩
  rw [homeAt, homeAt, count, Nat.mod_mod_of_dvd _ (Nat.dvd_mul_left _ _)]

/-- The new chains are the old ones, split for the new bucket count. -/
theorem leadsTo (enlarged : Enlarged table grown) (sound : table.Sound)
    (leads : table.LeadsTo chains) :
    grown.LeadsTo (table.splitChains chains grown.bucketCount) := by
  rcases sound with ⟨old, arranged⟩
  rcases enlarged.sound with ⟨new, regrouped⟩
  intro bucket head present
  have inside : bucket < grown.bucketCount := (Array.getElem?_eq_some_iff.mp present).1
  have feeding : bucket % table.bucketCount < table.bucketCount := Nat.mod_lt _ arranged.nonempty
  have fed : chains (bucket % table.bucketCount) = old (bucket % table.bucketCount) := by
    rcases arranged.chain_at feeding with ⟨first, listed, chain⟩
    exact (leads _ _ listed).unique rfl chain
  have increasing : Increasing table.nodes (new bucket) :=
    (regrouped.increasing bucket inside).congr enlarged.records.symm
  -- both are in order of hash, so it is enough that they have the same keys
  have order : (new bucket).Perm (table.splitChains chains grown.bucketCount bucket) := by
    have distinct := (arranged.nodup feeding).filter
      fun key => homeAt table.nodes grown.bucketCount key = bucket
    apply (List.perm_ext_iff_of_nodup increasing.nodup ?_).mpr
    · intro key
      rw [regrouped.members bucket inside, enlarged.size,
        homeAt_congr enlarged.records, Table.splitChains, goingTo, fed, List.mem_filter,
        arranged.members _ feeding, decide_eq_true_eq, ← enlarged.homeAt_mod]
      constructor
      · rintro ⟨live, rfl⟩
        exact ⟨⟨live, rfl⟩, rfl⟩
      · rintro ⟨⟨live, _⟩, home⟩
        exact ⟨live, home⟩
    · rw [Table.splitChains, goingTo, fed]
      exact distinct
  have split : new bucket = table.splitChains chains grown.bucketCount bucket := by
    apply order.eq_of_pairwise (fun _ _ _ _ less greater =>
      (BitVec.lt_asymm less greater).elim) increasing
    rw [Table.splitChains, goingTo, fed]
    exact (arranged.increasing _ feeding).filter _
  rw [← split]
  exact regrouped.linked bucket head present

end Enlarged

end Interner
