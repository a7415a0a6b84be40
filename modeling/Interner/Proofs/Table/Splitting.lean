import Interner.Proofs.Session.Integrity
import Interner.Proofs.Table.Load

namespace Interner

variable {w : Width} {table : Table w} {chains : Nat → List Key} {bucket : Nat}

/-- With twice as many buckets a key stays in its bucket or moves up by the old number of buckets. -/
theorem homeAt_double (nodes : Array (Node w)) (count : Nat) (key : Key) :
    homeAt nodes (2 * count) key = homeAt nodes count key ∨
      homeAt nodes (2 * count) key = homeAt nodes count key + count := by
  have parts : homeAt nodes (2 * count) key =
      homeAt nodes count key + count * ((hashAt nodes key).toNat / count % 2) := by
    rw [homeAt, Nat.mul_comm, Nat.mod_mul, homeAt]
  rcases Nat.mod_two_eq_zero_or_one ((hashAt nodes key).toNat / count) with even | odd
  · left
    rw [parts, even, Nat.mul_zero, Nat.add_zero]
  · right
    rw [parts, odd, Nat.mul_one]

section Halves

variable (chains) (inside : bucket < table.bucketCount)

include inside

theorem doubledChains_lower : doubledChains table chains bucket =
    goingTo table.nodes (2 * table.bucketCount) bucket (chains bucket) := by
  rw [doubledChains, Nat.mod_eq_of_lt inside]

theorem doubledChains_upper : doubledChains table chains (bucket + table.bucketCount) =
    goingTo table.nodes (2 * table.bucketCount) (bucket + table.bucketCount) (chains bucket) := by
  rw [doubledChains, Nat.add_mod_right, Nat.mod_eq_of_lt inside]

end Halves

theorem Arranged.halves_perm (arranged : Arranged table chains)
    (inside : bucket < table.bucketCount) :
    (doubledChains table chains bucket ++
      doubledChains table chains (bucket + table.bucketCount)).Perm (chains bucket) := by
  have some := arranged.nonempty
  have others : goingTo table.nodes (2 * table.bucketCount) (bucket + table.bucketCount)
      (chains bucket) =
      (chains bucket).filter fun key =>
        !decide (homeAt table.nodes (2 * table.bucketCount) key = bucket) := by
    apply List.filter_congr
    intro key member
    have home := arranged.home_of_mem inside member
    rcases homeAt_double table.nodes table.bucketCount key with stays | moves
    · simp [stays, home, Nat.ne_of_gt some]
    · simp [moves, home, Nat.ne_of_gt some]
  rw [doubledChains_lower chains inside, doubledChains_upper chains inside, others]
  exact List.filter_append_perm _ _

/-- `grown` is `table` with twice as many buckets, and `regrouped` are its chains. -/
structure Split (table grown : Table w) (chains regrouped : Nat → List Key) : Prop where
  intact : grown.Intact regrouped
  bucketCount : grown.bucketCount = 2 * table.bucketCount
  maxLoadFactor : grown.maxLoadFactor = table.maxLoadFactor
  /-- The same keys are live, with the same hash and bytes under each of them. -/
  arena : ∀ key : Key, grown.nodes[key]?.map Node.record = table.nodes[key]?.map Node.record
  lower : ∀ bucket < table.bucketCount, regrouped bucket = (chains bucket).filter fun key =>
    (hashAt table.nodes key).toNat % (2 * table.bucketCount) = bucket
  upper : ∀ bucket < table.bucketCount,
    regrouped (bucket + table.bucketCount) = (chains bucket).filter fun key =>
      (hashAt table.nodes key).toNat % (2 * table.bucketCount) = bucket + table.bucketCount
  whole : ∀ bucket < table.bucketCount,
    (regrouped bucket ++ regrouped (bucket + table.bucketCount)).Perm (chains bucket)
  find : ∀ hash, ∃ found, table.find hash = .ok found ∧ grown.find hash = .ok found

/-- Rehashing a table that keeps its invariant splits its chains and ends in no fault; in particular no
key is ever appended behind one whose hash is not smaller. -/
theorem rehash_splits (intact : table.Intact chains) :
    ∃ grown regrouped, table.rehash = .ok grown ∧ Split table grown chains regrouped ∧
      ∀ key, table.rehash ≠ .error (.unsortedChain key) := by
  have arranged := intact.arranged
  rcases arranged.rehash_eq with ⟨grown, rehashes, regrouped, same, count, factor⟩
  refine ⟨grown, doubledChains table chains, rehashes, ?_, by simp [rehashes]⟩
  exact {
    intact := regrouped.intact
    bucketCount := count
    maxLoadFactor := factor
    arena := fun key => by rw [← getElem?_records, ← getElem?_records, same]
    lower := fun bucket inside => doubledChains_lower chains inside
    upper := fun bucket inside => doubledChains_upper chains inside
    whole := fun bucket inside => arranged.halves_perm inside
    find := by
      intro hash
      have found := arranged.find_eq hash
      exact ⟨_, found, (arranged.find_congr regrouped same hash).trans found⟩ }

/-- Up to ten strings for each bucket. -/
def packed : Config := ⟨1, ⟨0x4024000000000000#64⟩⟩

def packedTable : Table .narrow :=
  ((⟨Table.ofConfig packed, fun _ => .counter { stem := 7 }⟩ : Session (Table .narrow) .narrow).run
    [.request (.insert 7 [65]), .request (.insert 3 [66]), .request (.insert 4 [67])]).store

/-- The one chain has the hashes 3, 4 and 7; the odd ones move to the new bucket in their order. -/
theorem rehash_splits_packed :
    ∃ chains grown regrouped, packedTable.Intact chains ∧ packedTable.rehash = .ok grown ∧
      Split packedTable grown chains regrouped ∧ chains 0 = [1, 2, 0] ∧ regrouped 0 = [2] ∧
      regrouped 1 = [1, 0] := by
  have reachable : packedTable.Reachable := ⟨packed, _, _, by decide +kernel, rfl⟩
  rcases reachable.sound with ⟨chains, arranged⟩
  rcases rehash_splits arranged.intact with ⟨grown, regrouped, rehashes, split, _⟩
  have count : packedTable.bucketCount = 1 := by decide +kernel
  have head : packedTable.heads[0]? = some (some 1) := by decide +kernel
  have nodes : packedTable.nodes =
      #[⟨7, none, [65, 0]⟩, ⟨3, some 2, [66, 0]⟩, ⟨4, some 0, [67, 0]⟩] := by
    decide +kernel
  have chain : Chain packedTable.nodes (some 1) [1, 2, 0] := by
    rw [nodes]
    exact .cons rfl (.cons rfl (.cons rfl (.nil none)))
  have whole : chains 0 = [1, 2, 0] := (arranged.linked 0 _ head).unique rfl chain
  have lower := split.lower 0 (by rw [count]; decide)
  have upper := split.upper 0 (by rw [count]; decide)
  rw [whole, count, nodes] at lower upper
  exact ⟨chains, grown, regrouped, arranged.intact, rehashes, split, whole, lower, upper⟩

end Interner
