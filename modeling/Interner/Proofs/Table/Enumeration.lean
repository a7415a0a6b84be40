import Interner.Proofs.Table.Listing
import Interner.Proofs.Table.Load

namespace Interner

variable {w : Width} {table other : Table w} {chains others : Nat → List Key} {cursor : Cursor}
  {entries : List (Hash w × Bytes)}

namespace Cursor

/-- What `calls` calls for the next entry answer, and the cursor after them. -/
def nexts (table : Table w) :
    Nat → Cursor → Except Fault (List (Option (Hash w × Bytes)) × Cursor)
  | 0, cursor => .ok ([], cursor)
  | calls + 1, cursor => do
      let (answer, after) ← cursor.next table
      let (answers, last) ← nexts table calls after
      return (answer :: answers, last)

theorem nexts_awaits (arranged : Arranged table chains) (calls : Nat)
    (awaits : cursor.Awaits table chains entries) :
    ∃ after, nexts table calls cursor =
        .ok ((List.range calls).map fun call => entries[call]?, after) ∧
      after.Awaits table chains (entries.drop calls) := by
  induction calls generalizing cursor entries with
  | zero => exact ⟨cursor, rfl, awaits⟩
  | succ calls ih =>
      rcases next_awaits arranged awaits with ⟨after, advances, onward⟩
      rcases ih onward with ⟨last, later, rest⟩
      have answers : (List.range (calls + 1)).map (fun call => entries[call]?) =
          entries.head? :: (List.range calls).map fun call => entries.tail[call]? := by
        simp [List.range_succ_eq_map, List.head?_eq_getElem?]
      rw [List.drop_tail] at rest
      simp only [nexts, advances, later, answers, bind, Except.bind, pure, Except.pure]
      exact ⟨last, rfl, rest⟩

theorem nexts_none (arranged : Arranged table chains) {after : Cursor}
    (awaits : cursor.Awaits table chains entries) (ended : cursor.next table = .ok (none, after))
    (calls : Nat) : ∃ last, nexts table calls after = .ok (List.replicate calls none, last) := by
  rcases next_awaits arranged awaits with ⟨next, advances, onward⟩
  rw [ended, Except.ok.injEq, Prod.mk.injEq] at advances
  rcases advances with ⟨none, rfl⟩
  rw [List.head?_eq_none_iff.mp none.symm] at onward
  rcases nexts_awaits arranged calls onward with ⟨last, later, _⟩
  refine ⟨last, ?_⟩
  rw [later]
  simp

end Cursor

/-- Iteration over `table` gives `entries`. -/
structure Enumerates (table : Table w) (entries : List (Hash w × Bytes)) : Prop where
  /-- They are what is stored, without the terminators. -/
  stored : ∀ hash content, (hash, content) ∈ entries ↔
    IdStore.lookupTerminated table hash = some (Bytes.terminated content)
  once : entries.Nodup
  size : entries.length = table.size
  ordered : entries.Pairwise (Before table.bucketCount)
  answers : ∀ calls, ∃ after,
    Cursor.nexts table calls {} = .ok ((List.range calls).map fun call => entries[call]?, after)
  /-- How many are still to come lies within the bounds that the cursor gives. -/
  remaining : ∀ calls answers after, Cursor.nexts table calls {} = .ok (answers, after) →
    ∃ coming last, Cursor.take table table.size after = .ok (coming, last) ∧
      coming = entries.drop calls ∧ (Cursor.remaining table after).1 ≤ coming.length ∧
      ∀ most ∈ (Cursor.remaining table after).2, coming.length ≤ most
  ended : ∀ calls answers cursor after, Cursor.nexts table calls {} = .ok (answers, cursor) →
    cursor.next table = .ok (none, after) →
    ∀ more, ∃ last, Cursor.nexts table more after = .ok (List.replicate more none, last)

namespace Arranged

theorem stored_listing (arranged : Arranged table chains) (hash : Hash w) (content : Bytes) :
    (hash, content) ∈ listing table chains ↔
      IdStore.lookupTerminated table hash = some (Bytes.terminated content) := by
  have injective : Function.Injective Bytes.terminated :=
    Function.LeftInverse.injective Bytes.withoutLast_terminated
  rw [arranged.mem_listing, Table.lookupTerminated_eq ⟨chains, arranged⟩,
    ← Table.terminated_contentOf ⟨chains, arranged⟩, ← Option.map_some]
  exact (Option.map_injective injective).eq_iff.symm

theorem nexts_listing (arranged : Arranged table chains) {calls : Nat} {after : Cursor}
    {answers : List (Option (Hash w × Bytes))}
    (met : Cursor.nexts table calls {} = .ok (answers, after)) :
    after.Awaits table chains ((listing table chains).drop calls) := by
  rcases Cursor.nexts_awaits arranged calls (awaits_listing table chains) with ⟨last, meets, rest⟩
  rw [met, Except.ok.injEq, Prod.mk.injEq] at meets
  rw [meets.2]
  exact rest

theorem enumerates (arranged : Arranged table chains) :
    Enumerates table (listing table chains) where
  stored := arranged.stored_listing
  once := arranged.nodup_listing
  size := arranged.length_listing
  ordered := arranged.listing_ordered
  answers := by
    intro calls
    rcases Cursor.nexts_awaits arranged calls (awaits_listing table chains) with ⟨after, meets, _⟩
    exact ⟨after, meets⟩
  remaining := by
    intro calls answers after met
    rcases Cursor.take_awaits arranged table.size (arranged.nexts_listing met) with ⟨last, takes, _⟩
    have few : ((listing table chains).drop calls).length ≤ table.size := by
      simp [arranged.length_listing]
    rw [List.take_of_length_le few] at takes
    refine ⟨_, last, takes, rfl, Nat.zero_le _, ?_⟩
    simpa [Cursor.remaining] using few
  ended := by
    intro calls answers cursor after met none
    exact Cursor.nexts_none arranged (arranged.nexts_listing met) none

end Arranged

/-- Iteration over a table that calls led to gives every entry once and in order, whatever those calls
were: the same strings in as many buckets are met in the same order. -/
theorem reachable_enumerates (reachable : table.Reachable) :
    ∃ entries, Enumerates table entries ∧ table.entries = .ok entries ∧
      ∀ other : Table w, other.Reachable → other.bucketCount = table.bucketCount →
        (∀ hash, IdStore.lookupTerminated other hash = IdStore.lookupTerminated table hash) →
        Enumerates other entries := by
  have sound := reachable.sound
  rcases reachable.sound with ⟨chains, arranged⟩
  refine ⟨_, arranged.enumerates, arranged.entries_eq, ?_⟩
  intro other reached count same
  have otherSound := reached.sound
  rcases reached.sound with ⟨others, otherArranged⟩
  have contents : ∀ hash, contentOf table hash = contentOf other hash := by
    intro hash
    rw [← Table.lookup_eq sound, ← Table.lookup_eq otherSound, IdStore.lookup, IdStore.lookup, same]
  rw [arranged.listing_unique otherArranged count.symm contents]
  exact otherArranged.enumerates

theorem halfFull_enumerates :
    ∃ entries, Enumerates halfFullTable entries ∧ halfFullTable.entries = .ok entries := by
  rcases reachable_enumerates halfFullTable_reachable with ⟨entries, enumerates, listed, _⟩
  exact ⟨entries, enumerates, listed⟩

end Interner
