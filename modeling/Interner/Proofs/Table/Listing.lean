import Interner.Proofs.Table.Insertion
import Interner.Proofs.Table.Iteration
import Mathlib.Data.List.Perm.Basic

namespace Interner

variable {w : Width} {table other : Table w} {chains others : Nat → List Key} {hash : Hash w}
  {content : Bytes}

/-- The entries of a table, in the order of their keys. -/
def Table.contents (table : Table w) : List (Hash w × Bytes) := table.nodes.toList.map Node.entry

/-- The entries of a table, in the order of iteration. -/
def listing (table : Table w) (chains : Nat → List Key) : List (Hash w × Bytes) :=
  (Arranged.listed table chains).flatten.filterMap (entryAt table.nodes)

theorem awaits_listing (table : Table w) (chains : Nat → List Key) :
    Cursor.Awaits table chains {} (listing table chains) :=
  ⟨_, Cursor.ahead_start table chains, rfl⟩

def Before (count : Nat) (first second : Hash w × Bytes) : Prop :=
  first.1.toNat % count < second.1.toNat % count ∨
    first.1.toNat % count = second.1.toNat % count ∧ first.1 < second.1

theorem Before.irrefl (count : Nat) (entry : Hash w × Bytes) : ¬Before count entry entry := by
  rintro (less | ⟨_, less⟩)
  · exact Nat.lt_irrefl _ less
  · exact BitVec.lt_irrefl _ less

theorem Before.asymm {count : Nat} {first second : Hash w × Bytes} (less : Before count first second)
    (greater : Before count second first) : False := by
  rcases less with less | ⟨same, less⟩ <;> rcases greater with greater | ⟨_, greater⟩
  · exact Nat.lt_asymm less greater
  · omega
  · omega
  · exact BitVec.lt_asymm less greater

namespace Arranged

theorem mem_contents (arranged : Arranged table chains) :
    (hash, content) ∈ table.contents ↔ contentOf table hash = some content := by
  constructor
  · intro member
    rcases List.mem_map.mp member with ⟨node, inNodes, same⟩
    rcases Prod.mk.inj same with ⟨rfl, rfl⟩
    rcases Array.getElem_of_mem (Array.mem_toList_iff.mp inNodes) with ⟨key, inside, rfl⟩
    rw [contentOf, arranged.lookup_live (Array.getElem?_eq_getElem inside)]
    rfl
  · intro found
    rcases Option.map_eq_some_iff.mp found with ⟨bytes, listed, rfl⟩
    rcases arranged.keyOf?_of_listed listed with ⟨key, node, reached, present, rfl⟩
    have same := ((arranged.keyOf?_eq_some_iff hash key).mp reached).2
    rw [hashAt_of_live present] at same
    subst same
    exact List.mem_map_of_mem (Array.mem_toList_iff.mpr (Array.mem_of_getElem? present))

theorem nodup_contents (arranged : Arranged table chains) : table.contents.Nodup := by
  apply List.Nodup.of_map Prod.fst
  have hashes : table.contents.map Prod.fst = (records table.nodes).map Prod.fst := by
    rw [Table.contents, records, List.map_map, List.map_map]
    rfl
  rw [hashes]
  exact arranged.hashes_nodup

theorem size_eq_of_contents (arranged : Arranged table chains) (second : Arranged other others)
    (same : ∀ hash, contentOf table hash = contentOf other hash) : table.size = other.size := by
  have order : table.contents.Perm other.contents := by
    apply (List.perm_ext_iff_of_nodup arranged.nodup_contents second.nodup_contents).mpr
    rintro ⟨hash, content⟩
    rw [arranged.mem_contents, second.mem_contents, same]
  simpa [Table.contents, Table.size] using order.length_eq

theorem mem_listing (arranged : Arranged table chains) :
    (hash, content) ∈ listing table chains ↔ contentOf table hash = some content := by
  rw [← arranged.mem_contents, listing, Table.contents, List.mem_filterMap, List.mem_map]
  constructor
  · rintro ⟨key, _, found⟩
    rcases Option.map_eq_some_iff.mp found with ⟨node, present, same⟩
    exact ⟨node, Array.mem_toList_iff.mpr (Array.mem_of_getElem? present), same⟩
  · rintro ⟨node, member, same⟩
    rcases Array.getElem_of_mem (Array.mem_toList_iff.mp member) with ⟨key, live, rfl⟩
    have home := List.mem_map_of_mem (f := chains) (List.mem_range.mpr (arranged.home_lt key))
    refine ⟨key, List.mem_flatten.mpr ⟨_, home, arranged.mem_home live⟩, ?_⟩
    rw [entryAt_of_live (Array.getElem?_eq_getElem live), same]

theorem listing_ordered (arranged : Arranged table chains) :
    (listing table chains).Pairwise (Before table.bucketCount) := by
  have hashed : ∀ {key : Key} {entry : Hash w × Bytes}, entryAt table.nodes key = some entry →
      entry.1 = hashAt table.nodes key := by
    intro key entry found
    rcases Option.map_eq_some_iff.mp found with ⟨node, live, rfl⟩
    exact (hashAt_of_live live).symm
  apply List.Pairwise.filterMap (R := fun first second =>
    homeAt table.nodes table.bucketCount first < homeAt table.nodes table.bucketCount second ∨
      homeAt table.nodes table.bucketCount first = homeAt table.nodes table.bucketCount second ∧
        hashAt table.nodes first < hashAt table.nodes second)
  · intro first second less entry found later present
    rw [Before, hashed found, hashed present]
    exact less
  · apply List.pairwise_flatten.mpr
    constructor
    · intro keys member
      rcases mem_listed member with ⟨bucket, inside, rfl⟩
      apply List.Pairwise.imp_of_mem _ (arranged.increasing bucket inside)
      intro first second inFirst inSecond less
      right
      exact ⟨by rw [arranged.home_of_mem inside inFirst, arranged.home_of_mem inside inSecond], less⟩
    · apply List.pairwise_map.mpr
      apply List.Pairwise.imp_of_mem _ List.pairwise_lt_range
      intro bucket later inside behind less first inFirst second inSecond
      left
      rw [arranged.home_of_mem (List.mem_range.mp inside) inFirst,
        arranged.home_of_mem (List.mem_range.mp behind) inSecond]
      exact less

theorem nodup_listing (arranged : Arranged table chains) : (listing table chains).Nodup := by
  apply List.Pairwise.imp _ arranged.listing_ordered
  rintro first second less rfl
  exact Before.irrefl _ _ less

/-- What is stored and the number of buckets decide the order of iteration. -/
theorem listing_unique (arranged : Arranged table chains) (second : Arranged other others)
    (count : table.bucketCount = other.bucketCount)
    (same : ∀ hash, contentOf table hash = contentOf other hash) :
    listing table chains = listing other others := by
  have ordered := second.listing_ordered
  have order : (listing table chains).Perm (listing other others) := by
    apply (List.perm_ext_iff_of_nodup arranged.nodup_listing second.nodup_listing).mpr
    rintro ⟨hash, content⟩
    rw [arranged.mem_listing, second.mem_listing, same]
  rw [← count] at ordered
  exact order.eq_of_pairwise (fun _ _ _ _ less greater => (less.asymm greater).elim)
    arranged.listing_ordered ordered

theorem take_listing (arranged : Arranged table chains) (limit : Nat) :
    ∃ after, Cursor.take table limit {} = .ok ((listing table chains).take limit, after) := by
  rcases Cursor.take_awaits arranged limit (awaits_listing table chains) with ⟨after, takes, _⟩
  exact ⟨after, takes⟩

theorem perm_contents (arranged : Arranged table chains) :
    (listing table chains).Perm table.contents := by
  apply (List.perm_ext_iff_of_nodup arranged.nodup_listing arranged.nodup_contents).mpr
  rintro ⟨hash, content⟩
  rw [arranged.mem_listing, arranged.mem_contents]

theorem length_listing (arranged : Arranged table chains) :
    (listing table chains).length = table.size := by
  rw [arranged.perm_contents.length_eq]
  simp [Table.contents, Table.size]

theorem entries_eq (arranged : Arranged table chains) :
    table.entries = .ok (listing table chains) := by
  rcases arranged.take_listing table.size with ⟨after, takes⟩
  simp only [Table.entries, takes, bind, Except.bind, pure, Except.pure]
  rw [← arranged.length_listing, List.take_length]

end Arranged

end Interner
