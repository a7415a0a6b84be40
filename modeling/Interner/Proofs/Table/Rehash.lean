import Interner.Proofs.Table.Relink
import Mathlib.Algebra.Group.Nat.Defs
import Mathlib.Data.List.Forall2
import Mathlib.Data.List.Nodup

namespace Interner

variable {w : Width} {table grown : Table w} {chains : Nat → List Key} {key : Key} {bucket : Nat}

def doubledChains (table : Table w) (chains : Nat → List Key) (bucket : Nat) : List Key :=
  goingTo table.nodes (2 * table.bucketCount) bucket (chains (bucket % table.bucketCount))

theorem homeAt_half {nodes : Array (Node w)} {count : Nat}
    (home : homeAt nodes (2 * count) key = bucket) : homeAt nodes count key = bucket % count := by
  rw [← home, homeAt, homeAt, Nat.mod_mod_of_dvd _ (Nat.dvd_mul_left count 2)]

theorem flatten_map_single {α : Type} {indices : List Nat} {index : Nat} {f : Nat → List α}
    (distinct : indices.Nodup) (member : index ∈ indices)
    (others : ∀ other ∈ indices, other ≠ index → f other = []) :
    (indices.map f).flatten = f index := by
  obtain ⟨front, back, rfl⟩ := List.append_of_mem member
  obtain ⟨_, rest, across⟩ := List.nodup_append.mp distinct
  have before : (front.map f).flatten = [] := by
    apply List.flatten_eq_nil_iff.mpr
    intro part inFront
    obtain ⟨other, inside, rfl⟩ := List.mem_map.mp inFront
    exact others other (List.mem_append_left _ inside) (across other inside index List.mem_cons_self)
  have behind : (back.map f).flatten = [] := by
    apply List.flatten_eq_nil_iff.mpr
    intro part inBack
    obtain ⟨other, inside, rfl⟩ := List.mem_map.mp inBack
    apply others other (List.mem_append_right _ (List.mem_cons_of_mem _ inside))
    rintro rfl
    exact (List.nodup_cons.mp rest).1 inside
  rw [List.map_append, List.flatten_append, List.map_cons, List.flatten_cons, before, behind,
    List.nil_append, List.append_nil]

namespace Arranged

def listed (table : Table w) (chains : Nat → List Key) : List (List Key) :=
  (List.range table.bucketCount).map chains

theorem linked_listed (arranged : Arranged table chains) :
    List.Forall₂ (Chain table.nodes) table.heads.toList (listed table chains) := by
  apply List.forall₂_iff_get.mpr
  refine ⟨by simp [listed, Table.bucketCount], ?_⟩
  intro index inside inside'
  simp only [List.get_eq_getElem, listed, List.getElem_map, List.getElem_range, Array.getElem_toList]
  exact arranged.linked index _ (Array.getElem?_eq_getElem _)

theorem mem_listed {keys : List Key} (member : keys ∈ listed table chains) :
    ∃ bucket < table.bucketCount, chains bucket = keys := by
  obtain ⟨bucket, inside, rfl⟩ := List.mem_map.mp member
  exact ⟨bucket, List.mem_range.mp inside, rfl⟩

theorem nodup_listed (arranged : Arranged table chains) : (listed table chains).flatten.Nodup := by
  apply List.nodup_flatten.mpr
  constructor
  · intro keys member
    obtain ⟨bucket, inside, rfl⟩ := mem_listed member
    exact arranged.nodup inside
  · apply List.pairwise_map.mpr
    apply List.Pairwise.imp_of_mem _ List.nodup_range
    intro first second inFirst inSecond different key member
    exact arranged.not_mem_of_ne (List.mem_range.mp inFirst) (List.mem_range.mp inSecond)
      (Ne.symm different) member

theorem goingTo_listed (arranged : Arranged table chains) (bucket : Nat) :
    goingTo table.nodes (2 * table.bucketCount) bucket (listed table chains).flatten =
      doubledChains table chains bucket := by
  rw [goingTo, List.filter_flatten, listed, List.map_map]
  apply flatten_map_single List.nodup_range
  · exact List.mem_range.mpr (Nat.mod_lt _ arranged.nonempty)
  · intro other inside different
    apply List.filter_eq_nil_iff.mpr
    intro key member
    simp only [decide_eq_true_eq]
    intro home
    apply different
    rw [← arranged.home_of_mem (List.mem_range.mp inside) member, homeAt_half home]

theorem mem_doubledChains (arranged : Arranged table chains) :
    key ∈ doubledChains table chains bucket ↔
      key < table.size ∧ homeAt table.nodes (2 * table.bucketCount) key = bucket := by
  have inside : bucket % table.bucketCount < table.bucketCount := Nat.mod_lt _ arranged.nonempty
  simp only [doubledChains, goingTo, List.mem_filter, decide_eq_true_eq,
    arranged.members _ inside key]
  constructor
  · rintro ⟨⟨live, _⟩, home⟩
    exact ⟨live, home⟩
  · rintro ⟨live, home⟩
    exact ⟨⟨live, homeAt_half home⟩, home⟩

theorem increasing_doubledChains (arranged : Arranged table chains) (bucket : Nat) :
    Increasing table.nodes (doubledChains table chains bucket) :=
  List.Pairwise.filter _ (arranged.increasing _ (Nat.mod_lt _ arranged.nonempty))

/-- Rehashing succeeds, splits every chain in order and touches nothing else. -/
theorem rehash_eq (arranged : Arranged table chains) :
    ∃ grown, table.rehash = .ok grown ∧ Arranged grown (doubledChains table chains) ∧
      records grown.nodes = records table.nodes ∧
      grown.bucketCount = 2 * table.bucketCount ∧ grown.maxLoadFactor = table.maxLoadFactor := by
  have positive : 0 < 2 * table.bucketCount := Nat.mul_pos (by decide) arranged.nonempty
  have enough : ∀ keys ∈ listed table chains, keys.length ≤ table.size := by
    intro keys member
    obtain ⟨bucket, inside, rfl⟩ := mem_listed member
    exact arranged.length_le_size inside
  have ordered : ∀ bucket < 2 * table.bucketCount, Increasing table.nodes
      ([] ++ goingTo table.nodes (2 * table.bucketCount) bucket
        (listed table chains).flatten) := by
    intro bucket _
    rw [List.nil_append, arranged.goingTo_listed]
    exact arranged.increasing_doubledChains bucket
  obtain ⟨moved, moves, relinked⟩ :=
    (relinked_start table.nodes (2 * table.bucketCount)).moveChains_eq positive
      arranged.linked_listed enough arranged.nodup_listed (by simp) ordered
  simp only [List.nil_append, arranged.goingTo_listed] at relinked
  refine ⟨⟨moved.nodes, moved.heads, table.maxLoadFactor,
    growthThreshold (2 * table.bucketCount) table.maxLoadFactor⟩, ?_, ?_, relinked.records,
    relinked.headCount, rfl⟩
  · simp only [Table.rehash, moves, bind, Except.bind, pure, Except.pure]
  · have sizes := size_congr relinked.records
    constructor
    · exact relinked.headCount ▸ positive
    · exact relinked.linked
    · intro bucket _ key
      simp only [Table.bucketCount, relinked.headCount, Table.size, sizes,
        homeAt_congr relinked.records]
      exact arranged.mem_doubledChains
    · intro bucket _
      exact (arranged.increasing_doubledChains bucket).congr relinked.records
    · intro record member
      exact arranged.terminated record (relinked.records ▸ member)
    · simp only [Table.bucketCount, relinked.headCount]

end Arranged

/-- A table in order with the same records and as many buckets as some doublings give. -/
structure Enlarged (table grown : Table w) : Prop where
  sound : grown.Sound
  records : records grown.nodes = records table.nodes
  bucketCount : ∃ doublings, grown.bucketCount = 2 ^ doublings * table.bucketCount
  maxLoadFactor : grown.maxLoadFactor = table.maxLoadFactor

theorem reserveWithin_eq (sound : table.Sound) (limit : Nat) :
    ∃ reserved, table.reserveWithin limit = .ok reserved ∧ Enlarged table reserved.table := by
  induction limit generalizing table with
  | zero => exact ⟨⟨table, []⟩, rfl, sound, rfl, ⟨0, by simp⟩, rfl⟩
  | succ limit ih =>
      by_cases full : table.threshold ≤ table.size + 1
      · rcases sound with ⟨chains, arranged⟩
        rcases arranged.rehash_eq with ⟨doubled, rehashes, arrangedNext, sameRecords, count, sameFactor⟩
        obtain ⟨reserved, reserves, enlarged⟩ := ih ⟨_, arrangedNext⟩
        refine ⟨⟨reserved.table, table.rehashEvent :: reserved.events⟩, ?_, ?_⟩
        · simp only [Table.reserveWithin, if_pos full, rehashes, reserves, bind, Except.bind, pure,
            Except.pure]
        · rcases enlarged.bucketCount with ⟨doublings, total⟩
          refine ⟨enlarged.sound, enlarged.records.trans sameRecords, ⟨doublings + 1, ?_⟩,
            enlarged.maxLoadFactor.trans sameFactor⟩
          calc
            reserved.table.bucketCount = 2 ^ doublings * doubled.bucketCount := total
            _ = 2 ^ doublings * (2 * table.bucketCount) := by rw [count]
            _ = 2 ^ (doublings + 1) * table.bucketCount := by rw [Nat.pow_succ, Nat.mul_assoc]
      · refine ⟨⟨table, []⟩, ?_, sound, rfl, ⟨0, by simp⟩, rfl⟩
        simp only [Table.reserveWithin, if_neg full]

theorem reserve_eq (sound : table.Sound) :
    ∃ reserved, table.reserve = .ok reserved ∧ Enlarged table reserved.table :=
  reserveWithin_eq sound Table.maxDoublings

namespace Table

/-- A table that lacks room is doubled, reports that and goes on; one that has room stays as it is. -/
theorem reserveWithin_cases {limit : Nat} {reserved : Grown w}
    (reserves : table.reserveWithin (limit + 1) = .ok reserved) :
    (table.threshold ≤ table.size + 1 ∧ ∃ doubled later, table.rehash = .ok doubled ∧
        doubled.reserveWithin limit = .ok later ∧
        reserved = ⟨later.table, table.rehashEvent :: later.events⟩) ∨
      (¬table.threshold ≤ table.size + 1 ∧ reserved = ⟨table, []⟩) := by
  rw [reserveWithin] at reserves
  split at reserves
  · rename_i full
    cases rehashes : table.rehash with
    | error fault => simp [rehashes, bind, Except.bind] at reserves
    | ok doubled =>
        cases rest : doubled.reserveWithin limit with
        | error fault => simp [rehashes, rest, bind, Except.bind] at reserves
        | ok later =>
            simp only [rehashes, rest, bind, Except.bind, pure, Except.pure, Except.ok.injEq]
              at reserves
            exact .inl ⟨full, doubled, later, rfl, rest, reserves.symm⟩
  · rename_i roomy
    cases reserves
    exact .inr ⟨roomy, rfl⟩

end Table

end Interner
