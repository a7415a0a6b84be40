import Interner.Proofs.Table.Chain
import Mathlib.Data.List.Pairwise
import Mathlib.Data.List.Perm.Subperm

/-!
The order that every table keeps. Each bucket heads a chain of exactly the live keys that belong to
it, by increasing hash, so a key is on one chain, once, and a hash is under one key.
-/

namespace Interner

variable {w : Width}

def homeAt (nodes : Array (Node w)) (count : Nat) (key : Key) : Nat :=
  (hashAt nodes key).toNat % count

def Increasing (nodes : Array (Node w)) (keys : List Key) : Prop :=
  keys.Pairwise fun first second => hashAt nodes first < hashAt nodes second

/-- The buckets of `table` head the chains `chains`, in order. -/
structure Arranged (table : Table w) (chains : Nat → List Key) : Prop where
  nonempty : 0 < table.bucketCount
  linked : ∀ bucket head, table.heads[bucket]? = some head →
    Chain table.nodes head (chains bucket)
  members : ∀ bucket < table.bucketCount, ∀ key,
    key ∈ chains bucket ↔ key < table.size ∧ homeAt table.nodes table.bucketCount key = bucket
  increasing : ∀ bucket < table.bucketCount, Increasing table.nodes (chains bucket)
  terminated : ∀ record ∈ records table.nodes, record.2.getLast? = some 0
  threshold : table.threshold = growthThreshold table.bucketCount table.maxLoadFactor

def Table.Sound (table : Table w) : Prop := ∃ chains, Arranged table chains

theorem homeAt_congr {nodes changed : Array (Node w)} (same : records changed = records nodes)
    (count : Nat) (key : Key) : homeAt changed count key = homeAt nodes count key := by
  rw [homeAt, hashAt_congr same, homeAt]

theorem Increasing.congr {nodes changed : Array (Node w)} {keys : List Key}
    (increasing : Increasing nodes keys) (same : records changed = records nodes) :
    Increasing changed keys := by
  apply List.Pairwise.imp _ increasing
  intro first second less
  rwa [hashAt_congr same, hashAt_congr same]

theorem Increasing.hash_ne {nodes : Array (Node w)} {keys : List Key} {first second : Key}
    (increasing : Increasing nodes keys) (inFirst : first ∈ keys) (inSecond : second ∈ keys)
    (different : first ≠ second) : hashAt nodes first ≠ hashAt nodes second := by
  have apart : keys.Pairwise fun a b => hashAt nodes a ≠ hashAt nodes b := by
    apply List.Pairwise.imp _ increasing
    intro a b less same
    rw [same] at less
    exact BitVec.lt_irrefl _ less
  have symmetric : Std.Symm fun a b => hashAt nodes a ≠ hashAt nodes b := ⟨fun _ _ => Ne.symm⟩
  exact apart.forall inFirst inSecond different

theorem Increasing.nodup {nodes : Array (Node w)} {keys : List Key}
    (increasing : Increasing nodes keys) : keys.Nodup := by
  apply List.Pairwise.imp _ increasing
  intro first second less same
  subst second
  exact BitVec.lt_irrefl _ less

theorem lookup_eq_some_of_mem {α β : Type} [DecidableEq α] {pairs : List (α × β)} {key : α}
    {value : β} (distinct : (pairs.map Prod.fst).Nodup) (member : (key, value) ∈ pairs) :
    pairs.lookup key = some value := by
  obtain ⟨front, back, rfl⟩ := List.append_of_mem member
  apply List.lookup_eq_some_iff.mpr
  refine ⟨front, back, rfl, ?_⟩
  intro pair inFront
  rw [List.map_append, List.map_cons] at distinct
  have apart := (List.nodup_append.mp distinct).2.2 pair.1 (List.mem_map_of_mem inFront) key
    List.mem_cons_self
  exact bne_iff_ne.mpr apart.symm

namespace Arranged

variable {table : Table w} {chains : Nat → List Key} {key : Key} {hash : Hash w} {bucket : Nat}

theorem home_lt (arranged : Arranged table chains) (key : Key) :
    homeAt table.nodes table.bucketCount key < table.bucketCount :=
  Nat.mod_lt _ arranged.nonempty

theorem bucket_lt (arranged : Arranged table chains) (hash : Hash w) :
    hash.toNat % table.bucketCount < table.bucketCount :=
  Nat.mod_lt _ arranged.nonempty

theorem mem_home (arranged : Arranged table chains) (live : key < table.size) :
    key ∈ chains (homeAt table.nodes table.bucketCount key) :=
  (arranged.members _ (arranged.home_lt key) key).mpr ⟨live, rfl⟩

theorem chain_at (arranged : Arranged table chains) (inside : bucket < table.bucketCount) :
    ∃ head, table.heads[bucket]? = some head ∧ Chain table.nodes head (chains bucket) := by
  have present : table.heads[bucket]? = some table.heads[bucket] := Array.getElem?_eq_getElem inside
  exact ⟨_, present, arranged.linked _ _ present⟩

theorem live_of_mem (arranged : Arranged table chains) (inside : bucket < table.bucketCount)
    (member : key ∈ chains bucket) : key < table.size :=
  ((arranged.members bucket inside key).mp member).1

theorem home_of_mem (arranged : Arranged table chains) (inside : bucket < table.bucketCount)
    (member : key ∈ chains bucket) : homeAt table.nodes table.bucketCount key = bucket :=
  ((arranged.members bucket inside key).mp member).2

theorem nodup (arranged : Arranged table chains) (inside : bucket < table.bucketCount) :
    (chains bucket).Nodup :=
  (arranged.increasing bucket inside).nodup

/-- A chain is never longer than the arena, which bounds every walk. -/
theorem length_le_size (arranged : Arranged table chains) (inside : bucket < table.bucketCount) :
    (chains bucket).length ≤ table.size := by
  have subset : chains bucket ⊆ List.range table.size := by
    intro key member
    exact List.mem_range.mpr (arranged.live_of_mem inside member)
  calc
    (chains bucket).length ≤ (List.range table.size).length :=
      (List.subperm_of_subset (arranged.nodup inside) subset).length_le
    _ = table.size := List.length_range

theorem hash_unique (arranged : Arranged table chains) {first second : Key}
    (firstLive : first < table.size) (secondLive : second < table.size)
    (same : hashAt table.nodes first = hashAt table.nodes second) : first = second := by
  have home : homeAt table.nodes table.bucketCount first =
      homeAt table.nodes table.bucketCount second := by
    rw [homeAt, same, homeAt]
  have inFirst := arranged.mem_home firstLive
  have inSecond := arranged.mem_home secondLive
  rw [← home] at inSecond
  by_contra different
  exact (arranged.increasing _ (arranged.home_lt first)).hash_ne inFirst inSecond different same

theorem hashes_nodup (arranged : Arranged table chains) :
    ((records table.nodes).map Prod.fst).Nodup := by
  apply List.pairwise_iff_getElem.mpr
  intro first second firstInside secondInside less same
  simp only [List.length_map, length_records] at firstInside secondInside
  simp only [List.getElem_map, records, Array.getElem_toList] at same
  apply Nat.ne_of_lt less
  apply arranged.hash_unique firstInside secondInside
  rw [hashAt_of_live (Array.getElem?_eq_getElem firstInside),
    hashAt_of_live (Array.getElem?_eq_getElem secondInside)]
  exact same

theorem terminated_withoutLast (arranged : Arranged table chains) {record : Hash w × Bytes}
    (member : record ∈ records table.nodes) :
    Bytes.terminated (Bytes.withoutLast record.2) = record.2 :=
  List.dropLast_append_getLast? 0 (arranged.terminated record member)

theorem lookup_live (arranged : Arranged table chains) {node : Node w}
    (live : table.nodes[key]? = some node) :
    (records table.nodes).lookup node.hash = some node.bytes := by
  apply lookup_eq_some_of_mem arranged.hashes_nodup
  apply List.mem_of_getElem? (i := key)
  rw [getElem?_records, live]
  rfl

end Arranged

theorem lookup_records_eq_none {nodes : Array (Node w)} {hash : Hash w}
    (absent : ∀ key < nodes.size, hashAt nodes key ≠ hash) : (records nodes).lookup hash = none := by
  apply List.lookup_eq_none_iff.mpr
  intro record member
  obtain ⟨key, inside, rfl⟩ := List.getElem_of_mem member
  rw [length_records] at inside
  have other := absent key inside
  rw [hashAt_of_live (Array.getElem?_eq_getElem inside)] at other
  simp only [records, List.getElem_map, Array.getElem_toList, Node.record, bne_iff_ne, ne_eq]
  exact Ne.symm other

theorem arranged_ofConfig {config : Config} (some : 0 < config.buckets) :
    Arranged (Table.ofConfig config : Table w) fun _ => [] where
  nonempty := by simpa [Table.ofConfig, Table.bucketCount] using some
  linked := by
    intro bucket head present
    obtain ⟨_, rfl⟩ : bucket < config.buckets ∧ none = head := by
      simpa [Table.ofConfig, Array.getElem?_replicate] using present
    exact .nil none
  members := by simp [Table.ofConfig, Table.size]
  increasing := fun _ _ => List.Pairwise.nil
  terminated := by simp [Table.ofConfig, records]
  threshold := by simp [Table.ofConfig, Table.bucketCount]

end Interner
