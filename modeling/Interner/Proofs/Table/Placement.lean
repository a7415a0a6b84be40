import Interner.Proofs.Session.Integrity
import Interner.Proofs.Table.Load

namespace Interner

variable {w : Width} {table linked : Table w} {chains : Nat → List Key} {keys : List Key} {key : Key}
  {hash other : Hash w} {bytes : Bytes} {bucket : Nat} {node : Node w}

theorem keyOf?_congr {nodes changed : Array (Node w)}
    (same : ∀ key ∈ keys, hashAt changed key = hashAt nodes key) :
    keyOf? changed hash keys = keyOf? nodes hash keys := by
  induction keys with
  | nil => rfl
  | cons key keys ih =>
      have rest := ih fun other member => same other (List.mem_cons_of_mem key member)
      simp only [keyOf?, List.find?_cons, same key List.mem_cons_self] at rest ⊢
      rw [rest]

theorem keyOf?_below {nodes : Array (Node w)} (keys : List Key) :
    keyOf? nodes hash (keysBelow nodes hash keys) = none := by
  apply List.find?_eq_none.mpr
  intro key member
  simp only [decide_eq_true_eq]
  exact BitVec.ne_of_lt (below_of_mem member)

namespace Added

variable (change : Added table chains hash bytes linked) (arranged : Arranged table chains)

include change arranged

theorem hashAt_member (inside : bucket < table.bucketCount) (member : key ∈ chains bucket) :
    hashAt linked.nodes key = hashAt table.nodes key :=
  change.hashAt_old (Nat.ne_of_lt (arranged.live_of_mem inside member))

theorem length_spliced_le (inside : bucket < table.bucketCount) :
    (spliced table chains hash bucket).length ≤ linked.size := by
  have short := arranged.length_le_size inside
  rw [change.size]
  by_cases target : bucket = hash.toNat % table.bucketCount
  · subst target
    have parts := congrArg List.length
      (below_append_from table.nodes hash (chains (hash.toNat % table.bucketCount)))
    rw [List.length_append] at parts
    rw [spliced, Function.update_self, List.length_append, List.length_cons]
    omega
  · rw [spliced, Function.update_of_ne target]
    exact Nat.le_succ_of_le short

theorem find_eq (absent : ∀ key < table.size, hashAt table.nodes key ≠ hash) (other : Hash w) :
    linked.find other = .ok (keyOf? linked.nodes other
      (spliced table chains hash (other.toNat % table.bucketCount))) := by
  have inside := arranged.bucket_lt other
  have nonempty : 0 < linked.bucketCount := change.bucketCount ▸ arranged.nonempty
  have within : other.toNat % linked.bucketCount < linked.heads.size := Nat.mod_lt _ nonempty
  obtain ⟨head, present⟩ : ∃ head, linked.heads[other.toNat % linked.bucketCount]? = some head :=
    ⟨_, Array.getElem?_eq_getElem within⟩
  have chain := change.linked _ _ present
  rw [change.bucketCount] at chain
  exact find_of_chain nonempty present chain (change.increasing_spliced arranged absent inside)
    (change.length_spliced_le arranged inside)

theorem find_new (absent : ∀ key < table.size, hashAt table.nodes key ≠ hash) :
    linked.find hash = .ok (some table.size) := by
  have inside := arranged.bucket_lt hash
  have below : keyOf? linked.nodes hash
      (keysBelow table.nodes hash (chains (hash.toNat % table.bucketCount))) = none := by
    rw [keyOf?_congr fun key member =>
      change.hashAt_member arranged inside (mem_of_mem_keysBelow member)]
    exact keyOf?_below _
  rw [change.find_eq arranged absent, spliced, Function.update_self]
  rw [keyOf?] at below
  simp [keyOf?, List.find?_append, below, change.hashAt_new]

theorem find_other (absent : ∀ key < table.size, hashAt table.nodes key ≠ hash)
    (different : other ≠ hash) : linked.find other = table.find other := by
  have inside := arranged.bucket_lt other
  rw [change.find_eq arranged absent, arranged.find_eq,
    ← keyOf?_congr fun key member => change.hashAt_member arranged inside member]
  by_cases target : other.toNat % table.bucketCount = hash.toNat % table.bucketCount
  -- the new key is passed over on the way along its own chain
  · rw [spliced, target, Function.update_self]
    conv => rhs; rw [← below_append_from table.nodes hash (chains (hash.toNat % table.bucketCount))]
    simp [keyOf?, List.find?_append, change.hashAt_new, Ne.symm different]
  · rw [spliced, Function.update_of_ne target]

end Added

/-- `linked` is `table` with `node` under a new key, and the key on the chain of `bucket` between `front`
and `back`. -/
structure LinkedBetween (table linked : Table w) (chains relinked : Nat → List Key) (bucket : Nat)
    (front back : List Key) (node : Node w) : Prop where
  /-- Nothing in the arena changes but a link: one node is new, and it has the next key. -/
  arena : records linked.nodes = records table.nodes ++ [node.record]
  bucketCount : linked.bucketCount = table.bucketCount
  follow : ∀ bucket head, linked.heads[bucket]? = some head →
    Chain linked.nodes head (relinked bucket)
  here : relinked bucket = front ++ table.size :: back
  elsewhere : ∀ other, other ≠ bucket → relinked other = chains other
  increasing : ((relinked bucket).map (hashAt linked.nodes)).Pairwise fun first second =>
    first < second
  find : linked.find node.hash = .ok (some table.size)
  others : ∀ other, other ≠ node.hash → linked.find other = table.find other

/-- There is room for `hash` in the chain of `bucket` between `front` and `back`, and the scans end
there. -/
structure Gap (table : Table w) (chains : Nat → List Key) (bucket : Nat) (hash : Hash w)
    (front back : List Key) : Prop where
  position : table.position bucket hash = .ok (.vacant front.getLast?)
  find : table.find hash = .ok none
  chain : chains bucket = front ++ back
  below : ∀ key ∈ front, hashAt table.nodes key < hash
  above : ∀ key ∈ back, hash < hashAt table.nodes key
  successor : ∃ next, table.successor bucket front.getLast? = .ok next
  link : ∀ node : Node w, node.hash = hash →
    table.successor bucket front.getLast? = .ok node.next →
      ∃ linked relinked, table.link bucket front.getLast? node = .ok linked ∧
        LinkedBetween table linked chains relinked bucket front back node

/-- What the two scans say about a hash that belongs to `bucket`. -/
structure Scanned (table : Table w) (chains : Nat → List Key) (bucket : Nat) (hash : Hash w) :
    Prop where
  agree : ∀ key, table.position bucket hash = .ok (.occupied key) ↔
    table.find hash = .ok (some key)
  holder : ∀ key, table.find hash = .ok (some key) ↔
    key ∈ chains bucket ∧ ∃ node, table.nodes[key]? = some node ∧ node.hash = hash
  vacant : (∀ key, table.position bucket hash ≠ .ok (.occupied key)) →
    ∃ front back, Gap table chains bucket hash front back

namespace Arranged

variable (arranged : Arranged table chains)

include arranged

theorem position_find (hash : Hash w) (key : Key) :
    table.position (hash.toNat % table.bucketCount) hash = .ok (.occupied key) ↔
      table.find hash = .ok (some key) := by
  rw [arranged.position_eq (arranged.bucket_lt hash), arranged.find_eq, placeOf]
  cases keyOf? table.nodes hash (chains (hash.toNat % table.bucketCount)) <;> simp

theorem find_iff_holds (hash : Hash w) (key : Key) :
    table.find hash = .ok (some key) ↔
      key ∈ chains (hash.toNat % table.bucketCount) ∧
        ∃ node, table.nodes[key]? = some node ∧ node.hash = hash := by
  rw [arranged.find_eq, Except.ok.injEq, arranged.keyOf?_eq_some_iff]
  constructor
  · intro ⟨live, same⟩
    have present : table.nodes[key]? = some table.nodes[key] := Array.getElem?_eq_getElem live
    exact ⟨arranged.home_eq live same, _, present, (hashAt_of_live present).symm.trans same⟩
  · intro ⟨_, node, present, same⟩
    exact ⟨(Array.getElem?_eq_some_iff.mp present).1, (hashAt_of_live present).trans same⟩

theorem linkedBetween (absent : ∀ key < table.size, hashAt table.nodes key ≠ node.hash)
    (change : Added table chains node.hash node.bytes linked) :
    LinkedBetween table linked chains (spliced table chains node.hash)
      (node.hash.toNat % table.bucketCount)
      (keysBelow table.nodes node.hash (chains (node.hash.toNat % table.bucketCount)))
      (keysFrom table.nodes node.hash (chains (node.hash.toNat % table.bucketCount))) node where
  arena := change.records
  bucketCount := change.bucketCount
  follow := change.linked
  here := Function.update_self ..
  elsewhere := fun _ different => Function.update_of_ne different ..
  increasing := List.pairwise_map.mpr
    (change.increasing_spliced arranged absent (arranged.bucket_lt node.hash))
  find := change.find_new arranged absent
  others := fun _ different => change.find_other arranged absent different

/-- Where no key has the hash, the chain parts into what is below it and what is above it. -/
theorem gap (missed : keyOf? table.nodes hash (chains (hash.toNat % table.bucketCount)) = none) :
    Gap table chains (hash.toNat % table.bucketCount) hash
      (keysBelow table.nodes hash (chains (hash.toNat % table.bucketCount)))
      (keysFrom table.nodes hash (chains (hash.toNat % table.bucketCount))) where
  position := by
    rw [arranged.position_eq (arranged.bucket_lt hash), placeOf, missed, Option.or_none]
  find := by
    rw [arranged.find_eq, missed]
  chain := (below_append_from ..).symm
  below := fun _ member => below_of_mem member
  above := above_of_absent (arranged.increasing _ (arranged.bucket_lt hash)) missed
  successor := arranged.successor_eq (arranged.bucket_lt hash) fun _ last =>
    mem_of_mem_keysBelow (List.mem_of_getLast? last)
  link := by
    intro node same next
    subst same
    rcases arranged.link_eq rfl next with ⟨linked, links, change⟩
    exact ⟨linked, _, links,
      arranged.linkedBetween ((arranged.keyOf?_eq_none_iff node.hash).mp missed) change⟩

end Arranged

/-- On a table that keeps its invariant both scans agree, and linking is sorted insertion. -/
theorem scans_place (intact : table.Intact chains) (home : table.bucketOf hash = .ok bucket) :
    Scanned table chains bucket hash := by
  have arranged := intact.arranged
  rw [bucketOf_eq arranged.nonempty] at home
  rw [← Except.ok.inj home]
  constructor
  · exact arranged.position_find hash
  · exact arranged.find_iff_holds hash
  · intro free
    have missed : keyOf? table.nodes hash (chains (hash.toNat % table.bucketCount)) = none := by
      cases found : keyOf? table.nodes hash (chains (hash.toNat % table.bucketCount)) with
      | none => rfl
      | some key =>
          have finds := arranged.find_eq hash
          rw [found] at finds
          exact absurd ((arranged.position_find hash key).mpr finds) (free key)
    exact ⟨_, _, arranged.gap missed⟩

theorem scans_place_halfFull :
    ∃ chains, halfFullTable.Intact chains ∧ halfFullTable.bucketOf 23 = .ok 7 ∧
      Scanned halfFullTable chains 7 23 := by
  rcases halfFullTable_reachable.sound with ⟨chains, arranged⟩
  have home : halfFullTable.bucketOf 23 = .ok 7 := by decide +kernel
  exact ⟨chains, arranged.intact, home, scans_place arranged.intact home⟩

end Interner
