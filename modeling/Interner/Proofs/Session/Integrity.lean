import Interner.Proofs.Session.Refinement
import Interner.Proofs.Table.Iteration

/-!
The representation invariant of tables, and that no call can break it. A table that keeps it never
meets a fault, whatever is asked of it.
-/

namespace Interner

variable {w : Width} {table : Table w} {chains : Nat → List Key} {bucket : Nat} {hash : Hash w}
  {after : Option Key}

namespace Table

/-- The representation invariant; `chains` lists the keys that each bucket leads to. -/
structure Intact (table : Table w) (chains : Nat → List Key) : Prop where
  nonempty : 0 < table.bucketCount
  /-- Following `next` from the head of a bucket ends. -/
  linked : ∀ bucket head, table.heads[bucket]? = some head →
    Chain table.nodes head (chains bucket)
  live : ∀ bucket < table.bucketCount, ∀ key ∈ chains bucket, key < table.size
  increasing : ∀ bucket < table.bucketCount,
    ((chains bucket).map (hashAt table.nodes)).Pairwise fun first second => first < second
  routed : ∀ bucket < table.bucketCount, ∀ key ∈ chains bucket,
    (hashAt table.nodes key).toNat % table.bucketCount = bucket
  /-- Every node is on one chain only, and there once. -/
  once : ∀ key < table.size, ∃ home < table.bucketCount, (chains home).count key = 1 ∧
    ∀ other < table.bucketCount, other ≠ home → key ∉ chains other
  distinct : ∀ (first second : Key) (node other : Node w), table.nodes[first]? = some node →
    table.nodes[second]? = some other → node.hash = other.hash → first = second
  terminated : ∀ node ∈ table.nodes, node.bytes ≠ [] ∧ node.bytes.getLast? = some 0
  threshold : table.threshold = growthThreshold table.bucketCount table.maxLoadFactor

/-- Nothing that a table is asked ends in a fault. -/
structure Faultless (table : Table w) : Prop where
  /-- A node that was stored is found, and its buffer has a terminator to leave off. -/
  content : ∀ key < table.size, ∃ node, table.nodeAt key = .ok node ∧
    node.bytes = Bytes.terminated node.content
  bucketOf : ∀ hash, ∃ bucket < table.bucketCount, table.bucketOf hash = .ok bucket
  find : ∀ hash, ∃ found, table.find hash = .ok found
  lookup : ∀ hash, ∃ found, table.lookup hash = .ok found
  position : ∀ bucket < table.bucketCount, ∀ hash, ∃ place, table.position bucket hash = .ok place
  successor : ∀ bucket < table.bucketCount, ∀ hash after,
    table.position bucket hash = .ok (.vacant after) →
      ∃ next, table.successor bucket after = .ok next
  link : ∀ bucket < table.bucketCount, ∀ hash after,
    table.position bucket hash = .ok (.vacant after) →
      ∀ node, ∃ linked, table.link bucket after node = .ok linked
  rehash : ∃ grown, table.rehash = .ok grown
  reserve : ∃ reserved, table.reserve = .ok reserved
  insert : ∀ hash content, ∃ step, table.insert hash content = .ok step
  insertExtension : ∀ hash stem suffix, ∃ step, table.insertExtension hash stem suffix = .ok step
  take : ∀ limit, ∃ taken, Cursor.take table limit {} = .ok taken
  entries : ∃ listed, table.entries = .ok listed

end Table

namespace Arranged

theorem intact (arranged : Arranged table chains) : table.Intact chains where
  nonempty := arranged.nonempty
  linked := arranged.linked
  live := fun _ inside _ member => arranged.live_of_mem inside member
  increasing := fun bucket inside => List.pairwise_map.mpr (arranged.increasing bucket inside)
  routed := fun _ inside _ member => arranged.home_of_mem inside member
  once := by
    intro key live
    refine ⟨_, arranged.home_lt key, ?_, ?_⟩
    · exact List.count_eq_one_of_mem (arranged.nodup (arranged.home_lt key)) (arranged.mem_home live)
    · intro other inside different member
      exact different (arranged.home_of_mem inside member).symm
  distinct := by
    intro first second node other present alike same
    apply arranged.hash_unique
    · exact (Array.getElem?_eq_some_iff.mp present).1
    · exact (Array.getElem?_eq_some_iff.mp alike).1
    · rw [hashAt_of_live present, hashAt_of_live alike, same]
  terminated := by
    intro node member
    have listed : node.record ∈ records table.nodes :=
      List.mem_map_of_mem (Array.mem_toList_iff.mpr member)
    have ending := arranged.terminated _ listed
    refine ⟨?_, ending⟩
    intro empty
    rw [Node.record, empty] at ending
    cases ending
  threshold := arranged.threshold

theorem content_ok (arranged : Arranged table chains) {key : Key} (live : key < table.size) :
    ∃ node, table.nodeAt key = .ok node ∧ node.bytes = Bytes.terminated node.content := by
  have present : table.nodes[key]? = some table.nodes[key] := Array.getElem?_eq_getElem live
  have member : table.nodes[key].record ∈ records table.nodes :=
    List.mem_map_of_mem (Array.mem_toList_iff.mpr (Array.getElem_mem live))
  exact ⟨_, nodeAt_live present, (arranged.terminated_withoutLast member).symm⟩

theorem mem_of_vacant (arranged : Arranged table chains) (inside : bucket < table.bucketCount)
    (vacant : table.position bucket hash = .ok (.vacant after)) :
    ∀ key ∈ after, key ∈ chains bucket := by
  intro key behind
  rw [arranged.position_eq inside, placeOf] at vacant
  split at vacant
  · cases vacant
  · cases vacant
    rw [Option.or_none] at behind
    exact mem_of_mem_keysBelow (List.mem_of_getLast? behind)

theorem link_ok (arranged : Arranged table chains) (inside : bucket < table.bucketCount)
    (vacant : table.position bucket hash = .ok (.vacant after)) (node : Node w) :
    ∃ linked, table.link bucket after node = .ok linked := by
  have members := arranged.mem_of_vacant inside vacant
  cases after with
  | none =>
      simp only [Table.link, if_pos inside]
      exact ⟨_, rfl⟩
  | some key =>
      have live := arranged.live_of_mem inside (members key rfl)
      simp only [Table.link, nodeAt_live (Array.getElem?_eq_getElem live), bind, Except.bind, pure,
        Except.pure]
      exact ⟨_, rfl⟩

end Arranged

theorem Table.Sound.insertExtension_ok (sound : table.Sound) (hash stem : Hash w)
    (suffix : Bytes) : ∃ step, table.insertExtension hash stem suffix = .ok step := by
  cases found : contentOf table stem with
  | none =>
      obtain ⟨_, _, _, refuses⟩ := sound.insertExtension_refused hash suffix found
      exact ⟨_, refuses⟩
  | some head =>
      obtain ⟨_, _, inserts⟩ := sound.insertExtension_joined hash suffix found
      exact ⟨_, inserts⟩

theorem Table.Sound.faultless (sound : table.Sound) : table.Faultless := by
  obtain ⟨chains, arranged⟩ := id sound
  have takes := fun limit => Cursor.take_eq arranged limit (Cursor.standing_start table)
  exact {
    content := fun key live => arranged.content_ok live
    bucketOf := fun hash =>
      ⟨_, arranged.bucket_lt hash, bucketOf_eq arranged.nonempty hash⟩
    find := fun hash => ⟨_, arranged.find_eq hash⟩
    lookup := fun hash => ⟨_, arranged.lookup_eq hash⟩
    position := fun bucket inside hash => ⟨_, arranged.position_eq inside hash⟩
    successor := fun bucket inside hash after vacant =>
      arranged.successor_eq inside (arranged.mem_of_vacant inside vacant)
    link := fun bucket inside hash after vacant => arranged.link_ok inside vacant
    rehash := by
      rcases arranged.rehash_eq with ⟨grown, doubles, _⟩
      exact ⟨grown, doubles⟩
    reserve := by
      obtain ⟨reserved, reserves, _⟩ := reserve_eq sound
      exact ⟨reserved, reserves⟩
    insert := by
      intro hash content
      obtain ⟨step, inserts, _⟩ := insert_eq sound hash content
      exact ⟨step, inserts⟩
    insertExtension := sound.insertExtension_ok
    take := takes
    entries := by
      obtain ⟨taken, all⟩ := takes table.size
      simp only [Table.entries, all, bind, Except.bind, pure, Except.pure]
      exact ⟨_, rfl⟩ }

theorem Table.Intact.arranged (intact : table.Intact chains) : Arranged table chains where
  nonempty := intact.nonempty
  linked := intact.linked
  members := by
    intro bucket inside key
    constructor
    · intro member
      exact ⟨intact.live bucket inside key member, intact.routed bucket inside key member⟩
    · rintro ⟨live, home⟩
      obtain ⟨other, otherInside, counted, _⟩ := intact.once key live
      have member : key ∈ chains other := List.count_pos_iff.mp (counted ▸ Nat.one_pos)
      have routed := intact.routed other otherInside key member
      rw [homeAt, routed] at home
      exact home ▸ member
  increasing := fun bucket inside => List.pairwise_map.mp (intact.increasing bucket inside)
  terminated := by
    intro record listed
    obtain ⟨node, member, rfl⟩ := List.mem_map.mp listed
    exact (intact.terminated node (Array.mem_toList_iff.mp member)).2
  threshold := intact.threshold

theorem Table.Intact.faultless (intact : table.Intact chains) : table.Faultless :=
  Table.Sound.faultless ⟨chains, intact.arranged⟩

/-- Whatever calls lead to, the table keeps its invariant and never meets a fault. -/
theorem reachable_intact_faultless (reachable : table.Reachable) :
    (∃ chains, table.Intact chains) ∧ table.Faultless := by
  rcases reachable.sound with ⟨chains, arranged⟩
  exact ⟨⟨chains, arranged.intact⟩, arranged.intact.faultless⟩

theorem intact_faultless_after_extensions :
    (∃ chains, ((⟨Table.ofConfig ⟨1, Binary64.one⟩, fun _ => .counter { stem := 7 }⟩ :
        Session (Table .narrow) .narrow).run
          [.request (.insert 7 [65]), .request (.insertExtension 9 7 [66]), .generate 0,
            .request (.internExtension 8 [67])]).store.Intact chains) ∧
      ((⟨Table.ofConfig ⟨1, Binary64.one⟩, fun _ => .counter { stem := 7 }⟩ :
        Session (Table .narrow) .narrow).run
          [.request (.insert 7 [65]), .request (.insertExtension 9 7 [66]), .generate 0,
            .request (.internExtension 8 [67])]).store.Faultless :=
  reachable_intact_faultless ⟨_, _, _, by decide +kernel, rfl⟩

end Interner
