import Interner.Proofs.Table.Scan
import Mathlib.Logic.Function.Basic

namespace Interner

variable {w : Width} {table : Table w} {chains : Nat → List Key} {keys front : List Key}
  {head start stop : Option Key} {key last : Key} {hash : Hash w} {bytes : Bytes}

def keysFrom (nodes : Array (Node w)) (hash : Hash w) (keys : List Key) : List Key :=
  keys.dropWhile fun key => hashAt nodes key < hash

theorem below_append_from (nodes : Array (Node w)) (hash : Hash w) (keys : List Key) :
    keysBelow nodes hash keys ++ keysFrom nodes hash keys = keys :=
  List.takeWhile_append_dropWhile

/-- The chains after `fresh`, whose hash is `hash`, was put in its place. -/
def spliced (table : Table w) (chains : Nat → List Key) (hash : Hash w) : Nat → List Key :=
  let bucket := hash.toNat % table.bucketCount
  Function.update chains bucket
    (keysBelow table.nodes hash (chains bucket) ++
      table.size :: keysFrom table.nodes hash (chains bucket))

theorem Segment.last_live {nodes : Array (Node w)}
    (segment : Segment nodes start (front ++ [last]) stop) :
    ∃ found, nodes[last]? = some found ∧ found.next = stop := by
  rcases segment.split with ⟨middle, _, second⟩
  cases second with
  | @cons _ found _ _ live rest =>
      exact ⟨found, live, rest.start_eq⟩

theorem hashAt_append {nodes changed : Array (Node w)}
    (longer : records changed = records nodes ++ [(hash, bytes)]) (key : Key) :
    hashAt changed key = if key = nodes.size then hash else hashAt nodes key := by
  rw [hashAt_eq, longer, List.getElem?_append, length_records]
  by_cases inside : key < nodes.size
  · rw [if_pos inside, if_neg (Nat.ne_of_lt inside), hashAt_eq]
  · rw [if_neg inside]
    by_cases fresh : key = nodes.size
    · simp [fresh]
    · have outside : nodes.size ≤ key := Nat.le_of_not_lt inside
      have past : key - nodes.size ≠ 0 :=
        Nat.sub_ne_zero_of_lt (Nat.lt_of_le_of_ne outside (Ne.symm fresh))
      rw [if_neg fresh, hashAt_eq, getElem?_records, Array.getElem?_eq_none outside]
      simp [past]

/-- What a new node changes: one more record, and its key in one chain. -/
structure Added (table : Table w) (chains : Nat → List Key) (hash : Hash w) (bytes : Bytes)
    (added : Table w) : Prop where
  records : records added.nodes = records table.nodes ++ [(hash, bytes)]
  bucketCount : added.bucketCount = table.bucketCount
  linked : ∀ bucket head, added.heads[bucket]? = some head →
    Chain added.nodes head (spliced table chains hash bucket)
  maxLoadFactor : added.maxLoadFactor = table.maxLoadFactor
  threshold : added.threshold = table.threshold

theorem mem_spliced {bucket : Nat} : key ∈ spliced table chains hash bucket ↔
    key ∈ chains bucket ∨ bucket = hash.toNat % table.bucketCount ∧ key = table.size := by
  by_cases target : bucket = hash.toNat % table.bucketCount
  · subst target
    have member : key ∈ chains (hash.toNat % table.bucketCount) ↔
        key ∈ keysBelow table.nodes hash (chains (hash.toNat % table.bucketCount)) ∨
          key ∈ keysFrom table.nodes hash (chains (hash.toNat % table.bucketCount)) := by
      rw [← List.mem_append, below_append_from]
    simp only [spliced, Function.update_self, List.mem_append, List.mem_cons, member, true_and]
    tauto
  · simp only [spliced, Function.update_of_ne target, target, false_and, or_false]

namespace Added

variable {added : Table w}

theorem size (change : Added table chains hash bytes added) : added.size = table.size + 1 := by
  have lengths := congrArg List.length change.records
  simpa [Table.size] using lengths

theorem hashAt_old (change : Added table chains hash bytes added) (old : key ≠ table.size) :
    hashAt added.nodes key = hashAt table.nodes key :=
  (hashAt_append change.records key).trans (if_neg old)

theorem hashAt_new (change : Added table chains hash bytes added) :
    hashAt added.nodes table.size = hash :=
  (hashAt_append change.records table.size).trans (if_pos rfl)

theorem increasing_old (change : Added table chains hash bytes added)
    (increasing : Increasing table.nodes keys) (old : table.size ∉ keys) :
    Increasing added.nodes keys := by
  apply List.Pairwise.imp_of_mem _ increasing
  intro first second inFirst inSecond less
  rwa [change.hashAt_old fun same => old (same ▸ inFirst),
    change.hashAt_old fun same => old (same ▸ inSecond)]

theorem increasing_new (change : Added table chains hash bytes added)
    (increasing : Increasing table.nodes keys) (old : table.size ∉ keys)
    (absent : keyOf? table.nodes hash keys = none) :
    Increasing added.nodes
      (keysBelow table.nodes hash keys ++ table.size :: keysFrom table.nodes hash keys) := by
  have outside : ∀ key ∈ keys, key ≠ table.size := fun key member same => old (same ▸ member)
  have kept := change.increasing_old increasing old
  rw [← below_append_from table.nodes hash keys] at kept outside
  obtain ⟨lower, upper, across⟩ := List.pairwise_append.mp kept
  apply List.pairwise_append.mpr
  refine ⟨lower, ?_, ?_⟩
  · apply List.Pairwise.cons _ upper
    intro key member
    rw [change.hashAt_new, change.hashAt_old (outside key (List.mem_append_right _ member))]
    exact above_of_absent increasing absent key member
  · intro first inFirst second inSecond
    rcases List.mem_cons.mp inSecond with rfl | inSecond
    · rw [change.hashAt_new, change.hashAt_old (outside first (List.mem_append_left _ inFirst))]
      exact below_of_mem inFirst
    · exact across first inFirst second inSecond

theorem increasing_spliced (change : Added table chains hash bytes added)
    (before : Arranged table chains) (absent : ∀ key < table.size, hashAt table.nodes key ≠ hash)
    {bucket : Nat} (inside : bucket < table.bucketCount) :
    Increasing added.nodes (spliced table chains hash bucket) := by
  have old : table.size ∉ chains bucket := by
    intro member
    exact Nat.lt_irrefl _ (before.live_of_mem inside member)
  by_cases target : bucket = hash.toNat % table.bucketCount
  · subst target
    rw [spliced, Function.update_self]
    exact change.increasing_new (before.increasing _ inside) old
      ((before.keyOf?_eq_none_iff hash).mpr absent)
  · rw [spliced, Function.update_of_ne target]
    exact change.increasing_old (before.increasing bucket inside) old

theorem arranged (change : Added table chains hash bytes added) (before : Arranged table chains)
    (absent : ∀ key < table.size, hashAt table.nodes key ≠ hash)
    (ended : bytes.getLast? = some 0) : Arranged added (spliced table chains hash) where
  nonempty := change.bucketCount ▸ before.nonempty
  linked := change.linked
  members := by
    intro bucket inside key
    rw [change.bucketCount] at inside ⊢
    rw [mem_spliced, before.members bucket inside key, change.size]
    simp only [homeAt]
    by_cases fresh : key = table.size
    · subst fresh
      rw [change.hashAt_new]
      simp only [Nat.lt_irrefl, false_and, false_or, and_true, Nat.lt_succ_self, true_and]
      exact eq_comm
    · rw [change.hashAt_old fresh]
      simp only [fresh, and_false, or_false]
      apply and_congr_left
      intro _
      exact ⟨Nat.lt_succ_of_lt, fun less => Nat.lt_of_le_of_ne (Nat.le_of_lt_succ less) fresh⟩
  increasing := by
    intro bucket inside
    rw [change.bucketCount] at inside
    exact change.increasing_spliced before absent inside
  terminated := by
    intro record member
    rw [change.records, List.mem_append, List.mem_singleton] at member
    rcases member with member | rfl
    · exact before.terminated record member
    · exact ended
  threshold := by
    rw [change.threshold, change.bucketCount, change.maxLoadFactor, before.threshold]

end Added

namespace Arranged

theorem not_mem_of_ne (arranged : Arranged table chains) {first second : Nat}
    (firstInside : first < table.bucketCount) (secondInside : second < table.bucketCount)
    (different : second ≠ first) (member : key ∈ chains first) : key ∉ chains second := by
  intro other
  apply different
  rw [← arranged.home_of_mem firstInside member, arranged.home_of_mem secondInside other]

theorem linked_elsewhere (arranged : Arranged table chains) {bucket : Nat}
    (elsewhere : bucket ≠ hash.toNat % table.bucketCount) (present : table.heads[bucket]? = some head) :
    Chain table.nodes head (spliced table chains hash bucket) := by
  rw [spliced, Function.update_of_ne elsewhere]
  exact arranged.linked bucket head present

theorem link_first (arranged : Arranged table chains) {node : Node w} (same : node.hash = hash)
    (next : table.successor (hash.toNat % table.bucketCount) none = .ok node.next)
    (first : keysBelow table.nodes hash (chains (hash.toNat % table.bucketCount)) = []) :
    ∃ linked, table.link (hash.toNat % table.bucketCount) none node = .ok linked ∧
      Added table chains hash node.bytes linked := by
  have inside := arranged.bucket_lt hash
  obtain ⟨head, present, chain⟩ := arranged.chain_at inside
  have spot : spliced table chains hash (hash.toNat % table.bucketCount) =
      table.size :: chains (hash.toNat % table.bucketCount) := by
    have rest := below_append_from table.nodes hash (chains (hash.toNat % table.bucketCount))
    rw [first, List.nil_append] at rest
    rw [spliced, Function.update_self, first, rest, List.nil_append]
  rw [Table.successor, headOf_eq present] at next
  rw [Except.ok.inj next] at chain
  simp only [Table.link, if_pos inside]
  refine ⟨_, rfl, ?_⟩
  constructor
  · rw [records_push, Node.record, same]
  · exact Array.size_setIfInBounds
  · intro bucket head' found
    by_cases target : bucket = hash.toNat % table.bucketCount
    · subst target
      rw [Array.getElem?_setIfInBounds_self_of_lt inside] at found
      cases found
      rw [spot]
      exact Segment.cons Array.getElem?_push_size (Segment.push chain)
    · rw [Array.getElem?_setIfInBounds_ne (Ne.symm target)] at found
      exact Segment.push (arranged.linked_elsewhere target found)
  · rfl
  · rfl

theorem link_later (arranged : Arranged table chains) {node : Node w} (same : node.hash = hash)
    (next : table.successor (hash.toNat % table.bucketCount) (some last) = .ok node.next)
    (lower : keysBelow table.nodes hash (chains (hash.toNat % table.bucketCount)) =
      front ++ [last]) :
    ∃ linked, table.link (hash.toNat % table.bucketCount) (some last) node = .ok linked ∧
      Added table chains hash node.bytes linked := by
  have inside := arranged.bucket_lt hash
  have parts := below_append_from table.nodes hash (chains (hash.toNat % table.bucketCount))
  have distinct := arranged.nodup inside
  rw [lower] at parts
  rw [← parts] at distinct
  obtain ⟨lowerDistinct, _, across⟩ := List.nodup_append.mp distinct
  have notBehind : last ∉ keysFrom table.nodes hash (chains (hash.toNat % table.bucketCount)) :=
    fun member => across last (List.mem_append_right front (List.mem_singleton_self last)) last
      member rfl
  have member : last ∈ chains (hash.toNat % table.bucketCount) := by
    rw [← parts]
    exact List.mem_append_left _ (List.mem_append_right _ (List.mem_singleton_self last))
  have live := arranged.live_of_mem inside member
  obtain ⟨head, present, chain⟩ := arranged.chain_at inside
  rw [← parts] at chain
  -- the chain is cut behind `last`, and the new key takes over the link to the rest
  rcases chain.split with ⟨middle, before, behind⟩
  rcases before.last_live with ⟨found, foundLive, rfl⟩
  simp only [Table.successor, nodeAt_live foundLive, bind, Except.bind, pure, Except.pure,
    Except.ok.injEq] at next
  simp only [Table.link, nodeAt_live foundLive, bind, Except.bind, pure, Except.pure]
  refine ⟨_, rfl, ?_⟩
  constructor
  · rw [records_push, records_relink foundLive, Node.record, same]
  · rfl
  · intro bucket head' at_
    by_cases target : bucket = hash.toNat % table.bucketCount
    · subst target
      rw [present] at at_
      cases at_
      rw [spliced, Function.update_self, lower]
      apply Segment.append (before.redirect lowerDistinct foundLive (some table.size)).push
      have written : ((table.nodes.setIfInBounds last { found with next := some table.size }).push
          node)[table.size]? = some node := by
        rw [Array.getElem?_push, Array.size_setIfInBounds]
        exact if_pos rfl
      rw [next] at behind
      exact Segment.cons written (behind.set_outside notBehind).push
    · have elsewhere := arranged.linked_elsewhere target at_
      have otherInside : bucket < table.bucketCount := (Array.getElem?_eq_some_iff.mp at_).1
      apply Segment.push
      apply Segment.set_outside elsewhere
      rw [spliced, Function.update_of_ne target]
      exact arranged.not_mem_of_ne inside otherInside target member
  · rfl
  · rfl

/-- At the place that a walk finds for a free hash, a node takes over the link to what comes next, and
nothing else is touched. -/
theorem link_eq (arranged : Arranged table chains) {node : Node w} (same : node.hash = hash)
    (next : table.successor (hash.toNat % table.bucketCount)
      (keysBelow table.nodes hash (chains (hash.toNat % table.bucketCount))).getLast? =
        .ok node.next) :
    ∃ linked, table.link (hash.toNat % table.bucketCount)
        (keysBelow table.nodes hash (chains (hash.toNat % table.bucketCount))).getLast? node =
          .ok linked ∧
      Added table chains hash node.bytes linked := by
  rcases List.eq_nil_or_concat
    (keysBelow table.nodes hash (chains (hash.toNat % table.bucketCount))) with
    first | ⟨front, last, lower⟩
  · rw [first] at next ⊢
    exact arranged.link_first same next first
  · rw [List.concat_eq_append] at lower
    rw [lower, List.getLast?_concat] at next ⊢
    exact arranged.link_later same next lower

theorem successor_eq (arranged : Arranged table chains) {bucket : Nat} {after : Option Key}
    (inside : bucket < table.bucketCount) (member : ∀ key ∈ after, key ∈ chains bucket) :
    ∃ next, table.successor bucket after = .ok next := by
  cases after with
  | none =>
      obtain ⟨head, present, _⟩ := arranged.chain_at inside
      exact ⟨head, headOf_eq present⟩
  | some key =>
      have live := arranged.live_of_mem inside (member key rfl)
      simp only [Table.successor, nodeAt_live (Array.getElem?_eq_getElem live), bind, Except.bind,
        pure, Except.pure]
      exact ⟨_, rfl⟩

theorem add_eq (arranged : Arranged table chains) (hash : Hash w) (content : Bytes) :
    ∃ added, table.add (hash.toNat % table.bucketCount)
        (keysBelow table.nodes hash (chains (hash.toNat % table.bucketCount))).getLast? hash
        content = .ok added ∧
      Added table chains hash (Bytes.terminated content) added := by
  have inside := arranged.bucket_lt hash
  obtain ⟨next, follows⟩ := arranged.successor_eq inside fun key last =>
    mem_of_mem_keysBelow (List.mem_of_getLast? last)
  have hashed : (Node.ofContent hash next content).hash = hash := rfl
  obtain ⟨added, links, change⟩ := arranged.link_eq hashed follows
  simp only [Table.add, follows, links, bind, Except.bind]
  exact ⟨added, rfl, change⟩

end Arranged

end Interner
