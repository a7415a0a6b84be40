import Interner.Proofs.Table.Arrangement

/-!
The two walks along a chain. Both stop at the first hash that is not smaller, so on an ordered chain
they see all there is to see of a hash: which key has it, or after which key it would belong.
-/

namespace Interner

variable {w : Width} {table : Table w} {chains : Nat → List Key} {keys : List Key}
  {head : Option Key} {key : Key} {hash : Hash w} {bucket : Nat}

def keysBelow (nodes : Array (Node w)) (hash : Hash w) (keys : List Key) : List Key :=
  keys.takeWhile fun key => hashAt nodes key < hash

def keyOf? (nodes : Array (Node w)) (hash : Hash w) (keys : List Key) : Option Key :=
  keys.find? fun key => hashAt nodes key = hash

/-- The place of `hash` in a chain whose first key comes after `after`. -/
def placeOf (nodes : Array (Node w)) (hash : Hash w) (after : Option Key) (keys : List Key) :
    Position :=
  match keyOf? nodes hash keys with
  | some key => .occupied key
  | none => .vacant ((keysBelow nodes hash keys).getLast?.or after)

theorem nodeAt_live {node : Node w} (live : table.nodes[key]? = some node) :
    table.nodeAt key = .ok node := by
  simp only [Table.nodeAt, live]

theorem bucketOf_eq (nonempty : 0 < table.bucketCount) (hash : Hash w) :
    table.bucketOf hash = .ok (hash.toNat % table.bucketCount) := by
  simp only [Table.bucketOf, Table.bucketAmong, Hash.bucket?, if_neg (Nat.ne_of_gt nonempty)]

theorem headOf_eq (present : table.heads[bucket]? = some head) :
    table.headOf bucket = .ok head := by
  simp only [Table.headOf, present]

theorem keyOf?_cons_of_lt {nodes : Array (Node w)} (increasing : Increasing nodes (key :: keys))
    (less : hash < hashAt nodes key) : keyOf? nodes hash (key :: keys) = none := by
  apply List.find?_eq_none.mpr
  intro other member
  simp only [decide_eq_true_eq]
  intro same
  rcases List.mem_cons.mp member with rfl | member
  · exact BitVec.lt_irrefl _ (same ▸ less)
  · have greater := List.rel_of_pairwise_cons increasing member
    rw [same] at greater
    exact BitVec.lt_irrefl _ (BitVec.lt_trans less greater)

theorem placeOf_cons_of_lt {nodes : Array (Node w)} {after : Option Key}
    (less : hashAt nodes key < hash) :
    placeOf nodes hash after (key :: keys) = placeOf nodes hash (some key) keys := by
  have differs : hashAt nodes key ≠ hash := BitVec.ne_of_lt less
  have below : keysBelow nodes hash (key :: keys) = key :: keysBelow nodes hash keys := by
    simp [keysBelow, less]
  have skipped : keyOf? nodes hash (key :: keys) = keyOf? nodes hash keys := by
    simp [keyOf?, differs]
  rw [placeOf, placeOf, skipped, below, List.getLast?_cons]
  cases (keysBelow nodes hash keys).getLast? <;> rfl

theorem exists_left {limit : Nat} (enough : (key :: keys).length ≤ limit) :
    ∃ left, limit = left + 1 ∧ keys.length ≤ left := by
  cases limit with
  | zero => cases enough
  | succ left => exact ⟨left, rfl, Nat.le_of_succ_le_succ enough⟩

theorem findFrom_eq (chain : Chain table.nodes head keys) (increasing : Increasing table.nodes keys)
    {limit : Nat} (enough : keys.length ≤ limit) :
    table.findFrom hash limit head = .ok (keyOf? table.nodes hash keys) := by
  induction keys generalizing head limit with
  | nil =>
      cases chain
      cases limit <;> rfl
  | cons key keys ih =>
      cases chain with
      | @cons _ node _ _ live rest =>
          rcases exists_left enough with ⟨left, rfl, enoughLeft⟩
          have value := hashAt_of_live live
          simp only [Table.findFrom, nodeAt_live live, bind, Except.bind]
          by_cases reached : hash ≤ node.hash
          -- the walk ends here: behind this key all hashes are larger
          · rw [if_pos reached]
            by_cases same : node.hash = hash
            · simp [keyOf?, value, same, pure, Except.pure]
            · have less : hash < hashAt table.nodes key := by
                rw [value]
                exact BitVec.lt_of_le_ne reached (Ne.symm same)
              rw [if_neg same, keyOf?_cons_of_lt increasing less]
              rfl
          · have differs : hashAt table.nodes key ≠ hash := by
              rintro rfl
              exact reached (value ▸ BitVec.le_refl _)
            rw [if_neg reached, ih rest increasing.of_cons enoughLeft]
            simp [keyOf?, differs]

theorem positionFrom_eq (chain : Chain table.nodes head keys)
    (increasing : Increasing table.nodes keys) {limit : Nat} (enough : keys.length ≤ limit)
    (after : Option Key) :
    table.positionFrom hash limit after head = .ok (placeOf table.nodes hash after keys) := by
  induction keys generalizing head limit after with
  | nil =>
      cases chain
      cases limit <;> rfl
  | cons key keys ih =>
      cases chain with
      | @cons _ node _ _ live rest =>
          rcases exists_left enough with ⟨left, rfl, enoughLeft⟩
          have value := hashAt_of_live live
          simp only [Table.positionFrom, nodeAt_live live, bind, Except.bind]
          by_cases same : node.hash = hash
          · simp [placeOf, keyOf?, value, same, pure, Except.pure]
          · rw [if_neg same]
            by_cases less : hash < node.hash
            · have absent := keyOf?_cons_of_lt increasing (value.symm ▸ less)
              have none : keysBelow table.nodes hash (key :: keys) = [] := by
                rw [keysBelow, List.takeWhile_cons_of_neg]
                simpa [value] using BitVec.le_of_lt less
              simp [less, placeOf, absent, none, pure, Except.pure]
            · have below : hashAt table.nodes key < hash := by
                rw [value]
                exact BitVec.lt_of_le_ne (BitVec.not_lt.mp less) same
              rw [if_neg less, ih rest increasing.of_cons enoughLeft,
                placeOf_cons_of_lt below]

/-- Without `hash` itself, an ordered chain is a part below it followed by a part above it. -/
theorem above_of_absent {nodes : Array (Node w)} (increasing : Increasing nodes keys)
    (absent : keyOf? nodes hash keys = none) :
    ∀ key ∈ keys.dropWhile fun key => hashAt nodes key < hash, hash < hashAt nodes key := by
  induction keys with
  | nil => simp
  | cons first rest ih =>
      have differs : hashAt nodes first ≠ hash := by
        simpa using List.find?_eq_none.mp absent first List.mem_cons_self
      by_cases below : hashAt nodes first < hash
      · rw [List.dropWhile_cons_of_pos (by simpa using below)]
        apply ih increasing.of_cons
        simpa [keyOf?, differs] using absent
      · rw [List.dropWhile_cons_of_neg (by simpa using below)]
        have above : hash < hashAt nodes first :=
          BitVec.lt_of_le_ne (BitVec.not_lt.mp below) (Ne.symm differs)
        intro key member
        rcases List.mem_cons.mp member with rfl | member
        · exact above
        · exact BitVec.lt_trans above (List.rel_of_pairwise_cons increasing member)

theorem below_of_mem {nodes : Array (Node w)} (member : key ∈ keysBelow nodes hash keys) :
    hashAt nodes key < hash := by
  simpa using List.all_eq_true.mp List.all_takeWhile key member

theorem mem_of_mem_keysBelow {nodes : Array (Node w)} (member : key ∈ keysBelow nodes hash keys) :
    key ∈ keys :=
  List.takeWhile_subset _ member

/-- On an ordered chain that fits into the arena, a hash finds the key that has it. -/
theorem find_of_chain (nonempty : 0 < table.bucketCount)
    (present : table.heads[hash.toNat % table.bucketCount]? = some head)
    (chain : Chain table.nodes head keys) (increasing : Increasing table.nodes keys)
    (enough : keys.length ≤ table.size) : table.find hash = .ok (keyOf? table.nodes hash keys) := by
  simp only [Table.find, bucketOf_eq nonempty, headOf_eq present, bind, Except.bind]
  exact findFrom_eq chain increasing enough

namespace Arranged

theorem home_eq (arranged : Arranged table chains) (live : key < table.size)
    (same : hashAt table.nodes key = hash) :
    key ∈ chains (hash.toNat % table.bucketCount) := by
  have member := arranged.mem_home live
  rwa [homeAt, same] at member

theorem keyOf?_eq_some_iff (arranged : Arranged table chains) (hash : Hash w) (key : Key) :
    keyOf? table.nodes hash (chains (hash.toNat % table.bucketCount)) = some key ↔
      key < table.size ∧ hashAt table.nodes key = hash := by
  have inside := arranged.bucket_lt hash
  constructor
  · intro found
    have same : hashAt table.nodes key = hash := by simpa using List.find?_some found
    exact ⟨arranged.live_of_mem inside (List.mem_of_find?_eq_some found), same⟩
  · rintro ⟨live, same⟩
    cases found : keyOf? table.nodes hash (chains (hash.toNat % table.bucketCount)) with
    | none =>
        have missed := List.find?_eq_none.mp found key (arranged.home_eq live same)
        simp [same] at missed
    | some other =>
        have alike : hashAt table.nodes other = hash := by simpa using List.find?_some found
        have otherLive := arranged.live_of_mem inside (List.mem_of_find?_eq_some found)
        rw [arranged.hash_unique otherLive live (alike.trans same.symm)]

theorem keyOf?_eq_none_iff (arranged : Arranged table chains) (hash : Hash w) :
    keyOf? table.nodes hash (chains (hash.toNat % table.bucketCount)) = none ↔
      ∀ key < table.size, hashAt table.nodes key ≠ hash := by
  constructor
  · intro absent key live same
    have found := (arranged.keyOf?_eq_some_iff hash key).mpr ⟨live, same⟩
    rw [absent] at found
    cases found
  · intro absent
    cases found : keyOf? table.nodes hash (chains (hash.toNat % table.bucketCount)) with
    | none => rfl
    | some key =>
        obtain ⟨live, same⟩ := (arranged.keyOf?_eq_some_iff hash key).mp found
        exact absurd same (absent key live)

theorem find_eq (arranged : Arranged table chains) (hash : Hash w) :
    table.find hash =
      .ok (keyOf? table.nodes hash (chains (hash.toNat % table.bucketCount))) := by
  have inside := arranged.bucket_lt hash
  obtain ⟨head, present, chain⟩ := arranged.chain_at inside
  exact find_of_chain arranged.nonempty present chain (arranged.increasing _ inside)
    (arranged.length_le_size inside)

theorem position_eq (arranged : Arranged table chains) (inside : bucket < table.bucketCount)
    (hash : Hash w) :
    table.position bucket hash = .ok (placeOf table.nodes hash none (chains bucket)) := by
  obtain ⟨head, present, chain⟩ := arranged.chain_at inside
  simp only [Table.position, headOf_eq present, bind, Except.bind]
  exact positionFrom_eq chain (arranged.increasing _ inside) (arranged.length_le_size inside) none

theorem find_congr {other : Table w} {others : Nat → List Key} (arranged : Arranged table chains)
    (regrouped : Arranged other others) (same : records other.nodes = records table.nodes)
    (hash : Hash w) : other.find hash = table.find hash := by
  have size : other.size = table.size := size_congr same
  rw [arranged.find_eq, regrouped.find_eq]
  apply congrArg Except.ok
  apply Option.ext
  intro key
  rw [regrouped.keyOf?_eq_some_iff, arranged.keyOf?_eq_some_iff, hashAt_congr same, size]

theorem keyOf?_of_listed (arranged : Arranged table chains) {bytes : Bytes}
    (listed : (records table.nodes).lookup hash = some bytes) :
    ∃ key node, keyOf? table.nodes hash (chains (hash.toNat % table.bucketCount)) = some key ∧
      table.nodes[key]? = some node ∧ node.bytes = bytes := by
  cases found : keyOf? table.nodes hash (chains (hash.toNat % table.bucketCount)) with
  | none =>
      rw [lookup_records_eq_none ((arranged.keyOf?_eq_none_iff hash).mp found)] at listed
      cases listed
  | some key =>
      obtain ⟨live, same⟩ := (arranged.keyOf?_eq_some_iff hash key).mp found
      have present : table.nodes[key]? = some table.nodes[key] := Array.getElem?_eq_getElem live
      rw [hashAt_of_live present] at same
      rw [← same, arranged.lookup_live present] at listed
      exact ⟨key, table.nodes[key], rfl, present, Option.some.inj listed⟩

theorem keyOf?_of_unlisted (arranged : Arranged table chains)
    (unlisted : (records table.nodes).lookup hash = none) :
    keyOf? table.nodes hash (chains (hash.toNat % table.bucketCount)) = none := by
  apply (arranged.keyOf?_eq_none_iff hash).mpr
  intro key live same
  have present : table.nodes[key]? = some table.nodes[key] := Array.getElem?_eq_getElem live
  rw [hashAt_of_live present] at same
  rw [← same, arranged.lookup_live present] at unlisted
  cases unlisted

theorem lookup_eq (arranged : Arranged table chains) (hash : Hash w) :
    table.lookup hash = .ok ((records table.nodes).lookup hash) := by
  simp only [Table.lookup, arranged.find_eq hash, bind, Except.bind]
  cases listed : (records table.nodes).lookup hash with
  | none =>
      rw [arranged.keyOf?_of_unlisted listed]
      rfl
  | some bytes =>
      obtain ⟨key, node, found, present, rfl⟩ := arranged.keyOf?_of_listed listed
      rw [found]
      simp only [nodeAt_live present]
      rfl

end Arranged

end Interner
