import Interner.Proofs.Store.Programs
import Interner.Proofs.Store.Tabled

/-!
What lasts in a table. Strings are only ever added behind the others in the arena, so every node stays
under its key with its hash and its bytes, and nothing but its link to the next node may change.
-/

namespace Interner

variable {w : Width} {table before after : Table w} {hash : Hash w} {key : Key} {bytes : Bytes}

/-- `after` is `before` with strings added, perhaps in more buckets. -/
structure Grows (before after : Table w) : Prop where
  arena : records before.nodes <+: records after.nodes
  maxLoadFactor : after.maxLoadFactor = before.maxLoadFactor

namespace Grows

theorem refl (table : Table w) : Grows table table := ⟨List.prefix_refl _, rfl⟩

theorem trans {later : Table w} (first : Grows before after) (second : Grows after later) :
    Grows before later :=
  ⟨first.arena.trans second.arena, second.maxLoadFactor.trans first.maxLoadFactor⟩

theorem node (grows : Grows before after) {node : Node w} (live : before.nodes[key]? = some node) :
    ∃ next, after.nodes[key]? = some { node with next } := by
  have recorded : (records before.nodes)[key]? = some node.record := by
    rw [getElem?_records, live, Option.map_some]
  have kept := List.prefix_iff_getElem?.mp grows.arena key
    (by simpa using (Array.getElem?_eq_some_iff.mp live).1)
  rw [List.getElem?_eq_some_iff.mp recorded |>.2] at kept
  rw [getElem?_records, Option.map_eq_some_iff] at kept
  rcases kept with ⟨written, present, same⟩
  rcases Prod.mk.inj same with ⟨sameHash, sameBytes⟩
  refine ⟨written.next, ?_⟩
  rw [present, ← sameHash, ← sameBytes]

end Grows

theorem Enlarged.grows {grown : Table w} (enlarged : Enlarged table grown) : Grows table grown :=
  ⟨enlarged.records ▸ List.prefix_refl _, enlarged.maxLoadFactor⟩

theorem Inserted.grows {content : Bytes} {step : Step (Table w) w Status}
    (inserted : Inserted table hash content step) : Grows table step.store := by
  refine ⟨?_, inserted.roomed.maxLoadFactor⟩
  rw [inserted.records, recordsOffered]
  split
  · exact List.prefix_append _ _
  · exact List.prefix_refl _

namespace Table

theorem evolves {change : Table w → Table w → Prop} (refl : ∀ table, change table table)
    (trans : ∀ {first second third}, change first second → change second third → change first third)
    (reserved : ∀ {table : Table w} {grown : Grown w}, table.Sound → table.reserve = .ok grown →
      Enlarged table grown.table → change table grown.table)
    (inserted : ∀ {table : Table w} {hash : Hash w} {content : Bytes}
      {step : Step (Table w) w Status}, table.Sound → Inserted table hash content step →
      change table step.store) : Evolves Sound change where
  refl := refl
  trans := trans
  insert := fun sound hash content => inserted sound (Table.inserted sound hash content)
  extend := by
    intro table sound hash stem suffix
    cases found : IdStore.lookup table stem with
    | none =>
        rcases extend_refused sound hash suffix found with ⟨grown, reserves, enlarged, refuses⟩
        rw [refuses]
        exact reserved sound reserves enlarged
    | some head =>
        rw [extend_eq_insert sound hash suffix found]
        exact inserted sound (Table.inserted sound hash (head ++ suffix))

theorem evolves_grows : Evolves (Sound : Table w → Prop) Grows :=
  evolves Grows.refl Grows.trans (fun _ _ enlarged => enlarged.grows)
    fun _ inserted => inserted.grows

/-- Looking `hash` up finds `bytes` in the node under `key`. -/
structure Finds (table : Table w) (hash : Hash w) (key : Key) (bytes : Bytes) : Prop where
  find : table.find hash = .ok (some key)
  node : ∃ next, table.nodes[key]? = some ⟨hash, next, bytes⟩
  lookup : table.lookup hash = .ok (some bytes)

theorem Sound.find_live (sound : table.Sound) {next : Option Key}
    (live : table.nodes[key]? = some ⟨hash, next, bytes⟩) : table.Finds hash key bytes := by
  rcases sound with ⟨chains, arranged⟩
  have inside : key < table.size := (Array.getElem?_eq_some_iff.mp live).1
  refine ⟨?_, ⟨next, live⟩, ?_⟩
  · rw [arranged.find_eq, (arranged.keyOf?_eq_some_iff hash key).mpr ⟨inside, hashAt_of_live live⟩]
  · rw [arranged.lookup_eq, arranged.lookup_live live]

theorem Sound.finds (sound : table.Sound) (found : (records table.nodes).lookup hash = some bytes) :
    ∃ key, table.Finds hash key bytes := by
  rcases sound with ⟨chains, arranged⟩
  rcases arranged.keyOf?_of_listed found with ⟨key, node, reached, live, rfl⟩
  have same := ((arranged.keyOf?_eq_some_iff hash key).mp reached).2
  rw [hashAt_of_live live] at same
  subst same
  exact ⟨key, find_live ⟨chains, arranged⟩ live⟩

theorem Finds.grows (finds : before.Finds hash key bytes) (grows : Grows before after)
    (sound : after.Sound) : after.Finds hash key bytes := by
  rcases finds.node with ⟨next, live⟩
  rcases grows.node live with ⟨later, written⟩
  exact sound.find_live written

end Table

end Interner
