import Interner.Proofs.Table.Insertion
import Interner.Store.Backend

namespace Interner

variable {w : Width} {table : Table w}

namespace Table

theorem lookupTerminated_eq (sound : table.Sound) (hash : Hash w) :
    IdStore.lookupTerminated table hash = (records table.nodes).lookup hash := by
  rcases sound with ⟨chains, arranged⟩
  simp only [IdStore.lookupTerminated, arranged.lookup_eq hash]

theorem lookup_eq (sound : table.Sound) (hash : Hash w) :
    IdStore.lookup table hash = contentOf table hash := by
  rw [IdStore.lookup, lookupTerminated_eq sound, contentOf]

theorem terminated_contentOf (sound : table.Sound) (hash : Hash w) :
    (contentOf table hash).map Bytes.terminated = (records table.nodes).lookup hash := by
  rcases sound with ⟨chains, arranged⟩
  cases listed : (records table.nodes).lookup hash with
  | none => rw [contentOf, listed, Option.map_none, Option.map_none]
  | some bytes =>
      obtain ⟨front, back, same, _⟩ := List.lookup_eq_some_iff.mp listed
      have member : (hash, bytes) ∈ records table.nodes := by
        rw [same]
        exact List.mem_append_right front List.mem_cons_self
      rw [contentOf, listed, Option.map_some, Option.map_some]
      exact congrArg some (arranged.terminated_withoutLast member)

theorem sameEntries {after : Table w} (sound : table.Sound) (afterSound : after.Sound)
    (same : records after.nodes = records table.nodes) :
    SameEntries size size after table := by
  constructor
  · intro other
    rw [lookup_eq afterSound, lookup_eq sound, contentOf_congr same]
  · exact size_congr same

theorem offered {after : Table w} (sound : table.Sound) (afterSound : after.Sound) (hash : Hash w)
    (content : Bytes) (listed : records after.nodes = recordsOffered table hash content) :
    Offered size table after hash content := by
  have lengths := congrArg List.length listed
  constructor
  · intro other
    rw [lookup_eq afterSound, lookup_eq sound, lookup_eq sound]
    cases taken : (records table.nodes).lookup hash with
    | none =>
        simp only [contentOf, listed, recordsOffered, taken, List.lookup_append]
        by_cases same : other = hash
        · subst same
          simp [taken, Bytes.withoutLast_terminated]
        · simp [same, List.lookup_cons, beq_eq_false_iff_ne.mpr same]
    | some bytes =>
        simp only [contentOf, listed, recordsOffered, taken]
        by_cases same : other = hash
        · subst same
          simp [taken]
        · simp [same]
  · rw [lookup_eq sound]
    cases taken : (records table.nodes).lookup hash with
    | none =>
        rw [recordsOffered, taken] at lengths
        simpa [contentOf, taken, size] using lengths
    | some bytes =>
        rw [recordsOffered, taken] at lengths
        simpa [contentOf, taken, size] using lengths

theorem inserted (sound : table.Sound) (hash : Hash w) (content : Bytes) :
    Inserted table hash content (IdStore.insert table hash content) := by
  obtain ⟨step, inserts, effect⟩ := insert_eq sound hash content
  have same : IdStore.insert table hash content = step := by
    simp only [IdStore.insert, inserts, settle]
  rw [same]
  exact effect

theorem insert_refused (sound : table.Sound) {hash : Hash w} {kept : Bytes} (content : Bytes)
    (taken : IdStore.lookup table hash = some kept) :
    ∃ reserved, table.reserve = .ok reserved ∧ Enlarged table reserved.table ∧
      IdStore.insert table hash content =
        ⟨reserved.table, statusUnder (some kept) content, reserved.events⟩ := by
  rw [lookup_eq sound] at taken
  rcases insert_taken sound content taken with ⟨reserved, reserves, enlarged, inserts⟩
  refine ⟨reserved, reserves, enlarged, ?_⟩
  simp only [IdStore.insert, inserts, settle]

theorem extend_eq_insert (sound : table.Sound) (hash : Hash w) {stem : Hash w} {head : Bytes}
    (suffix : Bytes) (known : IdStore.lookup table stem = some head) :
    IdStore.insertExtension table hash stem suffix =
      (IdStore.insert table hash (head ++ suffix)).mapAnswer .ok := by
  rw [lookup_eq sound] at known
  obtain ⟨step, plain, inserts⟩ := sound.insertExtension_joined hash suffix known
  simp only [IdStore.insertExtension, IdStore.insert, plain, inserts, settle]

theorem extend_refused (sound : table.Sound) (hash : Hash w) {stem : Hash w} (suffix : Bytes)
    (unknown : IdStore.lookup table stem = none) :
    ∃ reserved, table.reserve = .ok reserved ∧ Enlarged table reserved.table ∧
      IdStore.insertExtension table hash stem suffix =
        ⟨reserved.table, .error (.unknownStem stem), reserved.events⟩ := by
  rw [lookup_eq sound] at unknown
  obtain ⟨reserved, reserves, enlarged, refuses⟩ := sound.insertExtension_refused hash suffix unknown
  refine ⟨reserved, reserves, enlarged, ?_⟩
  simp only [IdStore.insertExtension, refuses, settle]

/-- A table in order keeps the first string under each hash. -/
theorem firstWins : FirstWins (Sound : Table w → Prop) size where
  terminated := by
    intro table sound hash
    rw [lookup_eq sound, terminated_contentOf sound, lookupTerminated_eq sound]
  insert := by
    intro table sound hash content
    have effect := inserted sound hash content
    rw [lookup_eq sound]
    exact ⟨effect.sound, effect.answer, offered sound effect.sound hash content effect.records⟩
  extend := by
    intro table sound hash stem head suffix known
    have effect := inserted sound hash (head ++ suffix)
    rw [extend_eq_insert sound hash suffix known, lookup_eq sound]
    exact ⟨effect.sound, congrArg Except.ok effect.answer,
      offered sound effect.sound hash (head ++ suffix) effect.records⟩
  refuse := by
    intro table sound hash stem suffix unknown
    obtain ⟨reserved, _, enlarged, refuses⟩ := extend_refused sound hash suffix unknown
    rw [refuses]
    exact ⟨enlarged.sound, rfl, sameEntries sound enlarged.sound enlarged.records⟩

end Table

end Interner
