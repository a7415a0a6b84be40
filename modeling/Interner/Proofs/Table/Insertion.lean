import Interner.Proofs.Store.FirstWins
import Interner.Proofs.Table.Room
import Interner.Table.Insert

namespace Interner

variable {w : Width} {table grown : Table w} {chains : Nat → List Key}

def contentOf (table : Table w) (hash : Hash w) : Option Bytes :=
  ((records table.nodes).lookup hash).map Bytes.withoutLast

def recordsOffered (table : Table w) (hash : Hash w) (content : Bytes) : List (Hash w × Bytes) :=
  match (records table.nodes).lookup hash with
  | none => records table.nodes ++ [(hash, Bytes.terminated content)]
  | some _ => records table.nodes

theorem contentOf_congr (same : records grown.nodes = records table.nodes) (hash : Hash w) :
    contentOf grown hash = contentOf table hash := by
  rw [contentOf, contentOf, same]

theorem recordsOffered_congr (same : records grown.nodes = records table.nodes) (hash : Hash w)
    (content : Bytes) : recordsOffered grown hash content = recordsOffered table hash content := by
  rw [recordsOffered, recordsOffered, same]

theorem statusOf_eq {stored : Option Bytes} {kept content : Bytes} {same : Bool}
    (present : stored = some kept) (decided : same = true ↔ kept = content) :
    Table.statusOf same = statusUnder stored content := by
  subst present
  simp only [Table.statusOf, statusUnder, decided]

/-- Comparing in place is comparing with the joined string. -/
theorem joins_iff (stored head suffix : Bytes) :
    Table.joins stored head suffix = true ↔ stored = head ++ suffix := by
  simp only [Table.joins, Bool.and_eq_true, beq_iff_eq, List.isPrefixOf_iff_prefix]
  constructor
  · rintro ⟨⟨_, rest, rfl⟩, same⟩
    rw [List.drop_left] at same
    rw [same]
  · rintro rfl
    exact ⟨⟨List.length_append, List.prefix_append head suffix⟩, List.drop_left⟩

theorem Arranged.add_free (arranged : Arranged table chains) {hash : Hash w}
    (free : (records table.nodes).lookup hash = none) :
    ∃ after, table.position (hash.toNat % table.bucketCount) hash = .ok (.vacant after) ∧
      ∀ content, ∃ added, table.add (hash.toNat % table.bucketCount) after hash content =
          .ok added ∧ added.Sound ∧ records added.nodes = recordsOffered table hash content ∧
          added.bucketCount = table.bucketCount ∧ added.maxLoadFactor = table.maxLoadFactor := by
  have inside := arranged.bucket_lt hash
  have missed := arranged.keyOf?_of_unlisted free
  have absent := (arranged.keyOf?_eq_none_iff hash).mp missed
  have place := arranged.position_eq inside hash
  rw [placeOf, missed] at place
  refine ⟨_, place, ?_⟩
  intro content
  obtain ⟨added, adds, change⟩ := arranged.add_eq hash content
  rw [Option.or_none]
  refine ⟨added, adds, ⟨_, change.arranged arranged absent ?_⟩, ?_, change.bucketCount,
    change.maxLoadFactor⟩
  · simp [Bytes.terminated]
  · rw [change.records, recordsOffered, free]

theorem Arranged.position_taken (arranged : Arranged table chains) {hash : Hash w} {bytes : Bytes}
    (taken : (records table.nodes).lookup hash = some bytes) :
    ∃ key node, table.position (hash.toNat % table.bucketCount) hash = .ok (.occupied key) ∧
      table.nodeAt key = .ok node ∧ node.bytes = bytes := by
  obtain ⟨key, node, found, present, held⟩ := arranged.keyOf?_of_listed taken
  refine ⟨key, node, ?_, nodeAt_live present, held⟩
  rw [arranged.position_eq (arranged.bucket_lt hash), placeOf, found]

/-- What inserting `content` under `hash` makes of a table, and what it answers and reports. -/
structure Inserted (table : Table w) (hash : Hash w) (content : Bytes)
    (step : Step (Table w) w Status) : Prop where
  sound : step.store.Sound
  records : records step.store.nodes = recordsOffered table hash content
  answer : step.answer = statusUnder (contentOf table hash) content
  roomed : Roomed table step.store
  events : step.events = table.eventsOfRoom

theorem Roomed.offered {after : Table w} (roomed : Roomed table grown) {hash : Hash w}
    {content : Bytes} (listed : records after.nodes = recordsOffered table hash content)
    (count : after.bucketCount = grown.bucketCount)
    (factor : after.maxLoadFactor = grown.maxLoadFactor) : Roomed table after := by
  have lengths := congrArg List.length listed
  rw [length_records, recordsOffered] at lengths
  have sizes : after.size = table.size ∨ after.size = table.size + 1 := by
    split at lengths
    · right
      simpa [Table.size] using lengths
    · left
      simpa [Table.size] using lengths
  constructor
  · rw [count, roomed.bucketCount]
  · rw [factor, roomed.maxLoadFactor]
  · omega
  · omega

theorem insert_taken (sound : table.Sound) {hash : Hash w} {kept : Bytes} (content : Bytes)
    (taken : contentOf table hash = some kept) :
    ∃ reserved, table.reserve = .ok reserved ∧ Enlarged table reserved.table ∧
      table.insert hash content =
        .ok ⟨reserved.table, statusUnder (some kept) content, reserved.events⟩ := by
  rcases reserve_eq sound with ⟨⟨grown, events⟩, reserves, enlarged⟩
  rcases enlarged.sound with ⟨chains, arranged⟩
  rw [← contentOf_congr enlarged.records] at taken
  rcases Option.map_eq_some_iff.mp taken with ⟨bytes, listed, rfl⟩
  rcases arranged.position_taken listed with ⟨key, node, place, present, rfl⟩
  refine ⟨⟨grown, events⟩, reserves, enlarged, ?_⟩
  simp only [Table.insert, reserves, bucketOf_eq arranged.nonempty, place, present, bind,
    Except.bind, pure, Except.pure]
  rw [statusOf_eq rfl beq_iff_eq]
  rfl

theorem insert_eq (sound : table.Sound) (hash : Hash w) (content : Bytes) :
    ∃ step, table.insert hash content = .ok step ∧ Inserted table hash content step := by
  cases taken : contentOf table hash with
  | some kept =>
      rcases insert_taken sound content taken with ⟨reserved, reserves, enlarged, inserts⟩
      rcases Option.map_eq_some_iff.mp taken with ⟨bytes, listed, _⟩
      have same : records reserved.table.nodes = recordsOffered table hash content := by
        rw [enlarged.records, recordsOffered, listed]
      refine ⟨_, inserts, enlarged.sound, same, by rw [taken], ?_, (reserve_room sound reserves).2⟩
      exact (reserve_roomed sound reserves enlarged).offered same rfl rfl
  | none =>
      rcases reserve_eq sound with ⟨⟨grown, events⟩, reserves, enlarged⟩
      have roomed := reserve_roomed sound reserves enlarged
      rcases enlarged.sound with ⟨chains, arranged⟩
      have free : (records grown.nodes).lookup hash = none := by
        rw [enlarged.records]
        exact Option.map_eq_none_iff.mp taken
      rcases arranged.add_free free with ⟨after, place, adds⟩
      rcases adds content with ⟨added, addition, addedSound, addedRecords, count, factor⟩
      have listed := addedRecords.trans (recordsOffered_congr enlarged.records hash content)
      simp only [Table.insert, reserves, bucketOf_eq arranged.nonempty, place, addition, bind,
        Except.bind, pure, Except.pure]
      refine ⟨_, rfl, addedSound, listed, ?_, roomed.offered listed count factor,
        (reserve_room sound reserves).2⟩
      rw [taken]
      rfl

theorem find_unlisted (sound : table.Sound) {hash : Hash w}
    (unlisted : (records table.nodes).lookup hash = none) : table.find hash = .ok none := by
  rcases sound with ⟨chains, arranged⟩
  rw [arranged.find_eq, arranged.keyOf?_of_unlisted unlisted]

/-- Growth and a position are found before the stem is looked for, but an unknown stem adds nothing. -/
theorem Table.Sound.insertExtension_refused (sound : table.Sound) (hash : Hash w) {stem : Hash w}
    (suffix : Bytes) (unknown : contentOf table stem = none) :
    ∃ reserved, table.reserve = .ok reserved ∧ Enlarged table reserved.table ∧
      table.insertExtension hash stem suffix =
        .ok ⟨reserved.table, .error (.unknownStem stem), reserved.events⟩ := by
  obtain ⟨⟨grown, events⟩, reserves, enlarged⟩ := reserve_eq sound
  rcases enlarged.sound with ⟨chains, arranged⟩
  have unlisted : (records grown.nodes).lookup stem = none := by
    rw [enlarged.records]
    exact Option.map_eq_none_iff.mp unknown
  have place := arranged.position_eq (arranged.bucket_lt hash) hash
  refine ⟨⟨grown, events⟩, reserves, enlarged, ?_⟩
  simp only [Table.insertExtension, reserves, bucketOf_eq arranged.nonempty, place,
    find_unlisted enlarged.sound unlisted, bind, Except.bind, pure, Except.pure]

theorem Table.Sound.insertExtension_joined (sound : table.Sound) (hash : Hash w) {stem : Hash w}
    {head : Bytes} (suffix : Bytes) (known : contentOf table stem = some head) :
    ∃ step, table.insert hash (head ++ suffix) = .ok step ∧
      table.insertExtension hash stem suffix = .ok (step.mapAnswer .ok) := by
  obtain ⟨⟨grown, events⟩, reserves, enlarged⟩ := reserve_eq sound
  rcases enlarged.sound with ⟨chains, arranged⟩
  -- the stem is read from the grown table, where it may be under any bucket, but with the same bytes
  rw [← contentOf_congr enlarged.records] at known
  obtain ⟨bytes, listed, content⟩ := Option.map_eq_some_iff.mp known
  obtain ⟨stemKey, stemNode, found, stemPresent, rfl⟩ := arranged.keyOf?_of_listed listed
  obtain rfl : stemNode.content = head := content
  simp only [Table.insert, Table.insertExtension, reserves, bucketOf_eq arranged.nonempty,
    arranged.find_eq stem, found, nodeAt_live stemPresent, bind, Except.bind, pure, Except.pure]
  cases taken : (records grown.nodes).lookup hash with
  | none =>
      obtain ⟨after, place, adds⟩ := arranged.add_free taken
      obtain ⟨added, addition, _⟩ := adds (stemNode.content ++ suffix)
      simp only [place, addition]
      exact ⟨_, rfl, rfl⟩
  | some bytes =>
      obtain ⟨key, node, place, present, rfl⟩ := arranged.position_taken taken
      have compared : Table.joins node.content stemNode.content suffix =
          (node.content == stemNode.content ++ suffix) := by
        rw [Bool.eq_iff_iff, joins_iff, beq_iff_eq]
      simp only [place, present, compared]
      exact ⟨_, rfl, rfl⟩

end Interner
