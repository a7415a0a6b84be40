import Interner.Proofs.Session.Refinement

namespace Interner

variable {w : Width} {table : Table w}

/-- If the stem is stored, its extension is inserted exactly as the joined string would be. If it is
not, the answer names the stem and the table has made room for one string and nothing else. -/
theorem extension_eq_insertion (reachable : table.Reachable) (hash stem : Hash w)
    (suffix : Bytes) :
    (∀ head, IdStore.lookup table stem = some head →
      ∃ step, table.insert hash (head ++ suffix) = .ok step ∧
        table.insertExtension hash stem suffix = .ok (step.mapAnswer .ok) ∧
        insertJoined IdStore.insert IdStore.lookupTerminated table hash stem suffix =
          step.mapAnswer .ok) ∧
    (IdStore.lookup table stem = none →
      ∃ reserved, table.reserve = .ok reserved ∧
        table.insertExtension hash stem suffix =
          .ok ⟨reserved.table, .error (.unknownStem stem), reserved.events⟩) := by
  have sound := reachable.sound
  constructor
  · intro head known
    have found : (IdStore.lookupTerminated table stem).map Bytes.withoutLast = some head := known
    rw [Table.lookup_eq sound] at known
    obtain ⟨step, inserts, joined⟩ := sound.insertExtension_joined hash suffix known
    refine ⟨step, inserts, joined, ?_⟩
    simp only [insertJoined, found, IdStore.insert, inserts, Table.settle]
  · intro unknown
    rw [Table.lookup_eq sound] at unknown
    obtain ⟨reserved, reserves, _, refuses⟩ := sound.insertExtension_refused hash suffix unknown
    exact ⟨reserved, reserves, refuses⟩

/-- The table of one bucket that holds `A` under 7 and has to grow for the next string. -/
def crowdedTable : Table .narrow :=
  ((⟨Table.ofConfig ⟨1, Binary64.one⟩, fun _ => .counter { stem := 7 }⟩ :
    Session (Table .narrow) .narrow).run [.request (.insert 7 [65])]).store

theorem extension_eq_insertion_crowded :
    (∃ step, crowdedTable.insert 7 ([65] ++ [66]) = .ok step ∧
      crowdedTable.insertExtension 7 7 [66] = .ok (step.mapAnswer .ok) ∧
      insertJoined IdStore.insert IdStore.lookupTerminated crowdedTable 7 7 [66] =
        step.mapAnswer .ok) ∧
    (∃ reserved, crowdedTable.reserve = .ok reserved ∧
      crowdedTable.insertExtension 7 8 [66] =
        .ok ⟨reserved.table, .error (.unknownStem 8), reserved.events⟩) := by
  have reachable : crowdedTable.Reachable := ⟨_, _, _, by decide +kernel, rfl⟩
  exact ⟨(extension_eq_insertion reachable 7 7 [66]).1 [65] (by decide +kernel),
    (extension_eq_insertion reachable 7 8 [66]).2 (by decide +kernel)⟩

end Interner
