import Interner.Proofs.Table.Rehash

namespace Interner

variable {w : Width} {table : Table w}

/-- The bucket count at which one more string beside `size` others stays below the threshold. -/
def roomyCount (factor : Binary64) (size : Nat) : Nat → Nat → Nat
  | 0, count => count
  | doublings + 1, count =>
      if growthThreshold count factor ≤ size + 1 then roomyCount factor size doublings (2 * count)
      else count

def roomyEvents (factor : Binary64) (size : Nat) : Nat → Nat → List (Event w)
  | 0, _ => []
  | doublings + 1, count =>
      if growthThreshold count factor ≤ size + 1 then
        .rehashed count (2 * count) size :: roomyEvents factor size doublings (2 * count)
      else []

namespace Table

def countWithRoom (table : Table w) : Nat :=
  roomyCount table.maxLoadFactor table.size maxDoublings table.bucketCount

def eventsOfRoom (table : Table w) : List (Event w) :=
  roomyEvents table.maxLoadFactor table.size maxDoublings table.bucketCount

end Table

theorem reserveWithin_room (sound : table.Sound) {limit : Nat} {reserved : Table.Grown w}
    (reserves : table.reserveWithin limit = .ok reserved) :
    reserved.table.bucketCount =
        roomyCount table.maxLoadFactor table.size limit table.bucketCount ∧
      reserved.events = roomyEvents table.maxLoadFactor table.size limit table.bucketCount := by
  induction limit generalizing table reserved with
  | zero =>
      cases reserves
      exact ⟨rfl, rfl⟩
  | succ limit ih =>
      rcases sound with ⟨chains, arranged⟩
      have threshold := arranged.threshold
      rcases Table.reserveWithin_cases reserves with
        ⟨full, doubled, later, rehashes, rest, rfl⟩ | ⟨roomy, rfl⟩
      · rcases arranged.rehash_eq with ⟨grown, made, arrangedNext, sameRecords, count, factor⟩
        cases made.symm.trans rehashes
        have size : doubled.size = table.size := size_congr sameRecords
        have next := ih ⟨_, arrangedNext⟩ rest
        rw [count, size, factor] at next
        rw [threshold] at full
        rw [roomyCount, roomyEvents, if_pos full, if_pos full, ← next.1, ← next.2]
        exact ⟨rfl, rfl⟩
      · rw [threshold] at roomy
        rw [roomyCount, roomyEvents, if_neg roomy, if_neg roomy]
        exact ⟨rfl, rfl⟩

theorem reserve_room (sound : table.Sound) {reserved : Table.Grown w}
    (reserves : table.reserve = .ok reserved) :
    reserved.table.bucketCount = table.countWithRoom ∧ reserved.events = table.eventsOfRoom :=
  reserveWithin_room sound reserves

theorem roomyEvents_rehashed {factor : Binary64} {size limit count : Nat} {event : Event w}
    (member : event ∈ roomyEvents factor size limit count) :
    ∃ before, event = .rehashed before (2 * before) size := by
  induction limit generalizing count with
  | zero => cases member
  | succ limit ih =>
      rw [roomyEvents] at member
      split at member
      · rcases List.mem_cons.mp member with rfl | later
        · exact ⟨count, rfl⟩
        · exact ih later
      · cases member

/-- `after` is what `before` becomes when it makes room and perhaps takes in one string. -/
structure Roomed (before after : Table w) : Prop where
  bucketCount : after.bucketCount = before.countWithRoom
  maxLoadFactor : after.maxLoadFactor = before.maxLoadFactor
  size_le : before.size ≤ after.size
  le_size : after.size ≤ before.size + 1

theorem Enlarged.size {grown : Table w} (enlarged : Enlarged table grown) :
    grown.size = table.size :=
  size_congr enlarged.records

theorem reserve_roomed (sound : table.Sound) {reserved : Table.Grown w}
    (reserves : table.reserve = .ok reserved) (enlarged : Enlarged table reserved.table) :
    Roomed table reserved.table where
  bucketCount := (reserve_room sound reserves).1
  maxLoadFactor := enlarged.maxLoadFactor
  size_le := Nat.le_of_eq enlarged.size.symm
  le_size := Nat.le_succ_of_le (Nat.le_of_eq enlarged.size)

end Interner
