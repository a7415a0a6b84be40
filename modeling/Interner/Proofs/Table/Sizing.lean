import Interner.Proofs.Session.Insertions
import Interner.Proofs.Table.Load
import Mathlib.Tactic.Ring

namespace Interner

open Binary64

variable {w : Width} {table : Table w} {factor : Binary64} {config : Config}
  {size first doublings : Nat}

namespace Table

/-- Doubling `table` until there is room for one more string ends with another table. Nothing bounds
how long it goes on. -/
inductive GrowsUntilRoom : Table w → Table w → Prop where
  | stop {table : Table w} (room : ¬table.threshold ≤ table.size + 1) : GrowsUntilRoom table table
  | double {table doubled last : Table w} (full : table.threshold ≤ table.size + 1)
      (rehashes : table.rehash = .ok doubled) (rest : GrowsUntilRoom doubled last) :
      GrowsUntilRoom table last

theorem reserveWithin_growsUntilRoom {limit : Nat} {reserved : Grown w}
    (reserves : table.reserveWithin limit = .ok reserved)
    (room : ¬reserved.table.threshold ≤ reserved.table.size + 1) :
    GrowsUntilRoom table reserved.table := by
  induction limit generalizing table reserved with
  | zero =>
      cases reserves
      exact .stop room
  | succ limit ih =>
      rcases reserveWithin_cases reserves with ⟨full, doubled, later, rehashes, rest, rfl⟩ | ⟨_, rfl⟩
      · have onward := ih rest
        exact .double full rehashes (onward room)
      · exact .stop room

end Table

/-- Doubled less than `doublings` times, `first` buckets have no room for a string beside `size`
others. -/
def Needed (factor : Binary64) (size first doublings : Nat) : Prop :=
  ∀ fewer < doublings, growthThreshold (first * 2 ^ fewer) factor ≤ size + 1

/-- As many doublings of `first` buckets as it takes to have room for a string beside `size` others. -/
structure LeastRoom (factor : Binary64) (size first doublings : Nat) : Prop where
  room : size + 1 < growthThreshold (first * 2 ^ doublings) factor
  needed : Needed factor size first doublings

theorem Needed.mono {more : Nat} (needed : Needed factor size first doublings) (less : size ≤ more) :
    Needed factor more first doublings :=
  fun fewer inside => Nat.le_trans (needed fewer inside) (Nat.succ_le_succ less)

theorem Needed.roomyCount (needed : Needed factor size first doublings) (limit : Nat) :
    ∃ total, Interner.roomyCount factor size limit (first * 2 ^ doublings) = first * 2 ^ total ∧
      Needed factor size first total := by
  induction limit generalizing doublings with
  | zero => exact ⟨doublings, rfl, needed⟩
  | succ limit ih =>
      rw [Interner.roomyCount]
      split
      · rename_i full
        have next : Needed factor size first (doublings + 1) := by
          intro fewer inside
          rcases Nat.lt_succ_iff_lt_or_eq.mp inside with before | rfl
          · exact needed fewer before
          · exact full
        have doubled : 2 * (first * 2 ^ doublings) = first * 2 ^ (doublings + 1) := by
          rw [Nat.pow_succ, Nat.mul_comm 2, Nat.mul_assoc]
        rw [doubled]
        exact ih next
      · exact ⟨doublings, rfl, needed⟩

namespace LeastRoom

theorem unique {other : Nat} (least : LeastRoom factor size first doublings)
    (also : LeastRoom factor size first other) : doublings = other := by
  rcases Nat.lt_trichotomy doublings other with less | same | more
  · exact absurd (also.needed doublings less) (Nat.not_le.mpr least.room)
  · exact same
  · exact absurd (least.needed other more) (Nat.not_le.mpr also.room)

/-- Before the last doubling, two more strings would have passed the load factor exactly: a product that
reaches an integer is not rounded below it. -/
theorem half_full (least : LeastRoom factor size first (doublings + 1))
    (acceptable : Acceptable factor) (few : size < 2 ^ 32) :
    first * 2 ^ doublings < 2 ^ 49 ∧
      first * 2 ^ doublings * factor.units < (size + 2) * unitsPerOne := by
  have full := least.needed doublings (Nat.lt_succ_self doublings)
  have small : first * 2 ^ doublings < 2 ^ 49 := by
    by_contra many
    have large := acceptable.threshold_large (Nat.not_lt.mp many)
    omega
  refine ⟨small, ?_⟩
  by_contra reached
  have threshold : size + 2 ≤ growthThreshold (first * 2 ^ doublings) factor :=
    le_floorWord_times (by omega) (by omega) (Nat.not_lt.mp reached)
  omega

end LeastRoom

namespace Acceptable

theorem value_pos (acceptable : Acceptable factor) : 0 < factor.value := by
  rw [value_of_positive acceptable.positive]
  exact div_pos (Nat.cast_pos.mpr acceptable.units_pos) (Nat.cast_pos.mpr unitsPerOne_pos)

theorem one_le_value (acceptable : Acceptable factor) : 1 ≤ 2 ^ 16 * factor.value := by
  have large : unitsPerOne ≤ 2 ^ 16 * factor.units := by
    rw [unitsPerOne_eq_min]
    exact Nat.mul_le_mul_left _ acceptable.large
  have cast : (unitsPerOne : ℚ) ≤ 2 ^ 16 * factor.units := by exact_mod_cast large
  rw [value_of_positive acceptable.positive, ← mul_div_assoc,
    one_le_div₀ (Nat.cast_pos.mpr unitsPerOne_pos)]
  exact cast

end Acceptable

/-- The bucket count of a table that began with `config` and was last inserted into beside `size`
strings. -/
structure LeastCount (config : Config) (size count doublings : Nat) : Prop where
  doubled : count = config.buckets * 2 ^ doublings
  least : LeastRoom config.maxLoadFactor size config.buckets doublings
  bounded : 0 < doublings →
    (count : ℚ) < 2 * (size + 2) / config.maxLoadFactor.value ∧
      2 * (size + 2) / config.maxLoadFactor.value ≤ 2 ^ 17 * (size + 2) ∧ count < 2 ^ 64

theorem twice_div_le {amount factor : ℚ} (positive : 0 < factor) (large : 1 ≤ 2 ^ 16 * factor)
    (some : 0 ≤ amount) : 2 * amount / factor ≤ 2 ^ 17 * amount := by
  rw [div_le_iff₀ positive]
  calc
    2 * amount = 2 * amount * 1 := (mul_one _).symm
    _ ≤ 2 * amount * (2 ^ 16 * factor) :=
      mul_le_mul_of_nonneg_left large (mul_nonneg zero_le_two some)
    _ = 2 ^ 17 * amount * factor := by ring

theorem LeastRoom.leastCount
    (least : LeastRoom config.maxLoadFactor size config.buckets doublings)
    (acceptable : Acceptable config.maxLoadFactor) (few : size < 2 ^ 32) :
    LeastCount config size (config.buckets * 2 ^ doublings) doublings := by
  refine ⟨rfl, least, ?_⟩
  intro some
  cases doublings with
  | zero => cases some
  | succ doublings =>
      rcases least.half_full acceptable few with ⟨small, full⟩
      have positive := acceptable.value_pos
      have doubled : config.buckets * 2 ^ (doublings + 1) = 2 * (config.buckets * 2 ^ doublings) := by
        rw [Nat.pow_succ, ← Nat.mul_assoc, Nat.mul_comm]
      have exact : ((config.buckets * 2 ^ doublings : Nat) : ℚ) * config.maxLoadFactor.value <
          size + 2 := by
        rw [value_of_positive acceptable.positive, ← mul_div_assoc,
          div_lt_iff₀ (Nat.cast_pos.mpr unitsPerOne_pos)]
        exact_mod_cast full
      rw [doubled]
      refine ⟨?_, ?_, by omega⟩
      · rw [lt_div_iff₀ positive, Nat.cast_mul, mul_assoc]
        exact mul_lt_mul_of_pos_left exact two_pos
      · exact twice_div_le positive acceptable.one_le_value (by exact_mod_cast Nat.zero_le (size + 2))

/-- A table that began with `config` and was doubled only where that was needed. -/
structure DoubledFrom (config : Config) (table : Table w) : Prop where
  maxLoadFactor : table.maxLoadFactor = config.maxLoadFactor
  bucketCount : ∃ doublings, table.bucketCount = config.buckets * 2 ^ doublings ∧
    Needed config.maxLoadFactor table.size config.buckets doublings

theorem doubledFrom_ofConfig (config : Config) :
    DoubledFrom config (Table.ofConfig config : Table w) where
  maxLoadFactor := rfl
  bucketCount := ⟨0, by simp [Table.ofConfig, Table.bucketCount],
    fun fewer inside => absurd inside (Nat.not_lt_zero fewer)⟩

/-- The loop of an insertion ends, and with the least bucket count that gives room. -/
structure Sized (config : Config) (insertion : Insertion (Table w) w) : Prop where
  ends : ∃ reserved, insertion.before.reserve = .ok reserved ∧
    insertion.before.GrowsUntilRoom reserved.table ∧
    reserved.table.bucketCount = insertion.after.bucketCount
  least : ∃ doublings,
    LeastCount config insertion.before.size insertion.after.bucketCount doublings

namespace Insertion.MakesRoom

variable {insertion : Insertion (Table w) w} (made : insertion.MakesRoom)

include made

theorem bucketCount_needed (start : DoubledFrom config insertion.before) :
    ∃ doublings, insertion.after.bucketCount = config.buckets * 2 ^ doublings ∧
      Needed config.maxLoadFactor insertion.before.size config.buckets doublings := by
  rcases start.bucketCount with ⟨doublings, count, needed⟩
  rw [made.roomed.bucketCount, Table.countWithRoom, start.maxLoadFactor, count]
  exact needed.roomyCount Table.maxDoublings

theorem doubledFrom (start : DoubledFrom config insertion.before) :
    DoubledFrom config insertion.after := by
  rcases made.bucketCount_needed start with ⟨doublings, count, needed⟩
  exact ⟨made.roomed.maxLoadFactor.trans start.maxLoadFactor, doublings, count,
    needed.mono made.roomed.size_le⟩

theorem ends (acceptable : Acceptable insertion.before.maxLoadFactor)
    (few : insertion.before.size < 2 ^ 32) :
    ∃ reserved, insertion.before.reserve = .ok reserved ∧
      insertion.before.GrowsUntilRoom reserved.table ∧
      reserved.table.bucketCount = insertion.after.bucketCount := by
  rcases reserve_eq made.sound with ⟨reserved, reserves, enlarged⟩
  have count := (reserve_room made.sound reserves).1
  have room := reserve_leaves_room made.sound acceptable few reserves enlarged
  exact ⟨reserved, reserves, Table.reserveWithin_growsUntilRoom reserves (Nat.not_le.mpr room),
    count.trans made.roomed.bucketCount.symm⟩

theorem sized (acceptable : Acceptable config.maxLoadFactor)
    (start : DoubledFrom config insertion.before) (few : insertion.before.size < 2 ^ 32) :
    Sized config insertion := by
  rw [← start.maxLoadFactor] at acceptable
  refine ⟨made.ends acceptable few, ?_⟩
  rcases made.bucketCount_needed start with ⟨doublings, count, needed⟩
  have room := acceptable.countWithRoom_room made.sound.bucketCount_pos few
  rw [← made.roomed.bucketCount, count, start.maxLoadFactor] at room
  have least : LeastRoom config.maxLoadFactor insertion.before.size config.buckets doublings :=
    ⟨room, needed⟩
  rw [start.maxLoadFactor] at acceptable
  rw [count]
  exact ⟨doublings, least.leastCount acceptable few⟩

end Insertion.MakesRoom

theorem Leads.sized {start last : Table w} {insertions : List (Insertion (Table w) w)}
    (leads : Leads Insertion.MakesRoom start insertions last)
    (acceptable : Acceptable config.maxLoadFactor) (doubled : DoubledFrom config start) :
    ∀ insertion ∈ insertions, insertion.before.size < 2 ^ 32 → Sized config insertion := by
  induction leads with
  | nil => simp
  | cons made _ ih =>
      intro insertion member few
      rcases List.mem_cons.mp member with rfl | later
      · exact made.sized acceptable doubled few
      · exact ih (made.doubledFrom doubled) insertion later few

theorem LeastCount.unique {count other also : Nat} (least : LeastCount config size count doublings)
    (same : LeastCount config size other also) : count = other := by
  rw [least.doubled, same.doubled, least.least.unique same.least]

namespace Session

variable {generators : Nat → Generator w} {calls : List (Call w)}
  {final : Insertion (Table w) w}

theorem sized (valid : config.validate = .ok ()) (few : final.before.size < 2 ^ 32)
    (last : ((fresh config generators).insertions calls).getLast? = some final) :
    (∀ insertion ∈ (fresh config generators).insertions calls, Sized config insertion) ∧
      final.after = ((fresh config generators).run calls).store := by
  have path := leads (sound_fresh valid generators) calls
  have sizedIfFew := path.sized (acceptable_of_validate valid) (doubledFrom_ofConfig config)
  refine ⟨?_, path.after_last last⟩
  intro insertion member
  exact sizedIfFew insertion member (Nat.lt_of_le_of_lt (path.size_le_last last insertion member) few)

end Session

/-- Every insertion of a run makes room in finitely many doublings. In the end there are as many buckets
as it took to have room for a string beside those that the last insertion found, and how the run got
there makes no difference. Keys of the arena have 32 bits, so there are fewer than 2^32 strings. -/
theorem bucketCount_least (valid : config.validate = .ok ()) (generators : Nat → Generator w)
    (calls : List (Call w)) {final : Insertion (Table w) w}
    (last : ((Session.fresh config generators).insertions calls).getLast? = some final)
    (few : final.before.size < 2 ^ 32) :
    (∀ insertion ∈ (Session.fresh config generators).insertions calls,
        ∃ reserved, insertion.before.reserve = .ok reserved ∧
          insertion.before.GrowsUntilRoom reserved.table ∧
          reserved.table.bucketCount = insertion.after.bucketCount) ∧
      (∃ doublings, LeastCount config final.before.size
        ((Session.fresh config generators).run calls).store.bucketCount doublings) ∧
      ∀ (others : Nat → Generator w) (otherCalls : List (Call w)) (other : Insertion (Table w) w),
        ((Session.fresh config others).insertions otherCalls).getLast? = some other →
        other.before.size = final.before.size →
        ((Session.fresh config others).run otherCalls).store.bucketCount =
          ((Session.fresh config generators).run calls).store.bucketCount := by
  have atEnd : ∀ {others : Nat → Generator w} {otherCalls : List (Call w)}
      {other : Insertion (Table w) w},
      ((Session.fresh config others).insertions otherCalls).getLast? = some other →
      other.before.size = final.before.size →
      ∃ doublings, LeastCount config final.before.size
        ((Session.fresh config others).run otherCalls).store.bucketCount doublings := by
    intro others otherCalls other lastOther same
    rcases Session.sized valid (same ▸ few) lastOther with ⟨sized, after⟩
    rw [← after, ← same]
    exact (sized other (List.mem_of_getLast? lastOther)).least
  refine ⟨fun insertion member => ((Session.sized valid few last).1 insertion member).ends,
    atEnd last rfl, ?_⟩
  intro others otherCalls other lastOther same
  rcases atEnd lastOther same with ⟨_, leastOther⟩
  rcases atEnd last rfl with ⟨_, least⟩
  exact leastOther.unique least

def halfFullInsertions : List (Insertion (Table .narrow) .narrow) :=
  (Session.fresh halfFull fun _ => .counter { stem := 7 }).insertions halfFullCalls

theorem bucketCount_least_halfFull :
    ∃ final, halfFullInsertions.getLast? = some final ∧ final.before.size = 3 ∧
      ∃ doublings, LeastCount halfFull 3 halfFullTable.bucketCount doublings := by
  have sizes : (halfFullInsertions.getLast?.map fun insertion => insertion.before.size) = some 3 := by
    decide +kernel
  rcases Option.map_eq_some_iff.mp sizes with ⟨final, last, size⟩
  have sizing := bucketCount_least (by decide +kernel) (fun _ => .counter { stem := 7 })
    halfFullCalls last (by rw [size]; decide)
  rw [size] at sizing
  exact ⟨final, last, size, sizing.2.1⟩

end Interner
