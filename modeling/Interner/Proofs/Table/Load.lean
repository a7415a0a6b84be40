import Interner.Proofs.Number.Order
import Interner.Proofs.Session.Refinement
import Interner.Proofs.Store.Lasting

/-!
The load of a table. Room is made until the rounded threshold lies two above the size, so that even
where it was rounded up, one more string stays strictly below the exact bound.
-/

namespace Interner

open Binary64

variable {w : Width} {table before after : Table w} {factor : Binary64} {config : Config}

/-- A load factor that a configuration may have. -/
structure Acceptable (factor : Binary64) : Prop where
  finite : factor.isFinite = true
  positive : factor.negative = false
  large : Config.minLoadUnits ≤ factor.units

theorem acceptable_of_validate (valid : config.validate = .ok ()) :
    Acceptable config.maxLoadFactor := by
  have accepted : Config.acceptableLoad config.maxLoadFactor = true := by
    by_contra refused
    rw [Config.validate, if_neg (Nat.ne_of_gt (Config.buckets_pos valid)), if_neg refused] at valid
    cases valid
  simp only [Config.acceptableLoad, Bool.and_eq_true, Bool.not_eq_true', decide_eq_true_eq]
    at accepted
  exact ⟨accepted.1.1, accepted.1.2, accepted.2⟩

theorem minLoadUnits_eq {exponent : Nat} (same : 1058 = exponent) :
    Config.minLoadUnits = 2 ^ exponent := by
  unfold Config.minLoadUnits
  rw [same]
  rfl

theorem unitsPerOne_eq_min : unitsPerOne = 2 ^ 16 * Config.minLoadUnits := by
  obtain ⟨exponent, same⟩ : ∃ exponent, 1058 = exponent := ⟨_, rfl⟩
  rw [unitsPerOne_eq (by omega : 16 + exponent = 1074), minLoadUnits_eq same]

namespace Acceptable

theorem units_pos (acceptable : Acceptable factor) : 0 < factor.units := by
  obtain ⟨exponent, same⟩ : ∃ exponent, 1058 = exponent := ⟨_, rfl⟩
  have large := acceptable.large
  rw [minLoadUnits_eq same] at large
  exact Nat.lt_of_lt_of_le (Nat.two_pow_pos exponent) large

theorem threshold_large (acceptable : Acceptable factor) {count : Nat} (many : 2 ^ 49 ≤ count) :
    2 ^ 33 ≤ growthThreshold count factor := by
  calc
    2 ^ 33 ≤ growthThreshold (2 ^ 49) factor := by
      apply le_floorWord_times (by decide) (by decide)
      calc
        2 ^ 33 * unitsPerOne = 2 ^ 49 * Config.minLoadUnits := by
          rw [unitsPerOne_eq_min, ← Nat.mul_assoc, ← Nat.pow_add]
        _ ≤ 2 ^ 49 * factor.units := Nat.mul_le_mul_left _ acceptable.large
    _ ≤ growthThreshold count factor := floorWord_times_mono many

/-- Doubling ends with room for one more string. -/
theorem roomyCount_room (acceptable : Acceptable factor) {size : Nat} (few : size + 1 < 2 ^ 33)
    {limit count : Nat} (enough : 2 ^ 49 ≤ 2 ^ limit * count) :
    size + 1 < growthThreshold (roomyCount factor size limit count) factor := by
  induction limit generalizing count with
  | zero =>
      have reached := acceptable.threshold_large (by omega : 2 ^ 49 ≤ count)
      exact Nat.lt_of_lt_of_le few reached
  | succ limit ih =>
      rw [roomyCount]
      split
      · apply ih
        rw [← Nat.mul_assoc, ← Nat.pow_succ]
        exact enough
      · rename_i roomy
        exact Nat.not_le.mp roomy

theorem countWithRoom_room (acceptable : Acceptable table.maxLoadFactor)
    (some : 0 < table.bucketCount) (few : table.size < 2 ^ 32) :
    table.size + 1 < growthThreshold table.countWithRoom table.maxLoadFactor := by
  apply acceptable.roomyCount_room (by omega)
  rw [Table.maxDoublings]
  omega

theorem roomyCount_small (acceptable : Acceptable factor) {size : Nat} (few : size + 1 < 2 ^ 33)
    (limit : Nat) {count : Nat} (small : count < 2 ^ 53) :
    roomyCount factor size limit count < 2 ^ 53 := by
  induction limit generalizing count with
  | zero => exact small
  | succ limit ih =>
      rw [roomyCount]
      split
      · rename_i full
        have bound : count < 2 ^ 49 := by
          by_contra many
          have reached := acceptable.threshold_large (Nat.not_lt.mp many)
          omega
        exact ih (by omega)
      · exact small

end Acceptable

/-- The table has the load factor `factor` and stays below it. -/
structure Fits (factor : Binary64) (table : Table w) : Prop where
  maxLoadFactor : table.maxLoadFactor = factor
  bucketCount : table.bucketCount < 2 ^ 53
  below : table.size * unitsPerOne < table.bucketCount * factor.units

theorem Roomed.fits (roomed : Roomed before after) (acceptable : Acceptable factor)
    (some : 0 < before.bucketCount) (few : after.size < 2 ^ 32) (fits : Fits factor before) :
    Fits factor after := by
  have less := roomed.size_le
  have more := roomed.le_size
  have same := fits.maxLoadFactor
  subst same
  have room := acceptable.countWithRoom_room some (by omega)
  have small := acceptable.roomyCount_small (by omega : before.size + 1 < 2 ^ 33)
    Table.maxDoublings fits.bucketCount
  have count := roomed.bucketCount
  rw [← count] at room
  rw [← Table.countWithRoom, ← count] at small
  refine ⟨roomed.maxLoadFactor, small, ?_⟩
  by_contra reached
  -- a product that does not pass the size is not rounded past it either
  have threshold : growthThreshold after.bucketCount before.maxLoadFactor ≤ after.size :=
    floorWord_times_le small (by omega) (Nat.not_lt.mp reached)
  omega

/-- The load stays within `factor` for as long as there are less than 2^32 strings. -/
structure KeepsLoad (factor : Binary64) (before after : Table w) : Prop where
  size : before.size ≤ after.size
  fits : after.size < 2 ^ 32 → Fits factor before → Fits factor after

theorem Roomed.keepsLoad (roomed : Roomed before after) (acceptable : Acceptable factor)
    (some : 0 < before.bucketCount) : KeepsLoad factor before after :=
  ⟨roomed.size_le, roomed.fits acceptable some⟩

theorem Table.Sound.bucketCount_pos (sound : table.Sound) : 0 < table.bucketCount := by
  rcases sound with ⟨chains, arranged⟩
  exact arranged.nonempty

theorem reserve_leaves_room (sound : table.Sound) (acceptable : Acceptable table.maxLoadFactor)
    (few : table.size < 2 ^ 32) {reserved : Table.Grown w} (reserves : table.reserve = .ok reserved)
    (enlarged : Enlarged table reserved.table) :
    reserved.table.size + 1 < reserved.table.threshold := by
  rcases enlarged.sound with ⟨chains, arranged⟩
  rw [arranged.threshold, enlarged.size, enlarged.maxLoadFactor, (reserve_room sound reserves).1]
  exact acceptable.countWithRoom_room sound.bucketCount_pos few

theorem KeepsLoad.refl (factor : Binary64) (table : Table w) : KeepsLoad factor table table :=
  ⟨Nat.le_refl _, fun _ fits => fits⟩

theorem KeepsLoad.trans {first second third : Table w} (earlier : KeepsLoad factor first second)
    (later : KeepsLoad factor second third) : KeepsLoad factor first third := by
  refine ⟨Nat.le_trans earlier.size later.size, ?_⟩
  intro few fits
  exact later.fits few (earlier.fits (Nat.lt_of_le_of_lt later.size few) fits)

theorem evolves_keepsLoad (acceptable : Acceptable factor) :
    Evolves (Table.Sound : Table w → Prop) (KeepsLoad factor) := by
  apply Table.evolves (KeepsLoad.refl factor) KeepsLoad.trans
  · intro table grown sound reserves enlarged
    exact (reserve_roomed sound reserves enlarged).keepsLoad acceptable sound.bucketCount_pos
  · intro table hash content step sound inserted
    exact inserted.roomed.keepsLoad acceptable sound.bucketCount_pos

theorem fits_ofConfig (valid : config.validate = .ok ()) (buckets : config.buckets < 2 ^ 53) :
    Fits config.maxLoadFactor (Table.ofConfig config : Table w) := by
  have count : (Table.ofConfig config : Table w).bucketCount = config.buckets := by
    simp [Table.ofConfig, Table.bucketCount]
  have empty : (Table.ofConfig config : Table w).size = 0 := rfl
  refine ⟨rfl, by rw [count]; exact buckets, ?_⟩
  rw [count, empty, Nat.zero_mul]
  exact Nat.mul_pos (Config.buckets_pos valid) (acceptable_of_validate valid).units_pos

theorem Fits.exact (fits : Fits factor table) (positive : factor.negative = false) :
    (table.size : ℚ) < table.bucketCount * factor.value := by
  have one : (0 : ℚ) < unitsPerOne := Nat.cast_pos.mpr unitsPerOne_pos
  have below : ((table.size * unitsPerOne : Nat) : ℚ) < (table.bucketCount * factor.units : Nat) :=
    Nat.cast_lt.mpr fits.below
  rw [value_of_positive positive, ← mul_div_assoc, lt_div_iff₀ one, ← Nat.cast_mul, ← Nat.cast_mul]
  exact below

theorem Fits.rounded (fits : Fits factor table) (acceptable : Acceptable factor)
    (some : 0 < table.bucketCount) (few : table.size < 2 ^ 32) :
    table.loadFactor.atMost factor = true :=
  dividedBy_atMost (Nat.lt_trans few (by decide)) fits.bucketCount some acceptable.finite
    acceptable.positive (Nat.le_of_lt fits.below)

/-- After any calls the strings are strictly fewer than the buckets times the load factor, and the
rounded load factor that the table reports is at most its limit. -/
theorem load_within_limit (valid : config.validate = .ok ()) (buckets : config.buckets < 2 ^ 53)
    (generators : Nat → Generator w) (calls : List (Call w))
    (reached : table =
      ((⟨Table.ofConfig config, generators⟩ : Session (Table w) w).run calls).store)
    (few : table.size < 2 ^ 32) :
    table.maxLoadFactor = config.maxLoadFactor ∧
      (table.size : ℚ) < table.bucketCount * table.maxLoadFactor.value ∧
      table.loadFactor.atMost table.maxLoadFactor = true := by
  have acceptable := acceptable_of_validate valid
  have start : (⟨Table.ofConfig config, generators⟩ : Session (Table w) w).store.Sound :=
    Table.sound_ofConfig valid
  have sound := Table.firstWins.good_calls start calls
  have kept := (evolves_keepsLoad acceptable).calls Table.firstWins start calls
  rw [← reached] at sound kept
  have fits := kept.fits few (fits_ofConfig valid buckets)
  rw [fits.maxLoadFactor]
  exact ⟨rfl, fits.exact acceptable.positive,
    fits.rounded acceptable sound.bucketCount_pos few⟩

/-- At most half a string for each bucket. -/
def halfFull : Config := ⟨1, ⟨0x3fe0000000000000#64⟩⟩

/-- The extension at the end is refused, but makes room as well. -/
def halfFullCalls : List (Call .narrow) :=
  [.request (.insert 7 [65]), .request (.insert 8 [66]), .generate 0,
    .request (.insertExtension 9 10 [67])]

def halfFullTable : Table .narrow :=
  ((⟨Table.ofConfig halfFull, fun _ => .counter { stem := 7 }⟩ :
    Session (Table .narrow) .narrow).run halfFullCalls).store

theorem halfFullTable_reachable : halfFullTable.Reachable :=
  ⟨halfFull, _, halfFullCalls, by decide +kernel, rfl⟩

theorem load_within_limit_halfFull :
    halfFullTable.maxLoadFactor = halfFull.maxLoadFactor ∧
      (halfFullTable.size : ℚ) <
        halfFullTable.bucketCount * halfFullTable.maxLoadFactor.value ∧
      halfFullTable.loadFactor.atMost halfFullTable.maxLoadFactor = true :=
  load_within_limit (by decide +kernel) (by decide) (fun _ => .counter { stem := 7 })
    halfFullCalls rfl (by decide +kernel)

end Interner
