import Interner.Proofs.Generator.Fairness
import Interner.Proofs.Generator.Trials
import Mathlib.Data.Nat.Nth

/-!
Which words of a stream the characters of a text come from. In a stream that goes on being accepted the
accepted words are numbered from where the stream stands; a text is what the next of them select, and
leaves the stream right behind the last one.
-/

namespace Interner

variable {n : Nat} {draws : DrawStream}

namespace DrawStream

def movedTo (draws : DrawStream) (position : Nat) : DrawStream := { draws with position }

/-- Infinitely many words of the stream are accepted. -/
def GoesOn (n : Nat) (draws : DrawStream) : Prop :=
  {q | (accept? n (draws.word q)).isSome}.Infinite

/-- Where the accepted words are, numbered from 0 from where the stream stands. -/
noncomputable def place (n : Nat) (draws : DrawStream) : Nat → Nat :=
  Nat.nth fun q => draws.position ≤ q ∧ (accept? n (draws.word q)).isSome

noncomputable def past (n : Nat) (draws : DrawStream) : Nat → Nat
  | 0 => draws.position
  | m + 1 => place n draws m + 1

theorem past_patience (n patience : Nat) (draws : DrawStream) :
    past n { draws with patience } = past n draws := by
  funext m
  cases m <;> rfl

section Places

variable (goesOn : draws.GoesOn n)

include goesOn

theorem infinite_ahead :
    {q | draws.position ≤ q ∧ (accept? n (draws.word q)).isSome}.Infinite := by
  rw [Set.infinite_iff_exists_gt]
  intro q
  rcases (Set.infinite_iff_exists_gt.mp goesOn) (max draws.position q) with ⟨later, accepted, above⟩
  exact ⟨later, ⟨by omega, accepted⟩, by omega⟩

theorem place_strictMono : StrictMono (place n draws) := Nat.nth_strictMono (infinite_ahead goesOn)

theorem exists_place {q : Nat} : (∃ m, place n draws m = q) ↔
    draws.position ≤ q ∧ (accept? n (draws.word q)).isSome :=
  Set.ext_iff.mp (Nat.range_nth_of_infinite (infinite_ahead goesOn)) q

theorem eq_place {f : Nat → Nat} (mono : StrictMono f)
    (places : ∀ q, (∃ m, f m = q) ↔ draws.position ≤ q ∧ (accept? n (draws.word q)).isSome) :
    f = place n draws := by
  rw [← mono.range_inj (place_strictMono goesOn)]
  ext q
  exact (places q).trans (exists_place goesOn).symm

theorem past_le_place (m : Nat) : past n draws m ≤ place n draws m := by
  cases m with
  | zero => exact ((exists_place goesOn).mp ⟨0, rfl⟩).1
  | succ m => exact place_strictMono goesOn (Nat.lt_succ_self m)

theorem place_lt_past {m k : Nat} : place n draws m < past n draws k ↔ m < k := by
  cases k with
  | zero =>
      have ahead := past_le_place goesOn m
      have started := ((exists_place goesOn).mp ⟨m, rfl⟩).1
      simp only [past, Nat.not_lt_zero, iff_false]
      omega
  | succ k => rw [past, Nat.lt_succ_iff, Nat.lt_succ_iff, (place_strictMono goesOn).le_iff_le]

theorem past_mono {m k : Nat} (le : m ≤ k) : past n draws m ≤ past n draws k := by
  cases m with
  | zero =>
      cases k with
      | zero => exact Nat.le_refl _
      | succ k => exact Nat.le_succ_of_le ((exists_place goesOn).mp ⟨k, rfl⟩).1
  | succ m => exact (place_lt_past goesOn).mpr le

theorem place_moved (k : Nat) :
    place n (draws.movedTo (past n draws k)) = fun m => place n draws (k + m) := by
  have still : (draws.movedTo (past n draws k)).GoesOn n := goesOn
  symm
  apply eq_place still
  · exact fun first second less => place_strictMono goesOn (Nat.add_lt_add_left less k)
  · intro q
    constructor
    · rintro ⟨m, rfl⟩
      have accepted := ((exists_place goesOn).mp ⟨k + m, rfl⟩).2
      refine ⟨Nat.le_of_not_lt fun before => ?_, accepted⟩
      have := (place_lt_past goesOn).mp before
      omega
    · rintro ⟨behind, accepted⟩
      rcases (exists_place goesOn).mpr ⟨Nat.le_trans (past_mono goesOn (Nat.zero_le k)) behind,
        accepted⟩ with ⟨m, rfl⟩
      have := mt (place_lt_past goesOn).mpr (Nat.not_lt.mpr behind)
      exact ⟨m - k, by rw [Nat.add_sub_cancel' (by omega)]⟩

theorem past_moved (k m : Nat) :
    past n (draws.movedTo (past n draws k)) m = past n draws (k + m) := by
  cases m with
  | zero => rfl
  | succ m => rw [past, place_moved goesOn, ← Nat.add_assoc, past]

/-- The next draw takes the next accepted word, if it has patience enough. -/
theorem index_eq_place (lasts : place n draws 0 < draws.position + draws.patience) :
    ∃ index, accept? n (draws.word (place n draws 0)) = some index ∧
      draws.index n = (some index, draws.movedTo (past n draws 1)) := by
  have ahead := (exists_place goesOn).mp ⟨0, rfl⟩
  rcases Option.isSome_iff_exists.mp ahead.2 with ⟨index, selected⟩
  have here : draws.position + (place n draws 0 - draws.position) = place n draws 0 := by omega
  have first : FirstAccepted n draws (place n draws 0 - draws.position) index := by
    constructor
    · intro k before
      by_contra accepted
      rcases (exists_place goesOn).mpr ⟨Nat.le_add_right draws.position k,
        Option.isSome_iff_ne_none.mpr accepted⟩ with ⟨m, placed⟩
      have := (place_strictMono goesOn).monotone (Nat.zero_le m)
      omega
    · rw [here]
      exact selected
  refine ⟨index, selected, ?_⟩
  rw [DrawStream.index, first.indexWithin_eq (by omega), advance, ← Nat.add_assoc, here]
  rfl

/-- The stream never waits for more rejected words than it has patience for, up to accepted word `k`. -/
def Lasts (n : Nat) (draws : DrawStream) (k : Nat) : Prop :=
  ∀ m < k, place n draws m < past n draws m + draws.patience

omit goesOn in
theorem Lasts.mono {m k : Nat} (lasts : draws.Lasts n k) (le : m ≤ k) : draws.Lasts n m :=
  fun i inside => lasts i (Nat.lt_of_lt_of_le inside le)

theorem lasts_of_past_le {k : Nat} (enough : past n draws k ≤ draws.patience) : draws.Lasts n k := by
  intro m inside
  have := (place_lt_past goesOn).mpr inside
  omega

theorem Lasts.moved {k m : Nat} (lasts : draws.Lasts n (k + m)) :
    (draws.movedTo (past n draws k)).Lasts n m := by
  intro i inside
  rw [place_moved goesOn, past_moved goesOn]
  exact lasts (k + i) (Nat.add_lt_add_left inside k)

end Places

/-- The stream of the accepted words alone, which is never waited for. -/
noncomputable def sifted (n : Nat) (draws : DrawStream) : DrawStream where
  word m := draws.word (place n draws m)
  patience := 1

section Sifted

variable (goesOn : draws.GoesOn n)

include goesOn

theorem accepted_sifted (m : Nat) : (accept? n ((sifted n draws).word m)).isSome :=
  ((exists_place goesOn).mp ⟨m, rfl⟩).2

theorem goesOn_sifted : (sifted n draws).GoesOn n := by
  rw [GoesOn, Set.infinite_iff_exists_gt]
  exact fun m => ⟨m + 1, accepted_sifted goesOn (m + 1), Nat.lt_succ_self m⟩

theorem place_sifted : place n (sifted n draws) = fun m => m := by
  symm
  apply eq_place (goesOn_sifted goesOn) strictMono_id
  exact fun q => ⟨fun _ => ⟨Nat.zero_le q, accepted_sifted goesOn q⟩, fun _ => ⟨q, rfl⟩⟩

theorem past_sifted (m : Nat) : past n (sifted n draws) m = m := by
  cases m with
  | zero => rfl
  | succ m => rw [past, place_sifted goesOn]

theorem lasts_sifted (k : Nat) : (sifted n draws).Lasts n k := by
  intro m _
  rw [place_sifted goesOn, past_sifted goesOn]
  exact Nat.lt_succ_self m

end Sifted

/-- Some of the rejected words that are still ahead have been deleted from the stream. -/
def Thinned (n : Nat) (draws shorter : DrawStream) : Prop :=
  ∃ kept : Nat → Nat, StrictMono kept ∧ (∀ i, shorter.word i = draws.word (kept i)) ∧
    draws.position ≤ kept shorter.position ∧
    ∀ q, draws.position ≤ q → (accept? n (draws.word q)).isSome →
      ∃ i, shorter.position ≤ i ∧ kept i = q

section Thinned

variable {shorter : DrawStream}

theorem Thinned.goesOn (thinned : Thinned n draws shorter) (goesOn : draws.GoesOn n) :
    shorter.GoesOn n := by
  rcases thinned with ⟨kept, mono, words, _, all⟩
  rw [GoesOn, Set.infinite_iff_exists_gt]
  intro i
  rcases (Set.infinite_iff_exists_gt.mp (infinite_ahead goesOn)) (kept i) with
    ⟨q, ⟨ahead, accepted⟩, later⟩
  rcases all q ahead accepted with ⟨j, _, rfl⟩
  refine ⟨j, ?_, mono.lt_iff_lt.mp later⟩
  rw [← words] at accepted
  exact accepted

theorem Thinned.sifted (thinned : Thinned n draws shorter) (goesOn : draws.GoesOn n) :
    sifted n shorter = sifted n draws := by
  have still := thinned.goesOn goesOn
  rcases thinned with ⟨kept, mono, words, start, all⟩
  have places : (fun m => kept (place n shorter m)) = place n draws := by
    apply eq_place goesOn (mono.comp (place_strictMono still))
    intro q
    constructor
    · rintro ⟨m, rfl⟩
      rcases (exists_place still).mp ⟨m, rfl⟩ with ⟨ahead, accepted⟩
      rw [words] at accepted
      exact ⟨Nat.le_trans start (mono.monotone ahead), accepted⟩
    · rintro ⟨ahead, accepted⟩
      rcases all q ahead accepted with ⟨i, inside, rfl⟩
      rw [← words] at accepted
      rcases (exists_place still).mpr ⟨inside, accepted⟩ with ⟨m, rfl⟩
      exact ⟨m, rfl⟩
  simp only [DrawStream.sifted, words, ← places]

end Thinned

end DrawStream

namespace RandomGenerator

open DrawStream

variable {w : Width} {table : CharacterTable}

noncomputable def letter (table : CharacterTable) (draws : DrawStream) (m : Nat) : UInt8 :=
  table.chars.getD ((accept? table.size (draws.word (place table.size draws m))).getD 0) 0

noncomputable def spelled (table : CharacterTable) (draws : DrawStream) (length first : Nat) : Bytes :=
  (List.range length).map fun j => letter table draws (first + j)

/-- The text has one character for each of the accepted words from number `first` on. -/
structure Spells (table : CharacterTable) (draws : DrawStream) (length first : Nat) (text : Bytes) :
    Prop where
  full : text.length = length
  letters : ∀ j < length, ∃ index char,
    accept? table.size (draws.word (place table.size draws (first + j))) = some index ∧
      table.chars[index]? = some char ∧ text[j]? = some char

theorem spelled_succ (table : CharacterTable) (draws : DrawStream) (length first : Nat) :
    spelled table draws (length + 1) first =
      letter table draws first :: spelled table draws length (first + 1) := by
  simp [spelled, List.range_succ_eq_map, Nat.add_right_comm, Nat.add_assoc]

section Texts

variable (goesOn : draws.GoesOn table.size)

include goesOn

theorem spelled_moved (k length first : Nat) :
    spelled table (draws.movedTo (past table.size draws k)) length first =
      spelled table draws length (k + first) := by
  have letters (m : Nat) : letter table (draws.movedTo (past table.size draws k)) m =
      letter table draws (k + m) := by
    simp only [letter, place_moved goesOn]
    rfl
  simp only [spelled, letters, Nat.add_assoc]

theorem spelled_spells (length first : Nat) :
    Spells table draws length first (spelled table draws length first) := by
  constructor
  · simp [spelled]
  · intro j inside
    have accepted := ((exists_place goesOn).mp ⟨first + j, rfl⟩).2
    rcases Option.isSome_iff_exists.mp accepted with ⟨index, selected⟩
    have listed := accept?_lt (List.length_pos_of_ne_nil table.nonempty) selected
    refine ⟨index, _, selected, List.getElem?_eq_getElem listed, ?_⟩
    simp [spelled, inside, letter, selected, List.getD_eq_getElem?_getD,
      List.getElem?_eq_getElem listed]

theorem spelled_sifted (length first : Nat) :
    spelled table (sifted table.size draws) length first = spelled table draws length first := by
  have letters (m : Nat) : letter table (sifted table.size draws) m = letter table draws m := by
    simp only [letter, place_sifted goesOn]
    rfl
  simp only [spelled, letters]

/-- A text takes one accepted word for each of its characters. -/
theorem drawText_eq {length : Nat} (lasts : draws.Lasts table.size length) :
    drawText table length draws =
      (some (spelled table draws length 0), draws.movedTo (past table.size draws length)) := by
  induction length generalizing draws with
  | zero => rfl
  | succ length ih =>
      rcases index_eq_place goesOn (lasts 0 (Nat.succ_pos length)) with ⟨index, selected, drawn⟩
      have inside := accept?_lt (List.length_pos_of_ne_nil table.nonempty) selected
      have char : table.chars[index]? = some (letter table draws 0) := by
        rw [letter, selected, Option.getD_some, List.getD_eq_getElem?_getD,
          List.getElem?_eq_getElem inside, Option.getD_some]
      rw [Nat.add_comm length 1] at lasts
      have still : (draws.movedTo (past table.size draws 1)).GoesOn table.size := goesOn
      have rest := ih still (lasts.moved goesOn)
      rw [past_moved goesOn, spelled_moved goesOn, Nat.add_comm 1 length] at rest
      rw [drawText, spelled_succ]
      simp only [drawn, rest, char, Option.bind_some, Option.map_some]
      rfl

end Texts

end RandomGenerator

end Interner
