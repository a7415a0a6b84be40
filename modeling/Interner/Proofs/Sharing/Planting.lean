import Interner.Proofs.Generator.Protocol
import Interner.Proofs.Session.Refinement
import Interner.Proofs.Sharing.News
import Interner.Proofs.Store.Batch

namespace Interner

variable {σ : Type} {w : Width} [IdStore σ w] {good : σ → Prop} {size : σ → Nat}

namespace CounterGenerator

def candidates (generator : CounterGenerator w) (n : Nat) : List (BitVec 64) :=
  (List.range n).map generator.valueAt

def ids (generator : CounterGenerator w) (n : Nat) : List (Hash w) :=
  (generator.candidates n).map generator.hashOf

theorem candidates_succ (generator : CounterGenerator w) (n : Nat) :
    generator.candidates (n + 1) = generator.candidates n ++ [generator.valueAt n] := by
  rw [candidates, List.range_succ, List.map_append]
  rfl

/-- Offers the candidates of the given counter values to a store. -/
def plant (generator : CounterGenerator w) (store : σ) (values : List (BitVec 64)) : σ :=
  values.foldl (fun store value => (IdStore.insertExtension store (generator.hashOf value)
    generator.stem (generator.suffixOf value)).store) store

theorem plant_cons (generator : CounterGenerator w) (store : σ) (value : BitVec 64)
    (values : List (BitVec 64)) :
    generator.plant store (value :: values) = generator.plant (IdStore.insertExtension store
      (generator.hashOf value) generator.stem (generator.suffixOf value)).store values :=
  rfl

theorem candidates_subset (generator : CounterGenerator w) {few many : Nat} (less : few ≤ many) :
    generator.candidates few ⊆ generator.candidates many :=
  List.map_subset _ (List.range_subset.mpr less)

end CounterGenerator

/-- What has become of a store to which free candidates of distinct ids were offered. -/
structure Planted (size : σ → Nat) (generator : CounterGenerator w) (store after : σ)
    (values : List (BitVec 64)) (head : Bytes) : Prop where
  found : ∀ value ∈ values,
    IdStore.lookup after (generator.hashOf value) = some (head ++ generator.suffixOf value)
  others : ∀ hash ∉ values.map generator.hashOf, IdStore.lookup after hash = IdStore.lookup store hash
  size : size after = size store + values.length

namespace FirstWins

variable (laws : FirstWins good size) {store : σ} {generator : CounterGenerator w} {head : Bytes}

include laws

theorem good_plant (ok : good store) (values : List (BitVec 64)) :
    good (generator.plant store values) := by
  induction values generalizing store with
  | nil => exact ok
  | cons value values ih => exact ih (laws.good_extend ok _ _ _)

theorem planted (ok : good store) (known : IdStore.lookup store generator.stem = some head)
    {values : List (BitVec 64)} (distinct : (values.map generator.hashOf).Nodup)
    (free : ∀ hash ∈ values.map generator.hashOf, IdStore.lookup store hash = none) :
    Planted size generator store (generator.plant store values) values head := by
  induction values generalizing store with
  | nil => exact ⟨fun _ member => (List.not_mem_nil member).elim, fun _ _ => rfl, rfl⟩
  | cons value values ih =>
      obtain ⟨unlike, distinct⟩ := List.nodup_cons.mp distinct
      obtain ⟨here, later⟩ := List.forall_mem_cons.mp free
      obtain ⟨okay, _, offered⟩ :=
        laws.extend ok (generator.hashOf value) (generator.suffixOf value) known
      have present := offered.present
      rw [here, Option.getD_none] at present
      have still : ∀ hash ∈ values.map generator.hashOf, IdStore.lookup
          (IdStore.insertExtension store (generator.hashOf value) generator.stem
            (generator.suffixOf value)).store hash = none := by
        intro hash member
        rw [offered.elsewhere unlike hash member, later hash member]
      have rest := ih okay (offered.keeps _ _ known) distinct still
      refine ⟨List.forall_mem_cons.mpr ⟨?_, rest.found⟩, ?_, ?_⟩
      · exact (rest.others _ unlike).trans present
      · intro hash other
        rw [List.map_cons, List.mem_cons, not_or] at other
        exact (rest.others hash other.2).trans ((offered.lookup hash).trans (if_neg other.1))
      · rw [List.length_cons]
        have total := rest.size
        rw [offered.size, if_pos here] at total
        exact total.trans (by omega)

end FirstWins

/-- The order in which candidates were stored cannot be seen. -/
theorem Planted.same {generator : CounterGenerator w} {store first second : σ}
    {values others : List (BitVec 64)} {head : Bytes}
    (planted : Planted size generator store first values head)
    (again : Planted size generator store second others head) (order : values.Perm others) :
    SameEntries size size first second := by
  constructor
  · intro hash
    by_cases member : hash ∈ values.map generator.hashOf
    · obtain ⟨value, present, rfl⟩ := List.mem_map.mp member
      rw [planted.found value present, again.found value (order.subset present)]
    · have missing : hash ∉ others.map generator.hashOf :=
        fun present => member ((order.map generator.hashOf).symm.subset present)
      rw [planted.others hash member, again.others hash missing]
  · rw [planted.size, again.size, order.length_eq]

theorem Table.plant_eq_inserts {table : Table w} (sound : table.Sound)
    {generator : CounterGenerator w} {head : Bytes}
    (known : IdStore.lookup table generator.stem = some head) (values : List (BitVec 64)) :
    generator.plant table values = Request.finish table (Request.inserts
      (values.map fun value => (generator.hashOf value, head ++ generator.suffixOf value))) := by
  induction values generalizing table with
  | nil => rfl
  | cons value values ih =>
      obtain ⟨okay, _, offered⟩ :=
        firstWins.insert sound (generator.hashOf value) (head ++ generator.suffixOf value)
      rw [generator.plant_cons, extend_eq_insert sound _ _ known, List.map_cons,
        Request.finish_inserts_cons]
      exact ih okay (offered.keeps _ _ known)

theorem Table.bucketCount_plant {table : Table w} (sound : table.Sound)
    {generator : CounterGenerator w} {head : Bytes}
    (known : IdStore.lookup table generator.stem = some head) {values : List (BitVec 64)}
    (distinct : (values.map generator.hashOf).Nodup)
    (free : ∀ hash ∈ values.map generator.hashOf, IdStore.lookup table hash = none) :
    (generator.plant table values).bucketCount =
      grownCount (fun size => roomyCount table.maxLoadFactor size maxDoublings) values.length
        table.size table.bucketCount := by
  have hashes : (values.map fun value => (generator.hashOf value,
      head ++ generator.suffixOf value)).map Prod.fst = values.map generator.hashOf := by
    simp
  rw [plant_eq_inserts sound known, bucketCount_inserts sound, List.length_map]
  exact ⟨hashes ▸ distinct, hashes ▸ free⟩

theorem FirstWins.generate_free (laws : FirstWins good size) {store : σ} (ok : good store)
    (generator : CounterGenerator w) (tries : 0 < generator.policy.patience)
    (known : ∃ head, IdStore.lookup store generator.stem = some head)
    (free : IdStore.lookup store (generator.hashOf generator.counter) = none) :
    let made := (Generator.program (.counter generator)).run store (Generator.counter generator)
    made.store = generator.plant store [generator.counter] ∧
      made.source = .counter (generator.advance 1) := by
  obtain ⟨head, known⟩ := known
  obtain ⟨patience, same⟩ := Nat.exists_eq_succ_of_ne_zero (Nat.ne_of_gt tries)
  have drawn : (CandidateSource.next (Generator.counter generator)).1 =
      some (generator.suffixOf generator.counter) := rfl
  have whole := (laws.generateFrom_free ok known drawn free .counter generator.policy.decide
    patience 1).2.2
  simp only [Generator.program, CounterGenerator.program, Program.generate, same]
  rw [whole]
  exact ⟨rfl, rfl⟩

theorem FirstWins.after_generate (laws : FirstWins good size) {session : Session σ w}
    {generator : CounterGenerator w} (ok : good session.store)
    (own : session.generators 0 = .counter generator) (tries : 0 < generator.policy.patience)
    (known : ∃ head, IdStore.lookup session.store generator.stem = some head)
    (free : IdStore.lookup session.store (generator.hashOf generator.counter) = none) :
    (session.after (.generate 0)).store = generator.plant session.store [generator.counter] ∧
      (session.after (.generate 0)).generators 0 = .counter (generator.advance 1) := by
  obtain ⟨stored, counted⟩ := laws.generate_free ok generator tries known free
  rw [← own] at stored counted
  refine ⟨stored, ?_⟩
  rw [← counted]
  exact Function.update_self 0 _ session.generators

theorem FirstWins.session_generates (laws : FirstWins good size) {store : σ} (ok : good store)
    {start : CounterGenerator w} (tries : 0 < start.policy.patience) {head : Bytes}
    (known : IdStore.lookup store start.stem = some head) {count : Nat}
    (distinct : (start.ids count).Nodup)
    (free : ∀ id ∈ start.ids count, IdStore.lookup store id = none) :
    ((⟨store, fun _ => .counter start⟩ : Session σ w).run
        (List.replicate count (.generate 0))).store =
      start.plant store (start.candidates count) ∧
    ((⟨store, fun _ => .counter start⟩ : Session σ w).run
        (List.replicate count (.generate 0))).generators 0 =
      .counter (start.advance (BitVec.ofNat 64 count)) := by
  induction count with
  | zero => exact ⟨rfl, congrArg Generator.counter start.advance_zero.symm⟩
  | succ count ih =>
      have last : start.ids (count + 1) = start.ids count ++ [start.hashOf (start.valueAt count)] := by
        rw [CounterGenerator.ids, start.candidates_succ, List.map_append]
        rfl
      rw [last] at distinct free
      obtain ⟨before, _, apart⟩ := List.nodup_append.mp distinct
      have freeBefore : ∀ id ∈ start.ids count, IdStore.lookup store id = none :=
        fun id member => free id (List.mem_append_left _ member)
      have next : start.hashOf (start.valueAt count) ∉ start.ids count :=
        fun member => apart _ member _ List.mem_cons_self rfl
      obtain ⟨stored, generators⟩ := ih before freeBefore
      -- the next candidate is still free, since none of those planted so far has its hash
      have planted := laws.planted ok known before freeBefore
      have stem : start.stem ∉ start.ids count := by
        intro member
        rw [freeBefore _ member] at known
        cases known
      have okay : good (start.plant store (start.candidates count)) := laws.good_plant ok _
      rw [← stored] at planted okay
      have made := laws.after_generate okay generators tries
        ⟨head, (planted.others _ stem).trans known⟩
        ((planted.others _ next).trans (free _ (List.mem_append_right _ List.mem_cons_self)))
      rw [List.replicate_succ', Session.run_append]
      refine ⟨made.1.trans ?_, made.2.trans ?_⟩
      · rw [stored, start.candidates_succ]
        exact (List.foldl_append ..).symm
      · rw [BitVec.ofNat_add, ← CounterGenerator.advance_advance]
        rfl

end Interner
