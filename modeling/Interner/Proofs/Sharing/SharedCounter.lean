import Interner.Proofs.Session.Joining
import Interner.Proofs.Sharing.Announced
import Interner.Proofs.Sharing.Locked
import Interner.Proofs.Sharing.Progress
import Interner.Proofs.Sharing.Prompt

namespace Interner

variable {ι σ τ : Type} {w : Width}

theorem filterMap_sublist {α β : Type} {first second : α → Option β} {items : List α}
    (agree : ∀ item ∈ items, ∀ result, first item = some result → second item = some result) :
    (items.filterMap first).Sublist (items.filterMap second) := by
  induction items with
  | nil => exact .slnil
  | cons item items ih =>
      obtain ⟨here, later⟩ := List.forall_mem_cons.mp agree
      rw [List.filterMap_cons, List.filterMap_cons]
      cases result : first item with
      | none =>
          cases second item with
          | none => exact ih later
          | some other => exact (ih later).cons other
      | some result' =>
          rw [here result' result]
          exact (ih later).cons_cons result'

def Returned.id? (returned : Returned w) : Option (Hash w) :=
  match returned.call, returned.answer with
  | .generate _, .generated (some (.ok made)) => some made.hash
  | _, _ => none

def Crew.generatedIds (crew : Crew ι σ w) : List (Hash w) := crew.returned.filterMap Returned.id?

theorem Returned.fresh_ids {start : CounterGenerator w} {value : BitVec 64}
    {returned : Returned w} (generate : returned.call.isGenerate = true)
    (answer : returned.answer = .fresh start value) :
    returned.id? = some (start.hashOf value) ∧ returned.new? = some (start.hashOf value) := by
  rcases returned with ⟨call, drawn, answered⟩
  obtain rfl : answered = .fresh start value := answer
  cases call with
  | generate policy => exact ⟨rfl, rfl⟩
  | request | discard => cases generate

theorem Returned.id?_eq_none {returned : Returned w} (other : returned.call.isGenerate ≠ true) :
    returned.id? = none := by
  rcases returned with ⟨call, drawn, answer⟩
  cases call with
  | generate policy => exact absurd rfl other
  | request | discard => rfl

section Ids

variable [IdStore σ w] [Fintype ι] {start : CounterGenerator w} {base : σ} {total : Nat}
  {alone : Prop} {planted : List (BitVec 64)} {crew : Crew ι σ w}

theorem Prompt.generatedIds (prompt : Prompt start base total alone planted crew)
    (news : crew.news.Nodup) (tallied : crew.Tallied total) (done : crew.Done) :
    crew.generatedIds.Perm (start.ids total) := by
  have each : ∀ returned ∈ crew.returned, ∀ id, returned.id? = some id →
      returned.new? = some id ∧ id ∈ start.ids total := by
    intro returned member id same
    by_cases generate : returned.call.isGenerate = true
    · obtain ⟨value, candidate, answer⟩ := prompt.returned returned member generate
      obtain ⟨known, new⟩ := Returned.fresh_ids generate answer
      obtain rfl := Option.some.inj (known.symm.trans same)
      exact ⟨new, List.mem_map_of_mem candidate⟩
    · rw [Returned.id?_eq_none generate] at same
      cases same
  have nodup : crew.generatedIds.Nodup :=
    news.sublist (filterMap_sublist fun returned member id same => (each returned member id same).1)
  have subset : crew.generatedIds ⊆ start.ids total := by
    intro id member
    obtain ⟨returned, known, same⟩ := List.mem_filterMap.mp member
    exact (each returned known id same).2
  have length : crew.generatedIds.length = total := by
    rw [← tallied.of_done done, Crew.generatedIds, List.length_filterMap_eq_countP]
    apply List.countP_congr
    intro returned member
    by_cases generate : returned.call.isGenerate = true
    · obtain ⟨value, candidate, answer⟩ := prompt.returned returned member generate
      simp [(Returned.fresh_ids generate answer).1, generate]
    · simp [Returned.id?_eq_none generate, generate]
  -- distinct ids among the candidates, and as many as there are candidates
  apply (nodup.subperm subset).perm_of_length_le
  rw [length, CounterGenerator.ids, CounterGenerator.candidates, List.length_map, List.length_map,
    List.length_range]

end Ids

theorem Carries.plant [IdStore σ w] [IdStore τ w] {wrap : σ → τ} (carries : Carries wrap)
    (generator : CounterGenerator w) (store : σ) (values : List (BitVec 64)) :
    generator.plant (wrap store) values = wrap (generator.plant store values) := by
  induction values generalizing store with
  | nil => rfl
  | cons value values ih => rw [generator.plant_cons, carries.extend, generator.plant_cons]; exact ih _

/-- The ids of the candidates of all generate calls are free, and no call claims them otherwise. -/
structure Unclaimed [Fintype ι] (table : Table w) (start : CounterGenerator w)
    (calls : ι → List (SharedCall w)) : Prop where
  /-- The string that the generator extends is stored. -/
  known : ∃ head, IdStore.lookup table start.stem = some head
  distinct : (start.ids (generateCalls calls)).Nodup
  free : ∀ id ∈ start.ids (generateCalls calls), IdStore.lookup table id = none
  requests : ∀ who request, .request request ∈ calls who → ∀ id, request.target? = some id →
    id ∉ start.ids (generateCalls calls)
  discards : ∀ who amount, .discard amount ∉ calls who
  /-- A policy lets a call try at least one candidate. -/
  tries : ∀ who policy, .generate policy ∈ calls who → 0 < policy.patience

/-- The table after as many generate calls, made one after another. -/
def sequentially [Fintype ι] (table : Table w) (start : CounterGenerator w)
    (calls : ι → List (SharedCall w)) : Table w :=
  ((⟨table, fun _ => .counter start⟩ : Session (Table w) w).run
    (List.replicate (generateCalls calls) (.generate 0))).store

/-- What generate calls lead to whose candidates nothing else claims. -/
structure Immediate [Fintype ι] (table : Table w) (start : CounterGenerator w)
    (calls : ι → List (SharedCall w)) (final : Crew ι (Backend w) w) : Prop where
  new : ∀ returned ∈ final.returned, returned.call.isGenerate = true →
    ∃ id ∈ start.ids (generateCalls calls),
      returned.answer = .generated (some (.ok ⟨id, .new⟩))
  unasked : final.journal.consultations = []
  ids : final.Done → final.generatedIds.Perm (start.ids (generateCalls calls))
  alike : final.Done → (∀ who, ∀ call ∈ calls who, call.isGenerate = true) →
    0 < start.policy.patience → ∃ last, final.store.table? = some last ∧
      last.bucketCount = (sequentially table start calls).bucketCount ∧
      SameEntries Table.size Table.size last (sequentially table start calls)

/-- What threads may rely on that share a counter and a locked table. -/
structure Distinct [Fintype ι] [DecidableEq ι] (table : Table w) (start : CounterGenerator w)
    (calls : ι → List (SharedCall w)) (final : Crew ι (Backend w) w) : Prop where
  /-- Until the counter has gone round, every attempt draws another value. -/
  drawn : final.advanced ≤ 2 ^ 64 → final.drawn.Nodup
  /-- No id is returned as new by two calls. -/
  news : final.news.Nodup
  resolves : ∀ returned ∈ final.returned, returned.call.isGenerate = true →
    ∀ id, returned.new? = some id → ∃ value head, returned.drawn = some value ∧
      id = start.hashOf value ∧ IdStore.lookup final.store start.stem = some head ∧
      ∀ later, IdStore.lookup (final.run later).store id = some (head ++ start.suffixOf value)
  immediate : Unclaimed table start calls → Immediate table start calls final

section Shared

variable [Fintype ι] {table : Table w} {start : CounterGenerator w}
  {calls : ι → List (SharedCall w)}

theorem Unclaimed.fit (unclaimed : Unclaimed table start calls) (who : ι) :
    ∀ call ∈ calls who, Fit start (generateCalls calls)
      (∀ who, ∀ call ∈ calls who, call.isGenerate = true) call := by
  intro call member
  cases call with
  | request asked =>
      exact .request (fun only => nomatch only who _ member) (unclaimed.requests who asked member)
  | generate policy => exact .generate (unclaimed.tries who policy member)
  | discard amount => exact absurd member (unclaimed.discards who amount)

variable [DecidableEq ι]

theorem Unclaimed.immediate (sound : table.Sound) (unclaimed : Unclaimed table start calls)
    (locks : Nat) (schedule : List ι) : Immediate table start calls
      ((Crew.launch (Backend.shared locks table) start calls).run schedule) := by
  have laws := Backend.firstWins (w := w) locks
  have lookups : ∀ hash : Hash w,
      IdStore.lookup (Backend.shared locks table) hash = IdStore.lookup table hash := by
    intro hash
    rw [IdStore.lookup, IdStore.lookup, (Backend.carries_shared locks).lookup]
  have ok : ∃ inner : Table w, inner.Sound ∧ Backend.shared locks table = Backend.shared locks inner :=
    ⟨table, sound, rfl⟩
  obtain ⟨head, known⟩ := unclaimed.known
  have begins : Prompt start (Backend.shared locks table) (generateCalls calls)
      (∀ who, ∀ call ∈ calls who, call.isGenerate = true) []
      (Crew.launch (Backend.shared locks table) start calls) :=
    .launch unclaimed.fit (fun id member => (lookups id).trans (unclaimed.free id member))
      ⟨head, (lookups _).trans known⟩
  obtain ⟨planted, prompt⟩ := begins.run unclaimed.distinct laws ok schedule
  have orderly := laws.orderly ok start calls schedule
  constructor
  · intro returned member generate
    obtain ⟨value, candidate, answer⟩ := prompt.returned returned member generate
    exact ⟨_, List.mem_map_of_mem candidate, answer⟩
  · exact prompt.journal
  · exact prompt.generatedIds orderly.announced.nodup (Crew.tallied _ start calls schedule)
  · intro done only tries
    have order := prompt.planted_of_done done
    have distinct : (planted.map start.hashOf).Nodup :=
      (order.map start.hashOf).nodup_iff.mpr unclaimed.distinct
    have free : ∀ id ∈ planted.map start.hashOf, IdStore.lookup table id = none :=
      fun id member => unclaimed.free id ((order.map start.hashOf).subset member)
    -- one caller plants the same candidates in the order of the counter
    have sequence := (Table.firstWins.session_generates sound tries known unclaimed.distinct
      unclaimed.free).1
    refine ⟨start.plant table planted, ?_, ?_, ?_⟩
    · rw [prompt.store only, (Backend.carries_shared locks).plant, Backend.table?_shared]
    · rw [sequentially, sequence, Table.bucketCount_plant sound known distinct free,
        Table.bucketCount_plant sound known unclaimed.distinct unclaimed.free, order.length_eq]
    · rw [sequentially, sequence]
      exact (Table.firstWins.planted sound known distinct free).same
        (Table.firstWins.planted sound known unclaimed.distinct unclaimed.free) order

/-- Threads that share a counter and a locked table are told distinct ids, whatever the order of their
steps, and every thread that has enough turns returns from all its calls. -/
theorem shared_counter_distinct (reachable : table.Reachable) {backend : Backend w}
    (inside : backend.table? = some table) (start : CounterGenerator w)
    (calls : ι → List (SharedCall w)) (schedule : List ι) :
    Distinct table start calls ((Crew.launch backend start calls).run schedule) ∧
      ((∀ who, ((calls who).map SharedCall.turns).sum ≤ schedule.count who) →
        ((Crew.launch backend start calls).run schedule).Done) := by
  obtain ⟨locks, rfl⟩ := Backend.eq_shared inside
  have sound := reachable.sound
  have laws := Backend.firstWins (w := w) locks
  have ok : ∃ inner : Table w, inner.Sound ∧ Backend.shared locks table = Backend.shared locks inner :=
    ⟨table, sound, rfl⟩
  have orderly := laws.orderly ok start calls schedule
  refine ⟨⟨orderly.counted.drawn_nodup, orderly.announced.nodup, ?_, ?_⟩, ?_⟩
  · intro returned member generate id new
    obtain ⟨value, head, drawn, own, known, present⟩ :=
      (orderly.announced.returned returned member id new).counted generate
    refine ⟨value, head, drawn, own, known, ?_⟩
    intro later
    exact laws.keeps_crew orderly.ok later id _ present
  · exact fun unclaimed => unclaimed.immediate sound locks schedule
  · exact fun turns => Crew.done_of_turns _ start turns

end Shared

/-- Two generate calls for one thread and one for another, none of which retries. -/
def pairCalls : Bool → List (SharedCall .narrow)
  | true => [.generate (.bounded 1), .generate (.bounded 1)]
  | false => [.generate (.bounded 1)]

def pairStart : CounterGenerator .narrow := { stem := 7 }

def pairCrew : Crew Bool (Backend .narrow) .narrow :=
  (Crew.launch (.locked (.table crowdedTable)) pairStart pairCalls).run
    (List.replicate 14 [true, false]).flatten

theorem ids_pair : pairStart.ids (generateCalls pairCalls) =
    [Hash.extend 7 [48], Hash.extend 7 [49], Hash.extend 7 [50]] := by
  have digit : ∀ n < 3, pairStart.hashOf (pairStart.valueAt n) =
      Hash.extend 7 [UInt8.ofNat (48 + n)] := by
    intro n small
    have number : (pairStart.valueAt n).toNat = n := by
      have zero : pairStart.valueAt n = BitVec.ofNat 64 n := BitVec.zero_add _
      rw [zero, BitVec.toNat_ofNat]
      omega
    have digits : decimalBytes n = [UInt8.ofNat (48 + n)] := by
      rw [decimalBytes, if_pos (by omega)]
    simp only [CounterGenerator.hashOf, CounterGenerator.suffixOf, CounterGenerator.write, number,
      digits]
    rfl
  have total : generateCalls pairCalls = 3 := by decide
  rw [total]
  simp only [CounterGenerator.ids, CounterGenerator.candidates, List.range_succ, List.range_zero,
    List.map_append, List.map_cons, List.map_nil, digit 0 (by decide), digit 1 (by decide),
    digit 2 (by decide)]
  rfl

theorem unclaimed_pair : Unclaimed crowdedTable pairStart pairCalls where
  known := ⟨[65], by decide +kernel⟩
  distinct := by
    rw [ids_pair]
    decide +kernel
  free := by
    rw [ids_pair]
    simp only [List.forall_mem_cons, List.not_mem_nil, false_imp_iff, implies_true, and_true]
    decide +kernel
  requests := by
    rintro (_ | _) request member <;> simp [pairCalls] at member
  discards := by
    rintro (_ | _) amount member <;> simp [pairCalls] at member
  tries := by
    rintro (_ | _) policy member <;> simp [pairCalls] at member <;> subst member <;> decide

theorem shared_counter_distinct_pair :
    Distinct crowdedTable pairStart pairCalls pairCrew ∧ pairCrew.Done ∧
      pairCrew.generatedIds.Perm
        [Hash.extend 7 [48], Hash.extend 7 [49], Hash.extend 7 [50]] := by
  have reachable : crowdedTable.Reachable := ⟨_, _, _, by decide +kernel, rfl⟩
  have inside : (Backend.locked (.table crowdedTable)).table? = some crowdedTable := rfl
  obtain ⟨distinct, returns⟩ := shared_counter_distinct reachable inside pairStart pairCalls
    (List.replicate 14 [true, false]).flatten
  have done : pairCrew.Done := returns (by decide)
  have ids := (distinct.immediate unclaimed_pair).ids done
  rw [ids_pair] at ids
  exact ⟨distinct, done, ids⟩

end Interner
