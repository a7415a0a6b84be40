import Interner.Proofs.Sharing.Planting
import Interner.Proofs.Sharing.Tally
import Mathlib.Data.Multiset.Basic

/-!
Generate calls that find their first candidate free. If the candidates of all calls have hashes of
their own, which nobody else uses, then each call stores the candidate it drew, whatever the order of
the steps, and no policy is ever asked.
-/

namespace Interner

variable {ι σ α β : Type} {w : Width}

def Request.target? : Request w → Option (Hash w)
  | .insert hash _ => some hash
  | .insertExtension hash _ _ => some hash
  | .views _ => none
  | .intern content => some (Hash.ofBytes content)
  | .internExtension stem suffix => some (Hash.extend stem suffix)

namespace Program

/-- The program stores nothing under the given hashes, draws no candidate and asks no policy. -/
inductive Apart (ids : List (Hash w)) : Program w α → Prop where
  | done (answer : α) : Apart ids (.done answer)
  | insert {hash : Hash w} {content : Bytes} {next : Status → Program w α} (other : hash ∉ ids)
      (rest : ∀ status, Apart ids (next status)) : Apart ids (.insert hash content next)
  | insertExtension {hash stem : Hash w} {suffix : Bytes}
      {next : Except (StoreError w) Status → Program w α} (other : hash ∉ ids)
      (rest : ∀ result, Apart ids (next result)) :
      Apart ids (.insertExtension hash stem suffix next)
  | lookupTerminated {hash : Hash w} {next : Option Bytes → Program w α}
      (rest : ∀ found, Apart ids (next found)) : Apart ids (.lookupTerminated hash next)
  | record {event : Event w} {next : Program w α} (rest : Apart ids next) :
      Apart ids (.record (.event event) next)

namespace Apart

variable {ids : List (Hash w)} {program : Program w α}

theorem lookup {hash : Hash w} {next : Option Bytes → Program w α}
    (rest : ∀ found, Apart ids (next found)) : Apart ids (Program.lookup hash next) :=
  .lookupTerminated fun found => rest (found.map Bytes.withoutLast)

theorem map (apart : Apart ids program) (f : α → β) : Apart ids (program.map f) := by
  induction apart with
  | done answer => exact .done (f answer)
  | insert other _ ih => exact .insert other ih
  | insertExtension other _ ih => exact .insertExtension other ih
  | lookupTerminated _ ih => exact .lookupTerminated ih
  | record _ ih => exact .record ih

theorem collide (hash : Hash w) (candidate : Bytes) : Apart ids (Program.collide hash candidate) :=
  .lookup fun _ => .record (.done _)

end Apart

end Program

theorem Request.program_apart {ids : List (Hash w)} {request : Request w}
    (other : ∀ hash, request.target? = some hash → hash ∉ ids) :
    Program.Apart ids request.program := by
  cases request with
  | insert hash content => exact .insert (other hash rfl) fun _ => .done _
  | insertExtension hash stem suffix => exact .insertExtension (other hash rfl) fun _ => .done _
  | views hash => exact .lookupTerminated fun _ => .done _
  | intern content =>
      refine Program.Apart.map (.insert (other _ rfl) fun status => ?_) _
      split
      · exact .collide _ content
      · exact .done _
  | internExtension stem suffix =>
      refine Program.Apart.map (.insertExtension (other _ rfl) fun result => ?_) _
      split
      · exact .done _
      · exact .lookup fun head => .collide _ (head.getD [] ++ suffix)
      · exact .done _

section Steps

variable [IdStore σ w] {good : σ → Prop} {size : σ → Nat} {store : σ}

structure Untouched (ids : List (Hash w)) (store : σ) (generator : CounterGenerator w)
    (taken : Outcome σ (CounterGenerator w) w (Program w α)) : Prop where
  rest : taken.answer.Apart ids
  source : taken.source = generator
  journal : taken.journal.consultations = []
  lookup : ∀ hash ∈ ids, IdStore.lookup taken.store hash = IdStore.lookup store hash

theorem Program.Apart.step {ids : List (Hash w)} {program : Program w α}
    (apart : program.Apart ids) (laws : FirstWins good size) (ok : good store)
    (generator : CounterGenerator w) :
    program.drawn? generator = none ∧
      Untouched ids store generator (program.step store generator) := by
  cases apart with
  | done answer => exact ⟨rfl, .done answer, rfl, rfl, fun _ _ => rfl⟩
  | @insert hash content next other rest =>
      refine ⟨rfl, rest _, rfl, Journal.consultations_events _, ?_⟩
      exact (laws.insert ok hash content).2.2.elsewhere other
  | @insertExtension hash stem suffix next other rest =>
      refine ⟨rfl, rest _, rfl, Journal.consultations_events _, ?_⟩
      cases known : IdStore.lookup store stem with
      | none => exact fun id _ => (laws.refuse ok hash suffix known).2.2.lookup id
      | some head => exact (laws.extend ok hash suffix known).2.2.elsewhere other
  | lookupTerminated rest => exact ⟨rfl, rest _, rfl, rfl, fun _ _ => rfl⟩
  | record rest => exact ⟨rfl, rest, rfl, rfl, fun _ _ => rfl⟩

end Steps

def Answer.fresh (generator : CounterGenerator w) (value : BitVec 64) : Answer w :=
  .generated (some (.ok ⟨generator.hashOf value, .new⟩))

/-- Where the call of a worker stands. `alone` says that all calls generate. -/
inductive Stage (start : CounterGenerator w) (total : Nat) (alone : Prop) : Job w → Prop where
  | foreign {asked : Request w} {rest : Program w (Answer w)} (others : ¬alone)
      (apart : rest.Apart (start.ids total)) : Stage start total alone ⟨.request asked, rest, none⟩
  | drawing {policy : RetryPolicy w} {rest : Program w (Answer w)} (patience : Nat)
      (fresh : rest = (Program.generateFrom .counter start.stem policy.decide (patience + 1) 1).map
        .generated) : Stage start total alone ⟨.generate policy, rest, none⟩
  | offering {policy : RetryPolicy w} {value : BitVec 64}
      {next : Except (StoreError w) Status → Program w (Answer w)}
      (candidate : value ∈ start.candidates total)
      (new : next (.ok .new) = .done (.fresh start value)) :
      Stage start total alone ⟨.generate policy,
        .insertExtension (start.hashOf value) start.stem (start.suffixOf value) next, some value⟩
  | settled {policy : RetryPolicy w} {value : BitVec 64}
      (candidate : value ∈ start.candidates total) :
      Stage start total alone ⟨.generate policy, .done (.fresh start value), some value⟩

/-- A call that leaves the candidates free for the generate calls. -/
inductive Fit (start : CounterGenerator w) (total : Nat) (alone : Prop) : SharedCall w → Prop where
  | request {asked : Request w} (others : ¬alone)
      (other : ∀ hash, asked.target? = some hash → hash ∉ start.ids total) :
      Fit start total alone (.request asked)
  | generate {policy : RetryPolicy w} (tries : 0 < policy.patience) :
      Fit start total alone (.generate policy)

namespace Worker

structure Staged (start : CounterGenerator w) (total : Nat) (alone : Prop) (worker : Worker w) :
    Prop where
  waiting : ∀ call ∈ worker.waiting, Fit start total alone call
  job : ∀ job, worker.job = some job → Stage start total alone job

theorem Staged.of_stage {start : CounterGenerator w} {total : Nat} {alone : Prop}
    {waiting : List (SharedCall w)} {job : Job w}
    (fit : ∀ call ∈ waiting, Fit start total alone call) (stage : Stage start total alone job) :
    (⟨waiting, some job⟩ : Worker w).Staged start total alone where
  waiting := fit
  job := by
    intro underway same
    obtain rfl := Option.some.inj same
    exact stage

def undrawn (worker : Worker w) : Nat :=
  worker.waiting.countP SharedCall.isGenerate +
    worker.job.toList.countP fun job => job.call.isGenerate && job.drawn.isNone

/-- The value whose candidate the worker is about to offer. -/
def offered (worker : Worker w) : Multiset (BitVec 64) :=
  match worker.job with
  | some ⟨.generate _, .insertExtension _ _ _ _, some value⟩ => {value}
  | _ => 0

end Worker

/-- What holds while all generate calls find their candidates free; `planted` lists the values whose
candidates are stored, in order. -/
structure Prompt [IdStore σ w] [Fintype ι] (start : CounterGenerator w) (base : σ) (total : Nat)
    (alone : Prop) (planted : List (BitVec 64)) (crew : Crew ι σ w) : Prop where
  generator : crew.generator = start.advance (BitVec.ofNat 64 crew.drawn.length)
  drawn : crew.drawn = start.candidates crew.drawn.length
  undrawn : crew.drawn.length + ∑ who, (crew.workers who).undrawn = total
  /-- What was drawn is stored or about to be offered. -/
  accounted : (planted : Multiset (BitVec 64)) + ∑ who, (crew.workers who).offered = crew.drawn
  workers : ∀ who, (crew.workers who).Staged start total alone
  free : ∀ value ∈ start.candidates total, value ∉ planted →
    IdStore.lookup crew.store (start.hashOf value) = none
  known : ∃ head, IdStore.lookup crew.store start.stem = some head
  returned : ∀ returned ∈ crew.returned, returned.call.isGenerate = true →
    ∃ value ∈ start.candidates total, returned.answer = .fresh start value
  journal : crew.journal.consultations = []
  store : alone → crew.store = start.plant base planted

namespace Prompt

variable [IdStore σ w] [Fintype ι] {start : CounterGenerator w} {base store : σ} {total : Nat}
  {alone : Prop} {planted : List (BitVec 64)} {crew after : Crew ι σ w} {who : ι}
  {good : σ → Prop} {size : σ → Nat}

theorem launch {calls : ι → List (SharedCall w)}
    (fit : ∀ who, ∀ call ∈ calls who, Fit start (generateCalls calls) alone call)
    (free : ∀ id ∈ start.ids (generateCalls calls), IdStore.lookup store id = none)
    (known : ∃ head, IdStore.lookup store start.stem = some head) :
    Prompt start store (generateCalls calls) alone [] (Crew.launch store start calls) where
  generator := start.advance_zero.symm
  drawn := rfl
  undrawn := by simp [Crew.launch, Worker.undrawn, generateCalls]
  accounted := by simp [Crew.launch, Worker.offered]
  workers := fun who => ⟨fit who, fun _ underway => nomatch underway⟩
  free := fun value candidate _ => free _ (List.mem_map_of_mem candidate)
  known := known
  returned := fun _ member => nomatch member
  journal := rfl
  store := fun _ => rfl

theorem drawn_nodup (prompt : Prompt start base total alone planted crew)
    (distinct : (start.ids total).Nodup) : crew.drawn.Nodup := by
  have some := prompt.undrawn
  rw [prompt.drawn]
  refine List.Nodup.sublist ?_ (List.Nodup.of_map _ distinct)
  exact (List.range_sublist.mpr (by omega)).map start.valueAt

theorem not_planted (prompt : Prompt start base total alone planted crew)
    (distinct : (start.ids total).Nodup) {value : BitVec 64}
    (offered : value ∈ (crew.workers who).offered) : value ∉ planted := by
  -- both are among the values that were drawn, and no value was drawn twice
  have nodup : ((planted : Multiset (BitVec 64)) + ∑ who, (crew.workers who).offered).Nodup := by
    rw [prompt.accounted]
    exact Multiset.coe_nodup.mpr (prompt.drawn_nodup distinct)
  have apart := (Multiset.nodup_add.mp nodup).2.2
  intro present
  refine Multiset.disjoint_left.mp apart (Multiset.mem_coe.mpr present) ?_
  exact Multiset.mem_sum.mpr ⟨who, Finset.mem_univ who, offered⟩

theorem planted_of_done (prompt : Prompt start base total alone planted crew) (done : crew.Done) :
    planted.Perm (start.candidates total) := by
  have counted := prompt.undrawn
  have accounted := prompt.accounted
  simp only [done _, Worker.undrawn, Worker.offered, List.countP_nil, Option.toList_none,
    Finset.sum_const_zero, add_zero] at counted accounted
  rw [prompt.drawn, counted] at accounted
  exact Multiset.coe_eq_coe.mp accounted

variable [DecidableEq ι]

theorem keep (prompt : Prompt start base total alone planted crew)
    (stepped : crew.Stepped who after) (generator : after.generator = crew.generator)
    (drawn : after.drawn = crew.drawn)
    (undrawn : (after.workers who).undrawn = (crew.workers who).undrawn)
    (offered : (after.workers who).offered = (crew.workers who).offered)
    (worker : (after.workers who).Staged start total alone)
    (growth : Extends crew.store after.store)
    (lookup : ∀ id ∈ start.ids total, IdStore.lookup after.store id = IdStore.lookup crew.store id)
    (returned : ∀ returned ∈ after.returned, returned ∉ crew.returned →
      returned.call.isGenerate = true →
        ∃ value ∈ start.candidates total, returned.answer = .fresh start value)
    (journal : after.journal.consultations = []) (store : alone → after.store = crew.store) :
    Prompt start base total alone planted after where
  generator := by rw [generator, drawn, prompt.generator]
  drawn := by rw [drawn, ← prompt.drawn]
  undrawn := by
    have sums := stepped.sum Worker.undrawn
    have before := prompt.undrawn
    rw [undrawn] at sums
    rw [drawn]
    omega
  accounted := by
    have sums := stepped.sum Worker.offered
    rw [offered] at sums
    rw [drawn, ← prompt.accounted, add_right_cancel sums]
  workers := stepped.each prompt.workers worker
  free := by
    intro value candidate missing
    rw [lookup _ (List.mem_map_of_mem candidate)]
    exact prompt.free value candidate missing
  known := by
    obtain ⟨head, known⟩ := prompt.known
    exact ⟨head, growth _ _ known⟩
  returned := by
    intro record member generate
    by_cases earlier : record ∈ crew.returned
    · exact prompt.returned record earlier generate
    · exact returned record member earlier generate
  journal := journal
  store := fun only => (store only).trans (prompt.store only)

theorem begin (prompt : Prompt start base total alone planted crew) {call : SharedCall w}
    {waiting : List (SharedCall w)} (turn : crew.workers who = ⟨call :: waiting, none⟩) :
    Prompt start base total alone planted (crew.begin who call waiting) := by
  have staged := prompt.workers who
  rw [turn] at staged
  obtain ⟨fit, later⟩ := List.forall_mem_cons.mp staged.waiting
  have stem : crew.generator.stem = start.stem := by
    rw [prompt.generator]
    rfl
  have idle : call.skip = 0 := by
    cases fit <;> rfl
  apply prompt.keep (.begin turn)
  · simp only [Crew.begin, idle]
    exact crew.generator.advance_zero
  · rfl
  · rw [crew.begin_self, turn]
    simp only [Worker.undrawn, List.countP_cons, Option.toList_some, Option.toList_none,
      List.countP_nil, Option.isNone_none, Bool.and_true]
    omega
  · rw [crew.begin_self, turn]
    cases fit with
    | request => rfl
    | @generate policy tries =>
        obtain ⟨patience, same⟩ := Nat.exists_eq_succ_of_ne_zero (Nat.ne_of_gt tries)
        simp only [SharedCall.program, Program.generate, same]
        rfl
  · rw [crew.begin_self]
    apply Worker.Staged.of_stage later
    cases fit with
    | request others other => exact .foreign others (Request.program_apart other)
    | @generate policy tries =>
        obtain ⟨patience, same⟩ := Nat.exists_eq_succ_of_ne_zero (Nat.ne_of_gt tries)
        refine .drawing patience ?_
        rw [SharedCall.program, Program.generate, same, stem]
  · exact Extends.refl _
  · exact fun _ _ => rfl
  · exact fun _ member other => absurd member other
  · exact prompt.journal
  · exact fun _ => rfl

theorem take_foreign (prompt : Prompt start base total alone planted crew)
    (laws : FirstWins good size) (ok : good crew.store) {waiting : List (SharedCall w)}
    {asked : Request w} {rest : Program w (Answer w)}
    (turn : crew.workers who = ⟨waiting, some ⟨.request asked, rest, none⟩⟩)
    (busy : ∀ answer, rest ≠ .done answer) (others : ¬alone)
    (apart : rest.Apart (start.ids total)) :
    Prompt start base total alone planted (crew.take who waiting ⟨.request asked, rest, none⟩) := by
  have staged := prompt.workers who
  rw [turn] at staged
  obtain ⟨undrawn, untouched⟩ := apart.step laws ok crew.generator
  apply prompt.keep (.take turn busy)
  · exact untouched.source
  · simp only [Crew.take, undrawn, Option.toList_none, List.append_nil]
  · rw [crew.take_self, turn]
    rfl
  · rw [crew.take_self, turn]
    rfl
  · rw [crew.take_self, undrawn]
    exact .of_stage staged.waiting (.foreign others untouched.rest)
  · exact laws.keeps_step ok rest crew.generator
  · exact untouched.lookup
  · exact fun _ member other => absurd member other
  · simp only [Crew.take, Journal.consultations_append, prompt.journal, untouched.journal,
      List.append_nil]
  · exact fun only => absurd only others

theorem draw_step (start : CounterGenerator w) (policy : RetryPolicy w) (patience count : Nat)
    (store : σ) :
    ∃ next, ((Program.generateFrom .counter start.stem policy.decide (patience + 1) 1).map
        Answer.generated).step store (start.advance (BitVec.ofNat 64 count)) =
          ⟨.insertExtension (start.hashOf (start.valueAt count)) start.stem
            (start.suffixOf (start.valueAt count)) next, store,
            start.advance (BitVec.ofNat 64 (count + 1)), []⟩ ∧
      next (.ok .new) = .done (.fresh start (start.valueAt count)) := by
  rw [BitVec.ofNat_add, ← CounterGenerator.advance_advance]
  exact ⟨_, rfl, rfl⟩

theorem draw (prompt : Prompt start base total alone planted crew)
    (stepped : crew.Stepped who after) {waiting : List (SharedCall w)} {policy : RetryPolicy w}
    {rest : Program w (Answer w)} {next : Except (StoreError w) Status → Program w (Answer w)}
    {value : BitVec 64} (counted : value = start.valueAt crew.drawn.length)
    (before : crew.workers who = ⟨waiting, some ⟨.generate policy, rest, none⟩⟩)
    (worker : after.workers who = ⟨waiting, some ⟨.generate policy, .insertExtension
      (start.hashOf value) start.stem (start.suffixOf value) next, some value⟩⟩)
    (new : next (.ok .new) = .done (.fresh start value))
    (generator : after.generator = start.advance (BitVec.ofNat 64 (crew.drawn.length + 1)))
    (drawn : after.drawn = crew.drawn ++ [value]) (store : after.store = crew.store)
    (returned : after.returned = crew.returned) (journal : after.journal = crew.journal) :
    Prompt start base total alone planted after := by
  have undrawn := stepped.sum Worker.undrawn
  have offered := stepped.sum Worker.offered
  have staged := prompt.workers who
  have length : after.drawn.length = crew.drawn.length + 1 := by rw [drawn, List.length_append]; rfl
  have before_undrawn : (crew.workers who).undrawn = (after.workers who).undrawn + 1 := by
    rw [before, worker]
    rfl
  have left := prompt.undrawn
  rw [before] at staged
  constructor
  · rw [generator, length]
  · rw [length, start.candidates_succ, ← prompt.drawn, drawn, counted]
  · omega
  · -- the value is new both among the drawn ones and among those on offer
    have here : (crew.workers who).offered = 0 := by
      rw [before]
      cases rest <;> rfl
    have now : (after.workers who).offered = {value} := by rw [worker]; rfl
    rw [here, now, add_zero] at offered
    rw [offered, ← add_assoc, prompt.accounted, drawn]
    rfl
  · apply stepped.each prompt.workers
    rw [worker]
    apply Worker.Staged.of_stage staged.waiting
    refine .offering (start.candidates_subset (by omega : crew.drawn.length + 1 ≤ total) ?_) new
    rw [start.candidates_succ, counted]
    exact List.mem_append_right _ List.mem_cons_self
  · rw [store]
    exact prompt.free
  · rw [store]
    exact prompt.known
  · rw [returned]
    exact prompt.returned
  · rw [journal]
    exact prompt.journal
  · rw [store]
    exact prompt.store

theorem take_drawing (prompt : Prompt start base total alone planted crew)
    {waiting : List (SharedCall w)} {policy : RetryPolicy w} {rest : Program w (Answer w)}
    (turn : crew.workers who = ⟨waiting, some ⟨.generate policy, rest, none⟩⟩)
    (busy : ∀ answer, rest ≠ .done answer) {patience : Nat}
    (fresh : rest = (Program.generateFrom .counter start.stem policy.decide (patience + 1) 1).map
      .generated) :
    Prompt start base total alone planted (crew.take who waiting ⟨.generate policy, rest, none⟩) := by
  obtain ⟨next, drawing, new⟩ := draw_step start policy patience crew.drawn.length crew.store
  rw [← fresh, ← prompt.generator] at drawing
  have drawn : rest.drawn? crew.generator = some (start.valueAt crew.drawn.length) := by
    rw [fresh, prompt.generator]
    rfl
  apply prompt.draw (.take turn busy) rfl turn _ new
  · simp only [Crew.take, drawing]
  · simp only [Crew.take, drawn, Option.toList_some]
  · simp only [Crew.take, drawing]
  · rfl
  · simp only [Crew.take, drawing, List.append_nil]
  · rw [crew.take_self, drawing, drawn]
    rfl

theorem plant (prompt : Prompt start base total alone planted crew)
    (distinct : (start.ids total).Nodup) (stepped : crew.Stepped who after)
    {waiting : List (SharedCall w)} {policy : RetryPolicy w}
    {next : Except (StoreError w) Status → Program w (Answer w)} {value : BitVec 64}
    (before : crew.workers who = ⟨waiting, some ⟨.generate policy, .insertExtension
      (start.hashOf value) start.stem (start.suffixOf value) next, some value⟩⟩)
    (worker : after.workers who =
      ⟨waiting, some ⟨.generate policy, .done (.fresh start value), some value⟩⟩)
    (candidate : value ∈ start.candidates total)
    (generator : after.generator = crew.generator) (drawn : after.drawn = crew.drawn)
    {content : Bytes} (offer : Offered size crew.store after.store (start.hashOf value) content)
    (returned : after.returned = crew.returned) (journal : after.journal.consultations = [])
    (store : after.store = start.plant crew.store [value]) :
    Prompt start base total alone (planted ++ [value]) after := by
  have undrawn := stepped.sum Worker.undrawn
  have offered := stepped.sum Worker.offered
  have staged := prompt.workers who
  have same : (after.workers who).undrawn = (crew.workers who).undrawn := by
    rw [before, worker]
    rfl
  have left := prompt.undrawn
  rw [before] at staged
  constructor
  · rw [generator, drawn, prompt.generator]
  · rw [drawn, ← prompt.drawn]
  · rw [drawn]
    omega
  · -- the value passes from the offered ones to the stored ones
    have here : (crew.workers who).offered = {value} := by rw [before]; rfl
    have now : (after.workers who).offered = 0 := by rw [worker]; rfl
    rw [here, now, add_zero] at offered
    rw [drawn, ← prompt.accounted, ← offered, ← Multiset.coe_add, Multiset.coe_singleton, add_assoc]
    exact congrArg _ (add_comm _ _)
  · apply stepped.each prompt.workers
    rw [worker]
    exact .of_stage staged.waiting (.settled candidate)
  · intro other member missing
    rw [List.mem_append, List.mem_singleton, not_or] at missing
    rw [offer.lookup, if_neg]
    · exact prompt.free other member missing.1
    · exact fun same => missing.2 (List.inj_on_of_nodup_map distinct member candidate same)
  · obtain ⟨head, known⟩ := prompt.known
    exact ⟨head, offer.keeps _ _ known⟩
  · rw [returned]
    exact prompt.returned
  · exact journal
  · intro only
    rw [store, prompt.store only]
    exact (List.foldl_append ..).symm

theorem take_offering (prompt : Prompt start base total alone planted crew)
    (distinct : (start.ids total).Nodup) (laws : FirstWins good size) (ok : good crew.store)
    {waiting : List (SharedCall w)} {policy : RetryPolicy w} {value : BitVec 64}
    {next : Except (StoreError w) Status → Program w (Answer w)}
    (turn : crew.workers who = ⟨waiting, some ⟨.generate policy, .insertExtension
      (start.hashOf value) start.stem (start.suffixOf value) next, some value⟩⟩)
    (candidate : value ∈ start.candidates total)
    (new : next (.ok .new) = .done (.fresh start value)) :
    Prompt start base total alone (planted ++ [value]) (crew.take who waiting
      ⟨.generate policy, .insertExtension (start.hashOf value) start.stem (start.suffixOf value)
        next, some value⟩) := by
  obtain ⟨head, known⟩ := prompt.known
  have offered : value ∈ (crew.workers who).offered := by
    rw [turn]
    exact Multiset.mem_singleton_self value
  have missing := prompt.not_planted distinct offered
  have free := prompt.free value candidate missing
  obtain ⟨_, status, offer⟩ :=
    laws.extend ok (start.hashOf value) (start.suffixOf value) known
  rw [free] at status
  have answer : next (.ok (statusUnder none (head ++ start.suffixOf value))) =
      .done (.fresh start value) := new
  apply prompt.plant distinct (.take turn fun _ => nofun) turn _ candidate _ _ offer
  · rfl
  · simp only [Crew.take, Program.step, Journal.consultations_append, prompt.journal,
      Journal.consultations_events, List.append_nil]
  · rfl
  · rw [crew.take_self]
    simp only [Program.step, status, answer]
    rfl
  · rfl
  · simp [Crew.take, Program.drawn?]

theorem finish (prompt : Prompt start base total alone planted crew)
    {waiting : List (SharedCall w)} {call : SharedCall w} {answer : Answer w}
    {drawn : Option (BitVec 64)}
    (turn : crew.workers who = ⟨waiting, some ⟨call, .done answer, drawn⟩⟩) :
    Prompt start base total alone planted (crew.finish who waiting ⟨call, drawn, answer⟩) := by
  have staged := prompt.workers who
  rw [turn] at staged
  have stage := staged.job _ rfl
  apply prompt.keep (.finish turn) rfl rfl
  · rw [crew.finish_self, turn]
    cases stage with
    | foreign | settled => rfl
    | drawing patience fresh => cases fresh
  · rw [crew.finish_self, turn]
    cases stage <;> rfl
  · rw [crew.finish_self]
    exact ⟨staged.waiting, fun _ underway => nomatch underway⟩
  · exact Extends.refl _
  · exact fun _ _ => rfl
  · intro record member other generate
    obtain rfl := List.mem_singleton.mp ((List.mem_append.mp member).resolve_left other)
    cases stage with
    | foreign => cases generate
    | drawing patience fresh => cases fresh
    | settled candidate => exact ⟨_, candidate, rfl⟩
  · exact prompt.journal
  · exact fun _ => rfl

theorem step (prompt : Prompt start base total alone planted crew)
    (distinct : (start.ids total).Nodup) (laws : FirstWins good size) (ok : good crew.store)
    (stepped : crew.Stepped who after) :
    ∃ planted, Prompt start base total alone planted after := by
  cases stepped with
  | idle => exact ⟨planted, prompt⟩
  | begin turn => exact ⟨planted, prompt.begin turn⟩
  | finish turn => exact ⟨planted, prompt.finish turn⟩
  | take turn busy =>
      have staged := prompt.workers who
      rw [turn] at staged
      have stage := staged.job _ rfl
      cases stage with
      | foreign others apart => exact ⟨planted, prompt.take_foreign laws ok turn busy others apart⟩
      | drawing patience fresh => exact ⟨planted, prompt.take_drawing turn busy fresh⟩
      | offering candidate new =>
          exact ⟨_, prompt.take_offering distinct laws ok turn candidate new⟩
      | settled => exact absurd rfl (busy _)

theorem run (prompt : Prompt start base total alone planted crew)
    (distinct : (start.ids total).Nodup) (laws : FirstWins good size) (ok : good crew.store)
    (schedule : List ι) : ∃ planted, Prompt start base total alone planted (crew.run schedule) := by
  induction schedule generalizing crew planted with
  | nil => exact ⟨planted, prompt⟩
  | cons who schedule ih =>
      have stepped := crew.stepped who
      obtain ⟨_, next⟩ := prompt.step distinct laws ok stepped
      exact ih next (laws.good_stepped ok stepped)

end Prompt

end Interner
