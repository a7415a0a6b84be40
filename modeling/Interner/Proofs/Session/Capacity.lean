import Interner.Proofs.Generator.Exhaustion
import Interner.Proofs.Session.Joining
import Mathlib.Data.Finset.Card

namespace Interner

variable {w : Width}

namespace Generator

/-- Counters that extend `stem` by numerals of `width` digits. -/
def CountsFrom (stem : Hash w) (width : Nat) : Generator w → Prop
  | counter generator => generator.stem = stem ∧ generator.width = width
  | random _ => False

/-- Random generators that extend `stem` by `length` characters, all of them from `alphabet`. -/
def DrawsFrom (stem : Hash w) (length : Nat) (alphabet : Finset UInt8) : Generator w → Prop
  | counter _ => False
  | random generator => generator.stem = stem ∧ generator.length = length ∧
      ∀ char ∈ generator.table.chars, char ∈ alphabet

instance (stem : Hash w) (width : Nat) : DecidablePred (CountsFrom stem width)
  | counter generator => inferInstanceAs (Decidable (generator.stem = stem ∧ generator.width = width))
  | random _ => inferInstanceAs (Decidable False)

instance (stem : Hash w) (length : Nat) (alphabet : Finset UInt8) :
    DecidablePred (DrawsFrom stem length alphabet)
  | counter _ => inferInstanceAs (Decidable False)
  | random generator => inferInstanceAs (Decidable (generator.stem = stem ∧
      generator.length = length ∧ ∀ char ∈ generator.table.chars, char ∈ alphabet))

end Generator

namespace Session

variable {σ : Type} [IdStore σ w] (chosen : Generator w → Prop) [DecidablePred chosen]

/-- The new id that a call makes with a chosen generator. -/
def newId? (session : Session σ w) (call : Call w) : Option (Hash w) :=
  match call, session.answer call with
  | .generate name, .generated generation =>
      if chosen (session.generators name) then generation.new? else none
  | _, _ => none

def newIds (session : Session σ w) : List (Call w) → List (Hash w)
  | [] => []
  | call :: calls => (session.newId? chosen call).toList ++ newIds (session.after call) calls

end Session

theorem Generation.new?_eq_some {generation : Generation w} {hash : Hash w} :
    generation.new? = some hash ↔ generation = some (.ok ⟨hash, .new⟩) := by
  rcases generation with _ | _ | ⟨made, status⟩
  · simp [Generation.new?]
  · simp [Generation.new?]
  · cases status <;> simp [Generation.new?]

namespace FirstWins

variable {σ : Type} [IdStore σ w] {good : σ → Prop} {size : σ → Nat} {session : Session σ w}
  {chosen : Generator w → Prop} [DecidablePred chosen] {hash : Hash w}

theorem newId?_eq_some (laws : FirstWins good size) (ok : good session.store) {call : Call w}
    (new : session.newId? chosen call = some hash) :
    (∃ generator n suffix, chosen generator ∧ CandidateSource.drawn generator n = some suffix ∧
        hash = Hash.extend generator.stem suffix) ∧
      IdStore.lookup session.store hash = none ∧
      ∃ content, IdStore.lookup (session.after call).store hash = some content := by
  cases call with
  | request | discard => cases new
  | generate name =>
      have made : (if chosen (session.generators name) then ((session.generators name).program.run
          session.store (session.generators name)).answer.new? else none) = some hash := new
      split at made
      · rename_i own
        rw [Generation.new?_eq_some] at made
        rcases (session.generators name).program_eq with ⟨kind, policy, same⟩
        have after : (session.after (.generate name)).store =
            ((session.generators name).program.run session.store (session.generators name)).store :=
          rfl
        rw [after]
        rw [same, Program.generate] at made ⊢
        rcases laws.generateFrom_new ok made with ⟨⟨n, suffix, drawn, rfl⟩, free, present⟩
        exact ⟨⟨_, n, suffix, own, drawn, rfl⟩, free, present⟩
      · cases made

variable (chosen) in
theorem newIds_distinct (laws : FirstWins good size) (ok : good session.store)
    (calls : List (Call w)) :
    (session.newIds chosen calls).Nodup ∧ ∀ id ∈ session.newIds chosen calls,
      IdStore.lookup session.store id = none ∧ ∃ generator n suffix, chosen generator ∧
        CandidateSource.drawn generator n = some suffix ∧ id = Hash.extend generator.stem suffix := by
  induction calls generalizing session with
  | nil => simp [Session.newIds]
  | cons call calls ih =>
      rcases ih (laws.good_after ok call) with ⟨distinct, later⟩
      have grows := laws.keeps_after ok call
      have still : ∀ id ∈ (session.after call).newIds chosen calls,
          IdStore.lookup session.store id = none := by
        intro id member
        cases found : IdStore.lookup session.store id with
        | none => rfl
        | some kept =>
            have lost := (later id member).1
            rw [grows id kept found] at lost
            cases lost
      rw [Session.newIds]
      cases new : session.newId? chosen call with
      | none =>
          rw [Option.toList_none, List.nil_append]
          exact ⟨distinct, fun id member => ⟨still id member, (later id member).2⟩⟩
      | some id =>
          rcases laws.newId?_eq_some ok new with ⟨candidate, free, content, present⟩
          have once : id ∉ (session.after call).newIds chosen calls := by
            intro member
            rw [(later id member).1] at present
            cases present
          rw [Option.toList_some, List.singleton_append, List.nodup_cons, List.forall_mem_cons]
          exact ⟨⟨once, distinct⟩, ⟨free, candidate⟩,
            fun id member => ⟨still id member, (later id member).2⟩⟩

theorem length_newIds (laws : FirstWins good size) (ok : good session.store) (calls : List (Call w))
    (stem : Hash w) (space : List Bytes)
    (within : ∀ generator n suffix, chosen generator → CandidateSource.drawn generator n = some suffix →
      generator.stem = stem ∧ suffix ∈ space) :
    (session.newIds chosen calls).length ≤ space.length := by
  rcases laws.newIds_distinct chosen ok calls with ⟨distinct, candidates⟩
  have inside : session.newIds chosen calls ⊆ space.map (Hash.extend stem) := by
    intro id member
    rcases (candidates id member).2 with ⟨generator, n, suffix, own, drawn, rfl⟩
    rcases within generator n suffix own drawn with ⟨rfl, listed⟩
    exact List.mem_map_of_mem listed
  calc
    (session.newIds chosen calls).length ≤ (space.map (Hash.extend stem)).length :=
      (List.subperm_of_subset distinct inside).length_le
    _ = space.length := List.length_map _

end FirstWins

/-- A generate call gives up after `attempts` attempts and leaves the table as it was. -/
def Session.Exhausts (session : Session (Table w) w) (name : Nat) (kind : GeneratorKind)
    (attempts : Nat) : Prop :=
  session.answer (.generate name) = .generated (some (.error (.exhausted kind attempts))) ∧
    SameEntries Table.size Table.size (session.after (.generate name)).store session.store

theorem Session.exhausts {session : Session (Table w) w} (sound : session.store.Sound) {name : Nat}
    {kind : GeneratorKind} {stem : Hash w} {limit : Nat}
    (program : (session.generators name).program = Program.generate kind stem (.bounded limit))
    (known : ∃ head, IdStore.lookup session.store stem = some head)
    (taken : ∀ n < max limit 1, ∃ suffix kept,
      CandidateSource.drawn (session.generators name) n = some suffix ∧
        IdStore.lookup session.store (Hash.extend stem suffix) = some kept) :
    session.Exhausts name kind (max limit 1) := by
  rcases known with ⟨head, known⟩
  simp only [exists_and_left] at taken
  rcases Table.firstWins.bounded_exhausts sound kind known taken with ⟨exhausted, _, same⟩
  have answer : session.answer (.generate name) = .generated ((session.generators name).program.run
    session.store (session.generators name)).answer := rfl
  have after : (session.after (.generate name)).store =
    ((session.generators name).program.run session.store (session.generators name)).store := rfl
  rw [Exhausts, answer, after, program]
  exact ⟨congrArg Answer.generated exhausted, same⟩

/-- Generators cannot make more new ids than they have candidates, and fail cleanly without any. -/
structure Session.Limited (session : Session (Table w) w) : Prop where
  counters : ∀ (stem : Hash w) (width : Nat), 1 ≤ width → ∀ calls,
    (session.newIds (Generator.CountsFrom stem width) calls).length ≤ 10 ^ width
  randoms : ∀ (stem : Hash w) (length : Nat) (alphabet : Finset UInt8) (calls : List (Call w)),
    (session.newIds (Generator.DrawsFrom stem length alphabet) calls).length ≤
      alphabet.card ^ length
  counterExhausted : ∀ name generator limit, session.generators name = .counter generator →
    generator.policy = .bounded limit →
      (∃ head, IdStore.lookup session.store generator.stem = some head) →
        (∀ value, ∃ kept, IdStore.lookup session.store (Hash.extend generator.stem
          (CounterGenerator.write [] value generator.width)) = some kept) →
          session.Exhausts name .counter (max limit 1)
  randomExhausted : ∀ name generator limit, session.generators name = .random generator →
    generator.policy = .bounded limit →
      (∃ head, IdStore.lookup session.store generator.stem = some head) →
        (∀ text : Bytes, text.length = generator.length →
          (∀ char ∈ text, char ∈ generator.table.chars) →
            ∃ kept, IdStore.lookup session.store (Hash.extend generator.stem text) = some kept) →
          (∀ n < max limit 1, ∃ text, CandidateSource.drawn generator n = some text) →
            session.Exhausts name .random (max limit 1)

theorem Session.limited {session : Session (Table w) w} (sound : session.store.Sound) :
    session.Limited where
  counters := by
    intro stem width some calls
    have space := length_words decimalDigits width
    rw [show decimalDigits.length = 10 by decide] at space
    rw [← space]
    apply Table.firstWins.length_newIds sound calls stem
    intro generator n suffix own drawn
    cases generator with
    | random => exact own.elim
    | counter generator =>
        rcases own with ⟨rfl, rfl⟩
        rcases generator.drawn_eq n with ⟨value, same⟩
        rw [drawn] at same
        cases same
        exact ⟨rfl, CounterGenerator.write_mem_words value some⟩
  randoms := by
    intro stem length alphabet calls
    have space := length_words alphabet.toList length
    rw [Finset.length_toList] at space
    rw [← space]
    apply Table.firstWins.length_newIds sound calls stem
    intro generator n suffix own drawn
    cases generator with
    | counter => exact own.elim
    | random generator =>
        rcases own with ⟨rfl, rfl, inside⟩
        rw [generator.drawn_eq] at drawn
        rcases mem_words.mp (generator.drawn_mem_words n drawn) with ⟨exact, listed⟩
        refine ⟨rfl, mem_words.mpr ⟨exact, ?_⟩⟩
        intro char member
        exact Finset.mem_toList.mpr (inside char (listed char member))
  counterExhausted := by
    intro name generator limit own policy known taken
    apply Session.exhausts sound (by rw [own, Generator.program, CounterGenerator.program, policy])
      known
    intro n inside
    rcases generator.drawn_eq n with ⟨value, drawn⟩
    rcases taken value with ⟨kept, present⟩
    rw [own]
    exact ⟨_, kept, drawn, present⟩
  randomExhausted := by
    intro name generator limit own policy known taken draws
    apply Session.exhausts sound (by rw [own, Generator.program, RandomGenerator.program, policy])
      known
    intro n inside
    rcases draws n inside with ⟨text, drawn⟩
    rcases mem_words.mp (generator.drawn_mem_words n drawn) with ⟨exact, listed⟩
    rcases taken text exact listed with ⟨kept, present⟩
    rw [own, generator.drawn_eq]
    exact ⟨text, kept, drawn, present⟩

/-- Wherever a run stands: however it goes on, generators of one stem make no more new ids than they have
candidates, and where no candidate is free, bounded policies give up and nothing changes. -/
theorem generation_limited {session : Session (Table w) w} (reachable : session.store.Reachable)
    (calls : List (Call w)) : (session.run calls).Limited :=
  Session.limited (Table.firstWins.good_calls reachable.sound calls)

def spentTable : Table .narrow :=
  ((⟨Table.ofConfig ⟨1, Binary64.one⟩, fun _ => .counter { stem := 7 }⟩ :
    Session (Table .narrow) .narrow).run (.request (.insert 7 [65]) ::
      (words (65 :: decimalDigits) 1).map fun text => .request (.internExtension 7 text))).store

def loneLetter : RandomGenerator .narrow where
  stem := 7
  draws := .cycle [0]
  length := 1
  table := ⟨[65], by decide⟩
  policy := .bounded 3

def spentSession : Session (Table .narrow) .narrow where
  store := spentTable
  generators name :=
    if name = 0 then .counter { stem := 7, width := 1 } else .random loneLetter

theorem generation_limited_spent :
    (spentSession.newIds (Generator.CountsFrom 7 1) [.generate 0, .discard 0 5]).length ≤ 10 ∧
      (spentSession.newIds (Generator.DrawsFrom 7 1 {65}) [.generate 1]).length ≤ 1 ∧
      spentSession.Exhausts 0 .counter 8 ∧ spentSession.Exhausts 1 .random 3 := by
  have reachable : spentSession.store.Reachable := by
    simp only [spentSession]
    exact ⟨_, _, _, by decide +kernel, rfl⟩
  have limited : spentSession.Limited := generation_limited reachable []
  have known : ∃ head, IdStore.lookup spentSession.store (7 : Hash .narrow) = some head :=
    ⟨[65], by decide +kernel⟩
  have taken : ∀ text ∈ words (65 :: decimalDigits) 1,
      ∃ kept, IdStore.lookup spentSession.store (Hash.extend 7 text) = some kept := by
    simp only [← Option.isSome_iff_exists]
    decide +kernel
  refine ⟨limited.counters 7 1 (Nat.le_refl 1) _, limited.randoms 7 1 _ _, ?_, ?_⟩
  · apply limited.counterExhausted 0 _ 8 rfl rfl known
    intro value
    apply taken
    rcases mem_words.mp (CounterGenerator.write_mem_words value (Nat.le_refl 1)) with ⟨one, digits⟩
    exact mem_words.mpr ⟨one, fun char member => List.mem_cons_of_mem _ (digits char member)⟩
  · apply limited.randomExhausted 1 _ 3 rfl rfl known
    · intro text one inside
      apply taken
      refine mem_words.mpr ⟨one, fun char member => ?_⟩
      rw [List.mem_singleton.mp (inside char member)]
      exact List.mem_cons_self
    · simp only [← Option.isSome_iff_exists]
      decide +kernel

end Interner
