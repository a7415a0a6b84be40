import Interner.Proofs.Generator.Trials

/-!
The retry protocol. A generation tries one candidate after another; a candidate that is not new is
reported, and the policy is asked about it. Whatever the policy is and wherever candidates come from, a
run goes by this protocol, and it ends wherever the protocol ends.
-/

namespace Interner

variable {σ γ : Type} {w : Width} [IdStore σ w] {good : σ → Prop} {size : σ → Nat} {store : σ}
  {kind : GeneratorKind} {stem : Hash w} {head suffix kept : Bytes} {patience attempt : Nat}
  {decide : Consultation w → Except (GenerationError w) Decision} {asked : Consultation w}

theorem Journal.consultations_events (events : List (Event w)) :
    Journal.consultations (events.map Entry.event) = [] := by
  simp [consultations]

theorem Journal.consultations_append (earlier later : Journal w) :
    Journal.consultations (earlier ++ later) =
      Journal.consultations earlier ++ Journal.consultations later :=
  List.filterMap_append ..

/-- How a generation goes on after a candidate that was not new. -/
def Program.answered (decide : Consultation w → Except (GenerationError w) Decision)
    (asked : Consultation w) (retry : Program w (Generation w)) : Program w (Generation w) :=
  match decide asked with
  | .error error => .done (some (.error error))
  | .ok .accept => .done (some (.ok ⟨asked.hash, asked.status⟩))
  | .ok .retry => retry

/-- The attempt that `asked` is about found its candidate taken and left the store as it was. -/
structure Missed (good : σ → Prop) (size : σ → Nat) (kind : GeneratorKind) (attempt : Nat)
    (store after : σ) (asked : Consultation w) : Prop where
  good : good after
  same : SameEntries size size after store
  attempt : asked.attempt = attempt
  generator : asked.generator = kind
  status : asked.status ≠ .new

section Attempts

variable [CandidateSource γ] {source : γ} (laws : FirstWins good size) (ok : good store)

include laws ok

theorem FirstWins.generateFrom_taken (known : IdStore.lookup store stem = some head)
    (candidate : (CandidateSource.next source).1 = some suffix)
    (taken : IdStore.lookup store (Hash.extend stem suffix) = some kept) (kind : GeneratorKind)
    (decide : Consultation w → Except (GenerationError w) Decision) (patience attempt : Nat) :
    let made := IdStore.insertExtension store (Hash.extend stem suffix) stem suffix
    let asked : Consultation w := ⟨attempt, kind, Hash.extend stem suffix, kept,
      statusUnder (some kept) (head ++ suffix)⟩
    let rest := Program.answered decide asked
      (Program.generateFrom kind stem decide patience (attempt + 1))
    let whole := Program.generateFrom kind stem decide (patience + 1) attempt
    Missed good size kind attempt store made.store asked ∧
      whole.tried store source =
        suffix :: rest.tried made.store (CandidateSource.next source).2 ∧
      whole.run store source = (rest.run made.store (CandidateSource.next source).2).after
        (made.events.map .event ++ [.event (Program.candidateEvent asked), .consulted asked]) := by
  have extended := laws.extend ok (Hash.extend stem suffix) suffix known
  rw [taken] at extended
  rcases extended with ⟨okay, status, offered⟩
  have present := offered.present
  rw [taken, Option.getD_some] at present
  have size := offered.size
  rw [taken, if_neg (Option.some_ne_none kept)] at size
  refine ⟨⟨okay, ⟨offered.lookup_same taken, size⟩, rfl, rfl, ?_⟩, ?_⟩
  · simp [statusUnder_eq_new]
  · rw [Program.generateFrom, Program.run_candidate, Program.tried_candidate, candidate]
    simp only [Program.run_insertExtension, Program.tried_insertExtension, status]
    cases met : statusUnder (some kept) (head ++ suffix) with
    | new => cases statusUnder_eq_new.mp met
    | old | collision =>
        simp only [Program.run_lookup, Program.tried_lookup, present, Option.getD_some,
          Program.run_record, Program.tried_record, Outcome.after_after]
        exact ⟨rfl, rfl⟩

theorem FirstWins.generateFrom_free (known : IdStore.lookup store stem = some head)
    (candidate : (CandidateSource.next source).1 = some suffix)
    (free : IdStore.lookup store (Hash.extend stem suffix) = none) (kind : GeneratorKind)
    (decide : Consultation w → Except (GenerationError w) Decision) (patience attempt : Nat) :
    let made := IdStore.insertExtension store (Hash.extend stem suffix) stem suffix
    let whole := Program.generateFrom kind stem decide (patience + 1) attempt
    Offered size store made.store (Hash.extend stem suffix) (head ++ suffix) ∧
      whole.tried store source = [suffix] ∧
      whole.run store source = ⟨some (.ok ⟨Hash.extend stem suffix, .new⟩), made.store,
        (CandidateSource.next source).2, made.events.map .event⟩ := by
  have extended := laws.extend ok (Hash.extend stem suffix) suffix known
  rw [free] at extended
  rcases extended with ⟨_, status, offered⟩
  refine ⟨offered, ?_, ?_⟩
  · rw [Program.generateFrom, Program.tried_candidate, candidate]
    simp only [Program.tried_insertExtension, status, statusUnder]
    rfl
  · rw [Program.generateFrom, Program.run_candidate, candidate]
    simp only [Program.run_insertExtension, status, statusUnder, Program.run_done, Outcome.after,
      List.append_nil]

theorem FirstWins.generateFrom_unknown (unknown : IdStore.lookup store stem = none)
    (candidate : (CandidateSource.next source).1 = some suffix) (kind : GeneratorKind)
    (decide : Consultation w → Except (GenerationError w) Decision) (patience attempt : Nat) :
    let made := IdStore.insertExtension store (Hash.extend stem suffix) stem suffix
    let whole := Program.generateFrom kind stem decide (patience + 1) attempt
    SameEntries size size made.store store ∧
      whole.run store source = ⟨some (.error (.store (.unknownStem stem))), made.store,
        (CandidateSource.next source).2, made.events.map .event⟩ := by
  rcases laws.refuse ok (Hash.extend stem suffix) suffix unknown with ⟨_, refused, same⟩
  refine ⟨same, ?_⟩
  rw [Program.generateFrom, Program.run_candidate, candidate]
  simp only [Program.run_insertExtension, refused, Program.run_done, Outcome.after, List.append_nil]

end Attempts

/-- The question about candidate number `attempt`, which extends the stem by `suffix` and is not new. -/
structure Asks (store : σ) (kind : GeneratorKind) (stem : Hash w) (head : Bytes) (attempt : Nat)
    (suffix : Bytes) (asked : Consultation w) : Prop where
  attempt : asked.attempt = attempt
  generator : asked.generator = kind
  hash : asked.hash = Hash.extend stem suffix
  /-- The policy is shown what is stored. -/
  stored : IdStore.lookup store asked.hash = some asked.stored
  old : asked.status = .old ↔ IdStore.lookup store asked.hash = some (head ++ suffix)
  collision : asked.status = .collision ↔ IdStore.lookup store asked.hash ≠ some (head ++ suffix)

namespace Asks

theorem of_taken (taken : IdStore.lookup store (Hash.extend stem suffix) = some kept) :
    Asks store kind stem head attempt suffix ⟨attempt, kind, Hash.extend stem suffix, kept,
      statusUnder (some kept) (head ++ suffix)⟩ := by
  refine ⟨rfl, rfl, rfl, taken, ?_, ?_⟩
  · simp [taken, statusUnder]
  · simp [taken, statusUnder_eq_collision]

theorem taken (asks : Asks store kind stem head attempt suffix asked) :
    IdStore.lookup store (Hash.extend stem suffix) = some asked.stored := by
  rw [← asks.hash]
  exact asks.stored

theorem eq (asks : Asks store kind stem head attempt suffix asked) :
    asked = ⟨attempt, kind, Hash.extend stem suffix, asked.stored,
      statusUnder (some asked.stored) (head ++ suffix)⟩ := by
  have status : asked.status = statusUnder (some asked.stored) (head ++ suffix) := by
    rw [statusUnder]
    split
    · rename_i same
      exact asks.old.mpr (by rw [asks.stored, same])
    · rename_i differs
      exact asks.collision.mpr (by simpa [asks.stored] using differs)
  rw [← status, ← asks.attempt, ← asks.generator, ← asks.hash]

theorem not_new (asks : Asks store kind stem head attempt suffix asked) : asked.status ≠ .new := by
  rw [asks.eq]
  simp [statusUnder_eq_new]

end Asks

theorem FirstWins.generateFrom_asks [CandidateSource γ] {source : γ} {current : σ}
    (laws : FirstWins good size) (ok : good current) (same : SameEntries size size current store)
    (known : IdStore.lookup current stem = some head)
    (candidate : (CandidateSource.next source).1 = some suffix)
    (asks : Asks store kind stem head attempt suffix asked)
    (decide : Consultation w → Except (GenerationError w) Decision) (patience : Nat) :
    let made := IdStore.insertExtension current (Hash.extend stem suffix) stem suffix
    let rest := Program.answered decide asked
      (Program.generateFrom kind stem decide patience (attempt + 1))
    let whole := Program.generateFrom kind stem decide (patience + 1) attempt
    Missed good size kind attempt current made.store asked ∧
      whole.tried current source =
        suffix :: rest.tried made.store (CandidateSource.next source).2 ∧
      whole.run current source = (rest.run made.store (CandidateSource.next source).2).after
        (made.events.map .event ++ [.event (Program.candidateEvent asked), .consulted asked]) := by
  have turn := laws.generateFrom_taken ok known candidate ((same.lookup _).trans asks.taken) kind
    decide patience attempt
  rw [← asks.eq] at turn
  exact turn

/-- What a generation ends with: the last candidate, the question about it, and the result. -/
inductive Ending (store : σ) (kind : GeneratorKind) (stem : Hash w) (head : Bytes)
    (decide : Consultation w → Except (GenerationError w) Decision) (attempt : Nat) (suffix : Bytes) :
    Option (Consultation w) → Except (GenerationError w) (Generated w) → Prop where
  | new (free : IdStore.lookup store (Hash.extend stem suffix) = none) :
      Ending store kind stem head decide attempt suffix none (.ok ⟨Hash.extend stem suffix, .new⟩)
  | accepted {asked : Consultation w} (asks : Asks store kind stem head attempt suffix asked)
      (answer : decide asked = .ok .accept) :
      Ending store kind stem head decide attempt suffix asked (.ok ⟨asked.hash, asked.status⟩)
  | failed {asked : Consultation w} {error : GenerationError w}
      (asks : Asks store kind stem head attempt suffix asked) (answer : decide asked = .error error) :
      Ending store kind stem head decide attempt suffix asked (.error error)

/-- The protocol from candidate number `attempt` on: the candidates that are tried, the questions that are
asked about them, and the result. -/
inductive Protocol (store : σ) (kind : GeneratorKind) (stem : Hash w) (head : Bytes)
    (decide : Consultation w → Except (GenerationError w) Decision) : Nat → List Bytes →
    List (Consultation w) → Except (GenerationError w) (Generated w) → Prop where
  | last {attempt : Nat} {suffix : Bytes} {question : Option (Consultation w)}
      {result : Except (GenerationError w) (Generated w)}
      (ending : Ending store kind stem head decide attempt suffix question result) :
      Protocol store kind stem head decide attempt [suffix] question.toList result
  | retried {attempt : Nat} {suffix : Bytes} {asked : Consultation w} {suffixes : List Bytes}
      {later : List (Consultation w)} {result : Except (GenerationError w) (Generated w)}
      (asks : Asks store kind stem head attempt suffix asked) (answer : decide asked = .ok .retry)
      (rest : Protocol store kind stem head decide (attempt + 1) suffixes later result) :
      Protocol store kind stem head decide attempt (suffix :: suffixes) (asked :: later) result

structure Event.Announces (event : Event w) (asked : Consultation w) : Prop where
  generator : ("generator", asked.generator.name) ∈ event.fields
  attempt : ("attempt", toString asked.attempt) ∈ event.fields
  hash : ("hash", toString asked.hash.toNat) ∈ event.fields
  warns : event.level = .warn ↔ asked.status = .collision
  existing : ∀ text, ("existing", text) ∈ event.fields ↔
    asked.status = .collision ∧ text = Utf8.lossy asked.stored

theorem Program.candidateEvent_announces (asked : Consultation w) :
    (candidateEvent asked).Announces asked := by
  rw [candidateEvent]
  split
  · rename_i collides
    constructor <;> simp [Event.fields, Event.level, collides]
  · rename_i other
    constructor <;> simp [Event.fields, Event.level, other]

/-- The journal puts the questions, each right after its event, and is `quiet` apart from that. -/
inductive Exchanges (quiet : Journal w → Prop) : List (Consultation w) → Journal w → Prop where
  | done {journal : Journal w} (silent : quiet journal) : Exchanges quiet [] journal
  | ask {before journal : Journal w} {event : Event w} {asked : Consultation w}
      {asks : List (Consultation w)} (silent : quiet before) (announces : event.Announces asked)
      (rest : Exchanges quiet asks journal) :
      Exchanges quiet (asked :: asks) (before ++ .event event :: .consulted asked :: journal)

theorem Exchanges.turn {quiet : Journal w → Prop} {before journal : Journal w}
    {asks : List (Consultation w)} (silent : quiet before) (rest : Exchanges quiet asks journal) :
    Exchanges quiet (asked :: asks)
      (before ++ [.event (Program.candidateEvent asked), .consulted asked] ++ journal) := by
  rw [List.append_assoc]
  exact .ask silent (Program.candidateEvent_announces asked) rest

/-- What insertions report is quiet, and so is an empty journal. -/
structure Quiet (good : σ → Prop) (quiet : Journal w → Prop) : Prop where
  nothing : quiet []
  extend : ∀ {store : σ} (_ : good store) (hash stem : Hash w) (suffix : Bytes),
    quiet ((IdStore.insertExtension store hash stem suffix).events.map .event)

theorem Offered.congr {before current after : σ} {hash : Hash w} {content : Bytes}
    (offered : Offered size current after hash content)
    (same : SameEntries size size current before) : Offered size before after hash content where
  lookup := by
    intro other
    rw [offered.lookup, same.lookup, same.lookup]
  size := by rw [offered.size, same.size, same.lookup]

variable [CandidateSource γ]

/-- A generation that began at `store` and `source` has gone by the protocol. -/
structure Played (size : σ → Nat) (quiet : Journal w → Prop) (store : σ) (stem : Hash w)
    (head : Bytes) (source : γ) (tried : List Bytes) (asks : List (Consultation w))
    (result : Except (GenerationError w) (Generated w)) (made : Outcome σ γ w (Generation w)) :
    Prop where
  answer : made.answer = some result
  source : made.source = CandidateSource.skip source tried.length
  journal : Exchanges quiet asks made.journal
  added : ∀ hash, result = .ok ⟨hash, .new⟩ → IdStore.lookup store hash = none ∧ ∃ suffix,
    tried.getLast? = some suffix ∧ hash = Hash.extend stem suffix ∧
      Offered size store made.store hash (head ++ suffix)
  kept : (∀ hash, result ≠ .ok ⟨hash, .new⟩) → SameEntries size size made.store store

variable {quiet : Journal w → Prop} {current : σ} {source : γ}
  {result : Except (GenerationError w) (Generated w)}

theorem FirstWins.generateFrom_stops (laws : FirstWins good size) (silence : Quiet good quiet)
    (ok : good current) (same : SameEntries size size current store)
    (known : IdStore.lookup current stem = some head)
    (candidate : (CandidateSource.next source).1 = some suffix)
    (asks : Asks store kind stem head attempt suffix asked)
    (stops : ∀ retry, Program.answered decide asked retry = .done (some result))
    (other : ∀ hash, result ≠ .ok ⟨hash, .new⟩) (patience : Nat) :
    (Program.generateFrom kind stem decide (patience + 1) attempt).tried current source = [suffix] ∧
      Played size quiet store stem head source [suffix] [asked] result
        ((Program.generateFrom kind stem decide (patience + 1) attempt).run current source) := by
  rcases laws.generateFrom_asks ok same known candidate asks decide patience with
    ⟨missed, trials, whole⟩
  rw [stops] at trials whole
  refine ⟨trials, ?_⟩
  rw [whole]
  exact ⟨rfl, rfl, .turn (silence.extend ok _ stem suffix) (.done silence.nothing),
    fun hash new => absurd new (other hash), fun _ => missed.same.trans same⟩

namespace Protocol

variable {tried : List Bytes} {asks : List (Consultation w)}

theorem tried_ne_nil (protocol : Protocol store kind stem head decide attempt tried asks result) :
    tried ≠ [] := by
  cases protocol <;> simp

theorem played (protocol : Protocol store kind stem head decide attempt tried asks result)
    (laws : FirstWins good size) (silence : Quiet good quiet) (ok : good current)
    (same : SameEntries size size current store) (known : IdStore.lookup store stem = some head)
    (supplied : CandidateSource.Supplies source tried) (enough : tried.length ≤ patience) :
    (Program.generateFrom kind stem decide patience attempt).tried current source = tried ∧
      Played size quiet store stem head source tried asks result
        ((Program.generateFrom kind stem decide patience attempt).run current source) := by
  rcases Nat.exists_eq_succ_of_ne_zero (Nat.ne_of_gt (Nat.lt_of_lt_of_le
    (List.length_pos_of_ne_nil protocol.tried_ne_nil) enough)) with ⟨patience, rfl⟩
  have stored := (same.lookup stem).trans known
  induction protocol generalizing current source patience with
  | @last attempt suffix _ _ ending =>
      cases ending with
      | new free =>
          rcases laws.generateFrom_free ok stored supplied.1 ((same.lookup _).trans free) kind decide
            patience attempt with ⟨offered, trials, whole⟩
          refine ⟨trials, ?_⟩
          rw [whole]
          refine ⟨rfl, rfl, .done (silence.extend ok _ stem suffix), ?_,
            fun other => absurd rfl (other _)⟩
          rintro hash ⟨⟩
          exact ⟨free, suffix, rfl, rfl, offered.congr same⟩
      | accepted asks answer =>
          apply laws.generateFrom_stops silence ok same stored supplied.1 asks
          · simp [Program.answered, answer]
          · simp [asks.not_new]
      | failed asks answer =>
          apply laws.generateFrom_stops silence ok same stored supplied.1 asks
          · simp [Program.answered, answer]
          · simp
  | @retried attempt suffix asked suffixes later result asks answer rest ih =>
      rcases laws.generateFrom_asks ok same stored supplied.1 asks decide patience with
        ⟨missed, trials, whole⟩
      rw [Program.answered, answer] at trials whole
      -- the store may have made room, but it holds what it held when the protocol began
      have still := missed.same.trans same
      have fewer := Nat.le_of_succ_le_succ enough
      rcases Nat.exists_eq_succ_of_ne_zero (Nat.ne_of_gt (Nat.lt_of_lt_of_le
        (List.length_pos_of_ne_nil rest.tried_ne_nil) fewer)) with ⟨patience, rfl⟩
      rcases ih missed.good still supplied.2 patience fewer ((still.lookup stem).trans known) with
        ⟨laterTrials, played⟩
      refine ⟨trials.trans (congrArg _ laterTrials), ?_⟩
      rw [whole]
      refine ⟨played.answer, played.source, .turn (silence.extend ok _ stem suffix) played.journal, ?_,
        played.kept⟩
      intro hash new
      rcases played.added hash new with ⟨free, last, final, stored⟩
      exact ⟨free, last, by simp [List.getLast?_cons, final], stored⟩

end Protocol

/-- A run that ends has gone by the protocol. -/
theorem FirstWins.generateFrom_protocol (laws : FirstWins good size) {current : σ} (ok : good current)
    (same : SameEntries size size current store) (known : IdStore.lookup store stem = some head)
    {source : γ} {result : Except (GenerationError w) (Generated w)}
    (ends : ((Program.generateFrom kind stem decide patience attempt).run current source).answer =
      some result) :
    ∃ tried asks, Protocol store kind stem head decide attempt tried asks result ∧
      CandidateSource.Supplies source tried ∧ tried.length ≤ patience := by
  have stored := (same.lookup stem).trans known
  -- refused candidates make room, so the store at hand varies but keeps the entries of `store`
  induction patience generalizing current source attempt with
  | zero => cases ends
  | succ patience ih =>
      cases candidate : (CandidateSource.next source).1 with
      | none => simp [Program.generateFrom, candidate] at ends
      | some suffix =>
          cases taken : IdStore.lookup current (Hash.extend stem suffix) with
          | none =>
              rcases laws.generateFrom_free ok stored candidate taken kind decide patience attempt with
                ⟨_, _, whole⟩
              rw [whole] at ends
              cases ends
              exact ⟨[suffix], [], .last (.new ((same.lookup _).symm.trans taken)), ⟨candidate, trivial⟩,
                Nat.succ_le_succ (Nat.zero_le patience)⟩
          | some kept =>
              rcases laws.generateFrom_taken ok stored candidate taken kind decide patience attempt with
                ⟨missed, _, whole⟩
              rw [whole, Outcome.after_answer] at ends
              have asks : Asks store kind stem head attempt suffix _ :=
                .of_taken ((same.lookup _).symm.trans taken)
              have one : [suffix].length ≤ patience + 1 := Nat.succ_le_succ (Nat.zero_le patience)
              simp only [Program.answered] at ends
              split at ends
              · rename_i error answer
                cases ends
                exact ⟨[suffix], _, .last (.failed asks answer), ⟨candidate, trivial⟩, one⟩
              · rename_i answer
                cases ends
                exact ⟨[suffix], _, .last (.accepted asks answer), ⟨candidate, trivial⟩, one⟩
              · rename_i answer
                have still := missed.same.trans same
                rcases ih missed.good still ends ((still.lookup stem).trans known) with
                  ⟨suffixes, later, rest, supplied, few⟩
                exact ⟨suffix :: suffixes, _, .retried asks answer rest, ⟨candidate, supplied⟩,
                  Nat.succ_le_succ few⟩

end Interner
