import Interner.Proofs.Sharing.Counting

namespace Interner

variable {ι σ α β : Type} {w : Width} [IdStore σ w] {good : σ → Prop} {size : σ → Nat}

namespace CounterGenerator

def suffixOf (generator : CounterGenerator w) (value : BitVec 64) : Bytes :=
  write [] value generator.width

def hashOf (generator : CounterGenerator w) (value : BitVec 64) : Hash w :=
  Hash.extend generator.stem (generator.suffixOf value)

end CounterGenerator

/-- Something is stored under `hash`; if the id is `generated`, the string of the stem followed by the
value that was drawn. -/
structure Backed (generator : CounterGenerator w) (generated : Prop) (store : σ)
    (drawn : Option (BitVec 64)) (hash : Hash w) : Prop where
  stored : ∃ content, IdStore.lookup store hash = some content
  counted : generated → ∃ value head, drawn = some value ∧ hash = generator.hashOf value ∧
    IdStore.lookup store generator.stem = some head ∧
    IdStore.lookup store hash = some (head ++ generator.suffixOf value)

theorem Backed.mono {generator : CounterGenerator w} {generated : Prop} {store later : σ}
    {drawn : Option (BitVec 64)} {hash : Hash w} (backed : Backed generator generated store drawn hash)
    (growth : Extends store later) : Backed generator generated later drawn hash where
  stored := by
    obtain ⟨content, present⟩ := backed.stored
    exact ⟨content, growth _ _ present⟩
  counted := by
    intro tied
    obtain ⟨value, head, same, own, known, present⟩ := backed.counted tied
    exact ⟨value, head, same, own, growth _ _ known, growth _ _ present⟩

def Announces (new? : α → Option (Hash w)) (hash : Hash w) (program : Program w α) : Prop :=
  ∃ answer, program = .done answer ∧ new? answer = some hash

/-- The program reports a new string only right after an insertion that was answered so. If its ids
are `generated`, it offers extensions of the stem by the value drawn last, and nothing else. -/
inductive Honest (generator : CounterGenerator w) (generated : Prop) (new? : α → Option (Hash w)) :
    Option (BitVec 64) → Program w α → Prop where
  | done {drawn : Option (BitVec 64)} {answer : α} (silent : new? answer = none) :
      Honest generator generated new? drawn (.done answer)
  | insert {drawn : Option (BitVec 64)} {hash : Hash w} {content : Bytes}
      {next : Status → Program w α} (own : ¬generated)
      (rest : ∀ status, ¬(status = .new ∧ Announces new? hash (next status)) →
        Honest generator generated new? drawn (next status)) :
      Honest generator generated new? drawn (.insert hash content next)
  | insertExtension {drawn : Option (BitVec 64)} {hash stem : Hash w} {suffix : Bytes}
      {next : Except (StoreError w) Status → Program w α}
      (own : generated → stem = generator.stem ∧ ∃ value, drawn = some value ∧
        suffix = generator.suffixOf value ∧ hash = generator.hashOf value)
      (rest : ∀ result, ¬(result = .ok .new ∧ Announces new? hash (next result)) →
        Honest generator generated new? drawn (next result)) :
      Honest generator generated new? drawn (.insertExtension hash stem suffix next)
  | lookupTerminated {drawn : Option (BitVec 64)} {hash : Hash w} {next : Option Bytes → Program w α}
      (rest : ∀ found, Honest generator generated new? drawn (next found)) :
      Honest generator generated new? drawn (.lookupTerminated hash next)
  | candidate {drawn : Option (BitVec 64)} {next : Option Bytes → Program w α}
      (rest : ∀ value, Honest generator generated new? (some value)
        (next (some (generator.suffixOf value)))) :
      Honest generator generated new? drawn (.candidate next)
  | record {drawn : Option (BitVec 64)} {entry : Entry w} {next : Program w α}
      (rest : Honest generator generated new? drawn next) :
      Honest generator generated new? drawn (.record entry next)

namespace Honest

variable {generator current : CounterGenerator w} {generated : Prop} {new? : α → Option (Hash w)}
  {drawn : Option (BitVec 64)} {program : Program w α}

theorem map {reports : β → Option (Hash w)} {f : α → β}
    (honest : Honest generator generated new? drawn program)
    (same : ∀ answer, reports (f answer) = new? answer) :
    Honest generator generated reports drawn (program.map f) := by
  have announces : ∀ {hash : Hash w} {rest : Program w α}, Announces new? hash rest →
      Announces reports hash (rest.map f) := by
    rintro hash rest ⟨answer, rfl, new⟩
    exact ⟨f answer, rfl, (same answer).trans new⟩
  induction honest with
  | done silent => exact .done ((same _).trans silent)
  | insert own _ ih =>
      exact .insert own fun status other => ih status fun new => other ⟨new.1, announces new.2⟩
  | insertExtension own _ ih =>
      exact .insertExtension own fun result other =>
        ih result fun new => other ⟨new.1, announces new.2⟩
  | lookupTerminated _ ih => exact .lookupTerminated ih
  | candidate _ ih => exact .candidate ih
  | record _ ih => exact .record ih

theorem lookup {hash : Hash w} {next : Option Bytes → Program w α}
    (rest : ∀ found, Honest generator generated new? drawn (next found)) :
    Honest generator generated new? drawn (Program.lookup hash next) :=
  .lookupTerminated fun found => rest (found.map Bytes.withoutLast)

theorem of_silent (silent : ∀ answer, new? answer = none) (own : ¬generated)
    (program : Program w α) (drawn : Option (BitVec 64)) :
    Honest generator generated new? drawn program := by
  induction program generalizing drawn with
  | done answer => exact .done (silent answer)
  | insert hash content next ih => exact .insert own fun status _ => ih status drawn
  | insertExtension hash stem suffix next ih =>
      exact .insertExtension (fun tied => absurd tied own) fun result _ => ih result drawn
  | lookupTerminated hash next ih => exact .lookupTerminated fun found => ih found drawn
  | candidate next ih => exact .candidate fun value => ih _ (some value)
  | record entry next ih => exact .record (ih drawn)

theorem not_announces {hash : Hash w} (honest : Honest generator generated new? drawn program) :
    ¬Announces new? hash program := by
  rintro ⟨answer, rfl, new⟩
  cases honest with
  | done silent =>
      rw [silent] at new
      cases new

/-- After one step the program is still honest, or it reports a new string that this step has stored
under a hash that was free. -/
theorem step (honest : Honest generator generated new? drawn program) (laws : FirstWins good size)
    {store : σ} (ok : good store) (width : current.width = generator.width) :
    Honest generator generated new? (program.drawn? current <|> drawn)
        (program.step store current).answer ∨
      ∃ hash, Announces new? hash (program.step store current).answer ∧
        IdStore.lookup store hash = none ∧
        Backed generator generated (program.step store current).store
          (program.drawn? current <|> drawn) hash := by
  cases honest with
  | done silent => exact .inl (.done silent)
  | @insert _ hash content next own rest =>
      obtain ⟨_, status, offered⟩ := laws.insert ok hash content
      simp only [Program.step, status]
      by_cases new : statusUnder (IdStore.lookup store hash) content = .new ∧
          Announces new? hash (next (statusUnder (IdStore.lookup store hash) content))
      · exact .inr ⟨hash, new.2, statusUnder_eq_new.mp new.1, ⟨_, offered.present⟩,
          fun tied => absurd tied own⟩
      · exact .inl (rest _ new)
  | @insertExtension _ hash base suffix next own rest =>
      cases known : IdStore.lookup store base with
      | none =>
          obtain ⟨_, refused, _⟩ := laws.refuse ok hash suffix known
          simp only [Program.step, refused]
          left
          apply rest
          rintro ⟨new, _⟩
          cases new
      | some head =>
          obtain ⟨_, status, offered⟩ := laws.extend ok hash suffix known
          have growth := offered.keeps
          simp only [Program.step, status]
          by_cases new : statusUnder (IdStore.lookup store hash) (head ++ suffix) = .new ∧
              Announces new? hash
                (next (.ok (statusUnder (IdStore.lookup store hash) (head ++ suffix))))
          · have free := statusUnder_eq_new.mp new.1
            have present := offered.present
            rw [free, Option.getD_none] at present
            refine .inr ⟨hash, new.2, free, ⟨_, present⟩, ?_⟩
            intro tied
            -- a generated id that becomes new here extends the stem by the value drawn last
            obtain ⟨rfl, value, same, rfl, rfl⟩ := own tied
            exact ⟨value, head, same, rfl, growth _ _ known, present⟩
          · exact .inl (rest _ fun same => new ⟨Except.ok.inj same.1, same.2⟩)
  | lookupTerminated rest => exact .inl (rest _)
  | @candidate _ next rest =>
      left
      have suffix : CounterGenerator.write [] current.counter current.width =
          generator.suffixOf current.counter := by
        rw [width]
        rfl
      have stepped : ((Program.candidate next).step store current).answer =
          next (some (CounterGenerator.write [] current.counter current.width)) := rfl
      rw [stepped, suffix]
      exact rest current.counter
  | record rest => exact .inl rest

end Honest

def Generation.new? : Generation w → Option (Hash w)
  | some (.ok ⟨hash, .new⟩) => some hash
  | _ => none

theorem Program.generateFrom_honest (generator : CounterGenerator w) (kind : GeneratorKind)
    (decide : Consultation w → Except (GenerationError w) Decision) (patience attempt : Nat)
    (drawn : Option (BitVec 64)) :
    Honest generator True Generation.new? drawn
      (generateFrom kind generator.stem decide patience attempt) := by
  induction patience generalizing attempt drawn with
  | zero => exact .done rfl
  | succ patience ih =>
      refine .candidate fun value => .insertExtension (fun _ => ⟨rfl, value, rfl, rfl, rfl⟩) ?_
      intro result unannounced
      split
      · exact .done rfl
      · exact absurd ⟨rfl, _, rfl, rfl⟩ unannounced
      · rename_i status other
        refine .lookup fun stored => .record (.record ?_)
        split
        · exact .done rfl
        · refine .done ?_
          cases status with
          | new => exact absurd rfl other
          | old | collision => rfl
        · exact ih (attempt + 1) (some value)

namespace SharedCall

def new? : SharedCall w → Answer w → Option (Hash w)
  | .request (.insert hash _), .inserted .new => some hash
  | .request (.insertExtension hash _ _), .extended (.ok .new) => some hash
  | .generate _, .generated generation => Generation.new? generation
  | _, _ => none

theorem honest (generator : CounterGenerator w) (call : SharedCall w) :
    Honest generator (call.isGenerate = true) call.new? none (call.program generator.stem) := by
  cases call with
  | request asked =>
      cases asked with
      | insert hash content =>
          refine .insert Bool.false_ne_true fun status other => .done ?_
          cases status with
          | new => exact absurd ⟨rfl, _, rfl, rfl⟩ other
          | old | collision => rfl
      | insertExtension hash stem suffix =>
          refine .insertExtension (fun tied => nomatch tied) fun result other => .done ?_
          rcases result with _ | _ | _ | _
          · rfl
          · exact absurd ⟨rfl, _, rfl, rfl⟩ other
          · rfl
          · rfl
      | views | intern | internExtension =>
          exact .of_silent (fun _ => rfl) Bool.false_ne_true _ none
  | generate policy =>
      have tied : ((SharedCall.generate policy).isGenerate = true) = True := eq_true rfl
      rw [tied]
      exact (Program.generateFrom_honest generator .counter policy.decide policy.patience 1 none).map
        fun _ => rfl
  | discard amount => exact .done rfl

end SharedCall

def Returned.new? (returned : Returned w) : Option (Hash w) :=
  returned.call.new? returned.answer

def Job.new? (job : Job w) : Option (Hash w) :=
  match job.rest with
  | .done answer => job.call.new? answer
  | _ => none

def Job.Honest (generator : CounterGenerator w) (job : Job w) : Prop :=
  Interner.Honest generator (job.call.isGenerate = true) job.call.new? job.drawn job.rest

theorem Job.new?_eq_some {job : Job w} {hash : Hash w} :
    job.new? = some hash ↔ Announces job.call.new? hash job.rest := by
  rcases job with ⟨call, rest, drawn⟩
  constructor
  · intro new
    cases rest with
    | done answer => exact ⟨answer, rfl, new⟩
    | insert | insertExtension | lookupTerminated | candidate | record => cases new
  · rintro ⟨answer, rfl, new⟩
    exact new

theorem Job.Honest.new? {generator : CounterGenerator w} {job : Job w}
    (honest : job.Honest generator) : job.new? = none := by
  apply Option.eq_none_iff_forall_ne_some.mpr
  intro hash new
  exact Interner.Honest.not_announces honest (Job.new?_eq_some.mp new)

end Interner
