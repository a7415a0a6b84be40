import Interner.Proofs.Session.Basic
import Interner.Proofs.Store.Programs

/-!
Programs taken one step at a time. After the first step of a request its answer is settled: what is
left only reads strings that are stored already, so no other thread can change it any more.
-/

namespace Interner

variable {σ γ α β : Type} {w : Width} [IdStore σ w] [CandidateSource γ] {good : σ → Prop}
  {size : σ → Nat}

namespace Program

def step : Program w α → σ → γ → Outcome σ γ w (Program w α)
  | done answer, store, source => ⟨done answer, store, source, []⟩
  | insert hash content next, store, source =>
      match IdStore.insert store hash content with
      | ⟨store, status, events⟩ => ⟨next status, store, source, events.map .event⟩
  | insertExtension hash stem suffix next, store, source =>
      match IdStore.insertExtension store hash stem suffix with
      | ⟨store, result, events⟩ => ⟨next result, store, source, events.map .event⟩
  | lookupTerminated hash next, store, source =>
      ⟨next (IdStore.lookupTerminated store hash), store, source, []⟩
  | candidate next, store, source =>
      match CandidateSource.next source with
      | (suffix, source) => ⟨next suffix, store, source, []⟩
  | record entry next, store, source => ⟨next, store, source, [entry]⟩

theorem run_step (program : Program w α) (store : σ) (source : γ) :
    program.run store source =
      ((program.step store source).answer.run (program.step store source).store
        (program.step store source).source).after (program.step store source).journal := by
  cases program <;> rfl

theorem step_map (f : α → β) (program : Program w α) (store : σ) (source : γ) :
    (program.map f).step store source =
      ⟨(program.step store source).answer.map f, (program.step store source).store,
        (program.step store source).source, (program.step store source).journal⟩ := by
  cases program <;> rfl

theorem run_map (f : α → β) (program : Program w α) (store : σ) (source : γ) :
    (program.map f).run store source =
      ⟨f (program.run store source).answer, (program.run store source).store,
        (program.run store source).source, (program.run store source).journal⟩ := by
  induction program generalizing store source with
  | done answer => rfl
  | insert hash content next ih =>
      rw [map, run_insert, ih, run_insert]
      rfl
  | insertExtension hash stem suffix next ih =>
      rw [map, run_insertExtension, ih, run_insertExtension]
      rfl
  | lookupTerminated hash next ih => exact ih _ store source
  | candidate next ih => exact ih _ store _
  | record entry next ih =>
      rw [map, run_record, ih, run_record]
      rfl

end Program

/-- `program` returns `answer` from `store` and from everything that `store` can grow into. -/
inductive Settled (store : σ) : Program w α → α → Prop where
  | done (answer : α) : Settled store (.done answer) answer
  | lookupTerminated {hash : Hash w} {kept : Bytes} {next : Option Bytes → Program w α} {answer : α}
      (present : IdStore.lookup store hash = some kept)
      (rest : Settled store (next (some (Bytes.terminated kept))) answer) :
      Settled store (.lookupTerminated hash next) answer
  | record (entry : Entry w) {next : Program w α} {answer : α} (rest : Settled store next answer) :
      Settled store (.record entry next) answer

namespace Settled

variable {store later : σ} {program : Program w α} {answer : α}

theorem mono (settled : Settled store program answer) (growth : Extends store later) :
    Settled later program answer := by
  induction settled with
  | done answer => exact .done answer
  | lookupTerminated present _ ih => exact .lookupTerminated (growth _ _ present) ih
  | record entry _ ih => exact .record entry ih

theorem map (settled : Settled store program answer) (f : α → β) :
    Settled store (program.map f) (f answer) := by
  induction settled with
  | done answer => exact .done (f answer)
  | lookupTerminated present _ ih => exact .lookupTerminated present ih
  | record entry _ ih => exact .record entry ih

theorem step (settled : Settled store program answer) (laws : FirstWins good size)
    (ok : good store) (source : γ) :
    (program.step store source).store = store ∧
      Settled store (program.step store source).answer answer := by
  cases settled with
  | done => exact ⟨rfl, .done answer⟩
  | @lookupTerminated hash kept next answer present rest =>
      refine ⟨rfl, ?_⟩
      rw [Program.step, laws.terminated ok, present]
      exact rest
  | record entry rest => exact ⟨rfl, rest⟩

theorem run (settled : Settled store program answer) (laws : FirstWins good size)
    (ok : good store) (source : γ) :
    (program.run store source).answer = answer ∧ (program.run store source).store = store := by
  induction settled with
  | done answer => exact ⟨rfl, rfl⟩
  | lookupTerminated present _ ih =>
      rw [Program.run_lookupTerminated, laws.terminated ok, present]
      exact ih
  | record entry _ ih => exact ih

theorem lookup {hash : Hash w} {kept : Bytes} {next : Option Bytes → Program w α}
    (present : IdStore.lookup store hash = some kept)
    (rest : Settled store (next (some kept)) answer) :
    Settled store (Program.lookup hash next) answer := by
  apply Settled.lookupTerminated present
  rw [Option.map_some, Bytes.withoutLast_terminated]
  exact rest

theorem collide {hash : Hash w} {kept : Bytes} (present : IdStore.lookup store hash = some kept)
    (candidate : Bytes) :
    Settled store (Program.collide hash candidate)
      (.error (.collision hash (Utf8.lossy kept) (Utf8.lossy candidate))) :=
  .lookup present (.record _ (.done _))

end Settled

/-- What interning `content` answers when `stored` stands under its hash. -/
def verdict (stored : Option Bytes) (hash : Hash w) (content : Bytes) :
    Except (StoreError w) (Hash w) :=
  match stored with
  | none => .ok hash
  | some kept =>
      if kept = content then .ok hash
      else .error (.collision hash (Utf8.lossy kept) (Utf8.lossy content))

namespace FirstWins

variable {store : σ} (laws : FirstWins good size) (ok : good store)

include laws ok

theorem good_step (program : Program w α) (source : γ) :
    good (program.step store source).store := by
  cases program with
  | insert hash content next => exact (laws.insert ok hash content).1
  | insertExtension hash stem suffix next => exact laws.good_extend ok hash stem suffix
  | done | lookupTerminated | candidate | record => exact ok

theorem keeps_step (program : Program w α) (source : γ) :
    Extends store (program.step store source).store := by
  cases program with
  | insert hash content next => exact laws.keeps_insert ok hash content
  | insertExtension hash stem suffix next => exact laws.keeps_extend ok hash stem suffix
  | done | lookupTerminated | candidate | record => exact Extends.refl store

/-- Once the answer is settled, the rest of a run changes nothing. -/
theorem run_settled {program : Program w α} {source : γ} {answer : α}
    (settled : Settled (program.step store source).store (program.step store source).answer answer) :
    (program.run store source).answer = answer ∧
      (program.run store source).store = (program.step store source).store := by
  rw [Program.run_step]
  exact settled.run laws (laws.good_step ok program source) (program.step store source).source

theorem intern_settled (content : Bytes) :
    Settled ((Program.intern content).step store ()).store
      ((Program.intern content).step store ()).answer
      (verdict (IdStore.lookup store (Hash.ofBytes content)) (Hash.ofBytes content) content) := by
  obtain ⟨_, status, offered⟩ := laws.insert ok (Hash.ofBytes content) content
  have present := offered.present
  simp only [Program.intern, Program.step, status]
  cases stored : IdStore.lookup store (Hash.ofBytes content) with
  | none => exact .done _
  | some kept =>
      rw [stored, Option.getD_some] at present
      by_cases same : kept = content
      · simp only [statusUnder, verdict, if_pos same]
        exact .done _
      · simp only [statusUnder, verdict, if_neg same]
        exact .collide present content

theorem extension_refused {stem : Hash w} (suffix : Bytes)
    (unknown : IdStore.lookup store stem = none) :
    Settled ((Program.internExtension stem suffix).step store ()).store
      ((Program.internExtension stem suffix).step store ()).answer
      (.error (.unknownStem stem)) := by
  obtain ⟨_, refused, _⟩ := laws.refuse ok (Hash.extend stem suffix) suffix unknown
  simp only [Program.internExtension, Program.step, refused]
  exact .done _

theorem extension_settled {stem : Hash w} {head : Bytes} (suffix : Bytes)
    (known : IdStore.lookup store stem = some head) :
    Settled ((Program.internExtension stem suffix).step store ()).store
      ((Program.internExtension stem suffix).step store ()).answer
      (verdict (IdStore.lookup store (Hash.extend stem suffix)) (Hash.extend stem suffix)
        (head ++ suffix)) := by
  obtain ⟨_, status, offered⟩ := laws.extend ok (Hash.extend stem suffix) suffix known
  have present := offered.present
  simp only [Program.internExtension, Program.step, status]
  cases stored : IdStore.lookup store (Hash.extend stem suffix) with
  | none => exact .done _
  | some kept =>
      rw [stored, Option.getD_some] at present
      by_cases same : kept = head ++ suffix
      · simp only [statusUnder, verdict, if_pos same]
        exact .done _
      · simp only [statusUnder, verdict, if_neg same]
        exact .lookup (offered.keeps stem head known) (.collide present (head ++ suffix))

/-- After its first step a request only reads what is stored, and its answer is settled. -/
theorem request_settled (request : Request w) :
    (request.outcome store).store = (request.program.step store ()).store ∧
      Settled (request.program.step store ()).store (request.program.step store ()).answer
        (request.outcome store).answer := by
  obtain ⟨answer, settled⟩ : ∃ answer, Settled (request.program.step store ()).store
      (request.program.step store ()).answer answer := by
    cases request with
    | insert hash content => exact ⟨_, .done _⟩
    | insertExtension hash stem suffix => exact ⟨_, .done _⟩
    | views hash => exact ⟨_, .done _⟩
    | intern content =>
        rw [Request.program, Program.step_map]
        exact ⟨_, (laws.intern_settled ok content).map Answer.interned⟩
    | internExtension stem suffix =>
        rw [Request.program, Program.step_map]
        cases found : IdStore.lookup store stem with
        | none => exact ⟨_, (laws.extension_refused ok suffix found).map Answer.interned⟩
        | some head => exact ⟨_, (laws.extension_settled ok suffix found).map Answer.interned⟩
  obtain ⟨answers, unchanged⟩ := laws.run_settled ok settled
  rw [Request.outcome, answers]
  exact ⟨unchanged, settled⟩

end FirstWins

end Interner
