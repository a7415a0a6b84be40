import Interner.Proofs.Session.Refinement

namespace Interner

variable {σ γ α : Type} {w : Width}

/-- An insertion that a run makes: the store just before it and just after it, and what it reports. -/
structure Insertion (σ : Type) (w : Width) where
  before : σ
  after : σ
  events : List (Event w)

def Step.insertion (step : Step σ w α) (before : σ) : Insertion σ w :=
  ⟨before, step.store, step.events⟩

/-- Insertions of one kind lead from one store to another, each made on what the one before it left. -/
inductive Leads (kind : Insertion σ w → Prop) : σ → List (Insertion σ w) → σ → Prop where
  | nil (store : σ) : Leads kind store [] store
  | cons {before after last : σ} {events : List (Event w)} {rest : List (Insertion σ w)}
      (made : kind ⟨before, after, events⟩) (later : Leads kind after rest last) :
      Leads kind before (⟨before, after, events⟩ :: rest) last

namespace Leads

variable {kind : Insertion σ w → Prop} {start middle last : σ}
  {front back insertions : List (Insertion σ w)} {insertion : Insertion σ w}

theorem append (first : Leads kind start front middle) (second : Leads kind middle back last) :
    Leads kind start (front ++ back) last := by
  induction first with
  | nil => exact second
  | cons made _ ih => exact .cons made (ih second)

theorem made (leads : Leads kind start insertions last) :
    ∀ insertion ∈ insertions, kind insertion := by
  induction leads with
  | nil => simp
  | cons made _ ih => exact List.forall_mem_cons.mpr ⟨made, ih⟩

theorem after_last (leads : Leads kind start insertions last)
    (final : insertions.getLast? = some insertion) : insertion.after = last := by
  induction leads with
  | nil => simp at final
  | cons made later ih =>
      cases later with
      | nil =>
          simp only [List.getLast?_singleton, Option.some.injEq] at final
          rw [← final]
      | cons => exact ih (by simpa using final)

end Leads

variable [IdStore σ w] [CandidateSource γ] {table : Table w}

def Program.insertions : Program w α → σ → γ → List (Insertion σ w)
  | done _, _, _ => []
  | insert hash content next, store, source =>
      let made := IdStore.insert store hash content
      made.insertion store :: (next made.answer).insertions made.store source
  | insertExtension hash stem suffix next, store, source =>
      let made := IdStore.insertExtension store hash stem suffix
      made.insertion store :: (next made.answer).insertions made.store source
  | lookupTerminated hash next, store, source =>
      (next (IdStore.lookupTerminated store hash)).insertions store source
  | candidate next, store, source =>
      match CandidateSource.next source with
      | (suffix, source) => (next suffix).insertions store source
  | record _ next, store, source => next.insertions store source

namespace Program

variable (store : σ) (source : γ)

@[simp] theorem insertions_done (answer : α) :
    (done answer : Program w α).insertions store source = [] := rfl

@[simp] theorem insertions_insert (hash : Hash w) (content : Bytes) (next : Status → Program w α) :
    (insert hash content next).insertions store source =
      (IdStore.insert store hash content).insertion store ::
        (next (IdStore.insert store hash content).answer).insertions
          (IdStore.insert store hash content).store source := rfl

@[simp] theorem insertions_insertExtension (hash stem : Hash w) (suffix : Bytes)
    (next : Except (StoreError w) Status → Program w α) :
    (insertExtension hash stem suffix next).insertions store source =
      (IdStore.insertExtension store hash stem suffix).insertion store ::
        (next (IdStore.insertExtension store hash stem suffix).answer).insertions
          (IdStore.insertExtension store hash stem suffix).store source := rfl

@[simp] theorem insertions_lookupTerminated (hash : Hash w) (next : Option Bytes → Program w α) :
    (lookupTerminated hash next).insertions store source =
      (next (IdStore.lookupTerminated store hash)).insertions store source := rfl

@[simp] theorem insertions_lookup (hash : Hash w) (next : Option Bytes → Program w α) :
    (lookup hash next).insertions store source =
      (next (IdStore.lookup store hash)).insertions store source := rfl

@[simp] theorem insertions_candidate (next : Option Bytes → Program w α) :
    (candidate next).insertions store source =
      (next (CandidateSource.next source).1).insertions store (CandidateSource.next source).2 := rfl

@[simp] theorem insertions_record (entry : Entry w) (next : Program w α) :
    (record entry next).insertions store source = next.insertions store source := rfl

end Program

theorem Program.insertions_map {β : Type} (f : α → β) (program : Program w α) (store : σ)
    (source : γ) : (program.map f).insertions store source = program.insertions store source := by
  induction program generalizing store source with
  | done answer => rfl
  | insert hash content next ih => simp [map, ih]
  | insertExtension hash stem suffix next ih => simp [map, ih]
  | lookupTerminated hash next ih => exact ih _ store source
  | candidate next ih => exact ih _ store _
  | record entry next ih => exact ih store source

namespace Session

def fresh (config : Config) (generators : Nat → Generator w) : Session (Table w) w :=
  ⟨Table.ofConfig config, generators⟩

def insertionsOf (session : Session σ w) : Call w → List (Insertion σ w)
  | .request request => request.program.insertions session.store ()
  | .generate name =>
      (session.generators name).program.insertions session.store (session.generators name)
  | .discard _ _ => []

/-- The insertions that calls make, directly or through interning and generation. -/
def insertions (session : Session σ w) : List (Call w) → List (Insertion σ w)
  | [] => []
  | call :: calls => session.insertionsOf call ++ insertions (session.after call) calls

end Session

/-- What an insertion does to a table, whatever it answers. -/
structure Insertion.MakesRoom (insertion : Insertion (Table w) w) : Prop where
  sound : insertion.before.Sound
  roomed : Roomed insertion.before insertion.after
  events : insertion.events = insertion.before.eventsOfRoom

namespace Table.Sound

variable (sound : table.Sound)

include sound

theorem insert_makesRoom (hash : Hash w) (content : Bytes) :
    ((IdStore.insert table hash content).insertion table).MakesRoom := by
  have inserted := Table.inserted sound hash content
  exact ⟨sound, inserted.roomed, inserted.events⟩

theorem extend_makesRoom (hash stem : Hash w) (suffix : Bytes) :
    ((IdStore.insertExtension table hash stem suffix).insertion table).MakesRoom := by
  cases found : IdStore.lookup table stem with
  | none =>
      rcases extend_refused sound hash suffix found with ⟨reserved, reserves, enlarged, refuses⟩
      rw [refuses]
      exact ⟨sound, reserve_roomed sound reserves enlarged, (reserve_room sound reserves).2⟩
  | some head =>
      rw [extend_eq_insert sound hash suffix found]
      exact sound.insert_makesRoom hash (head ++ suffix)

end Table.Sound

theorem Leads.sizes {start last : Table w} {insertions : List (Insertion (Table w) w)}
    (leads : Leads Insertion.MakesRoom start insertions last) :
    (∀ insertion ∈ insertions, start.size ≤ insertion.before.size) ∧
      insertions.Pairwise fun insertion later => insertion.before.size ≤ later.before.size := by
  induction leads with
  | nil => simp
  | cons made _ ih =>
      have above := fun later member => Nat.le_trans made.roomed.size_le (ih.1 later member)
      exact ⟨List.forall_mem_cons.mpr ⟨Nat.le_refl _, above⟩, List.pairwise_cons.mpr ⟨above, ih.2⟩⟩

theorem Leads.size_le_last {start last : Table w} {insertions : List (Insertion (Table w) w)}
    {final : Insertion (Table w) w} (leads : Leads Insertion.MakesRoom start insertions last)
    (ends : insertions.getLast? = some final) :
    ∀ insertion ∈ insertions, insertion.before.size ≤ final.before.size := by
  have sizes := leads.sizes.2
  rcases List.getLast?_eq_some_iff.mp ends with ⟨front, rfl⟩
  intro insertion member
  rcases List.mem_append.mp member with earlier | same
  · exact (List.pairwise_append.mp sizes).2.2 insertion earlier final List.mem_cons_self
  · exact Nat.le_of_eq (congrArg (fun found => found.before.size) (List.mem_singleton.mp same))

/-- A run changes a table by its insertions and by nothing else. -/
theorem Program.leads (program : Program w α) (sound : table.Sound) (source : γ) :
    Leads Insertion.MakesRoom table (program.insertions table source)
      (program.run table source).store := by
  induction program generalizing table source with
  | done answer => exact .nil table
  | insert hash content next ih =>
      exact .cons (sound.insert_makesRoom hash content)
        (ih _ (Table.inserted sound hash content).sound source)
  | insertExtension hash stem suffix next ih =>
      exact .cons (sound.extend_makesRoom hash stem suffix)
        (ih _ (Table.firstWins.good_extend sound hash stem suffix) source)
  | lookupTerminated hash next ih => exact ih _ sound source
  | candidate next ih => exact ih _ sound _
  | record entry next ih => exact ih sound source

namespace Session

variable {session : Session (Table w) w} {config : Config}

theorem sound_fresh (valid : config.validate = .ok ()) (generators : Nat → Generator w) :
    (fresh config generators).store.Sound :=
  Table.sound_ofConfig valid

theorem leads_after (sound : session.store.Sound) (call : Call w) :
    Leads Insertion.MakesRoom session.store (session.insertionsOf call)
      (session.after call).store := by
  cases call with
  | request request => exact request.program.leads sound ()
  | generate name => exact (session.generators name).program.leads sound _
  | discard name amount => exact .nil session.store

theorem leads (sound : session.store.Sound) (calls : List (Call w)) :
    Leads Insertion.MakesRoom session.store (session.insertions calls) (session.run calls).store := by
  induction calls generalizing session with
  | nil => exact .nil session.store
  | cons call calls ih =>
      exact (leads_after sound call).append (ih (Table.firstWins.good_after sound call))

end Session

end Interner
