import Interner.Proofs.Session.Refinement
import Interner.Proofs.Sharing.Linearization
import Interner.Store.Backend

namespace Interner

variable {ι κ σ τ γ α : Type} {w : Width} [IdStore σ w] [IdStore τ w] [CandidateSource γ]
  [DecidableEq ι]

/-- `wrap` turns stores into others that do the same. -/
structure Carries (wrap : σ → τ) : Prop where
  insert : ∀ (store : σ) (hash : Hash w) (content : Bytes),
    IdStore.insert (wrap store) hash content = (IdStore.insert store hash content).mapStore wrap
  extend : ∀ (store : σ) (hash stem : Hash w) (suffix : Bytes),
    IdStore.insertExtension (wrap store) hash stem suffix =
      (IdStore.insertExtension store hash stem suffix).mapStore wrap
  lookup : ∀ (store : σ) (hash : Hash w),
    IdStore.lookupTerminated (wrap store) hash = IdStore.lookupTerminated store hash

def Machine.mapStore (wrap : σ → τ) (machine : Machine ι κ σ γ w α) : Machine ι κ τ γ w α :=
  ⟨wrap machine.store, machine.source, machine.threads, machine.started⟩

namespace Carries

variable {wrap : σ → τ}

theorem step (carries : Carries wrap) (program : Program w α) (store : σ) (source : γ) :
    program.step (wrap store) source =
      ⟨(program.step store source).answer, wrap (program.step store source).store,
        (program.step store source).source, (program.step store source).journal⟩ := by
  cases program with
  | insert hash content next =>
      rw [Program.step, carries.insert]
      rfl
  | insertExtension hash stem suffix next =>
      rw [Program.step, carries.extend]
      rfl
  | lookupTerminated hash next =>
      rw [Program.step, carries.lookup]
      rfl
  | done | candidate | record => rfl

theorem advance (carries : Carries wrap) (machine : Machine ι κ σ γ w α) (who : ι)
    (program : Program w α) (waiting : List κ) :
    (machine.mapStore wrap).advance who program waiting =
      (machine.advance who program waiting).mapStore wrap := by
  simp only [Machine.advance, Machine.mapStore, carries.step]
  rfl

theorem machine_step (carries : Carries wrap) (program : κ → Program w α)
    (machine : Machine ι κ σ γ w α) (who : ι) :
    (machine.mapStore wrap).step program who = (machine.step program who).mapStore wrap := by
  have same : (machine.mapStore wrap).threads who = machine.threads who := rfl
  rw [Machine.step, Machine.step, same]
  split
  · rfl
  · exact carries.advance machine who _ _
  · simp only [Machine.begin, carries.advance]
    rfl
  · rfl

theorem machine_run (carries : Carries wrap) (program : κ → Program w α)
    (machine : Machine ι κ σ γ w α) (schedule : List ι) :
    (machine.mapStore wrap).run program schedule =
      (machine.run program schedule).mapStore wrap := by
  induction schedule generalizing machine with
  | nil => rfl
  | cons who schedule ih =>
      calc
        ((machine.mapStore wrap).step program who).run program schedule =
            ((machine.step program who).mapStore wrap).run program schedule := by
          rw [carries.machine_step]
        _ = ((machine.step program who).run program schedule).mapStore wrap := ih _

theorem firstWins (carries : Carries wrap) {good : σ → Prop} {size : σ → Nat} {count : τ → Nat}
    (laws : FirstWins good size) (counts : ∀ store, count (wrap store) = size store) :
    FirstWins (fun later => ∃ store, good store ∧ later = wrap store) count := by
  have lookups : ∀ (store : σ) (hash : Hash w),
      IdStore.lookup (wrap store) hash = IdStore.lookup store hash := by
    intro store hash
    rw [IdStore.lookup, IdStore.lookup, carries.lookup]
  have offers : ∀ {store after : σ} {hash : Hash w} {content : Bytes},
      Offered size store after hash content →
        Offered count (wrap store) (wrap after) hash content := by
    intro store after hash content offered
    constructor
    · intro other
      rw [lookups, lookups, lookups, offered.lookup]
    · rw [counts, counts, lookups, offered.size]
  constructor
  · rintro _ ⟨store, ok, rfl⟩ hash
    rw [carries.lookup, lookups, laws.terminated ok]
  · rintro _ ⟨store, ok, rfl⟩ hash content
    obtain ⟨okay, answer, offered⟩ := laws.insert ok hash content
    rw [carries.insert, lookups]
    exact ⟨⟨_, okay, rfl⟩, answer, offers offered⟩
  · rintro _ ⟨store, ok, rfl⟩ hash stem head suffix known
    rw [lookups] at known
    obtain ⟨okay, answer, offered⟩ := laws.extend ok hash suffix known
    rw [carries.extend, lookups]
    exact ⟨⟨_, okay, rfl⟩, answer, offers offered⟩
  · rintro _ ⟨store, ok, rfl⟩ hash stem suffix unknown
    rw [lookups] at unknown
    obtain ⟨okay, answer, unchanged⟩ := laws.refuse ok hash suffix unknown
    rw [carries.extend]
    refine ⟨⟨_, okay, rfl⟩, answer, ?_, ?_⟩
    · intro other
      exact (lookups _ other).trans ((unchanged.lookup other).trans (lookups store other).symm)
    · exact (counts _).trans (unchanged.size.trans (counts store).symm)

end Carries

namespace Backend

def shared : Nat → Table w → Backend w
  | 0, store => table store
  | locks + 1, store => locked (shared locks store)

theorem table?_shared (locks : Nat) (store : Table w) :
    (shared locks store).table? = some store := by
  induction locks with
  | zero => rfl
  | succ locks ih => exact ih

/-- A backend with a table inside is that table under some number of locks. -/
theorem eq_shared {backend : Backend w} {store : Table w} (inside : backend.table? = some store) :
    ∃ locks, backend = shared locks store := by
  induction backend with
  | table other =>
      cases inside
      exact ⟨0, rfl⟩
  | locked inner ih =>
      obtain ⟨locks, rfl⟩ := ih inside
      exact ⟨locks + 1, rfl⟩
  | plain | disabled | refusing => cases inside

theorem carries_shared (locks : Nat) : Carries (shared locks : Table w → Backend w) := by
  induction locks with
  | zero => exact ⟨fun _ _ _ => rfl, fun _ _ _ _ => rfl, fun _ _ => rfl⟩
  | succ locks ih =>
      constructor
      · intro store hash content
        change (IdStore.insert (shared locks store) hash content).mapStore locked = _
        rw [ih.insert]
        rfl
      · intro store hash stem suffix
        change (IdStore.insertExtension (shared locks store) hash stem suffix).mapStore locked = _
        rw [ih.extend]
        rfl
      · exact fun store hash => ih.lookup store hash

end Backend

def Backend.size (backend : Backend w) : Nat := (backend.table?.map Table.size).getD 0

theorem Backend.firstWins (locks : Nat) :
    FirstWins (fun backend : Backend w => ∃ table : Table w, table.Sound ∧
      backend = shared locks table) size := by
  apply (carries_shared locks).firstWins Table.firstWins
  intro table
  rw [size, table?_shared, Option.map_some, Option.getD_some]

/-- The machine `final` has made of `table` what its requests make of it one after another, in the
order of their first steps. -/
structure Linearized (table : Table w) (requests : ι → List (Request w))
    (final : Machine ι (Request w) (Backend w) Unit w (Answer w)) : Prop where
  store : final.store.table? = some (Request.finish table final.calls)
  /-- The first step of a request is the one that first takes the lock. -/
  locking : ∀ request ∈ final.calls, request.program.TakesStore
  /-- Each thread has started its requests in their order. -/
  order : ∀ who, final.callsOf who ++ (final.threads who).waiting = requests who
  /-- What a thread has been told is what one caller is told; only its request under way is still
  unanswered. -/
  answers : ∀ who, ∃ unreturned,
    unreturned.length = (final.threads who).pending.toList.length ∧
      final.answersTo (Request.answers table final.calls) who =
        (final.threads who).returned ++ unreturned

/-- Threads that share a locked table get what one caller gets, whatever the order of their steps. -/
theorem shared_requests_linearized {table : Table w} (reachable : table.Reachable)
    {backend : Backend w} (inside : backend.table? = some table) (requests : ι → List (Request w))
    (schedule : List ι) :
    Linearized table requests
      ((Machine.launch backend () requests).run Request.program schedule) := by
  obtain ⟨locks, rfl⟩ := Backend.eq_shared inside
  have linear := (Linear.launch reachable.sound requests).run Table.firstWins schedule
  have moved := (Backend.carries_shared locks).machine_run Request.program
    (Machine.launch table () requests) schedule
  have launched : (Machine.launch table () requests).mapStore (Backend.shared locks) =
      (Machine.launch (Backend.shared locks table) () requests :
        Machine ι (Request w) (Backend w) Unit w (Answer w)) := rfl
  rw [← launched, moved]
  constructor
  · change (Backend.shared locks _).table? = _
    rw [Backend.table?_shared, linear.store]
    rfl
  · exact fun request _ => request.program_takesStore
  · exact linear.order
  · intro who
    obtain ⟨unreturned, split, outstanding⟩ := linear.served who
    exact ⟨unreturned, outstanding.length_eq, split⟩

/-- A thread plants `B` under the hash of `A` while another one interns `A`. -/
theorem linearized_planting :
    Linearized (Table.ofConfig ⟨1, Binary64.one⟩ : Table .narrow)
      (fun planting : Bool =>
        if planting then [.insert (Hash.ofBytes [65]) [66], .intern [67]] else [.intern [65]])
      ((Machine.launch (.locked (.table (Table.ofConfig ⟨1, Binary64.one⟩))) () fun planting =>
          if planting then [.insert (Hash.ofBytes [65]) [66], .intern [67]] else [.intern [65]]).run
        Request.program [true, false, true, true, false, false, false]) :=
  shared_requests_linearized
    ⟨_, fun _ => .counter { stem := 7 }, [], by decide +kernel, rfl⟩ rfl _ _

end Interner
