import Interner.Proofs.Session.Joining
import Interner.Proofs.Sharing.Crew
import Interner.Proofs.Sharing.Locked
import Interner.Proofs.Store.Lasting

namespace Interner

variable {ι κ σ τ γ α : Type} {w : Width} [IdStore σ w] [IdStore τ w] [CandidateSource γ]
  [DecidableEq ι] {good : σ → Prop} {size : σ → Nat} {change : σ → σ → Prop}

theorem Machine.step_store (program : κ → Program w α) (machine : Machine ι κ σ γ w α) (who : ι) :
    (machine.step program who).store = machine.store ∨
      ∃ rest : Program w α,
        (machine.step program who).store = (rest.step machine.store machine.source).store := by
  rw [Machine.step]
  split
  · exact .inl rfl
  · exact .inr ⟨_, rfl⟩
  · exact .inr ⟨_, rfl⟩
  · exact .inl rfl

namespace Evolves

theorem step (evolves : Evolves good change) {store : σ} (ok : good store) (program : Program w α)
    (source : γ) : change store (program.step store source).store := by
  cases program with
  | insert hash content next => exact evolves.insert ok hash content
  | insertExtension hash stem suffix next => exact evolves.extend ok hash stem suffix
  | done | lookupTerminated | candidate | record => exact evolves.refl store

theorem machine_run (evolves : Evolves good change) (laws : FirstWins good size)
    (program : κ → Program w α) {machine : Machine ι κ σ γ w α} (ok : good machine.store)
    (schedule : List ι) : change machine.store (machine.run program schedule).store := by
  induction schedule generalizing machine with
  | nil => exact evolves.refl machine.store
  | cons who schedule ih =>
      have rest := @ih (machine.step program who)
      rcases machine.step_store program who with same | ⟨taken, same⟩
      · rw [same] at rest
        exact rest ok
      · rw [same] at rest
        exact evolves.trans (evolves.step ok taken machine.source)
          (rest (laws.good_step ok taken machine.source))

theorem crew_stepped (evolves : Evolves good change) {crew after : Crew ι σ w} {who : ι}
    (ok : good crew.store) (stepped : crew.Stepped who after) : change crew.store after.store := by
  cases stepped with
  | take => exact evolves.step ok _ crew.generator
  | idle | begin | finish => exact evolves.refl crew.store

theorem crew_run (evolves : Evolves good change) (laws : FirstWins good size)
    {crew : Crew ι σ w} (ok : good crew.store) (schedule : List ι) :
    change crew.store (crew.run schedule).store := by
  induction schedule generalizing crew with
  | nil => exact evolves.refl crew.store
  | cons who schedule ih =>
      have stepped := crew.stepped who
      exact evolves.trans (evolves.crew_stepped ok stepped) (ih (laws.good_stepped ok stepped))

end Evolves

/-- What links good stores links the stores that they are wrapped in. -/
def Lifted (wrap : σ → τ) (good : σ → Prop) (change : σ → σ → Prop) (before after : τ) : Prop :=
  ∀ store, good store → before = wrap store →
    ∃ later, good later ∧ after = wrap later ∧ change store later

theorem Carries.evolves {wrap : σ → τ} (carries : Carries wrap) (laws : FirstWins good size)
    (evolves : Evolves good change) :
    Evolves (fun later => ∃ store, good store ∧ later = wrap store) (Lifted wrap good change) where
  refl := fun _ store ok same => ⟨store, ok, same, evolves.refl store⟩
  trans := by
    intro first second third earlier later store ok same
    rcases earlier store ok same with ⟨middle, okay, sameMiddle, changed⟩
    rcases later middle okay sameMiddle with ⟨last, fine, sameLast, changedAgain⟩
    exact ⟨last, fine, sameLast, evolves.trans changed changedAgain⟩
  insert := by
    rintro _ _ hash content store ok rfl
    refine ⟨_, (laws.insert ok hash content).1, ?_, evolves.insert ok hash content⟩
    rw [carries.insert]
    rfl
  extend := by
    rintro _ _ hash stem suffix store ok rfl
    refine ⟨_, laws.good_extend ok hash stem suffix, ?_, evolves.extend ok hash stem suffix⟩
    rw [carries.extend]
    rfl

theorem Backend.evolves_grows (locks : Nat) :
    Evolves (fun backend : Backend w => ∃ table : Table w, table.Sound ∧
      backend = shared locks table) (Lifted (shared locks) Table.Sound Grows) :=
  (carries_shared locks).evolves Table.firstWins Table.evolves_grows

/-- In `after` all that was found before is still found, and in the same nodes. -/
structure Stable (table : Table w) (backend after : Backend w) : Prop where
  /-- No node is removed, and no field of one is written but its link. -/
  nodes : ∃ later, after.table? = some later ∧ ∀ (key : Key) (node : Node w),
    table.nodes[key]? = some node → ∃ next, later.nodes[key]? = some { node with next }
  lookup : ∀ hash bytes, IdStore.lookupTerminated backend hash = some bytes →
    IdStore.lookupTerminated after hash = some bytes ∧ ∃ key later,
      after.table? = some later ∧ table.Finds hash key bytes ∧ later.Finds hash key bytes

theorem Grows.stable {table later : Table w} (grows : Grows table later) (sound : table.Sound)
    (laterSound : later.Sound) (locks : Nat) :
    Stable table (Backend.shared locks table) (Backend.shared locks later) := by
  have inside := Backend.table?_shared locks later
  refine ⟨⟨later, inside, fun key node live => grows.node live⟩, ?_⟩
  intro hash bytes found
  rw [(Backend.carries_shared locks).lookup, Table.lookupTerminated_eq sound] at found
  rcases sound.finds found with ⟨key, finds⟩
  have again := finds.grows grows laterSound
  refine ⟨?_, key, later, inside, finds, again⟩
  rw [(Backend.carries_shared locks).lookup]
  simp only [IdStore.lookupTerminated, again.lookup]

variable {table : Table w}

/-- Whatever one caller, threads of any programs, or workers on a shared counter do next: what a store
finds it goes on finding, in the same node with the same hash and bytes. -/
theorem lookups_stable (reachable : table.Reachable) {backend : Backend w}
    (inside : backend.table? = some table) :
    (∀ (session : Session (Backend w) w) (calls : List (Call w)), session.store = backend →
      Stable table backend (session.run calls).store) ∧
    (∀ (ι κ γ α : Type) [DecidableEq ι] [CandidateSource γ] (program : κ → Program w α)
      (machine : Machine ι κ (Backend w) γ w α) (schedule : List ι),
      machine.store = backend → Stable table backend (machine.run program schedule).store) ∧
    ∀ (ι : Type) [DecidableEq ι] (crew : Crew ι (Backend w) w) (schedule : List ι),
      crew.store = backend → Stable table backend (crew.run schedule).store := by
  rcases Backend.eq_shared inside with ⟨locks, rfl⟩
  have sound := reachable.sound
  have laws := Backend.firstWins (w := w) locks
  have evolves := Backend.evolves_grows (w := w) locks
  have stable : ∀ after : Backend w,
      Lifted (Backend.shared locks) Table.Sound Grows (Backend.shared locks table) after →
        Stable table (Backend.shared locks table) after := by
    intro after changed
    rcases changed table sound rfl with ⟨later, laterSound, rfl, grows⟩
    exact grows.stable sound laterSound locks
  refine ⟨?_, ?_, ?_⟩
  · intro session calls store
    apply stable
    rw [← store]
    exact evolves.calls laws ⟨table, sound, store⟩ calls
  · intro ι κ γ α _ _ program machine schedule store
    apply stable
    rw [← store]
    exact evolves.machine_run laws program ⟨table, sound, store⟩ schedule
  · intro ι _ crew schedule store
    apply stable
    rw [← store]
    exact evolves.crew_run laws ⟨table, sound, store⟩ schedule

/-- A string stored under two locks is found again after calls that make the table grow, among threads
that add others, and while two workers count. -/
theorem lookups_stable_crowded :
    Stable crowdedTable (.locked (.locked (.table crowdedTable)))
        (Session.run ⟨.locked (.locked (.table crowdedTable)), fun _ => .counter { stem := 7 }⟩
          [.generate 0, .request (.insert 7 [66]), .request (.insertExtension 9 8 [67])]).store ∧
      Stable crowdedTable (.table crowdedTable)
        ((Machine.launch (.table crowdedTable) () fun first : Bool =>
          if first then [.insert 8 [66]] else [.intern [67]]).run Request.program
            [true, false, false, true]).store ∧
      Stable crowdedTable (.locked (.table crowdedTable))
        ((Crew.launch (.locked (.table crowdedTable)) { stem := 7 } fun _ : Bool =>
          [.generate (.bounded 2)]).run [true, false, true, true, false, false]).store := by
  have reachable : crowdedTable.Reachable := ⟨_, _, _, by decide +kernel, rfl⟩
  refine ⟨?_, ?_, ?_⟩
  · exact (lookups_stable reachable rfl).1 _ _ rfl
  · exact (lookups_stable reachable rfl).2.1 _ _ _ _ Request.program _ _ rfl
  · exact (lookups_stable reachable rfl).2.2 _ _ _ rfl

end Interner
