import Interner.Proofs.Session.Joining
import Interner.Proofs.Store.Lasting
import Interner.Proofs.Store.Settled
import Interner.Proofs.Table.Doubling
import Interner.Proofs.Table.Listing
import Interner.Proofs.Table.Load

/-!
Requests that store nothing. They make room before they know, so the bucket array may have grown, but
nothing else has changed; and since there is room then, the same request changes nothing any more.
-/

namespace Interner

variable {σ α β : Type} {w : Width} [IdStore σ w] {table after : Table w} {request : Request w}

namespace Program

/-- What the insertion answers that a program begins with. -/
def insertion? : Program w α → σ → Option (Except (StoreError w) Status)
  | insert hash content _, store => some (.ok (IdStore.insert store hash content).answer)
  | insertExtension hash stem suffix _, store =>
      some (IdStore.insertExtension store hash stem suffix).answer
  | done _, _ | lookupTerminated .., _ | candidate _, _ | record .., _ => none

/-- The program looks strings up and reports collisions, and that is all. -/
inductive Aftermath : Program w α → Prop where
  | done (answer : α) : Aftermath (.done answer)
  | lookupTerminated (hash : Hash w) {next : Option Bytes → Program w α}
      (rest : ∀ found, Aftermath (next found)) : Aftermath (.lookupTerminated hash next)
  | record (hash : Hash w) (existing candidate : String) {next : Program w α}
      (rest : Aftermath next) :
      Aftermath (.record (.event (.collided hash existing candidate)) next)

namespace Aftermath

theorem map {program : Program w α} (aftermath : program.Aftermath) (f : α → β) :
    (program.map f).Aftermath := by
  induction aftermath with
  | done answer => exact .done (f answer)
  | lookupTerminated hash _ ih => exact .lookupTerminated hash ih
  | record hash existing candidate _ ih => exact .record hash existing candidate ih

theorem run {program : Program w α} (aftermath : program.Aftermath) (store : σ) :
    (program.run store ()).store = store ∧ ∀ entry ∈ (program.run store ()).journal,
      ∃ hash existing candidate, entry = .event (.collided hash existing candidate) := by
  induction aftermath with
  | done answer => simp
  | lookupTerminated hash _ ih => exact ih _
  | record hash existing candidate _ ih =>
      refine ⟨ih.1, ?_⟩
      simp only [run_record, Outcome.after, List.singleton_append, List.forall_mem_cons]
      exact ⟨⟨hash, existing, candidate, rfl⟩, ih.2⟩

end Aftermath

theorem collide_aftermath (hash : Hash w) (candidate : Bytes) :
    (collide hash candidate).Aftermath :=
  .lookupTerminated hash fun _ => .record _ _ _ (.done _)

end Program

namespace Request

def insertion? (request : Request w) (store : σ) : Option (Except (StoreError w) Status) :=
  request.program.insertion? store

theorem step_aftermath (request : Request w) (store : σ) :
    (request.program.step store ()).answer.Aftermath := by
  cases request with
  | insert | insertExtension | views => exact .done _
  | intern content =>
      rw [program, Program.step_map]
      apply Program.Aftermath.map
      simp only [Program.intern, Program.step]
      split
      · exact Program.collide_aftermath _ content
      · exact .done _
  | internExtension stem suffix =>
      rw [program, Program.step_map]
      apply Program.Aftermath.map
      simp only [Program.internExtension, Program.step]
      split
      · exact .done _
      · exact .lookupTerminated stem fun _ => Program.collide_aftermath _ _
      · exact .done _

theorem store_outcome (request : Request w) (store : σ) :
    (request.outcome store).store = (request.program.step store ()).store := by
  rw [outcome, Program.run_step]
  exact ((request.step_aftermath store).run _).1

theorem journal_outcome (request : Request w) (store : σ) {entry : Entry w}
    (member : entry ∈ (request.outcome store).journal) :
    entry ∈ (request.program.step store ()).journal ∨
      ∃ hash existing candidate, entry = .event (.collided hash existing candidate) := by
  rw [outcome, Program.run_step] at member
  exact (List.mem_append.mp member).imp_right (((request.step_aftermath store).run _).2 entry)

end Request

theorem FirstWins.insertion?_same {good : σ → Prop} {size : σ → Nat} (laws : FirstWins good size)
    {first second : σ} (ok : good first) (okay : good second)
    (entries : SameEntries size size first second) (program : Program w α) :
    program.insertion? first = program.insertion? second := by
  cases program with
  | insert hash content next =>
      simp only [Program.insertion?, (laws.insert_same laws ok okay entries hash content).1]
  | insertExtension hash stem suffix next =>
      simp only [Program.insertion?, (laws.extend_same laws ok okay entries hash stem suffix).1]
  | done | lookupTerminated | candidate | record => rfl

/-- `after` is `table` with room made, and the journal tells of that alone. -/
structure MadeRoom (table after : Table w) (journal : Journal w) : Prop where
  reserve : ∃ events, table.reserve = .ok ⟨after, events⟩ ∧ journal = events.map .event
  enlarged : Enlarged table after

namespace Table

theorem Sound.madeRoom (sound : table.Sound) {program : Program w α}
    {result : Except (StoreError w) Status} (inserts : program.insertion? table = some result)
    (idle : result ≠ .ok .new) :
    MadeRoom table (program.step table ()).store (program.step table ()).journal := by
  have taken : ∀ {hash : Hash w} {content : Bytes},
      (IdStore.insert table hash content).answer ≠ .new →
        ∃ kept, IdStore.lookup table hash = some kept := by
    intro hash content old
    rw [(firstWins.insert sound hash content).2.1, ne_eq, statusUnder_eq_new] at old
    exact Option.ne_none_iff_exists'.mp old
  cases program with
  | insert hash content next =>
      cases inserts
      rcases taken (fun new => idle (congrArg Except.ok new)) with ⟨kept, found⟩
      rcases insert_refused sound content found with ⟨reserved, reserves, enlarged, same⟩
      simp only [Program.step, same]
      exact ⟨⟨_, reserves, rfl⟩, enlarged⟩
  | insertExtension hash stem suffix next =>
      cases inserts
      cases known : IdStore.lookup table stem with
      | none =>
          rcases extend_refused sound hash suffix known with ⟨reserved, reserves, enlarged, same⟩
          simp only [Program.step, same]
          exact ⟨⟨_, reserves, rfl⟩, enlarged⟩
      | some head =>
          rw [extend_eq_insert sound hash suffix known] at idle
          rcases taken (fun new => idle (congrArg Except.ok new)) with ⟨kept, found⟩
          rcases insert_refused sound (head ++ suffix) found with
            ⟨reserved, reserves, enlarged, same⟩
          simp only [Program.step, extend_eq_insert sound hash suffix known, same, Step.mapAnswer]
          exact ⟨⟨_, reserves, rfl⟩, enlarged⟩
  | done | lookupTerminated | candidate | record => cases inserts

theorem Reachable.acceptable (reachable : table.Reachable) : Acceptable table.maxLoadFactor := by
  rcases reachable with ⟨config, generators, calls, valid, rfl⟩
  have start : (⟨ofConfig config, generators⟩ : Session (Table w) w).store.Sound :=
    sound_ofConfig valid
  rw [(evolves_grows.calls firstWins start calls).maxLoadFactor]
  exact acceptable_of_validate valid

end Table

theorem MadeRoom.reserve_again {journal : Journal w} (made : MadeRoom table after journal)
    (sound : table.Sound) (acceptable : Acceptable table.maxLoadFactor)
    (few : table.size < 2 ^ 32) : after.reserve = .ok ⟨after, []⟩ := by
  rcases made.reserve with ⟨events, reserves, _⟩
  have room := reserve_leaves_room sound acceptable few reserves made.enlarged
  rw [Table.reserve, Table.maxDoublings, Table.reserveWithin, if_neg (Nat.not_le.mpr room)]

/-- Nothing but the bucket array of `table` and the links between its nodes differs in `after`. -/
structure Unchanged (table after : Table w) : Prop where
  arena : records after.nodes = records table.nodes
  size : after.size = table.size
  find : ∀ hash, after.find hash = table.find hash
  lookup : ∀ hash, IdStore.lookupTerminated after hash = IdStore.lookupTerminated table hash
  entries : ∃ listed relisted, table.entries = .ok listed ∧ after.entries = .ok relisted ∧
    relisted.Perm listed
  doubled : ∃ doublings, table.rehashTimes doublings = .ok after ∧
    after.bucketCount = 2 ^ doublings * table.bucketCount
  chains : ∀ chains, table.LeadsTo chains →
    after.LeadsTo (table.splitChains chains after.bucketCount)

/-- The request made on `after` is answered as on `table`, and `after` stays exactly as it is. -/
structure Repeats (request : Request w) (table after : Table w) : Prop where
  answer : (request.outcome after).answer = (request.outcome table).answer
  store : (request.outcome after).store = after
  events : ∀ before count items,
    .event (.rehashed before count items) ∉ (request.outcome after).journal

theorem MadeRoom.unchanged {journal : Journal w} (made : MadeRoom table after journal)
    (sound : table.Sound) : Unchanged table after := by
  have enlarged := made.enlarged
  rcases made.reserve with ⟨events, reserves, _⟩
  rcases Table.reserveWithin_rehashTimes reserves with ⟨doublings, rehashes⟩
  have count := sound.bucketCount_rehashTimes rehashes
  have leads : ∀ chains, table.LeadsTo chains →
      after.LeadsTo (table.splitChains chains after.bucketCount) :=
    fun _ => enlarged.leadsTo sound
  have lookups : ∀ hash, IdStore.lookupTerminated after hash =
      IdStore.lookupTerminated table hash := by
    intro hash
    rw [Table.lookupTerminated_eq enlarged.sound, Table.lookupTerminated_eq sound,
      enlarged.records]
  rcases sound with ⟨old, arranged⟩
  rcases enlarged.sound with ⟨new, regrouped⟩
  refine ⟨enlarged.records, enlarged.size, arranged.find_congr regrouped enlarged.records, lookups,
    ?_, ⟨doublings, rehashes, count⟩, leads⟩
  refine ⟨_, _, arranged.entries_eq, regrouped.entries_eq, ?_⟩
  apply (List.perm_ext_iff_of_nodup regrouped.nodup_listing arranged.nodup_listing).mpr
  rintro ⟨hash, content⟩
  rw [regrouped.mem_listing, arranged.mem_listing, contentOf_congr enlarged.records]

/-- A request whose insertion stores nothing changes nothing but the bucket array, and made again it
changes nothing at all. Keys of the arena have 32 bits, so there are fewer than 2^32 strings. -/
theorem idle_request_repeats (reachable : table.Reachable) (few : table.size < 2 ^ 32)
    (request : Request w) (result : Except (StoreError w) Status)
    (inserts : request.insertion? table = some result) (idle : result ≠ .ok .new) :
    Unchanged table (request.outcome table).store ∧
      Repeats request table (request.outcome table).store := by
  have sound := reachable.sound
  have made := sound.madeRoom inserts idle
  rw [← request.store_outcome] at made
  have unchanged := made.unchanged sound
  refine ⟨unchanged, ?_⟩
  generalize (request.outcome table).store = after at made unchanged
  have afterSound := made.enlarged.sound
  have same := Table.sameEntries sound afterSound made.enlarged.records
  have again : request.insertion? after = some result :=
    (Table.firstWins.insertion?_same afterSound sound same request.program).trans inserts
  have more := afterSound.madeRoom again idle
  rcases more.reserve with ⟨events, reserves, journal⟩
  rw [made.reserve_again sound reachable.acceptable few] at reserves
  rcases Table.Grown.mk.inj (Except.ok.inj reserves) with ⟨stays, rfl⟩
  constructor
  · exact (Table.firstWins.run_same Table.firstWins request.program afterSound sound same ()).1
  · rw [request.store_outcome, ← stays]
  · intro before count items member
    rcases request.journal_outcome after member with first | ⟨hash, existing, candidate, other⟩
    · rw [journal] at first
      cases first
    · cases other

/-- Met again, extended in vain, and colliding: on the crowded table each call makes it grow once. -/
theorem idle_request_repeats_crowded :
    (Unchanged crowdedTable ((Request.insert 7 [65]).outcome crowdedTable).store ∧
      Repeats (.insert 7 [65]) crowdedTable ((Request.insert 7 [65]).outcome crowdedTable).store) ∧
    (Unchanged crowdedTable ((Request.internExtension 8 [66]).outcome crowdedTable).store ∧
      Repeats (.internExtension 8 [66]) crowdedTable
        ((Request.internExtension 8 [66]).outcome crowdedTable).store) ∧
    (Unchanged crowdedTable ((Request.insertExtension 7 7 [66]).outcome crowdedTable).store ∧
      Repeats (.insertExtension 7 7 [66]) crowdedTable
        ((Request.insertExtension 7 7 [66]).outcome crowdedTable).store) := by
  have reachable : crowdedTable.Reachable := ⟨_, _, _, by decide +kernel, rfl⟩
  have few : crowdedTable.size < 2 ^ 32 := by decide +kernel
  refine ⟨?_, ?_, ?_⟩
  · exact idle_request_repeats reachable few (.insert 7 [65]) (.ok .old) (by decide +kernel)
      (by decide)
  · exact idle_request_repeats reachable few (.internExtension 8 [66]) (.error (.unknownStem 8))
      (by decide +kernel) (by decide)
  · exact idle_request_repeats reachable few (.insertExtension 7 7 [66]) (.ok .collision)
      (by decide +kernel) (by decide)

end Interner
