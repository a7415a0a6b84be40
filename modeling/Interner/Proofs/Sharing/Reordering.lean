import Interner.Proofs.Sharing.Locked
import Interner.Proofs.Store.Batch
import Interner.Proofs.Table.Listing
import Mathlib.Data.Set.List

/-!
Insertions in another order, by one caller or by threads that share a table. The order in which nodes
were added and chains relinked leaves no trace that a caller can find.
-/

namespace Interner

variable {ι : Type} {w : Width} {table first second : Table w} {pairs others : List (Hash w × Bytes)}

/-- As many buckets, and the same entries in the same order. -/
structure SameIteration (first second : Table w) : Prop where
  bucketCount : first.bucketCount = second.bucketCount
  taken : ∀ limit, ∃ entries after later,
    Cursor.take first limit {} = .ok (entries, after) ∧
      Cursor.take second limit {} = .ok (entries, later)

theorem contentOf_same (sound : first.Sound) (other : second.Sound)
    (same : ∀ hash, IdStore.lookup first hash = IdStore.lookup second hash) (hash : Hash w) :
    contentOf first hash = contentOf second hash := by
  rw [← Table.lookup_eq sound, ← Table.lookup_eq other, same]

theorem sameIteration (sound : first.Sound) (other : second.Sound)
    (count : first.bucketCount = second.bucketCount)
    (same : ∀ hash, IdStore.lookup first hash = IdStore.lookup second hash) :
    SameIteration first second := by
  have contents := contentOf_same sound other same
  rcases sound with ⟨chains, arranged⟩
  rcases other with ⟨otherChains, otherArranged⟩
  refine ⟨count, ?_⟩
  intro limit
  rcases arranged.take_listing limit with ⟨after, takes⟩
  rcases otherArranged.take_listing limit with ⟨later, takesOther⟩
  rw [← arranged.listing_unique otherArranged count contents] at takesOther
  exact ⟨_, after, later, takes, takesOther⟩

def Answer.tells (status : Status) : Answer w → Bool
  | inserted told => told == status
  | _ => false

/-- One caller cannot tell in which of two orders strings were inserted. -/
structure Unordered (table : Table w) (pairs others : List (Hash w × Bytes)) : Prop where
  answers : ∀ status, (Request.answers table (Request.inserts pairs)).countP (Answer.tells status) =
    (Request.answers table (Request.inserts others)).countP (Answer.tells status)
  entries : SameEntries Table.size Table.size (Request.finish table (Request.inserts pairs))
    (Request.finish table (Request.inserts others))
  iteration : Fresh table pairs → SameIteration (Request.finish table (Request.inserts pairs))
    (Request.finish table (Request.inserts others))

theorem Table.Sound.unordered (sound : table.Sound) (order : pairs.Perm others)
    (coherent : Coherent pairs) : Unordered table pairs others := by
  have same := firstWins.inserts_perm sound order coherent
  refine ⟨fun status => same.1.countP_eq _, same.2, ?_⟩
  intro fresh
  have again : Fresh table others := by
    have hashes := order.map Prod.fst
    exact ⟨hashes.nodup_iff.mp fresh.distinct, fun hash member =>
      fresh.absent hash (hashes.mem_iff.mpr member)⟩
  apply sameIteration (firstWins.good_inserts sound pairs) (firstWins.good_inserts sound others) _
    same.2.lookup
  rw [bucketCount_inserts sound fresh, bucketCount_inserts sound again, order.length_eq]

variable [DecidableEq ι] {lists : ι → List (Hash w × Bytes)}
  {woven rewoven : List (ι × (Hash w × Bytes))}

/-- No hash is on the lists of two threads. -/
def Apart (lists : ι → List (Hash w × Bytes)) : Prop :=
  ∀ who other, who ≠ other → ∀ pair ∈ lists who, ∀ strange ∈ lists other, pair.1 ≠ strange.1

/-- The lists of all threads, each in its order. -/
def Weaves (lists : ι → List (Hash w × Bytes)) (woven : List (ι × (Hash w × Bytes))) : Prop :=
  ∀ who, (woven.filter fun entry => entry.1 = who).map Prod.snd = lists who

namespace Weaves

theorem mem (weaves : Weaves lists woven) {entry : ι × (Hash w × Bytes)} (member : entry ∈ woven) :
    entry.2 ∈ lists entry.1 := by
  rw [← weaves]
  exact List.mem_map_of_mem (List.mem_filter.mpr ⟨member, by simp⟩)

theorem owner_iff (weaves : Weaves lists woven) (apart : Apart lists) {who : ι}
    {entry : ι × (Hash w × Bytes)} (member : entry ∈ woven) :
    entry.1 = who ↔ entry.2.1 ∈ (lists who).map Prod.fst := by
  have listed := weaves.mem member
  constructor
  · rintro rfl
    exact List.mem_map_of_mem listed
  · intro own
    rcases List.mem_map.mp own with ⟨pair, inList, same⟩
    by_contra strange
    exact apart _ _ strange _ listed pair inList same.symm

theorem filter_hash (weaves : Weaves lists woven) (apart : Apart lists) {who : ι} {hash : Hash w}
    (own : hash ∈ (lists who).map Prod.fst) :
    (woven.map Prod.snd).filter (fun pair => pair.1 == hash) =
      (lists who).filter fun pair => pair.1 == hash := by
  rw [← weaves, List.filter_map, List.filter_map, List.filter_filter]
  congr 1
  apply List.filter_congr
  intro entry member
  have owner : entry.1 = who ↔ _ := weaves.owner_iff apart member
  by_cases same : entry.2.1 = hash
  · simp [same, owner.mpr (same ▸ own)]
  · simp [same]

theorem filter_foreign (weaves : Weaves lists woven) {hash : Hash w}
    (foreign : ∀ who, hash ∉ (lists who).map Prod.fst) :
    (woven.map Prod.snd).filter (fun pair => pair.1 == hash) = [] := by
  apply List.filter_eq_nil_iff.mpr
  rintro pair member
  rcases List.mem_map.mp member with ⟨entry, present, rfl⟩
  simp only [beq_iff_eq]
  rintro rfl
  exact foreign entry.1 (List.mem_map_of_mem (weaves.mem present))

theorem filter_same (weaves : Weaves lists woven) (again : Weaves lists rewoven)
    (apart : Apart lists) (hash : Hash w) :
    (woven.map Prod.snd).filter (fun pair => pair.1 == hash) =
      (rewoven.map Prod.snd).filter fun pair => pair.1 == hash := by
  by_cases owned : ∃ who, hash ∈ (lists who).map Prod.fst
  · rcases owned with ⟨who, own⟩
    rw [weaves.filter_hash apart own, again.filter_hash apart own]
  · rw [not_exists] at owned
    rw [weaves.filter_foreign owned, again.filter_foreign owned]

theorem perm (weaves : Weaves lists woven) (again : Weaves lists rewoven) (apart : Apart lists) :
    (woven.map Prod.snd).Perm (rewoven.map Prod.snd) := by
  apply List.perm_iff_count.mpr
  intro pair
  have kept : ∀ listed : List (Hash w × Bytes),
      (listed.filter fun other => other.1 == pair.1).count pair = listed.count pair :=
    fun listed => List.count_filter (by simp)
  rw [← kept, weaves.filter_same again apart, kept]

theorem fresh {σ : Type} [IdStore σ w] {store : σ} (weaves : Weaves lists woven)
    (apart : Apart lists) (each : ∀ who, Fresh store (lists who)) :
    Fresh store (woven.map Prod.snd) := by
  have counted : ∀ (pairs : List (Hash w × Bytes)) (hash : Hash w),
      (pairs.map Prod.fst).count hash = (pairs.filter fun pair => pair.1 == hash).length := by
    intro pairs hash
    rw [List.count, List.countP_map, List.countP_eq_length_filter]
    rfl
  constructor
  · apply List.nodup_iff_count_le_one.mpr
    intro hash
    by_cases owned : ∃ who, hash ∈ (lists who).map Prod.fst
    · rcases owned with ⟨who, own⟩
      rw [counted, weaves.filter_hash apart own, ← counted]
      exact List.nodup_iff_count_le_one.mp (each who).distinct hash
    · rw [not_exists] at owned
      rw [counted, weaves.filter_foreign owned]
      exact Nat.zero_le 1
  · intro hash member
    rcases List.mem_map.mp member with ⟨pair, listed, rfl⟩
    rcases List.mem_map.mp listed with ⟨entry, present, rfl⟩
    exact (each entry.1).absent _ (List.mem_map_of_mem (weaves.mem present))

end Weaves

namespace Machine

variable {σ : Type}

def Done {κ γ α : Type} (machine : Machine ι κ σ γ w α) : Prop :=
  ∀ who, (machine.threads who).waiting = [] ∧ (machine.threads who).pending = none

variable {machine : Machine ι (Request w) σ Unit w (Answer w)}

theorem woven_of_callsOf (calls : ∀ who, machine.callsOf who = Request.inserts (lists who)) :
    ∃ woven, Weaves lists woven ∧
      machine.started = woven.map fun entry => (entry.1, .insert entry.2.1 entry.2.2) := by
  have listed : ∀ call ∈ machine.started, call ∈ Set.range
      (fun entry : ι × (Hash w × Bytes) => (entry.1, Request.insert entry.2.1 entry.2.2)) := by
    intro call member
    have own : call.2 ∈ machine.callsOf call.1 :=
      List.mem_map_of_mem (List.mem_filter.mpr ⟨member, by simp⟩)
    rw [calls] at own
    rcases List.mem_map.mp own with ⟨pair, _, same⟩
    exact ⟨(call.1, pair), Prod.ext rfl same⟩
  rcases (Set.range_list_map _).symm.subset listed with ⟨woven, same⟩
  refine ⟨woven, ?_, same.symm⟩
  intro who
  have own := calls who
  rw [callsOf, ← same, List.filter_map, List.map_map] at own
  have injective : Function.Injective
      fun pair : Hash w × Bytes => Request.insert pair.1 pair.2 := by
    intro pair other same
    rcases Request.insert.inj same with ⟨hash, content⟩
    exact Prod.ext hash content
  apply List.map_injective_iff.mpr injective
  rw [List.map_map]
  exact own

end Machine

section Threads

variable {σ : Type} [IdStore σ w] {good : σ → Prop} {size : σ → Nat} {start : σ}
  {machine other : Machine ι (Request w) σ Unit w (Answer w)}

theorem Linear.woven_inserts (linear : Linear good start (fun who => Request.inserts (lists who)) machine)
    (done : machine.Done) :
    ∃ woven, Weaves lists woven ∧
      machine.store = Request.finish start (Request.inserts (woven.map Prod.snd)) ∧
      ∀ who, (machine.threads who).returned = ((woven.zip (Request.answers start
        (Request.inserts (woven.map Prod.snd)))).filter fun entry => entry.1.1 = who).map
          Prod.snd := by
  have calls : ∀ who, machine.callsOf who = Request.inserts (lists who) := by
    intro who
    rw [← linear.order who, (done who).1, List.append_nil]
  rcases Machine.woven_of_callsOf calls with ⟨woven, weaves, started⟩
  have listed : machine.calls = Request.inserts (woven.map Prod.snd) := by
    rw [Machine.calls, started, Request.inserts, List.map_map, List.map_map]
    rfl
  refine ⟨woven, weaves, by rw [linear.store, listed], ?_⟩
  intro who
  rcases linear.served who with ⟨unreturned, split, outstanding⟩
  have none := outstanding.length_eq
  rw [(done who).2, Option.toList_none, List.length_nil] at none
  rw [List.length_eq_zero_iff.mp none, List.append_nil, listed, Machine.answersTo, started,
    List.zip_map_left, List.filter_map, List.map_map] at split
  exact split.symm

theorem FirstWins.woven_answers (laws : FirstWins good size) (ok : good start)
    (weaves : Weaves lists woven) (apart : Apart lists) (who : ι) :
    ((woven.zip (Request.answers start (Request.inserts (woven.map Prod.snd)))).filter
        fun entry => entry.1.1 = who).map Prod.snd =
      Request.answers start (Request.inserts (lists who)) := by
  have owner : ∀ entry ∈ woven,
      decide (entry.1 = who) = decide (entry.2.1 ∈ (lists who).map Prod.fst) :=
    fun entry member => decide_eq_decide.mpr (weaves.owner_iff apart member)
  have own : (woven.map Prod.snd).filter (fun pair => pair.1 ∈ (lists who).map Prod.fst) =
      lists who := by
    rw [← weaves who, List.filter_map]
    congr 1
    apply List.filter_congr
    intro entry member
    rw [weaves who]
    exact (owner entry member).symm
  have alone := (laws.inserts_filter (fun hash => hash ∈ (lists who).map Prod.fst) ok ok
    (fun _ _ => rfl) (woven.map Prod.snd)).1
  rw [own, List.zip_map_left, List.filter_map, List.map_map] at alone
  rw [← alone]
  congr 1
  apply List.filter_congr
  rintro ⟨entry, answer⟩ member
  exact owner entry (List.of_mem_zip member).1

end Threads

/-- Threads have inserted their lists with the same result. -/
structure SameResult (table : Table w) (lists : ι → List (Hash w × Bytes))
    (first second : Machine ι (Request w) (Backend w) Unit w (Answer w)) : Prop where
  returned : ∀ who, (first.threads who).returned = (second.threads who).returned
  tables : ∃ one other, first.store.table? = some one ∧ second.store.table? = some other ∧
    SameEntries Table.size Table.size one other ∧
    ((∀ who, Fresh table (lists who)) → SameIteration one other)

theorem Table.Sound.woven_same (sound : table.Sound) (weaves : Weaves lists woven)
    (again : Weaves lists rewoven) (apart : Apart lists) :
    SameEntries size size (Request.finish table (Request.inserts (woven.map Prod.snd)))
        (Request.finish table (Request.inserts (rewoven.map Prod.snd))) ∧
      ((∀ who, Fresh table (lists who)) →
        SameIteration (Request.finish table (Request.inserts (woven.map Prod.snd)))
          (Request.finish table (Request.inserts (rewoven.map Prod.snd)))) := by
  have good := firstWins.good_inserts sound (woven.map Prod.snd)
  have okay := firstWins.good_inserts sound (rewoven.map Prod.snd)
  have same : ∀ hash, IdStore.lookup (Request.finish table (Request.inserts (woven.map Prod.snd)))
      hash = IdStore.lookup (Request.finish table (Request.inserts (rewoven.map Prod.snd))) hash := by
    intro hash
    rw [firstWins.lookup_inserts sound, weaves.filter_same again apart,
      ← firstWins.lookup_inserts sound]
  refine ⟨⟨same, ?_⟩, ?_⟩
  · have contents := contentOf_same good okay same
    rcases good with ⟨chains, arranged⟩
    rcases okay with ⟨others, otherArranged⟩
    exact arranged.size_eq_of_contents otherArranged contents
  · intro each
    apply sameIteration good okay _ same
    rw [bucketCount_inserts sound (weaves.fresh apart each),
      bucketCount_inserts sound (again.fresh apart each), (weaves.perm again apart).length_eq]

def Backend.insertedBy (backend : Backend w) (lists : ι → List (Hash w × Bytes))
    (schedule : List ι) : Machine ι (Request w) (Backend w) Unit w (Answer w) :=
  (Machine.launch backend () fun who => Request.inserts (lists who)).run Request.program schedule

theorem Table.Sound.insertedBy_same (sound : table.Sound) {backend : Backend w}
    (inside : backend.table? = some table) (apart : Apart lists) {schedule later : List ι}
    (done : (backend.insertedBy lists schedule).Done)
    (doneLater : (backend.insertedBy lists later).Done) :
    SameResult table lists (backend.insertedBy lists schedule)
      (backend.insertedBy lists later) := by
  rcases Backend.eq_shared inside with ⟨locks, rfl⟩
  -- the threads take the same steps on the bare table
  have bare : ∀ turns, (Backend.shared locks table).insertedBy lists turns =
      ((Machine.launch table () fun who => Request.inserts (lists who)).run
        Request.program turns).mapStore (Backend.shared locks) :=
    (Backend.carries_shared locks).machine_run Request.program (Machine.launch table () _)
  have linear := Linear.launch sound fun who => Request.inserts (lists who)
  rw [bare] at done doneLater
  rcases (linear.run firstWins schedule).woven_inserts done with ⟨woven, weaves, stored, told⟩
  rcases (linear.run firstWins later).woven_inserts doneLater with
    ⟨rewoven, again, storedLater, toldLater⟩
  have same := sound.woven_same weaves again apart
  rw [bare, bare]
  refine ⟨?_, _, _, Backend.table?_shared locks _, Backend.table?_shared locks _, ?_⟩
  · intro who
    have early := (told who).trans (firstWins.woven_answers sound weaves apart who)
    have late := (toldLater who).trans (firstWins.woven_answers sound again apart who)
    exact early.trans late.symm
  · rw [stored, storedLater]
    exact same

/-- What insertions do to a table does not depend on their order: one caller who permutes them gets as
many answers of each kind, and threads whose hashes are apart get the same answers however their steps
mix. Where all hashes are new, even the buckets and the order of iteration are the same. -/
theorem insertion_order_unseen (reachable : table.Reachable) :
    (∀ pairs others : List (Hash w × Bytes), pairs.Perm others → Coherent pairs →
      Unordered table pairs others) ∧
    ∀ (ι : Type) [DecidableEq ι] (backend : Backend w), backend.table? = some table →
      ∀ lists : ι → List (Hash w × Bytes), Apart lists → ∀ schedule later : List ι,
        (backend.insertedBy lists schedule).Done → (backend.insertedBy lists later).Done →
          SameResult table lists (backend.insertedBy lists schedule)
            (backend.insertedBy lists later) := by
  constructor
  · intro pairs others order coherent
    exact reachable.sound.unordered order coherent
  · intro ι _ backend inside lists apart schedule later done doneLater
    exact reachable.sound.insertedBy_same inside apart done doneLater

def tinyTable : Table .narrow := Table.ofConfig ⟨1, Binary64.one⟩

def tinyLists (who : Bool) : List (Hash .narrow × Bytes) :=
  if who then [(7, [65]), (9, [66]), (7, [65])] else [(8, [67])]

/-- A string that comes twice can show in the bucket count: the second time it makes room in vain. -/
example :
    (Request.finish tinyTable
      (Request.inserts [(7, [65]), (9, [66]), (8, [67]), (7, [65])])).bucketCount = 8 ∧
    (Request.finish tinyTable
      (Request.inserts [(9, [66]), (7, [65]), (7, [65]), (8, [67])])).bucketCount = 4 := by
  decide +kernel

def freshPairs : List (Hash .narrow × Bytes) := [(7, [65]), (9, [66]), (8, [67])]

def freshLists (who : Bool) : List (Hash .narrow × Bytes) :=
  if who then [(7, [65]), (9, [66])] else [(8, [67])]

theorem tinyTable_reachable : tinyTable.Reachable :=
  ⟨⟨1, Binary64.one⟩, fun _ => .counter { stem := 7 }, [], by decide +kernel, rfl⟩

theorem fresh_tiny {pairs : List (Hash .narrow × Bytes)} (distinct : (pairs.map Prod.fst).Nodup) :
    Fresh tinyTable pairs :=
  ⟨distinct, fun hash _ => Table.lookup_ofConfig (by decide +kernel) hash⟩

/-- One caller and two threads in another order, with a string that comes twice and with new strings
only. -/
theorem insertion_order_unseen_tiny :
    Unordered tinyTable [(7, [65]), (9, [66]), (8, [67]), (7, [65])]
        [(9, [66]), (7, [65]), (7, [65]), (8, [67])] ∧
      SameResult tinyTable tinyLists
        (Backend.insertedBy (.locked (.table tinyTable)) tinyLists
          [true, true, true, true, true, true, false, false])
        (Backend.insertedBy (.locked (.table tinyTable)) tinyLists
          [true, false, true, true, true, true, true, false]) ∧
      SameIteration (Request.finish tinyTable (Request.inserts freshPairs))
        (Request.finish tinyTable (Request.inserts freshPairs.reverse)) ∧
      ∃ one other,
        (Backend.insertedBy (.locked (.table tinyTable)) freshLists
            [true, true, true, true, false, false]).store.table? = some one ∧
          (Backend.insertedBy (.locked (.table tinyTable)) freshLists
            [false, true, false, true, true, true]).store.table? = some other ∧
          SameIteration one other := by
  have unseen := insertion_order_unseen tinyTable_reachable
  have unordered : Unordered tinyTable freshPairs freshPairs.reverse :=
    unseen.1 _ _ (List.reverse_perm _).symm (by unfold Coherent; decide)
  have woven : SameResult tinyTable freshLists
      (Backend.insertedBy (.locked (.table tinyTable)) freshLists
        [true, true, true, true, false, false])
      (Backend.insertedBy (.locked (.table tinyTable)) freshLists
        [false, true, false, true, true, true]) := by
    apply unseen.2 Bool _ rfl
    · unfold Apart
      decide
    · rintro (_ | _) <;> exact ⟨rfl, rfl⟩
    · rintro (_ | _) <;> exact ⟨rfl, rfl⟩
  refine ⟨unseen.1 _ _ (by decide) (by unfold Coherent; decide), ?_, ?_, ?_⟩
  · apply unseen.2 Bool _ rfl
    · unfold Apart
      decide
    · rintro (_ | _) <;> exact ⟨rfl, rfl⟩
    · rintro (_ | _) <;> exact ⟨rfl, rfl⟩
  · exact unordered.iteration (fresh_tiny (by decide))
  · rcases woven.tables with ⟨one, other, first, second, _, iteration⟩
    refine ⟨one, other, first, second, iteration ?_⟩
    rintro (_ | _) <;> exact fresh_tiny (by decide)

end Interner
