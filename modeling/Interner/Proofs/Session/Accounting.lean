import Interner.Proofs.Session.Insertions
import Interner.Proofs.Session.Interning
import Interner.Proofs.Table.Load
import Mathlib.Data.List.Chain

/-!
What a session reports. Its journal tells every doubling of the bucket array, each from where the one
before it ended, and with every call the collision for which that call refused a string.
-/

namespace Interner

variable {γ : Type} {w : Width}

/-- A doubling of the bucket array, as it is reported. -/
structure Growth where
  before : Nat
  after : Nat
  items : Nat
  deriving DecidableEq, Repr

/-- What interning reports and answers when it refuses a string. -/
structure Collision (w : Width) where
  hash : Hash w
  existing : String
  candidate : String
  deriving DecidableEq, Repr

def Growth.entry (growth : Growth) : Entry w :=
  .event (.rehashed growth.before growth.after growth.items)

def Collision.entry (collision : Collision w) : Entry w :=
  .event (.collided collision.hash collision.existing collision.candidate)

namespace Entry

def growth? : Entry w → Option Growth
  | .event (.rehashed before after items) => some ⟨before, after, items⟩
  | .event (.collided ..) | .event (.candidateCollides ..) | .event (.candidateExists ..) => none
  | .consulted _ => none

def collision? : Entry w → Option (Collision w)
  | .event (.collided hash existing candidate) => some ⟨hash, existing, candidate⟩
  | .event (.rehashed ..) | .event (.candidateCollides ..) | .event (.candidateExists ..) => none
  | .consulted _ => none

end Entry

def Answer.collision? : Answer w → Option (Collision w)
  | .interned (.error (.collision hash existing candidate)) => some ⟨hash, existing, candidate⟩
  | .interned (.error (.unknownStem _)) | .interned (.ok _) => none
  | .inserted _ | .extended _ | .viewed _ | .generated _ | .skipped => none

namespace Journal

def growths (journal : Journal w) : List Growth := journal.filterMap Entry.growth?

def collisions (journal : Journal w) : List (Collision w) := journal.filterMap Entry.collision?

@[simp] theorem growths_append (first second : Journal w) :
    growths (first ++ second) = growths first ++ growths second :=
  List.filterMap_append

@[simp] theorem collisions_append (first second : Journal w) :
    collisions (first ++ second) = collisions first ++ collisions second :=
  List.filterMap_append

@[simp] theorem growths_entries (growths : List Growth) :
    Journal.growths (growths.map Growth.entry : Journal w) = growths := by
  induction growths with
  | nil => rfl
  | cons growth growths ih => exact congrArg (growth :: ·) ih

@[simp] theorem growths_refusals (collisions : List (Collision w)) :
    growths (collisions.map Collision.entry) = [] := by
  induction collisions with
  | nil => rfl
  | cons collision collisions ih => exact ih

@[simp] theorem collisions_entries (growths : List Growth) :
    collisions (growths.map Growth.entry : Journal w) = [] := by
  induction growths with
  | nil => rfl
  | cons growth growths ih => exact ih

@[simp] theorem collisions_refusals (collisions : List (Collision w)) :
    Journal.collisions (collisions.map Collision.entry) = collisions := by
  induction collisions with
  | nil => rfl
  | cons collision collisions ih => exact congrArg (collision :: ·) ih

end Journal

/-- Doublings, one after another, that lead from one bucket count to another. -/
inductive Doublings : Nat → List Growth → Nat → Prop where
  | nil (count : Nat) : Doublings count [] count
  | cons {count last : Nat} (items : Nat) {rest : List Growth}
      (later : Doublings (2 * count) rest last) :
      Doublings count (⟨count, 2 * count, items⟩ :: rest) last

namespace Doublings

variable {count middle last : Nat} {front back growths : List Growth}

theorem append (first : Doublings count front middle) (second : Doublings middle back last) :
    Doublings count (front ++ back) last := by
  induction first with
  | nil => exact second
  | cons items _ ih => exact .cons items (ih second)

theorem first (doublings : Doublings count growths last) :
    ∀ growth ∈ growths.head?, growth.before = count := by
  cases doublings <;> simp

theorem doubled (doublings : Doublings count growths last) :
    ∀ growth ∈ growths, growth.after = 2 * growth.before := by
  induction doublings with
  | nil => simp
  | cons items _ ih => exact List.forall_mem_cons.mpr ⟨rfl, ih⟩

theorem linked (doublings : Doublings count growths last) :
    growths.IsChain fun earlier later => later.before = earlier.after := by
  induction doublings with
  | nil => exact .nil
  | cons items later ih => exact List.isChain_cons.mpr ⟨later.first, ih⟩

theorem last_after (doublings : Doublings count growths last) :
    (growths.getLast?.map Growth.after).getD count = last := by
  induction doublings with
  | nil => rfl
  | @cons count last items rest later ih =>
      cases rest with
      | nil => exact ih
      | cons =>
          rw [List.getLast?_cons] at ih
          rw [List.getLast?_cons_cons, List.getLast?_cons]
          exact ih

end Doublings

theorem roomyEvents_doublings (factor : Binary64) (size limit count : Nat) :
    ∃ growths, (roomyEvents factor size limit count : List (Event w)).map .event =
        growths.map Growth.entry ∧
      Doublings count growths (roomyCount factor size limit count) ∧
      ∀ growth ∈ growths, growth.items = size := by
  induction limit generalizing count with
  | zero => exact ⟨[], rfl, .nil count, by simp⟩
  | succ limit ih =>
      rw [roomyEvents, roomyCount]
      split
      · rcases ih (2 * count) with ⟨growths, reported, doublings, items⟩
        refine ⟨⟨count, 2 * count, size⟩ :: growths, ?_, .cons size doublings, ?_⟩
        · rw [List.map_cons, reported]
          rfl
        · exact List.forall_mem_cons.mpr ⟨rfl, items⟩
      · exact ⟨[], rfl, .nil count, by simp⟩

def Insertion.growths {σ : Type} (insertion : Insertion σ w) : List Growth :=
  Journal.growths (insertion.events.map .event)

namespace Insertion.MakesRoom

variable {insertion : Insertion (Table w) w}

theorem reported (made : insertion.MakesRoom) :
    insertion.events.map .event = (insertion.growths.map Growth.entry : Journal w) ∧
      Doublings insertion.before.bucketCount insertion.growths insertion.after.bucketCount ∧
      ∀ growth ∈ insertion.growths, growth.items = insertion.before.size := by
  rcases roomyEvents_doublings insertion.before.maxLoadFactor insertion.before.size
    Table.maxDoublings insertion.before.bucketCount with ⟨growths, reported, doublings, items⟩
  have same : insertion.growths = growths := by
    rw [Insertion.growths, made.events, Table.eventsOfRoom, reported, Journal.growths_entries]
  rw [same, made.events, made.roomed.bucketCount]
  exact ⟨reported, doublings, items⟩

end Insertion.MakesRoom

namespace Leads

variable {start last : Table w} {insertions : List (Insertion (Table w) w)}

theorem doublings (leads : Leads Insertion.MakesRoom start insertions last) :
    Doublings start.bucketCount (insertions.flatMap Insertion.growths) last.bucketCount := by
  induction leads with
  | nil start => exact .nil start.bucketCount
  | cons made _ ih => exact made.reported.2.1.append ih

theorem items_ordered (leads : Leads Insertion.MakesRoom start insertions last) :
    (insertions.flatMap Insertion.growths).Pairwise fun earlier later =>
      earlier.items ≤ later.items := by
  have items := fun insertion member => (leads.made insertion member).reported.2.2
  apply List.pairwise_flatMap.mpr
  constructor
  · intro insertion member
    apply List.pairwise_of_forall_mem_list
    intro first inFirst second inSecond
    rw [items insertion member first inFirst, items insertion member second inSecond]
  · apply List.Pairwise.imp_of_mem _ leads.sizes.2
    intro insertion later member behind less first inFirst second inSecond
    rw [items insertion member first inFirst, items later behind second inSecond]
    exact less

end Leads

/-- Insertions beside `size` strings; `journal` reports their growth and the collision `refusal`. -/
structure Reports (size : Nat) (insertions : List (Insertion (Table w) w)) (journal : Journal w)
    (refusal : Option (Collision w)) : Prop where
  sizes : ∀ insertion ∈ insertions, insertion.before.size = size
  growths : journal.growths = insertions.flatMap Insertion.growths
  collisions : journal.collisions = refusal.toList

namespace Reports

variable {size : Nat} {insertions : List (Insertion (Table w) w)} {journal : Journal w}
  {refusal : Option (Collision w)} {table after : Table w} {events : List (Event w)}

theorem nothing (size : Nat) : Reports size ([] : List (Insertion (Table w) w)) [] none :=
  ⟨by simp, rfl, rfl⟩

theorem refused (size : Nat) (collision : Collision w) :
    Reports size ([] : List (Insertion (Table w) w)) [collision.entry] (some collision) :=
  ⟨by simp, rfl, rfl⟩

theorem record (reports : Reports size insertions journal refusal) {entry : Entry w}
    (noGrowth : entry.growth? = none) (noCollision : entry.collision? = none) :
    Reports size insertions (entry :: journal) refusal where
  sizes := reports.sizes
  growths := (List.filterMap_cons_none noGrowth).trans reports.growths
  collisions := (List.filterMap_cons_none noCollision).trans reports.collisions

theorem insertion (reports : Reports table.size insertions journal refusal)
    (made : Insertion.MakesRoom ⟨table, after, events⟩) :
    Reports table.size (⟨table, after, events⟩ :: insertions) (events.map .event ++ journal)
      refusal := by
  have silent : Journal.collisions (events.map .event) = [] := by
    rw [made.reported.1, Journal.collisions_entries]
  refine ⟨List.forall_mem_cons.mpr ⟨rfl, reports.sizes⟩, ?_, ?_⟩
  · rw [Journal.growths_append, reports.growths, List.flatMap_cons]
    rfl
  · rw [Journal.collisions_append, silent, List.nil_append, reports.collisions]

end Reports

section Generation

variable [CandidateSource γ] {table : Table w}

theorem candidateEvent_growth? (asked : Consultation w) :
    (Entry.event (Program.candidateEvent asked)).growth? = none := by
  rw [Program.candidateEvent]
  split <;> rfl

theorem candidateEvent_collision? (asked : Consultation w) :
    (Entry.event (Program.candidateEvent asked)).collision? = none := by
  rw [Program.candidateEvent]
  split <;> rfl

/-- Generation retries only what it did not store, so it makes all its insertions beside the strings
that it began with. -/
theorem generateFrom_reports (sound : table.Sound) (kind : GeneratorKind) (stem : Hash w)
    (decide : Consultation w → Except (GenerationError w) Decision) (patience attempt : Nat)
    (source : γ) :
    Reports table.size
      ((Program.generateFrom kind stem decide patience attempt).insertions table source)
      ((Program.generateFrom kind stem decide patience attempt).run table source).journal none := by
  induction patience generalizing table attempt source with
  | zero => exact .nothing table.size
  | succ patience ih =>
      rw [Program.generateFrom, Program.run_candidate, Program.insertions_candidate]
      rcases CandidateSource.next source with ⟨_ | suffix, source⟩
      · exact .nothing table.size
      · have made := sound.extend_makesRoom (Hash.extend stem suffix) stem suffix
        have soundAfter := Table.firstWins.good_extend sound (Hash.extend stem suffix) stem suffix
        simp only [Program.run_insertExtension, Program.insertions_insertExtension]
        apply Reports.insertion _ made
        cases answered :
            (IdStore.insertExtension table (Hash.extend stem suffix) stem suffix).answer with
        | error error => exact .nothing table.size
        | ok status =>
            cases status with
            | new => exact .nothing table.size
            | old | collision =>
                have size := Table.firstWins.extend_size sound answered (by simp)
                simp only [Program.run_lookup, Program.run_record, Program.insertions_lookup,
                  Program.insertions_record, Outcome.after, List.singleton_append]
                apply Reports.record _ (candidateEvent_growth? _) (candidateEvent_collision? _)
                apply Reports.record _ rfl rfl
                split
                · exact .nothing table.size
                · exact .nothing table.size
                · rw [← size]
                  exact ih soundAfter (attempt + 1) source

end Generation

/-- Growth is reported first and then a collision, and there is nothing else. -/
def Journal.InOrder (journal : Journal w) : Prop :=
  journal = journal.growths.map Growth.entry ++ journal.collisions.map Collision.entry

theorem Reports.first {table after : Table w} {events : List (Event w)} {journal : Journal w}
    {refusal : Option (Collision w)} (made : Insertion.MakesRoom ⟨table, after, events⟩)
    (rest : journal = refusal.toList.map Collision.entry) :
    Reports table.size [⟨table, after, events⟩] (events.map .event ++ journal) refusal ∧
      Journal.InOrder (events.map .event ++ journal) := by
  have alone : Reports table.size ([] : List (Insertion (Table w) w)) journal refusal := by
    rw [rest]
    cases refusal with
    | none => exact .nothing table.size
    | some collision => exact .refused table.size collision
  refine ⟨alone.insertion made, ?_⟩
  rw [made.reported.1, rest]
  simp [Journal.InOrder]

section Requests

variable {table : Table w}

theorem request_reports (sound : table.Sound) (request : Request w) :
    Reports table.size (request.program.insertions table ()) (request.outcome table).journal
        (request.outcome table).answer.collision? ∧
      (request.outcome table).journal.InOrder := by
  cases request with
  | insert hash content => exact Reports.first (sound.insert_makesRoom hash content) rfl
  | insertExtension hash stem suffix =>
      exact Reports.first (sound.extend_makesRoom hash stem suffix) rfl
  | views hash => exact ⟨.nothing table.size, rfl⟩
  | intern content =>
      have made := sound.insert_makesRoom (Hash.ofBytes content) content
      simp only [Request.outcome, Request.program, Program.run_map, Program.insertions_map,
        Program.intern, Program.run_insert, Program.insertions_insert, Outcome.after]
      split
      · exact Reports.first made rfl
      · exact Reports.first made rfl
  | internExtension stem suffix =>
      have made := sound.extend_makesRoom (Hash.extend stem suffix) stem suffix
      simp only [Request.outcome, Request.program, Program.run_map, Program.insertions_map,
        Program.internExtension, Program.run_insertExtension, Program.insertions_insertExtension,
        Outcome.after]
      cases known : IdStore.lookup table stem with
      | none =>
          rw [(Table.firstWins.refuse sound (Hash.extend stem suffix) suffix known).2.1]
          exact Reports.first made rfl
      | some head =>
          rw [(Table.firstWins.extend sound (Hash.extend stem suffix) suffix known).2.1]
          cases statusUnder (IdStore.lookup table (Hash.extend stem suffix)) (head ++ suffix) with
          | new | old | collision => exact Reports.first made rfl

end Requests

namespace Session

def log {σ : Type} [IdStore σ w] (session : Session σ w) : List (Call w) → Journal w
  | [] => []
  | call :: calls => (session.outcome call).journal ++ log (session.after call) calls

variable {session : Session (Table w) w}

theorem log_append (earlier later : List (Call w)) :
    session.log (earlier ++ later) = session.log earlier ++ (session.run earlier).log later := by
  induction earlier generalizing session with
  | nil => rfl
  | cons call calls ih =>
      rw [List.cons_append, log, ih, log, List.append_assoc]
      rfl

theorem reports (sound : session.store.Sound) (call : Call w) :
    Reports session.store.size (session.insertionsOf call) (session.outcome call).journal
      (session.answer call).collision? := by
  cases call with
  | request request => exact (request_reports sound request).1
  | generate name =>
      rcases (session.generators name).program_eq with ⟨kind, policy, same⟩
      simp only [insertionsOf, outcome, answer, Answer.collision?, same]
      exact generateFrom_reports sound kind _ policy.decide policy.patience 1 _
  | discard name amount => exact .nothing session.store.size

theorem growths_log (sound : session.store.Sound) (calls : List (Call w)) :
    (session.log calls).growths = (session.insertions calls).flatMap Insertion.growths := by
  induction calls generalizing session with
  | nil => rfl
  | cons call calls ih =>
      rw [log, insertions, Journal.growths_append, List.flatMap_append,
        ih (Table.firstWins.good_after sound call), (reports sound call).growths]

/-- What a call reports, of growth and of collisions. -/
structure Accounted (session : Session (Table w) w) (call : Call w) : Prop where
  /-- Growth is reported with the number of strings before the call. -/
  items : ∀ growth ∈ (session.outcome call).journal.growths, growth.items = session.store.size
  /-- A collision is reported where one is answered, once and in the same words. -/
  collisions : (session.outcome call).journal.collisions = (session.answer call).collision?.toList
  order : ∀ request, call = .request request → (session.outcome call).journal.InOrder
  silent : (∀ content, call ≠ .request (.intern content)) →
    (∀ stem suffix, call ≠ .request (.internExtension stem suffix)) →
      (session.outcome call).journal.collisions = []

theorem accounted (sound : session.store.Sound) (call : Call w) : session.Accounted call where
  items := by
    intro growth member
    have report := reports sound call
    rw [report.growths] at member
    rcases List.mem_flatMap.mp member with ⟨insertion, made, reported⟩
    rw [((leads_after sound call).made insertion made).reported.2.2 growth reported]
    exact report.sizes insertion made
  collisions := (reports sound call).collisions
  order := by
    rintro request rfl
    exact (request_reports sound request).2
  silent := by
    intro notInterned notExtended
    rw [(reports sound call).collisions]
    cases call with
    | request request =>
        cases request with
        | insert | insertExtension | views => rfl
        | intern content => exact absurd rfl (notInterned content)
        | internExtension stem suffix => exact absurd rfl (notExtended stem suffix)
    | generate | discard => rfl

end Session

/-- The doublings between the bucket counts `count` and `last`, in the order of their reports. -/
structure GrowthHistory (growths : List Growth) (count last : Nat) : Prop where
  first : ∀ growth ∈ growths.head?, growth.before = count
  doubled : ∀ growth ∈ growths, growth.after = 2 * growth.before
  linked : growths.IsChain fun earlier later => later.before = earlier.after
  last : (growths.getLast?.map Growth.after).getD count = last
  ordered : growths.Pairwise fun earlier later => earlier.items ≤ later.items

theorem Leads.growthHistory {start last : Table w} {insertions : List (Insertion (Table w) w)}
    (leads : Leads Insertion.MakesRoom start insertions last) :
    GrowthHistory (insertions.flatMap Insertion.growths) start.bucketCount last.bucketCount where
  first := leads.doublings.first
  doubled := leads.doublings.doubled
  linked := leads.doublings.linked
  last := leads.doublings.last_after
  ordered := leads.items_ordered

/-- From the journal of a session alone one can tell how its table has grown, and with each call whether
that call was refused for a collision. -/
theorem log_accounts {config : Config} (valid : config.validate = .ok ())
    (generators : Nat → Generator w) (calls : List (Call w)) :
    GrowthHistory ((Session.fresh config generators).log calls).growths config.buckets
        ((Session.fresh config generators).run calls).store.bucketCount ∧
      ∀ earlier call later, calls = earlier ++ call :: later →
        ((Session.fresh config generators).run earlier).Accounted call ∧
          (Session.fresh config generators).log calls =
            (Session.fresh config generators).log earlier ++
              ((((Session.fresh config generators).run earlier).outcome call).journal ++
                ((Session.fresh config generators).run (earlier ++ [call])).log later) := by
  have sound := Session.sound_fresh valid generators
  have buckets : (Session.fresh config generators).store.bucketCount = config.buckets := by
    simp [Session.fresh, Table.ofConfig, Table.bucketCount]
  constructor
  · rw [Session.growths_log sound calls, ← buckets]
    exact (Session.leads sound calls).growthHistory
  · rintro earlier call later rfl
    refine ⟨Session.accounted (Table.firstWins.good_calls sound earlier) call, ?_⟩
    rw [Session.log_append, Session.log, Session.run_append]
    rfl

def takenCalls : List (Call .wide) :=
  [.request (.insert (Hash.ofBytes [65]) [66]), .request (.intern [65])]

def halfFullSession : Session (Table .wide) .wide :=
  Session.fresh halfFull fun _ => .counter { stem := 7 }

/-- The call that is refused makes the table grow before it warns. -/
theorem log_accounts_taken :
    GrowthHistory (halfFullSession.log takenCalls).growths halfFull.buckets
        (halfFullSession.run takenCalls).store.bucketCount ∧
      (halfFullSession.run [.request (.insert (Hash.ofBytes [65]) [66])]).Accounted
        (.request (.intern [65])) ∧
      halfFullSession.log takenCalls = [.event (.rehashed 1 2 0), .event (.rehashed 2 4 0),
        .event (.rehashed 4 8 1), .event (.collided (Hash.ofBytes [65]) "B" "A")] ∧
      (Event.collided (Hash.ofBytes [65]) "B" "A" : Event .wide).level = .warn := by
  have accounts := log_accounts (by decide +kernel : halfFull.validate = .ok ())
    (fun _ => .counter { stem := 7 }) takenCalls
  exact ⟨accounts.1, (accounts.2 _ _ [] rfl).1, by decide +kernel, rfl⟩

end Interner
