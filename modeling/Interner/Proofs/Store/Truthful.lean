import Interner.Proofs.Store.Consistent
import Interner.Proofs.Store.Settled
import Interner.Proofs.Store.Tabled

namespace Interner

variable {γ α : Type} {w : Width} {table current : Table w}

/-- Two different strings have one hash, under which the first of them is stored. -/
structure Clash (table : Table w) (hash : Hash w) (kept refused : Bytes) : Prop where
  stored : IdStore.lookup table hash = some kept
  differs : kept ≠ refused
  hash_kept : Hash.ofBytes kept = hash
  hash_refused : Hash.ofBytes refused = hash

section Truthful

variable (genuine : Hash w → Bytes → Bytes → Prop)

/-- If the entry reports a collision, then a genuine one, in the words of the two strings. -/
def Entry.Truthful : Entry w → Prop
  | .event (.collided hash existing candidate) =>
      ∃ kept refused, genuine hash kept refused ∧ existing = Utf8.lossy kept ∧
        candidate = Utf8.lossy refused
  | .event (.candidateCollides _ _ hash existing) =>
      ∃ kept refused, genuine hash kept refused ∧ existing = Utf8.lossy kept
  | .event (.rehashed ..) | .event (.candidateExists ..) => True
  | .consulted asked =>
      asked.status = .collision → ∃ refused, genuine asked.hash asked.stored refused

def InternedTruthfully : Except (StoreError w) (Hash w) → Prop
  | .error (.collision hash existing candidate) =>
      ∃ kept refused, genuine hash kept refused ∧ existing = Utf8.lossy kept ∧
        candidate = Utf8.lossy refused
  | .error (.unknownStem _) | .ok _ => True

/-- An id that a policy accepted in spite of a collision met a genuine one. -/
def GeneratedTruthfully (generation : Generation w) : Prop :=
  ∀ hash, generation = some (.ok ⟨hash, .collision⟩) → ∃ kept refused, genuine hash kept refused

end Truthful

section Reports

variable {genuine : Hash w → Bytes → Bytes → Prop}

theorem growth_truthful {entry : Entry w}
    (member : entry ∈ table.eventsOfRoom.map Entry.event) : entry.Truthful genuine := by
  obtain ⟨event, report, rfl⟩ := List.mem_map.mp member
  obtain ⟨before, rfl⟩ := roomyEvents_rehashed report
  trivial

theorem insert_truthful (sound : table.Sound) {hash : Hash w} {content : Bytes} {entry : Entry w}
    (member : entry ∈ (IdStore.insert table hash content).events.map Entry.event) :
    entry.Truthful genuine := by
  rw [(Table.inserted sound hash content).events] at member
  exact growth_truthful member

theorem extend_truthful (sound : table.Sound) {hash stem : Hash w} {suffix : Bytes}
    {entry : Entry w}
    (member : entry ∈ (IdStore.insertExtension table hash stem suffix).events.map Entry.event) :
    entry.Truthful genuine := by
  cases known : IdStore.lookup table stem with
  | none =>
      obtain ⟨reserved, reserves, _, refuses⟩ := Table.extend_refused sound hash suffix known
      rw [refuses, (reserve_room sound reserves).2] at member
      exact growth_truthful member
  | some head =>
      rw [Table.extend_eq_insert sound hash suffix known] at member
      exact insert_truthful sound member

structure Outcome.Truthful (genuine : Hash w → Bytes → Bytes → Prop) (answers : α → Prop)
    (outcome : Outcome (Table w) γ w α) : Prop where
  answer : answers outcome.answer
  journal : ∀ entry ∈ outcome.journal, entry.Truthful genuine

namespace Outcome.Truthful

variable {answers : α → Prop} {outcome : Outcome (Table w) γ w α}

theorem after (truthful : outcome.Truthful genuine answers) {earlier : Journal w}
    (before : ∀ entry ∈ earlier, entry.Truthful genuine) :
    (outcome.after earlier).Truthful genuine answers := by
  refine ⟨truthful.answer, ?_⟩
  intro entry member
  rcases List.mem_append.mp member with first | later
  · exact before entry first
  · exact truthful.journal entry later

theorem record (truthful : outcome.Truthful genuine answers) {entry : Entry w}
    (before : entry.Truthful genuine) : (outcome.after [entry]).Truthful genuine answers :=
  truthful.after (by simpa using before)

variable [CandidateSource γ] {source : γ}

theorem done {answer : α} (truthful : answers answer) :
    Outcome.Truthful genuine answers ((Program.done answer).run current source) :=
  ⟨truthful, fun _ member => nomatch member⟩

theorem map {β : Type} {changed : β → Prop} {program : Program w α} {f : α → β}
    (truthful : (program.run current source).Truthful genuine answers)
    (carries : ∀ answer, answers answer → changed (f answer)) :
    ((program.map f).run current source).Truthful genuine changed := by
  rw [Program.run_map]
  exact ⟨carries _ truthful.answer, truthful.journal⟩

end Outcome.Truthful

variable [CandidateSource γ] {source : γ}

theorem collide_truthful {hash : Hash w} {kept refused : Bytes}
    (stored : IdStore.lookup current hash = some kept) (clash : genuine hash kept refused) :
    ((Program.collide hash refused).run current source).Truthful genuine
      (InternedTruthfully genuine) := by
  rw [Program.collide, Program.run_lookup, stored, Program.run_record]
  exact .record (.done ⟨kept, refused, clash, rfl, rfl⟩) ⟨kept, refused, clash, rfl, rfl⟩

end Reports

namespace Table.Sound

variable [CandidateSource γ] {source : γ} (sound : table.Sound) (consistent : Consistent table)

include sound

theorem intern_truthful {genuine : Hash w → Bytes → Bytes → Prop} (content : Bytes)
    (clashes : ∀ kept, IdStore.lookup table (Hash.ofBytes content) = some kept → kept ≠ content →
      genuine (Hash.ofBytes content) kept content) :
    ((Program.intern content).run table source).Truthful genuine (InternedTruthfully genuine) := by
  obtain ⟨_, status, offered⟩ := firstWins.insert sound (Hash.ofBytes content) content
  have present := offered.present
  rw [Program.intern, Program.run_insert, status]
  refine .after ?_ fun entry => insert_truthful sound
  cases stored : IdStore.lookup table (Hash.ofBytes content) with
  | none => exact .done trivial
  | some kept =>
      rw [stored, Option.getD_some] at present
      by_cases same : kept = content
      · rw [statusUnder, if_pos same]
        exact .done trivial
      · rw [statusUnder, if_neg same]
        exact collide_truthful present (clashes kept stored same)

include consistent

/-- Where every string stands under its own hash, extending a stem is interning the joined string. -/
theorem internExtension_eq {stem : Hash w} {head : Bytes} (suffix : Bytes)
    (known : IdStore.lookup table stem = some head) :
    (Program.internExtension stem suffix).run table source =
      (Program.intern (head ++ suffix)).run table source := by
  have joined : Hash.extend stem suffix = Hash.ofBytes (head ++ suffix) := by
    rw [Hash.ofBytes_append, ← consistent stem head known]
  have stays := firstWins.keeps_insert sound (Hash.ofBytes (head ++ suffix)) (head ++ suffix)
    stem head known
  rw [Program.internExtension, Program.run_insertExtension, joined,
    extend_eq_insert sound _ suffix known, Program.intern, Program.run_insert]
  simp only [Step.mapAnswer]
  cases (IdStore.insert table (Hash.ofBytes (head ++ suffix)) (head ++ suffix)).answer with
  | new | old => rfl
  | collision =>
      simp only [Program.run_lookup, stays]
      rfl

end Table.Sound

namespace CandidateSource

def drawn [CandidateSource γ] (source : γ) : Nat → Option Bytes
  | 0 => (next source).1
  | n + 1 => drawn (next source).2 n

end CandidateSource

section Generation

variable [CandidateSource γ] {genuine : Hash w → Bytes → Bytes → Prop} {stem : Hash w} {head : Bytes}

theorem generateFrom_refused (sound : table.Sound) (unknown : IdStore.lookup table stem = none)
    (kind : GeneratorKind) (decide : Consultation w → Except (GenerationError w) Decision)
    (patience attempt : Nat) (source : γ) :
    ((Program.generateFrom kind stem decide patience attempt).run table source).Truthful genuine
      (GeneratedTruthfully genuine) := by
  cases patience with
  | zero => exact .done fun _ same => nomatch same
  | succ patience =>
      rw [Program.generateFrom, Program.run_candidate]
      cases (CandidateSource.next source).1 with
      | none => exact .done fun _ same => nomatch same
      | some suffix =>
          obtain ⟨_, refused, _⟩ :=
            Table.firstWins.refuse sound (Hash.extend stem suffix) suffix unknown
          simp only [Program.run_insertExtension, refused]
          refine .after ?_ fun entry => extend_truthful sound
          exact .done fun _ same => nomatch same

theorem asked_truthful {asked : Consultation w}
    {decide : Consultation w → Except (GenerationError w) Decision} {source : γ}
    (met : asked.status = .collision → ∃ refused, genuine asked.hash asked.stored refused)
    {retry : Program w (Generation w)}
    (later : (retry.run current source).Truthful genuine (GeneratedTruthfully genuine)) :
    ((Program.record (.event (Program.candidateEvent asked)) (.record (.consulted asked)
      (match decide asked with
        | .error error => .done (some (.error error))
        | .ok .accept => .done (some (.ok ⟨asked.hash, asked.status⟩))
        | .ok .retry => retry))).run current source).Truthful genuine
        (GeneratedTruthfully genuine) := by
  have consulted : (Entry.consulted asked).Truthful genuine := met
  rw [Program.run_record, Program.run_record]
  refine .record (.record ?_ consulted) ?_
  · split
    · exact .done fun _ same => nomatch same
    · refine .done fun hash same => ?_
      obtain ⟨rfl, collides⟩ : asked.hash = hash ∧ asked.status = .collision := by simpa using same
      exact ⟨asked.stored, met collides⟩
    · exact later
  · rw [Program.candidateEvent]
    split
    · rename_i collides
      obtain ⟨refused, genuinely⟩ := met collides
      exact ⟨asked.stored, refused, genuinely, rfl⟩
    · trivial

/-- Candidates that were not new leave what is stored as it was, so all of them meet the strings that
were there before the first one. -/
theorem generateFrom_truthful (sound : current.Sound) (same : ∀ hash : Hash w,
      IdStore.lookup current hash = IdStore.lookup table hash)
    (known : IdStore.lookup table stem = some head) (kind : GeneratorKind)
    (decide : Consultation w → Except (GenerationError w) Decision) (patience attempt : Nat)
    (source : γ)
    (clashes : ∀ n suffix kept, CandidateSource.drawn source n = some suffix →
      IdStore.lookup table (Hash.extend stem suffix) = some kept → kept ≠ head ++ suffix →
        genuine (Hash.extend stem suffix) kept (head ++ suffix)) :
    ((Program.generateFrom kind stem decide patience attempt).run current source).Truthful genuine
      (GeneratedTruthfully genuine) := by
  induction patience generalizing current source attempt with
  | zero => exact .done fun _ same => nomatch same
  | succ patience ih =>
      rw [Program.generateFrom, Program.run_candidate]
      cases candidate : (CandidateSource.next source).1 with
      | none => exact .done fun _ same => nomatch same
      | some suffix =>
          have stem_known := (same stem).trans known
          obtain ⟨after, status, offered⟩ :=
            Table.firstWins.extend sound (Hash.extend stem suffix) suffix stem_known
          have present := offered.present
          simp only [Program.run_insertExtension, status]
          refine .after ?_ fun entry => extend_truthful sound
          cases stored : IdStore.lookup current (Hash.extend stem suffix) with
          | none => exact .done fun _ same => nomatch same
          | some kept =>
              rw [stored, Option.getD_some] at present
              -- the next candidate meets the same strings as this one did
              have unchanged := offered.lookup_same stored
              have later := ih after (fun hash => (unchanged hash).trans (same hash)) (attempt + 1)
                (CandidateSource.next source).2 fun n => clashes (n + 1)
              have clash := clashes 0 suffix kept candidate ((same _).symm.trans stored)
              have met : statusUnder (some kept) (head ++ suffix) = .collision →
                  ∃ refused, genuine (Hash.extend stem suffix) kept refused := by
                intro collides
                exact ⟨head ++ suffix, clash (statusUnder_eq_collision.mp collides)⟩
              cases met_status : statusUnder (some kept) (head ++ suffix) with
              | new => cases statusUnder_eq_new.mp met_status
              | old | collision =>
                  rw [met_status] at met
                  simp only [Program.run_lookup, present, Option.getD_some]
                  exact asked_truthful met later

end Generation

end Interner
