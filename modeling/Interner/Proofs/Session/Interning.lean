import Interner.Proofs.Session.Verdicts
import Interner.Proofs.Store.Truthful

namespace Interner

variable {w : Width} {table : Table w}

/-- If the answer reports a collision, then a genuine one. -/
def Answer.Truthful (genuine : Hash w → Bytes → Bytes → Prop) : Answer w → Prop
  | .interned result => InternedTruthfully genuine result
  | .generated generation => GeneratedTruthfully genuine generation
  | .inserted _ | .extended _ | .viewed _ | .skipped => True

namespace Generator

def stem : Generator w → Hash w
  | counter generator => generator.stem
  | random generator => generator.stem

theorem program_eq (generator : Generator w) :
    ∃ kind policy, generator.program = Program.generate kind generator.stem policy := by
  cases generator with
  | counter generator => exact ⟨.counter, generator.policy, rfl⟩
  | random generator => exact ⟨.random, generator.policy, rfl⟩

end Generator

/-- The call offers no string under a hash that the caller chose. -/
def Call.Interns : Call w → Prop
  | .request (.insert ..) | .request (.insertExtension ..) => False
  | .request (.views _) | .request (.intern _) | .request (.internExtension ..) => True
  | .generate _ | .discard .. => True

theorem Request.program_hashes {request : Request w} (interns : (Call.request request).Interns) :
    request.program.Hashes := by
  cases request with
  | insert | insertExtension => cases interns
  | views hash => exact .lookupTerminated hash fun _ => .done _
  | intern content => exact (Program.intern_hashes content).map Answer.interned
  | internExtension stem suffix => exact (Program.internExtension_hashes stem suffix).map Answer.interned

theorem Generator.program_hashes (generator : Generator w) : generator.program.Hashes := by
  obtain ⟨kind, policy, same⟩ := generator.program_eq
  rw [same]
  exact Program.generateFrom_hashes kind generator.stem policy.decide policy.patience 1

namespace FirstWins

variable {σ : Type} [IdStore σ w] {good : σ → Prop} {size : σ → Nat} {session : Session σ w}

theorem consistent_after (laws : FirstWins good size) (ok : good session.store)
    (consistent : Consistent session.store) {call : Call w} (interns : call.Interns) :
    Consistent (session.after call).store := by
  cases call with
  | request request => exact laws.consistent_run ok (request.program_hashes interns) consistent ()
  | generate name => exact laws.consistent_run ok (Generator.program_hashes _) consistent _
  | discard name amount => exact consistent

theorem consistent_calls (laws : FirstWins good size) (ok : good session.store)
    (consistent : Consistent session.store) {calls : List (Call w)}
    (interns : ∀ call ∈ calls, call.Interns) : Consistent (session.run calls).store := by
  induction calls generalizing session with
  | nil => exact consistent
  | cons call calls ih =>
      obtain ⟨first, rest⟩ := List.forall_mem_cons.mp interns
      exact ih (laws.good_after ok call) (laws.consistent_after ok consistent first) rest

end FirstWins

namespace Session

variable (session : Session (Table w) w)

/-- `call` offers the string `full`, under the hash that it computes for it. -/
def Offers (full : Bytes) : Call w → Prop
  | .request request => request.full? session.store = some full
  | .generate name => ∃ head n suffix,
      IdStore.lookup session.store (session.generators name).stem = some head ∧
        CandidateSource.drawn (session.generators name) n = some suffix ∧ full = head ++ suffix
  | .discard .. => False

/-- `call` offers the string `refused`, which has the hash of another string that is stored. -/
def Meets (call : Call w) (hash : Hash w) (kept refused : Bytes) : Prop :=
  session.Offers refused call ∧ Clash session.store hash kept refused

/-- What a caller may rely on where all strings were interned or generated. -/
structure Interned : Prop where
  entries : ∀ node ∈ session.store.nodes, node.hash = Hash.ofBytes node.content
  /-- The same answer, the same table and the same journal. -/
  joining : ∀ (stem : Hash w) (head suffix : Bytes),
    IdStore.lookup session.store stem = some head →
      IdStore.internExtension session.store stem suffix =
        IdStore.intern session.store (head ++ suffix)
  genuine : ∀ call : Call w, call.Interns →
    (session.answer call).Truthful (session.Meets call) ∧
      ∀ entry ∈ (session.outcome call).journal, entry.Truthful (session.Meets call)

end Session

section Reliance

variable {genuine : Hash w → Bytes → Bytes → Prop} (sound : table.Sound)
  (consistent : Consistent table)

include sound consistent

theorem request_truthful {request : Request w} (interns : (Call.request request).Interns)
    (clashes : ∀ hash kept full, request.full? table = some full → Clash table hash kept full →
      genuine hash kept full) :
    (request.outcome table).Truthful genuine (Answer.Truthful genuine) := by
  have whole : ∀ content, request.full? table = some content →
      ((Program.intern content).run table ()).Truthful genuine (InternedTruthfully genuine) := by
    intro content known
    apply sound.intern_truthful
    intro kept stored differs
    exact clashes _ kept content known ⟨stored, differs, (consistent _ kept stored).symm, rfl⟩
  cases request with
  | insert | insertExtension => cases interns
  | views hash => exact ⟨trivial, fun _ member => nomatch member⟩
  | intern content => exact (whole content rfl).map fun _ truthful => truthful
  | internExtension stem suffix =>
      have extended : ((Program.internExtension stem suffix).run table ()).Truthful genuine
          (InternedTruthfully genuine) := by
        cases known : IdStore.lookup table stem with
        | none =>
            obtain ⟨_, refused, _⟩ :=
              Table.firstWins.refuse sound (Hash.extend stem suffix) suffix known
            simp only [Program.internExtension, Program.run_insertExtension, refused]
            refine .after ?_ fun entry => extend_truthful sound
            exact .done trivial
        | some head =>
            rw [sound.internExtension_eq consistent suffix known]
            exact whole (head ++ suffix) (by rw [Request.full?, known, Option.map_some])
      exact extended.map fun _ truthful => truthful

theorem generation_truthful (generator : Generator w)
    (clashes : ∀ hash kept head n suffix, IdStore.lookup table generator.stem = some head →
      CandidateSource.drawn generator n = some suffix → Clash table hash kept (head ++ suffix) →
        genuine hash kept (head ++ suffix)) :
    (generator.program.run table generator).Truthful genuine (GeneratedTruthfully genuine) := by
  obtain ⟨kind, policy, same⟩ := generator.program_eq
  rw [same, Program.generate]
  cases known : IdStore.lookup table generator.stem with
  | none => exact generateFrom_refused sound known kind policy.decide policy.patience 1 generator
  | some head =>
      apply generateFrom_truthful sound (fun _ => rfl) known
      intro n suffix kept candidate stored differs
      have own : Hash.extend generator.stem suffix = Hash.ofBytes (head ++ suffix) := by
        rw [Hash.ofBytes_append, ← consistent _ head known]
      exact clashes _ kept head n suffix known candidate
        ⟨stored, differs, (consistent _ kept stored).symm, own.symm⟩

end Reliance

theorem Consistent.entries (sound : table.Sound) (consistent : Consistent table) :
    ∀ node ∈ table.nodes, node.hash = Hash.ofBytes node.content := by
  intro node member
  obtain ⟨key, inside, rfl⟩ := Array.getElem_of_mem member
  apply consistent
  rw [Table.lookup_eq sound, contentOf]
  rcases sound with ⟨chains, arranged⟩
  rw [arranged.lookup_live (Array.getElem?_eq_getElem inside)]
  rfl

theorem Session.interned {session : Session (Table w) w} (sound : session.store.Sound)
    (consistent : Consistent session.store) : session.Interned where
  entries := consistent.entries sound
  joining := fun _ _ suffix known => sound.internExtension_eq consistent suffix known
  genuine := by
    intro call interns
    cases call with
    | request request =>
        have truthful : (request.outcome session.store).Truthful (session.Meets (.request request))
            (Answer.Truthful (session.Meets (.request request))) :=
          request_truthful sound consistent interns fun _ _ _ known clash => ⟨known, clash⟩
        exact ⟨truthful.answer, truthful.journal⟩
    | generate name =>
        have truthful : ((session.generators name).program.run session.store
            (session.generators name)).Truthful (session.Meets (.generate name))
            (GeneratedTruthfully (session.Meets (.generate name))) :=
          generation_truthful sound consistent (session.generators name)
            fun _ _ head n suffix known candidate clash =>
              ⟨⟨head, n, suffix, known, candidate, rfl⟩, clash⟩
        exact ⟨truthful.answer, truthful.journal⟩
    | discard name amount => exact ⟨trivial, fun _ member => nomatch member⟩

theorem consistent_ofConfig {config : Config} (valid : config.validate = .ok ()) :
    Consistent (Table.ofConfig config : Table w) := by
  intro hash content found
  rw [Table.lookup_ofConfig valid] at found
  cases found

/-- From an empty table, calls that intern and generate lead only to tables in which every string
stands under its own hash, where extending is interning and every collision is one of the hash. -/
theorem interned_of_calls {config : Config} (valid : config.validate = .ok ())
    (generators : Nat → Generator w) {calls : List (Call w)}
    (interns : ∀ call ∈ calls, call.Interns) :
    ((⟨Table.ofConfig config, generators⟩ : Session (Table w) w).run calls).Interned := by
  have start : (⟨Table.ofConfig config, generators⟩ : Session (Table w) w).store.Sound :=
    Table.sound_ofConfig valid
  exact Session.interned (Table.firstWins.good_calls start calls)
    (Table.firstWins.consistent_calls start (consistent_ofConfig valid) interns)

/-- Two words with one hash, of which the second is refused. -/
theorem interned_of_calls_costarring :
    (Hash.ofBytes (Bytes.ofAscii "costarring") : Hash .narrow) =
        Hash.ofBytes (Bytes.ofAscii "liquid") ∧
    ((⟨Table.ofConfig ⟨1, Binary64.one⟩, fun _ => .counter { stem := Hash.ofBytes [65] }⟩ :
      Session (Table .narrow) .narrow).run
        [.request (.intern (Bytes.ofAscii "costarring")),
          .request (.intern (Bytes.ofAscii "liquid")), .request (.intern [65]),
          .request (.internExtension (Hash.ofBytes [65]) [48]), .generate 0]).Interned :=
  ⟨by decide +kernel, interned_of_calls (by decide +kernel) _ (by simp [Call.Interns])⟩

end Interner
