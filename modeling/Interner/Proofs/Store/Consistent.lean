import Interner.Generator.Basic
import Interner.Intern
import Interner.Proofs.Session.Basic
import Interner.Proofs.Store.Programs

namespace Interner

variable {σ γ α β : Type} {w : Width} [IdStore σ w] [CandidateSource γ] {good : σ → Prop}
  {size : σ → Nat} {store after : σ}

def Consistent (store : σ) : Prop :=
  ∀ (hash : Hash w) (content : Bytes), IdStore.lookup store hash = some content →
    hash = Hash.ofBytes content

namespace Program

/-- The program offers every string under the hash that it computes for it. -/
inductive Hashes : Program w α → Prop where
  | done (answer : α) : Hashes (.done answer)
  | insert (content : Bytes) {next : Status → Program w α} (rest : ∀ status, Hashes (next status)) :
      Hashes (.insert (Hash.ofBytes content) content next)
  | insertExtension (stem : Hash w) (suffix : Bytes)
      {next : Except (StoreError w) Status → Program w α} (rest : ∀ result, Hashes (next result)) :
      Hashes (.insertExtension (Hash.extend stem suffix) stem suffix next)
  | lookupTerminated (hash : Hash w) {next : Option Bytes → Program w α}
      (rest : ∀ found, Hashes (next found)) : Hashes (.lookupTerminated hash next)
  | candidate {next : Option Bytes → Program w α} (rest : ∀ suffix, Hashes (next suffix)) :
      Hashes (.candidate next)
  | record (entry : Entry w) {next : Program w α} (rest : Hashes next) : Hashes (.record entry next)

namespace Hashes

theorem lookup (hash : Hash w) {next : Option Bytes → Program w α}
    (rest : ∀ found, Hashes (next found)) : Hashes (Program.lookup hash next) :=
  .lookupTerminated hash fun found => rest (found.map Bytes.withoutLast)

theorem map {program : Program w α} (hashes : program.Hashes) (f : α → β) :
    (program.map f).Hashes := by
  induction hashes with
  | done answer => exact .done (f answer)
  | insert content _ ih => exact .insert content ih
  | insertExtension stem suffix _ ih => exact .insertExtension stem suffix ih
  | lookupTerminated hash _ ih => exact .lookupTerminated hash ih
  | candidate _ ih => exact .candidate ih
  | record entry _ ih => exact .record entry ih

end Hashes

theorem collide_hashes (hash : Hash w) (candidate : Bytes) : (collide hash candidate).Hashes :=
  .lookup hash fun _ => .record _ (.done _)

theorem intern_hashes (content : Bytes) : (intern content : Program w _).Hashes := by
  refine .insert content fun status => ?_
  split
  · exact collide_hashes _ content
  · exact .done _

theorem internExtension_hashes (stem : Hash w) (suffix : Bytes) :
    (internExtension stem suffix).Hashes := by
  refine .insertExtension stem suffix fun result => ?_
  split
  · exact .done _
  · exact .lookup stem fun head => collide_hashes _ (head.getD [] ++ suffix)
  · exact .done _

theorem generateFrom_hashes (kind : GeneratorKind) (stem : Hash w)
    (decide : Consultation w → Except (GenerationError w) Decision) (patience attempt : Nat) :
    (generateFrom kind stem decide patience attempt).Hashes := by
  induction patience generalizing attempt with
  | zero => exact .done none
  | succ patience ih =>
      refine .candidate fun suffix => ?_
      split
      · exact .done none
      · refine .insertExtension stem _ fun result => ?_
        split
        · exact .done _
        · exact .done _
        · refine .lookup _ fun stored => .record _ (.record _ ?_)
          split
          · exact .done _
          · exact .done _
          · exact ih (attempt + 1)

end Program

theorem Offered.consistent {hash : Hash w} {content : Bytes}
    (offered : Offered size store after hash content) (consistent : Consistent store)
    (own : hash = Hash.ofBytes content) : Consistent after := by
  intro other kept found
  rw [offered.lookup] at found
  split at found
  · rename_i same
    obtain rfl := Option.some.inj found
    cases present : IdStore.lookup store hash with
    | none => rw [same, own, Option.getD_none]
    | some stored =>
        rw [same, Option.getD_some]
        exact consistent hash stored present
  · exact consistent other kept found

namespace FirstWins

variable (laws : FirstWins good size) (ok : good store)

include laws ok

theorem consistent_extend (consistent : Consistent store) (stem : Hash w) (suffix : Bytes) :
    Consistent (IdStore.insertExtension store (Hash.extend stem suffix) stem suffix).store := by
  cases known : IdStore.lookup store stem with
  | none =>
      obtain ⟨_, _, unchanged⟩ := laws.refuse ok (Hash.extend stem suffix) suffix known
      intro other kept found
      rw [unchanged.lookup] at found
      exact consistent other kept found
  | some head =>
      apply (laws.extend ok (Hash.extend stem suffix) suffix known).2.2.consistent consistent
      rw [Hash.ofBytes_append, ← consistent stem head known]

theorem consistent_run {program : Program w α} (hashes : program.Hashes)
    (consistent : Consistent store) (source : γ) :
    Consistent (program.run store source).store := by
  induction hashes generalizing store source with
  | done answer => exact consistent
  | insert content _ ih =>
      have offered := (laws.insert ok (Hash.ofBytes content) content).2.2
      exact ih _ (laws.insert ok _ content).1 (offered.consistent consistent rfl) source
  | insertExtension stem suffix _ ih =>
      exact ih _ (laws.good_extend ok _ stem suffix)
        (laws.consistent_extend ok consistent stem suffix) source
  | lookupTerminated hash _ ih => exact ih _ ok consistent source
  | candidate _ ih => exact ih _ ok consistent _
  | record entry _ ih => exact ih ok consistent source

end FirstWins

end Interner
