import Interner.Program
import Interner.Proofs.Store.FirstWins

namespace Interner

variable {σ τ γ α : Type} {w : Width} [IdStore σ w] [IdStore τ w] [CandidateSource γ]
  {good : σ → Prop} {size : σ → Nat} {fine : τ → Prop} {count : τ → Nat}

def Extends (before after : σ) : Prop :=
  ∀ (hash : Hash w) (kept : Bytes), IdStore.lookup before hash = some kept →
    IdStore.lookup after hash = some kept

theorem Extends.refl (store : σ) : Extends store store := fun _ _ present => present

theorem Extends.trans {first second third : σ} (earlier : Extends first second)
    (later : Extends second third) : Extends first third := by
  intro hash kept present
  exact later hash kept (earlier hash kept present)

namespace Offered

variable {before after : σ} {hash : Hash w} {content : Bytes}

theorem keeps (offered : Offered size before after hash content) : Extends before after := by
  intro other kept present
  rw [offered.lookup]
  by_cases same : other = hash
  · subst same
    rw [if_pos rfl, present, Option.getD_some]
  · rw [if_neg same, present]

theorem present (offered : Offered size before after hash content) :
    IdStore.lookup after hash = some ((IdStore.lookup before hash).getD content) := by
  rw [offered.lookup, if_pos rfl]

theorem elsewhere (offered : Offered size before after hash content) {ids : List (Hash w)}
    (unlike : hash ∉ ids) : ∀ id ∈ ids, IdStore.lookup after id = IdStore.lookup before id := by
  intro id member
  rw [offered.lookup, if_neg]
  rintro rfl
  exact unlike member

theorem lookup_same {kept : Bytes} (offered : Offered size before after hash content)
    (taken : IdStore.lookup before hash = some kept) (other : Hash w) :
    IdStore.lookup after other = IdStore.lookup before other := by
  rw [offered.lookup]
  split
  · rename_i same
    rw [same, taken, Option.getD_some]
  · rfl

theorem same {second later : τ} (offered : Offered size before after hash content)
    (alike : Offered count second later hash content)
    (entries : SameEntries size count before second) : SameEntries size count after later := by
  constructor
  · intro other
    rw [offered.lookup, alike.lookup, entries.lookup, entries.lookup]
  · rw [offered.size, alike.size, entries.size, entries.lookup]

end Offered

namespace FirstWins

variable {store : σ}

theorem good_extend (laws : FirstWins good size) (ok : good store) (hash stem : Hash w)
    (suffix : Bytes) : good (IdStore.insertExtension store hash stem suffix).store := by
  cases found : IdStore.lookup store stem with
  | none => exact (laws.refuse ok hash suffix found).1
  | some head => exact (laws.extend ok hash suffix found).1

theorem keeps_insert (laws : FirstWins good size) (ok : good store) (hash : Hash w)
    (content : Bytes) : Extends store (IdStore.insert store hash content).store :=
  (laws.insert ok hash content).2.2.keeps

theorem keeps_extend (laws : FirstWins good size) (ok : good store) (hash stem : Hash w)
    (suffix : Bytes) : Extends store (IdStore.insertExtension store hash stem suffix).store := by
  cases found : IdStore.lookup store stem with
  | none =>
      intro other kept present
      rw [(laws.refuse ok hash suffix found).2.2.lookup, present]
  | some head => exact (laws.extend ok hash suffix found).2.2.keeps

theorem extend_size (laws : FirstWins good size) (ok : good store) {hash stem : Hash w}
    {suffix : Bytes} {status : Status}
    (answered : (IdStore.insertExtension store hash stem suffix).answer = .ok status)
    (kept : status ≠ .new) :
    size (IdStore.insertExtension store hash stem suffix).store = size store := by
  cases known : IdStore.lookup store stem with
  | none =>
      rw [(laws.refuse ok hash suffix known).2.1] at answered
      cases answered
  | some head =>
      rcases laws.extend ok hash suffix known with ⟨_, answer, offered⟩
      rw [answer, Except.ok.injEq] at answered
      rw [← answered, ne_eq, statusUnder_eq_new] at kept
      rw [offered.size, if_neg kept, Nat.add_zero]

theorem good_run (laws : FirstWins good size) (program : Program w α) (ok : good store)
    (source : γ) : good (program.run store source).store := by
  induction program generalizing store source with
  | done answer => exact ok
  | insert hash content next ih => exact ih _ (laws.insert ok hash content).1 source
  | insertExtension hash stem suffix next ih =>
      exact ih _ (laws.good_extend ok hash stem suffix) source
  | lookupTerminated hash next ih => exact ih _ ok source
  | candidate next ih => exact ih _ ok _
  | record entry next ih => exact ih ok source

end FirstWins

/-- `change` chains, and it links a store to what one insertion makes of it. -/
structure Evolves (good : σ → Prop) (change : σ → σ → Prop) : Prop where
  refl : ∀ store, change store store
  trans : ∀ {first second third : σ}, change first second → change second third →
    change first third
  insert : ∀ {store : σ} (_ : good store) (hash : Hash w) (content : Bytes),
    change store (IdStore.insert store hash content).store
  extend : ∀ {store : σ} (_ : good store) (hash stem : Hash w) (suffix : Bytes),
    change store (IdStore.insertExtension store hash stem suffix).store

theorem Evolves.run {change : σ → σ → Prop} {store : σ} (evolves : Evolves good change)
    (laws : FirstWins good size) (program : Program w α) (ok : good store) (source : γ) :
    change store (program.run store source).store := by
  induction program generalizing store source with
  | done answer => exact evolves.refl store
  | insert hash content next ih =>
      exact evolves.trans (evolves.insert ok hash content)
        (ih _ (laws.insert ok hash content).1 source)
  | insertExtension hash stem suffix next ih =>
      exact evolves.trans (evolves.extend ok hash stem suffix)
        (ih _ (laws.good_extend ok hash stem suffix) source)
  | lookupTerminated hash next ih => exact ih _ ok source
  | candidate next ih => exact ih _ ok _
  | record entry next ih => exact ih ok source

namespace FirstWins

variable {store : σ}

theorem evolves_extends (laws : FirstWins good size) : Evolves good (Extends : σ → σ → Prop) where
  refl := Extends.refl
  trans := Extends.trans
  insert := laws.keeps_insert
  extend := laws.keeps_extend

section Comparison

variable {first : σ} {second : τ}

theorem insert_same (laws : FirstWins good size) (others : FirstWins fine count) (ok : good first)
    (okay : fine second) (entries : SameEntries size count first second) (hash : Hash w)
    (content : Bytes) :
    (IdStore.insert first hash content).answer = (IdStore.insert second hash content).answer ∧
      SameEntries size count (IdStore.insert first hash content).store
        (IdStore.insert second hash content).store := by
  obtain ⟨_, answer, offered⟩ := laws.insert ok hash content
  obtain ⟨_, otherAnswer, alike⟩ := others.insert okay hash content
  exact ⟨by rw [answer, otherAnswer, entries.lookup], offered.same alike entries⟩

theorem extend_same (laws : FirstWins good size) (others : FirstWins fine count) (ok : good first)
    (okay : fine second) (entries : SameEntries size count first second) (hash stem : Hash w)
    (suffix : Bytes) :
    (IdStore.insertExtension first hash stem suffix).answer =
        (IdStore.insertExtension second hash stem suffix).answer ∧
      SameEntries size count (IdStore.insertExtension first hash stem suffix).store
        (IdStore.insertExtension second hash stem suffix).store := by
  cases found : IdStore.lookup first stem with
  | none =>
      obtain ⟨_, answer, unchanged⟩ := laws.refuse ok hash suffix found
      rw [entries.lookup] at found
      obtain ⟨_, otherAnswer, idle⟩ := others.refuse okay hash suffix found
      refine ⟨answer.trans otherAnswer.symm, ?_, ?_⟩
      · intro other
        calc
          IdStore.lookup (IdStore.insertExtension first hash stem suffix).store other =
              IdStore.lookup first other := unchanged.lookup other
          _ = IdStore.lookup second other := entries.lookup other
          _ = IdStore.lookup (IdStore.insertExtension second hash stem suffix).store other :=
            (idle.lookup other).symm
      · calc
          size (IdStore.insertExtension first hash stem suffix).store = size first := unchanged.size
          _ = count second := entries.size
          _ = count (IdStore.insertExtension second hash stem suffix).store := idle.size.symm
  | some head =>
      obtain ⟨_, answer, offered⟩ := laws.extend ok hash suffix found
      rw [entries.lookup] at found
      obtain ⟨_, otherAnswer, alike⟩ := others.extend okay hash suffix found
      exact ⟨by rw [answer, otherAnswer, entries.lookup], offered.same alike entries⟩

/-- Stores that hold the same answer every program alike, and hold the same afterwards. -/
theorem run_same (laws : FirstWins good size) (others : FirstWins fine count)
    (program : Program w α) (ok : good first) (okay : fine second)
    (entries : SameEntries size count first second) (source : γ) :
    (program.run first source).answer = (program.run second source).answer ∧
      (program.run first source).source = (program.run second source).source ∧
      SameEntries size count (program.run first source).store
        (program.run second source).store := by
  induction program generalizing first second source with
  | done answer => exact ⟨rfl, rfl, entries⟩
  | insert hash content next ih =>
      obtain ⟨answer, after⟩ := laws.insert_same others ok okay entries hash content
      rw [Program.run_insert, Program.run_insert, ← answer]
      exact ih _ (laws.insert ok hash content).1 (others.insert okay hash content).1 after source
  | insertExtension hash stem suffix next ih =>
      obtain ⟨answer, after⟩ := laws.extend_same others ok okay entries hash stem suffix
      rw [Program.run_insertExtension, Program.run_insertExtension, ← answer]
      exact ih _ (laws.good_extend ok hash stem suffix) (others.good_extend okay hash stem suffix)
        after source
  | lookupTerminated hash next ih =>
      have found : IdStore.lookupTerminated first hash = IdStore.lookupTerminated second hash := by
        rw [laws.terminated ok, others.terminated okay, entries.lookup]
      rw [Program.run_lookupTerminated, Program.run_lookupTerminated, ← found]
      exact ih _ ok okay entries source
  | candidate next ih => exact ih _ ok okay entries _
  | record entry next ih => exact ih ok okay entries source

end Comparison

end FirstWins

end Interner
