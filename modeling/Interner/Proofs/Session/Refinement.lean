import Interner.Proofs.Session.Basic
import Interner.Proofs.Store.Programs
import Interner.Proofs.Store.Tabled

namespace Interner

variable {σ τ : Type} {w : Width} [IdStore σ w] [IdStore τ w] {good : σ → Prop} {size : σ → Nat}
  {fine : τ → Prop} {count : τ → Nat}

namespace FirstWins

variable {session : Session σ w}

theorem good_after (laws : FirstWins good size) (ok : good session.store) (call : Call w) :
    good (session.after call).store := by
  cases call with
  | request request => exact laws.good_run request.program ok ()
  | generate name => exact laws.good_run _ ok (session.generators name)
  | discard name amount => exact ok

theorem good_calls (laws : FirstWins good size) (ok : good session.store) (calls : List (Call w)) :
    good (session.run calls).store := by
  induction calls generalizing session with
  | nil => exact ok
  | cons call calls ih => exact ih (laws.good_after ok call)

end FirstWins

namespace Evolves

variable {session : Session σ w} {change : σ → σ → Prop}

theorem after (evolves : Evolves good change) (laws : FirstWins good size)
    (ok : good session.store) (call : Call w) :
    change session.store (session.after call).store := by
  cases call with
  | request request => exact evolves.run laws request.program ok ()
  | generate name => exact evolves.run laws _ ok (session.generators name)
  | discard name amount => exact evolves.refl session.store

theorem calls (evolves : Evolves good change) (laws : FirstWins good size)
    (ok : good session.store) (calls : List (Call w)) :
    change session.store (session.run calls).store := by
  induction calls generalizing session with
  | nil => exact evolves.refl session.store
  | cons call calls ih =>
      exact evolves.trans (evolves.after laws ok call) (ih (laws.good_after ok call))

end Evolves

namespace FirstWins

variable {session : Session σ w}

theorem keeps_after (laws : FirstWins good size) (ok : good session.store) (call : Call w) :
    Extends session.store (session.after call).store :=
  laws.evolves_extends.after laws ok call

theorem keeps_calls (laws : FirstWins good size) (ok : good session.store)
    (calls : List (Call w)) : Extends session.store (session.run calls).store :=
  laws.evolves_extends.calls laws ok calls

variable {second : Session τ w}

theorem after_same (laws : FirstWins good size) (others : FirstWins fine count)
    (ok : good session.store) (okay : fine second.store)
    (entries : SameEntries size count session.store second.store)
    (generators : session.generators = second.generators) (call : Call w) :
    session.answer call = second.answer call ∧
      (session.after call).generators = (second.after call).generators ∧
      SameEntries size count (session.after call).store (second.after call).store := by
  cases call with
  | request request =>
      obtain ⟨answer, _, same⟩ := laws.run_same others request.program ok okay entries ()
      exact ⟨answer, generators, same⟩
  | generate name =>
      obtain ⟨answer, source, same⟩ :=
        laws.run_same others (session.generators name).program ok okay entries
          (session.generators name)
      simp only [Session.answer, Session.after, Session.outcome, ← generators]
      exact ⟨congrArg Answer.generated answer, by rw [source], same⟩
  | discard name amount =>
      refine ⟨rfl, ?_, entries⟩
      simp only [Session.after, Session.outcome, generators]

theorem transcript_same (laws : FirstWins good size) (others : FirstWins fine count)
    (ok : good session.store) (okay : fine second.store)
    (entries : SameEntries size count session.store second.store)
    (generators : session.generators = second.generators) (calls : List (Call w)) :
    session.transcript size calls = second.transcript count calls := by
  induction calls generalizing session second with
  | nil => rfl
  | cons call calls ih =>
      obtain ⟨answer, later, same⟩ := laws.after_same others ok okay entries generators call
      have rest := ih (laws.good_after ok call) (others.good_after okay call) same later
      rw [Session.transcript, Session.transcript, answer, same.size, rest]

end FirstWins

variable {config : Config}

theorem Config.buckets_pos (valid : config.validate = .ok ()) : 0 < config.buckets := by
  apply Nat.pos_of_ne_zero
  intro empty
  rw [validate, if_pos empty] at valid
  cases valid

theorem Table.sound_ofConfig (valid : config.validate = .ok ()) :
    (Table.ofConfig config : Table w).Sound :=
  ⟨_, arranged_ofConfig (Config.buckets_pos valid)⟩

theorem Table.lookup_ofConfig (valid : config.validate = .ok ()) (hash : Hash w) :
    IdStore.lookup (Table.ofConfig config : Table w) hash = none := by
  rw [Table.lookup_eq (Table.sound_ofConfig valid)]
  simp [contentOf, records, Table.ofConfig]

theorem sameEntries_empty (valid : config.validate = .ok ()) :
    SameEntries Table.size Plain.size (Table.ofConfig config : Table w) ({} : Plain w) := by
  constructor
  · intro hash
    rw [Table.lookup_ofConfig valid, Plain.lookup_eq _ rfl]
    simp [Plain.find?]
  · simp [Table.size, Plain.size, Table.ofConfig]

/-- A table answers every sequence of calls as a plain map does, and always has the map's size. -/
theorem transcript_eq_plain (valid : config.validate = .ok ()) (generators : Nat → Generator w)
    (calls : List (Call w)) :
    (⟨Table.ofConfig config, generators⟩ : Session (Table w) w).transcript Table.size calls =
      (⟨{}, generators⟩ : Session (Plain w) w).transcript Plain.size calls :=
  Table.firstWins.transcript_same Plain.firstWins (Table.sound_ofConfig valid) rfl
    (sameEntries_empty valid) rfl calls

theorem transcript_eq_plain_example :
    (⟨Table.ofConfig ⟨1, Binary64.one⟩, fun _ => .counter { stem := 7 }⟩ :
      Session (Table .narrow) .narrow).transcript Table.size
        [.request (.insert 7 [65]), .request (.intern [66]), .generate 0, .request (.views 7)] =
      (⟨{}, fun _ => .counter { stem := 7 }⟩ : Session (Plain .narrow) .narrow).transcript
        Plain.size
        [.request (.insert 7 [65]), .request (.intern [66]), .generate 0, .request (.views 7)] :=
  transcript_eq_plain (by decide +kernel) _ _

theorem Table.Reachable.sound {table : Table w} (reachable : table.Reachable) : table.Sound := by
  rcases reachable with ⟨config, generators, calls, valid, rfl⟩
  exact Table.firstWins.good_calls (Table.sound_ofConfig valid) calls

end Interner
