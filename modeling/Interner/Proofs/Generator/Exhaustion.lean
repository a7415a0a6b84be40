import Interner.Proofs.Generator.Protocol
import Interner.Proofs.Generator.Words
import Interner.Proofs.Session.Interning
import Interner.Proofs.Sharing.News

/-!
Generators of one stem and one space of candidates. A new id is the hash of a candidate that was free,
so all of them together never make more ids than there are candidates; and a bounded policy finds the
first free candidate, or gives up after its last attempt and nothing is stored.
-/

namespace Interner

variable {σ γ : Type} {w : Width} [IdStore σ w] {good : σ → Prop} {size : σ → Nat} {store : σ}
  {stem hash : Hash w} {head : Bytes} {kind : GeneratorKind} {limit attempt : Nat}

namespace Protocol

variable {earlier suffixes : List Bytes} {asks : List (Consultation w)}
  {result : Except (GenerationError w) (Generated w)}

theorem bounded_retries (first : 1 ≤ attempt)
    (taken : ∀ suffix ∈ earlier, ∃ kept, IdStore.lookup store (Hash.extend stem suffix) = some kept)
    (few : attempt + earlier.length ≤ max limit 1)
    (rest : Protocol store kind stem head (RetryPolicy.bounded limit).decide
      (attempt + earlier.length) suffixes asks result) :
    ∃ asks, Protocol store kind stem head (RetryPolicy.bounded limit).decide attempt
      (earlier ++ suffixes) asks result := by
  induction earlier generalizing attempt with
  | nil => exact ⟨asks, rest⟩
  | cons suffix earlier ih =>
      rw [List.forall_mem_cons] at taken
      rw [List.length_cons] at few rest
      rcases taken.1 with ⟨kept, present⟩
      rcases ih (Nat.le_add_left 1 attempt) taken.2 (by omega)
        (by rwa [show attempt + 1 + earlier.length = attempt + (earlier.length + 1) by omega]) with
        ⟨later, rest⟩
      refine ⟨_ :: later, .retried (.of_taken present) ?_ rest⟩
      exact if_neg (show ¬limit ≤ attempt by omega)

variable (head kind) in
theorem bounded_new {suffix : Bytes}
    (taken : ∀ suffix ∈ earlier, ∃ kept, IdStore.lookup store (Hash.extend stem suffix) = some kept)
    (few : earlier.length < max limit 1)
    (free : IdStore.lookup store (Hash.extend stem suffix) = none) :
    ∃ asks, Protocol store kind stem head (RetryPolicy.bounded limit).decide 1 (earlier ++ [suffix])
      asks (.ok ⟨Hash.extend stem suffix, .new⟩) :=
  bounded_retries (Nat.le_refl 1) taken (by omega) (.last (.new free))

variable (head kind) in
theorem bounded_exhausted {tried : List Bytes} (many : tried.length = max limit 1)
    (taken : ∀ suffix ∈ tried, ∃ kept, IdStore.lookup store (Hash.extend stem suffix) = some kept) :
    ∃ asks, Protocol store kind stem head (RetryPolicy.bounded limit).decide 1 tried asks
      (.error (.exhausted kind (max limit 1))) := by
  rcases List.eq_nil_or_concat tried with rfl | ⟨earlier, suffix, rfl⟩
  · simp only [List.length_nil] at many
    omega
  · rw [List.concat_eq_append] at many taken ⊢
    rw [List.length_append, List.length_singleton] at many
    simp only [List.mem_append, List.mem_singleton, or_imp, forall_and, forall_eq] at taken
    rcases taken.2 with ⟨kept, present⟩
    apply bounded_retries (Nat.le_refl 1) taken.1 (by omega)
    rw [Nat.add_comm, many]
    refine .last (.failed (.of_taken present) ?_)
    exact if_pos (Nat.le_max_left limit 1)

end Protocol

theorem Quiet.trivial : Quiet good fun _ : Journal w => True := ⟨True.intro, fun _ _ _ _ => True.intro⟩

variable [CandidateSource γ] {source : γ}

theorem FirstWins.generateFrom_new (laws : FirstWins good size) (ok : good store) {patience : Nat}
    {decide : Consultation w → Except (GenerationError w) Decision}
    (new : ((Program.generateFrom kind stem decide patience attempt).run store source).answer =
      some (.ok ⟨hash, .new⟩)) :
    (∃ n suffix, CandidateSource.drawn source n = some suffix ∧ hash = Hash.extend stem suffix) ∧
      IdStore.lookup store hash = none ∧
      ∃ content, IdStore.lookup ((Program.generateFrom kind stem decide patience attempt).run store
        source).store hash = some content := by
  cases known : IdStore.lookup store stem with
  | none =>
      cases patience with
      | zero => cases new
      | succ patience =>
          cases candidate : (CandidateSource.next source).1 with
          | none => simp [Program.generateFrom, candidate] at new
          | some suffix =>
              rw [(laws.generateFrom_unknown ok known candidate kind decide patience attempt).2] at new
              cases new
  | some head =>
      rcases laws.generateFrom_protocol ok (.refl store) known new with
        ⟨tried, asks, protocol, supplied, few⟩
      have played := (protocol.played laws .trivial ok (.refl store) known supplied few).2
      rcases played.added hash rfl with ⟨free, suffix, last, own, stored⟩
      rw [List.getLast?_eq_getElem?] at last
      have inside := (List.getElem?_eq_some_iff.mp last).1
      exact ⟨⟨_, suffix, (supplied.drawn inside).trans last, own⟩, free, _, stored.present⟩

namespace FirstWins

variable (laws : FirstWins good size) (ok : good store)

include laws ok

theorem bounded_refuses (kind : GeneratorKind) (limit : Nat) {suffix : Bytes}
    (unknown : IdStore.lookup store stem = none)
    (candidate : CandidateSource.drawn source 0 = some suffix) :
    let made := (Program.generate kind stem (.bounded limit)).run store source
    made.answer = some (.error (.store (.unknownStem stem))) ∧
      made.source = CandidateSource.skip source 1 ∧ SameEntries size size made.store store := by
  have some : (RetryPolicy.bounded limit : RetryPolicy w).patience ≠ 0 :=
    Nat.ne_of_gt (Nat.le_max_right limit 1)
  rcases Nat.exists_eq_succ_of_ne_zero some with ⟨patience, tries⟩
  have whole := laws.generateFrom_unknown ok unknown candidate kind
    (RetryPolicy.bounded limit).decide patience 1
  rw [Program.generate, tries, whole.2]
  exact ⟨rfl, rfl, whole.1⟩

theorem bounded_takes_free (kind : GeneratorKind) {n : Nat} {suffix : Bytes}
    (known : IdStore.lookup store stem = some head) (inside : n < max limit 1)
    (taken : ∀ i < n, ∃ suffix, CandidateSource.drawn source i = some suffix ∧
      ∃ kept, IdStore.lookup store (Hash.extend stem suffix) = some kept)
    (candidate : CandidateSource.drawn source n = some suffix)
    (free : IdStore.lookup store (Hash.extend stem suffix) = none) :
    let made := (Program.generate kind stem (.bounded limit)).run store source
    made.answer = some (.ok ⟨Hash.extend stem suffix, .new⟩) ∧
      made.source = CandidateSource.skip source (n + 1) ∧
      Offered size store made.store (Hash.extend stem suffix) (head ++ suffix) := by
  rcases CandidateSource.exists_supplied taken with ⟨earlier, supplied, rfl, all⟩
  rcases Protocol.bounded_new head kind all inside free with ⟨asks, protocol⟩
  have length : (earlier ++ [suffix]).length = earlier.length + 1 := List.length_append
  have played := (protocol.played laws .trivial ok (.refl store) known
    (CandidateSource.supplies_concat.mpr ⟨supplied, candidate⟩)
    (Nat.le_trans (Nat.le_of_eq length) inside)).2
  rcases played.added _ rfl with ⟨_, _, last, _, offered⟩
  rw [List.getLast?_concat] at last
  cases last
  rw [← length]
  exact ⟨played.answer, played.source, offered⟩

theorem bounded_exhausts (kind : GeneratorKind) (known : IdStore.lookup store stem = some head)
    (taken : ∀ i < max limit 1, ∃ suffix, CandidateSource.drawn source i = some suffix ∧
      ∃ kept, IdStore.lookup store (Hash.extend stem suffix) = some kept) :
    let made := (Program.generate kind stem (.bounded limit)).run store source
    made.answer = some (.error (.exhausted kind (max limit 1))) ∧
      made.source = CandidateSource.skip source (max limit 1) ∧
      SameEntries size size made.store store := by
  rcases CandidateSource.exists_supplied taken with ⟨tried, supplied, many, all⟩
  rcases Protocol.bounded_exhausted head kind many all with ⟨asks, protocol⟩
  have played := (protocol.played laws .trivial ok (.refl store) known supplied
    (Nat.le_of_eq many)).2
  rw [← many]
  exact ⟨many ▸ played.answer, played.source, played.kept (by simp)⟩

end FirstWins

end Interner
