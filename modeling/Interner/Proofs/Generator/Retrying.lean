import Interner.Proofs.Generator.Protocol
import Interner.Proofs.Session.Accounting

namespace Interner

variable {σ γ : Type} {w : Width} [IdStore σ w] {store : σ} {kind : GeneratorKind} {stem : Hash w}
  {head suffix kept : Bytes} {attempt : Nat}
  {decide : Consultation w → Except (GenerationError w) Decision}
  {result : Except (GenerationError w) (Generated w)}

namespace Ending

variable {question : Option (Consultation w)}
  (ending : Ending store kind stem head decide attempt suffix question result)

include ending

theorem asks {asked : Consultation w} (put : question = some asked) :
    Asks store kind stem head attempt suffix asked := by
  cases ending with
  | new => cases put
  | accepted asks answer | failed asks answer =>
      cases put
      exact asks

end Ending

namespace Protocol

variable {tried : List Bytes} {asks : List (Consultation w)} {i : Nat}
  (protocol : Protocol store kind stem head decide attempt tried asks result)

include protocol

theorem asked {asked : Consultation w} (put : asks[i]? = some asked) :
    ∃ suffix, tried[i]? = some suffix ∧ Asks store kind stem head (attempt + i) suffix asked := by
  induction protocol generalizing i with
  | @last attempt suffix question _ ending =>
      cases i with
      | zero =>
          rw [← List.head?_eq_getElem?, Option.head?_toList] at put
          exact ⟨suffix, rfl, ending.asks put⟩
      | succ i => cases question <;> cases put
  | @retried attempt suffix _ _ _ _ asks answer rest ih =>
      cases i with
      | zero =>
          cases put
          exact ⟨suffix, rfl, asks⟩
      | succ i =>
          rcases ih put with ⟨later, listed, asks⟩
          rw [show attempt + 1 + i = attempt + (i + 1) by omega] at asks
          exact ⟨later, listed, asks⟩

theorem ending (final : tried.length = i + 1) : ∃ suffix, tried[i]? = some suffix ∧
    Ending store kind stem head decide (attempt + i) suffix asks[i]? result := by
  induction protocol generalizing i with
  | @last attempt suffix question result ending =>
      cases final
      refine ⟨suffix, rfl, ?_⟩
      rw [← List.head?_eq_getElem?, Option.head?_toList]
      exact ending
  | @retried attempt suffix _ suffixes _ _ asks answer rest ih =>
      rcases Nat.exists_eq_succ_of_ne_zero (Nat.ne_of_gt (List.length_pos_of_ne_nil
        rest.tried_ne_nil)) with ⟨m, fewer⟩
      cases Nat.succ.inj (final.symm.trans (congrArg Nat.succ fewer))
      rcases ih fewer with ⟨last, listed, ending⟩
      rw [show attempt + 1 + m = attempt + (m + 1) by omega] at ending
      exact ⟨last, listed, ending⟩

end Protocol

theorem Exchanges.consultations {quiet : Journal w → Prop}
    (silent : ∀ journal, quiet journal → journal.consultations = []) {asks : List (Consultation w)}
    {journal : Journal w} (exchanges : Exchanges quiet asks journal) :
    journal.consultations = asks := by
  induction exchanges with
  | done quiet => exact silent _ quiet
  | @ask before journal event asked asks quiet announces rest ih =>
      rw [Journal.consultations_append, silent before quiet, List.nil_append]
      exact congrArg (asked :: ·) ih

/-- The journal tells of doublings of the bucket array, and of nothing else. -/
def Journal.OnlyGrowth (journal : Journal w) : Prop :=
  ∃ growths : List Growth, journal = growths.map Growth.entry

theorem Journal.OnlyGrowth.consultations {journal : Journal w} (growth : journal.OnlyGrowth) :
    journal.consultations = [] := by
  rcases growth with ⟨growths, rfl⟩
  simp [Journal.consultations, Growth.entry]

theorem Table.quiet : Quiet (Table.Sound (w := w)) Journal.OnlyGrowth where
  nothing := ⟨[], rfl⟩
  extend := fun sound hash stem suffix => ⟨_, (sound.extend_makesRoom hash stem suffix).reported.1⟩

variable [CandidateSource γ] {good : σ → Prop} {size : σ → Nat}

end Interner
