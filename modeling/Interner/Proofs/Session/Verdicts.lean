import Interner.Proofs.Session.Refinement
import Interner.Proofs.Store.Settled
import Interner.Proofs.Text.Encoding

namespace Interner

variable {σ : Type} {w : Width} [IdStore σ w] {good : σ → Prop} {size : σ → Nat}

section Verdict

variable {stored : Option Bytes} {hash other : Hash w} {content : Bytes}

theorem verdict_ok (accepted : verdict stored hash content = .ok other) :
    other = hash ∧ stored.getD content = content := by
  cases stored with
  | none =>
      cases accepted
      exact ⟨rfl, rfl⟩
  | some kept =>
      by_cases same : kept = content
      · rw [verdict, if_pos same] at accepted
        cases accepted
        exact ⟨rfl, same⟩
      · rw [verdict, if_neg same] at accepted
        cases accepted

theorem verdict_error {error : StoreError w} (refused : verdict stored hash content = .error error) :
    ∃ kept, stored = some kept ∧ kept ≠ content ∧
      error = .collision hash (Utf8.lossy kept) (Utf8.lossy content) := by
  cases stored with
  | none => cases refused
  | some kept =>
      by_cases same : kept = content
      · rw [verdict, if_pos same] at refused
        cases refused
      · rw [verdict, if_neg same] at refused
        cases refused
        exact ⟨kept, rfl, same, rfl⟩

theorem verdict_getD : verdict (some (stored.getD content)) hash content =
    verdict stored hash content := by
  cases stored with
  | none => simp [verdict]
  | some kept => rfl

end Verdict

/-- The whole string that a request asks to intern. -/
def Request.full? (store : σ) : Request w → Option Bytes
  | .intern content => some content
  | .internExtension stem suffix => (IdStore.lookup store stem).map (· ++ suffix)
  | _ => none

namespace FirstWins

variable {store : σ} (laws : FirstWins good size) (ok : good store)

include laws ok

theorem intern_outcome (content : Bytes) :
    ((Request.intern content).outcome store).answer =
        .interned (verdict (IdStore.lookup store (Hash.ofBytes content)) (Hash.ofBytes content)
          content) ∧
      Offered size store ((Request.intern content).outcome store).store (Hash.ofBytes content)
        content := by
  obtain ⟨answer, same⟩ := laws.run_settled ok (laws.intern_settled ok content)
  rw [Request.outcome, Request.program, Program.run_map, answer, same]
  exact ⟨rfl, (laws.insert ok (Hash.ofBytes content) content).2.2⟩

theorem extension_outcome {stem : Hash w} {head : Bytes} (suffix : Bytes)
    (known : IdStore.lookup store stem = some head) :
    ((Request.internExtension stem suffix).outcome store).answer =
        .interned (verdict (IdStore.lookup store (Hash.extend stem suffix))
          (Hash.extend stem suffix) (head ++ suffix)) ∧
      Offered size store ((Request.internExtension stem suffix).outcome store).store
        (Hash.extend stem suffix) (head ++ suffix) := by
  obtain ⟨answer, same⟩ := laws.run_settled ok (laws.extension_settled ok suffix known)
  rw [Request.outcome, Request.program, Program.run_map, answer, same]
  exact ⟨rfl, (laws.extend ok (Hash.extend stem suffix) suffix known).2.2⟩

theorem refused_outcome {stem : Hash w} (suffix : Bytes)
    (unknown : IdStore.lookup store stem = none) :
    ((Request.internExtension stem suffix).outcome store).answer =
      .interned (.error (.unknownStem stem)) := by
  obtain ⟨answer, _⟩ := laws.run_settled ok (laws.extension_refused ok suffix unknown)
  rw [Request.outcome, Request.program, Program.run_map, answer]

theorem interned_present {request : Request w} {hash : Hash w}
    (answered : (request.outcome store).answer = .interned (.ok hash)) :
    ∃ full, request.full? store = some full ∧
      IdStore.lookup (request.outcome store).store hash = some full := by
  cases request with
  | insert | insertExtension | views => cases answered
  | intern content =>
      obtain ⟨answer, offered⟩ := laws.intern_outcome ok content
      rw [answer] at answered
      obtain ⟨rfl, same⟩ := verdict_ok (Answer.interned.inj answered)
      have present := offered.present
      rw [same] at present
      exact ⟨content, rfl, present⟩
  | internExtension stem suffix =>
      cases known : IdStore.lookup store stem with
      | none =>
          rw [laws.refused_outcome ok suffix known] at answered
          cases Answer.interned.inj answered
      | some head =>
          obtain ⟨answer, offered⟩ := laws.extension_outcome ok suffix known
          rw [answer] at answered
          obtain ⟨rfl, same⟩ := verdict_ok (Answer.interned.inj answered)
          have present := offered.present
          rw [same] at present
          refine ⟨head ++ suffix, ?_, present⟩
          rw [Request.full?, known, Option.map_some]

/-- Once a string was interned or refused, the verdict on it stands in every store that grew out of
that one. -/
theorem verdict_stands {content : Bytes} {later : σ} (okay : good later)
    (growth : Extends ((Request.intern content).outcome store).store later) :
    ((Request.intern content).outcome later).answer =
      ((Request.intern content).outcome store).answer := by
  obtain ⟨answer, offered⟩ := laws.intern_outcome ok content
  have present := growth _ _ offered.present
  obtain ⟨repeated, _⟩ := laws.intern_outcome okay content
  calc
    ((Request.intern content).outcome later).answer =
        .interned (verdict (IdStore.lookup later (Hash.ofBytes content)) (Hash.ofBytes content)
          content) := repeated
    _ = .interned (verdict (IdStore.lookup store (Hash.ofBytes content)) (Hash.ofBytes content)
          content) := by rw [present, verdict_getD]
    _ = ((Request.intern content).outcome store).answer := answer.symm

end FirstWins

/-- What a caller may rely on after interning, from `session` on and for good. -/
structure Session.Reliable (session : Session σ w) : Prop where
  /-- An id that was returned leads to the string it was returned for. -/
  resolves : ∀ (request : Request w) (hash : Hash w),
    session.answer (.request request) = .interned (.ok hash) →
      ∃ full, request.full? session.store = some full ∧
        ∀ later, IdStore.lookup ((session.after (.request request)).run later).store hash =
          some full
  separates : ∀ (request other : Request w) (hash : Hash w) (between : List (Call w)),
    session.answer (.request request) = .interned (.ok hash) →
      ((session.after (.request request)).run between).answer (.request other) =
          .interned (.ok hash) →
        request.full? session.store =
          other.full? ((session.after (.request request)).run between).store
  /-- The verdict on a string never changes. -/
  permanent : ∀ (content : Bytes) (later : List (Call w)),
    ((session.after (.request (.intern content))).run later).answer (.request (.intern content)) =
      session.answer (.request (.intern content))
  accepts : ∀ (content : Bytes) (hash : Hash w),
    session.answer (.request (.intern content)) = .interned (.ok hash) →
      hash = Hash.ofBytes content
  /-- A string is refused because another one stands under its hash, and the error names both. -/
  refuses : ∀ (content : Bytes) (error : StoreError w),
    session.answer (.request (.intern content)) = .interned (.error error) →
      ∃ kept, kept ≠ content ∧
        (∀ later, IdStore.lookup ((session.after (.request (.intern content))).run later).store
          (Hash.ofBytes content) = some kept) ∧
        error = .collision (Hash.ofBytes content) (Utf8.lossy kept) (Utf8.lossy content) ∧
        ∀ existing candidate : String, kept = Utf8.encode existing →
          content = Utf8.encode candidate →
            error = .collision (Hash.ofBytes content) existing candidate ∧ existing ≠ candidate

namespace FirstWins

variable {session : Session σ w} (laws : FirstWins good size) (ok : good session.store)

include laws ok

theorem resolves {request : Request w} {hash : Hash w}
    (answered : session.answer (.request request) = .interned (.ok hash)) :
    ∃ full, request.full? session.store = some full ∧
      ∀ later, IdStore.lookup ((session.after (.request request)).run later).store hash =
        some full := by
  obtain ⟨full, known, present⟩ := laws.interned_present ok answered
  refine ⟨full, known, ?_⟩
  intro later
  exact laws.keeps_calls (laws.good_after ok _) later hash full present

theorem separates {request other : Request w} {hash : Hash w} {between : List (Call w)}
    (answered : session.answer (.request request) = .interned (.ok hash))
    (again : ((session.after (.request request)).run between).answer (.request other) =
      .interned (.ok hash)) :
    request.full? session.store =
      other.full? ((session.after (.request request)).run between).store := by
  obtain ⟨full, known, stays⟩ := laws.resolves ok answered
  have okay := laws.good_calls (laws.good_after ok (.request request)) between
  obtain ⟨second, alsoKnown, present⟩ := laws.interned_present okay again
  have found := stays (between ++ [.request other])
  rw [Session.run_append] at found
  have same : some second = some full := present.symm.trans found
  rw [known, alsoKnown, same]

theorem refuses {content : Bytes} {error : StoreError w}
    (answered : session.answer (.request (.intern content)) = .interned (.error error)) :
    ∃ kept, kept ≠ content ∧
      (∀ later, IdStore.lookup ((session.after (.request (.intern content))).run later).store
        (Hash.ofBytes content) = some kept) ∧
      error = .collision (Hash.ofBytes content) (Utf8.lossy kept) (Utf8.lossy content) := by
  have answer := (laws.intern_outcome ok content).1
  obtain ⟨kept, stored, differs, reason⟩ :=
    verdict_error (Answer.interned.inj (answer.symm.trans answered))
  refine ⟨kept, differs, ?_, reason⟩
  intro later
  have growth := (laws.keeps_after ok (.request (.intern content))).trans
    (laws.keeps_calls (laws.good_after ok _) later)
  exact growth _ _ stored

theorem reliable : session.Reliable where
  resolves := fun request hash answered => laws.resolves ok answered
  separates := fun request other hash between answered again => laws.separates ok answered again
  permanent := by
    intro content later
    have after := laws.good_after ok (.request (.intern content))
    exact laws.verdict_stands ok (laws.good_calls after later) (laws.keeps_calls after later)
  accepts := by
    intro content hash answered
    have answer := (laws.intern_outcome ok content).1
    exact (verdict_ok (Answer.interned.inj (answer.symm.trans answered))).1
  refuses := by
    intro content error answered
    obtain ⟨kept, differs, stays, reason⟩ := laws.refuses ok answered
    refine ⟨kept, differs, stays, reason, ?_⟩
    rintro existing candidate rfl rfl
    rw [Utf8.lossy_encode, Utf8.lossy_encode] at reason
    exact ⟨reason, fun same => differs (same ▸ rfl)⟩

end FirstWins

/-- Ids of a table never confuse two strings and its verdicts never change, whatever was called before
and is called later. -/
theorem interning_reliable {session : Session (Table w) w} (reachable : session.store.Reachable) :
    session.Reliable :=
  Table.firstWins.reliable reachable.sound

theorem interning_reliable_planted :
    ((⟨Table.ofConfig ⟨1, Binary64.one⟩, fun _ => .counter { stem := 7 }⟩ :
      Session (Table .wide) .wide).run
        [.request (.insert (Hash.ofBytes [65]) [66]), .request (.intern [65])]).Reliable :=
  interning_reliable ⟨_, _, _, by decide +kernel, rfl⟩

end Interner
