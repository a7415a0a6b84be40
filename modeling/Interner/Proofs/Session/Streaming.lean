import Interner.Proofs.Session.Drawing
import Interner.Proofs.Session.Joining

namespace Interner

open DrawStream RandomGenerator

variable {σ : Type} {w : Width} {generator : RandomGenerator w} {draws other : DrawStream}
  {start shift bound : Nat}

namespace DrawStream

/-- Until the words of `draws` at `bound`, those of `other` from `start` on are `shift` places behind
them. -/
structure Shifted (draws other : DrawStream) (start shift bound : Nat) : Prop where
  patience : other.patience = draws.patience
  words : ∀ q, start ≤ q → q + shift < bound → other.word q = draws.word (q + shift)

def without (draws : DrawStream) (start amount : Nat) : DrawStream :=
  { draws with word := fun q => if q < start then draws.word q else draws.word (q + amount) }

theorem shifted_before (draws : DrawStream) (start amount : Nat) :
    Shifted draws (draws.without start amount) 0 0 start :=
  ⟨rfl, fun _ _ inside => if_pos inside⟩

theorem shifted_behind (draws : DrawStream) (start amount bound : Nat) :
    Shifted draws (draws.without start amount) start amount bound :=
  ⟨rfl, fun _ behind _ => if_neg (Nat.not_lt.mpr behind)⟩

variable (shifted : Shifted draws other start shift bound)

include shifted

theorem Shifted.indexWithin_eq {n patience q : Nat} (ahead : start ≤ q)
    (stays : (indexWithin n patience (draws.movedTo (q + shift))).2.position ≤ bound) :
    ∃ index read,
      indexWithin n patience (draws.movedTo (q + shift)) = (index, draws.movedTo (q + read + shift)) ∧
        indexWithin n patience (other.movedTo q) = (index, other.movedTo (q + read)) := by
  induction patience generalizing q with
  | zero => exact ⟨none, 0, rfl, rfl⟩
  | succ patience ih =>
      have next : (draws.movedTo (q + shift)).advance 1 = draws.movedTo (q + 1 + shift) :=
        congrArg draws.movedTo (Nat.add_right_comm q shift 1)
      have same (inside : q + shift < bound) :
          accept? n (other.movedTo q).current = accept? n (draws.movedTo (q + shift)).current :=
        congrArg (accept? n) (shifted.words q ahead inside)
      cases selected : accept? n (draws.movedTo (q + shift)).current with
      | some index =>
          rw [indexWithin_accepted selected, next] at stays ⊢
          have reached : q + 1 + shift ≤ bound := stays
          exact ⟨some index, 1, rfl, indexWithin_accepted ((same (by omega)).trans selected)⟩
      | none =>
          rw [indexWithin_rejected selected, next] at stays ⊢
          rcases indexWithin_advance n patience (draws.movedTo (q + 1 + shift)) with ⟨more, moved⟩
          have reached : ((draws.movedTo (q + 1 + shift)).advance more).position ≤ bound := moved ▸ stays
          have reached : q + 1 + shift + more ≤ bound := reached
          rw [indexWithin_rejected ((same (by omega)).trans selected)]
          rcases ih (Nat.le_succ_of_le ahead) stays with ⟨index, read, drawn, again⟩
          rw [Nat.add_assoc q 1 read] at drawn again
          exact ⟨index, 1 + read, drawn, again⟩

theorem Shifted.drawText_eq {table : CharacterTable} {length q : Nat} (ahead : start ≤ q)
    (stays : (drawText table length (draws.movedTo (q + shift))).2.position ≤ bound) :
    ∃ text read,
      drawText table length (draws.movedTo (q + shift)) = (text, draws.movedTo (q + read + shift)) ∧
        drawText table length (other.movedTo q) = (text, other.movedTo (q + read)) := by
  induction length generalizing q with
  | zero => exact ⟨some [], 0, rfl, rfl⟩
  | succ length ih =>
      have within : ((draws.movedTo (q + shift)).index table.size).2.position ≤ bound := by
        refine Nat.le_trans ?_ stays
        rw [drawText]
        split
        · rename_i later dry
          rw [dry]
        · rename_i index later found
          rcases drawText_advance table length later with ⟨more, moved⟩
          rw [found, moved]
          exact Nat.le_add_right _ more
      rcases shifted.indexWithin_eq ahead within with ⟨selected, read, drawn, again⟩
      have drawn : (draws.movedTo (q + shift)).index table.size =
        (selected, draws.movedTo (q + read + shift)) := drawn
      have again : (other.movedTo q).index table.size = (selected, other.movedTo (q + read)) := by
        rw [DrawStream.index, ← again]
        exact congrArg (fun patience => indexWithin table.size patience (other.movedTo q))
          shifted.patience
      cases selected with
      | none =>
          refine ⟨none, read, ?_, ?_⟩
          · simp only [drawText, drawn]
          · simp only [drawText, again]
      | some index =>
          simp only [drawText, drawn, again] at stays ⊢
          rcases ih (Nat.le_add_right_of_le ahead) stays with ⟨text, more, rest, likewise⟩
          rw [Nat.add_assoc q read more] at rest likewise
          rw [rest, likewise]
          exact ⟨_, read + more, rfl, rfl⟩

end DrawStream

/-- The generator on `other`, and on `draws` with `shift` words more behind it. -/
def RandomGenerator.Beside (generator : RandomGenerator w) (draws other : DrawStream)
    (start shift : Nat) (first second : Generator w) : Prop :=
  ∃ q, start ≤ q ∧ first = .random (generator.reading (draws.movedTo (q + shift))) ∧
    second = .random (generator.reading (other.movedTo q))

theorem RandomGenerator.mimics_shifted (generator : RandomGenerator w)
    (shifted : Shifted draws other start shift bound) :
    Generator.Mimics bound (fun _ => True) (generator.Beside draws other start shift) where
  program := by
    rintro _ _ ⟨q, _, rfl, rfl⟩
    rfl
  next := by
    rintro _ _ ⟨q, ahead, rfl, rfl⟩ within
    rw [next_eq_drawText] at within
    rcases shifted.drawText_eq ahead within with ⟨text, read, drawn, again⟩
    rw [next_eq_drawText, next_eq_drawText, drawn, again]
    exact ⟨rfl, q + read, Nat.le_add_right_of_le ahead, rfl, rfl⟩
  discard := by
    rintro _ _ amount ⟨q, ahead, rfl, rfl⟩ _
    refine ⟨q + amount, Nat.le_add_right_of_le ahead, ?_, rfl⟩
    rw [Nat.add_right_comm]
    rfl

variable [IdStore σ w]

/-- A discard reads exactly the discarded words: without them, the session shows the same without it. -/
theorem Session.discarded_seen (session : Session σ w) (name : Nat) (generator : RandomGenerator w)
    (earlier later : List (Call w)) (amount : Nat) :
    let whole := session.put name (.random generator)
    let position := ((whole.run earlier).generators name).position
    let shorter := session.put name
      (.random (generator.reading (generator.draws.without position amount)))
    ((whole.run (earlier ++ [.discard name amount])).generators name).position = position + amount ∧
      shorter.seen (earlier ++ later) =
        whole.seen earlier ++ (whole.run (earlier ++ [.discard name amount])).seen later := by
  intro whole position shorter
  -- as long as `whole` stands before the words to be discarded, both streams have the same words
  have before := generator.mimics_shifted (generator.draws.shifted_before position amount)
  have begun : whole.Matched name
      (generator.Beside generator.draws (generator.draws.without position amount) 0 0) shorter :=
    session.matched_put ⟨generator.draws.position, Nat.zero_le _, rfl, rfl⟩
  rcases before.seen begun earlier (fun _ _ => trivial) (Nat.le_refl position) with ⟨seen, _, matched⟩
  rcases matched.own with ⟨q, _, standing, again⟩
  have here : position = q := congrArg Generator.position standing
  have skipped : (whole.run (earlier ++ [.discard name amount])).generators name =
      .random (generator.reading (generator.draws.movedTo (q + amount))) := by
    rw [run_append]
    refine (Function.update_self name _ (whole.run earlier).generators).trans ?_
    rw [standing]
    rfl
  have related : (whole.run (earlier ++ [.discard name amount])).Matched name
      (generator.Beside generator.draws (generator.draws.without position amount) position amount)
      (shorter.run earlier) := by
    constructor
    · rw [run_append]
      exact matched.store
    · intro other different
      rw [run_append]
      exact (matched.others other different).trans
        (Function.update_of_ne different _ (whole.run earlier).generators).symm
    · exact ⟨q, Nat.le_of_eq here, skipped, again⟩
  -- from there on they stay `amount` words apart, however far they are read
  have behind := generator.mimics_shifted (generator.draws.shifted_behind position amount
    (((whole.run (earlier ++ [.discard name amount])).run later).generators name).position)
  constructor
  · rw [skipped, here]
    rfl
  · rw [seen_append, seen, (behind.seen related later (fun _ _ => trivial) (Nat.le_refl _)).1]

/-- How a session reads the stream of a random generator. Where a stream has to be waited for, any patience
will do that is great enough for the calls at hand. -/
structure Session.ReadsExactly (session : Session σ w) (name : Nat) (generator : RandomGenerator w) :
    Prop where
  /-- After any calls: the candidates that are tried until the next discard are spelled by the accepted
  words from there on, and the stream is left right behind the last of these. -/
  spelled : ∀ earlier later, (∀ amount, .discard name amount ∉ later) →
    ∃ enough, ∀ patience, enough ≤ patience →
      let before :=
        (session.put name (.random (generator.reading (generator.draws.waiting patience)))).run earlier
      ∃ position, let draws := (generator.draws.waiting patience).movedTo position
        before.generators name = .random (generator.reading draws) ∧
          (∀ i text, (before.tried name later)[i]? = some text →
            Spells generator.table draws generator.length (i * generator.length) text) ∧
          (before.run later).generators name = .random (generator.reading (draws.movedTo
            (past generator.table.size draws
              ((before.tried name later).length * generator.length))))
  /-- Rejected words can be deleted, unless some are discarded. -/
  thinned : ∀ shorter, Thinned generator.table.size generator.draws shorter →
    ∀ calls, (∀ amount, .discard name amount ∉ calls) →
      ∃ enough, ∀ patience other, enough ≤ patience → enough ≤ other →
        (session.put name (.random (generator.reading (shorter.waiting other)))).seen calls =
          (session.put name (.random (generator.reading (generator.draws.waiting patience)))).seen calls
  /-- A discard skips as many words, accepted or not, and does what deleting these would do. -/
  discarded : ∀ earlier later amount,
    let whole := session.put name (.random generator)
    let position := ((whole.run earlier).generators name).position
    let shorter := session.put name
      (.random (generator.reading (generator.draws.without position amount)))
    ((whole.run (earlier ++ [.discard name amount])).generators name).position = position + amount ∧
      shorter.seen (earlier ++ later) =
        whole.seen earlier ++ (whole.run (earlier ++ [.discard name amount])).seen later

/-- In every session, on every store and with every policy: if infinitely many words of its stream are
accepted, a random generator reads the stream exactly. -/
theorem random_stream_read_exactly (session : Session σ w) (name : Nat) (generator : RandomGenerator w)
    (goesOn : generator.draws.GoesOn generator.table.size) : session.ReadsExactly name generator where
  spelled := by
    intro earlier later undiscarded
    rcases session.settles name goesOn earlier with ⟨first, middle, position, settled⟩
    have still : (generator.draws.movedTo position).GoesOn generator.table.size := goesOn
    have supplied := (middle.tried_sifting still undiscarded).1
    rcases middle.run_sifted still undiscarded with ⟨second, sifted⟩
    -- the patience has to do for the calls up to here and for those still to come
    refine ⟨max first second, ?_⟩
    intro patience enough before
    have both := Nat.max_le.mp enough
    have here : before = middle.put name (.random (generator.reading
        ((generator.draws.movedTo position).waiting patience))) := settled patience both.1
    rcases sifted patience both.2 with ⟨_, tried, run⟩
    rw [here, tried, run]
    refine ⟨position, middle.put_self name _, ?_, ?_⟩
    · intro i text listed
      have inside := (List.getElem?_eq_some_iff.mp listed).1
      have drawn := supplied.drawn inside
      rw [RandomGenerator.drawn_sifting still, listed, Nat.zero_add] at drawn
      cases drawn
      have waited : ((generator.draws.waiting patience).movedTo position).GoesOn
          generator.table.size := goesOn
      exact spelled_spells waited generator.length (i * generator.length)
    · rw [Session.put_self, ← past_patience _ patience]
      rfl
  thinned := by
    intro shorter thinned calls undiscarded
    have ideal : generator.sifting shorter 0 = generator.sifting generator.draws 0 := by
      rw [RandomGenerator.sifting, thinned.sifted goesOn, RandomGenerator.sifting]
    rcases session.run_sifted goesOn undiscarded with ⟨first, whole⟩
    rcases session.run_sifted (thinned.goesOn goesOn) undiscarded with ⟨second, thin⟩
    refine ⟨max first second, ?_⟩
    intro patience other long enough
    rw [(thin other (Nat.max_le.mp enough).2).1, ideal, (whole patience (Nat.max_le.mp long).1).1]
  discarded := fun earlier later amount =>
    session.discarded_seen name generator earlier later amount

/-- Draws two of three letters from words of which every third is rejected. -/
def limpingLetters : RandomGenerator .narrow where
  stem := 7
  draws := .cycle [0xffffffffffffffff, 0, 0x8000000000000000]
  length := 2
  table := ⟨[65, 66, 67], by decide⟩

def limpingSession : Session (Table .narrow) .narrow where
  store := crowdedTable
  generators _ := .random limpingLetters

theorem random_stream_read_exactly_limping :
    limpingSession.ReadsExactly 0 limpingLetters ∧
      limpingSession.tried 0 [.generate 0, .discard 0 2, .generate 0] = [[65, 66], [66, 65]] := by
  have goesOn : limpingLetters.draws.GoesOn limpingLetters.table.size := by
    rw [GoesOn, Set.infinite_iff_exists_gt]
    intro a
    have zero : limpingLetters.draws.word (3 * a + 1) = 0 := by
      simp [limpingLetters, DrawStream.cycle]
    refine ⟨3 * a + 1, ?_, by omega⟩
    have accepted : (accept? limpingLetters.table.size 0).isSome := by decide +kernel
    rw [← zero] at accepted
    exact accepted
  exact ⟨random_stream_read_exactly limpingSession 0 limpingLetters goesOn, by decide +kernel⟩

end Interner
