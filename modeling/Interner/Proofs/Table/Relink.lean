import Interner.Proofs.Table.Splice
import Interner.Table.Growth

/-!
Rebuilding the chains. Keys leave their old chains one by one and join the ends of new ones; at any
moment the keys that have moved are on the new chains, and all others are linked as before.
-/

namespace Interner

open Table (Relinking)

variable {w : Width} {origin nodes : Array (Node w)} {count bucket : Nat} {placed : Nat → List Key}
  {state : Relinking w} {keys : List Key} {key : Key} {node : Node w} {head : Option Key}

/-- The keys among `keys` that belong to `bucket`, in the same order. -/
def goingTo (nodes : Array (Node w)) (count bucket : Nat) (keys : List Key) : List Key :=
  keys.filter fun key => homeAt nodes count key = bucket

/-- The keys in `placed` have moved to the new chains, and no others have. -/
structure Relinked (origin : Array (Node w)) (count : Nat) (placed : Nat → List Key)
    (state : Relinking w) : Prop where
  records : records state.nodes = records origin
  headCount : state.heads.size = count
  linked : ∀ bucket head, state.heads[bucket]? = some head →
    Chain state.nodes head (placed bucket)
  tails : ∀ bucket < count, state.tails[bucket]? = some (placed bucket).getLast?
  routed : ∀ bucket < count, ∀ key ∈ placed bucket, homeAt origin count key = bucket
  waiting : ∀ key, (∀ bucket < count, key ∉ placed bucket) → state.nodes[key]? = origin[key]?

theorem relinked_start (origin : Array (Node w)) (count : Nat) :
    Relinked origin count (fun _ => []) (Relinking.start origin count) where
  records := rfl
  headCount := Array.size_replicate
  linked := by
    intro bucket head present
    obtain ⟨_, rfl⟩ : bucket < count ∧ none = head := by
      simpa [Relinking.start, Array.getElem?_replicate] using present
    exact .nil none
  tails := by
    intro bucket inside
    simp [Relinking.start, inside]
  routed := by simp
  waiting := fun _ _ => rfl

namespace Relinked

def detach (state : Relinking w) (key : Key) (node : Node w) : Relinking w :=
  ⟨state.nodes.setIfInBounds key { node with next := none }, state.heads, state.tails⟩

theorem linked_detach (relinked : Relinked origin count placed state)
    (fresh : ∀ bucket < count, key ∉ placed bucket) (present : state.heads[bucket]? = some head) :
    Chain (detach state key node).nodes head (placed bucket) := by
  have inside : bucket < count := by
    rw [← relinked.headCount]
    exact (Array.getElem?_eq_some_iff.mp present).1
  exact Segment.set_outside (relinked.linked bucket head present) (fresh bucket inside)

theorem records_detach (relinked : Relinked origin count placed state)
    (live : state.nodes[key]? = some node) :
    Interner.records (detach state key node).nodes = Interner.records origin :=
  (records_relink live none).trans relinked.records

def extended (origin : Array (Node w)) (count : Nat) (placed : Nat → List Key) (key : Key) :
    Nat → List Key :=
  Function.update placed (homeAt origin count key) (placed (homeAt origin count key) ++ [key])

theorem extended_append (bucket : Nat) :
    extended origin count placed key bucket ++ goingTo origin count bucket keys =
      placed bucket ++ goingTo origin count bucket (key :: keys) := by
  by_cases target : homeAt origin count key = bucket
  · simp [extended, goingTo, target]
  · simp [extended, goingTo, target, Function.update_of_ne (Ne.symm target)]

theorem mem_extended {other : Key} : other ∈ extended origin count placed key bucket ↔
    other ∈ placed bucket ∨ homeAt origin count key = bucket ∧ other = key := by
  by_cases target : homeAt origin count key = bucket
  · simp [extended, target]
  · simp [extended, target, Function.update_of_ne (Ne.symm target)]

theorem routed_extended (relinked : Relinked origin count placed state) :
    ∀ bucket < count, ∀ other ∈ extended origin count placed key bucket,
      homeAt origin count other = bucket := by
  intro bucket inside other member
  rcases mem_extended.mp member with member | ⟨target, rfl⟩
  · exact relinked.routed bucket inside other member
  · exact target

theorem tails_extended (relinked : Relinked origin count placed state) :
    ∀ bucket < count, (state.tails.setIfInBounds (homeAt origin count key) (some key))[bucket]? =
      some (extended origin count placed key bucket).getLast? := by
  intro bucket inside
  have present := relinked.tails bucket inside
  by_cases target : homeAt origin count key = bucket
  · subst target
    have bound : homeAt origin count key < state.tails.size :=
      (Array.getElem?_eq_some_iff.mp present).1
    rw [Array.getElem?_setIfInBounds_self_of_lt bound, extended, Function.update_self,
      List.getLast?_concat]
  · rw [Array.getElem?_setIfInBounds_ne target, extended, Function.update_of_ne (Ne.symm target)]
    exact present

theorem waited {other : Key} (inside : homeAt origin count key < count)
    (waits : ∀ bucket < count, other ∉ extended origin count placed key bucket) :
    key ≠ other ∧ ∀ bucket < count, other ∉ placed bucket := by
  constructor
  · rintro rfl
    exact waits _ inside (mem_extended.mpr (.inr ⟨rfl, rfl⟩))
  · intro bucket less member
    exact waits bucket less (mem_extended.mpr (.inl member))

theorem append_first (relinked : Relinked origin count placed state)
    (live : origin[key]? = some node) (fresh : ∀ bucket < count, key ∉ placed bucket)
    (inside : homeAt origin count key < count) (empty : placed (homeAt origin count key) = []) :
    ∃ moved, (detach state key node).append (homeAt origin count key) key node.hash = .ok moved ∧
      Relinked origin count (extended origin count placed key) moved := by
  have present : state.nodes[key]? = some node := (relinked.waiting key fresh).trans live
  have bound : key < state.nodes.size := (Array.getElem?_eq_some_iff.mp present).1
  have noTail := relinked.tails _ inside
  rw [empty, List.getLast?_nil] at noTail
  simp only [Relinking.append, detach, noTail]
  refine ⟨_, rfl, ?_⟩
  constructor
  · exact relinked.records_detach present
  · rw [Array.size_setIfInBounds, relinked.headCount]
  · intro bucket head found
    by_cases target : homeAt origin count key = bucket
    · subst target
      rw [Array.getElem?_setIfInBounds_self_of_lt (relinked.headCount ▸ inside)] at found
      cases found
      rw [extended, Function.update_self, empty]
      have written : (state.nodes.setIfInBounds key { node with next := none })[key]? =
          some { node with next := none } := Array.getElem?_setIfInBounds_self_of_lt bound
      exact Segment.cons written (.nil none)
    · rw [Array.getElem?_setIfInBounds_ne target] at found
      rw [extended, Function.update_of_ne (Ne.symm target)]
      exact relinked.linked_detach fresh found
  · exact relinked.tails_extended
  · exact relinked.routed_extended
  · intro other waits
    obtain ⟨different, before⟩ := waited inside waits
    rw [Array.getElem?_setIfInBounds_ne different]
    exact relinked.waiting other before

theorem append_later {front : List Key} {tail : Key} (relinked : Relinked origin count placed state)
    (live : origin[key]? = some node) (fresh : ∀ bucket < count, key ∉ placed bucket)
    (inside : homeAt origin count key < count)
    (filled : placed (homeAt origin count key) = front ++ [tail])
    (distinct : (front ++ [tail]).Nodup) (less : hashAt origin tail < node.hash) :
    ∃ moved, (detach state key node).append (homeAt origin count key) key node.hash = .ok moved ∧
      Relinked origin count (extended origin count placed key) moved := by
  have present : state.nodes[key]? = some node := (relinked.waiting key fresh).trans live
  have bound : key < state.nodes.size := (Array.getElem?_eq_some_iff.mp present).1
  have tailMember : tail ∈ placed (homeAt origin count key) :=
    filled ▸ List.mem_append_right front (List.mem_singleton_self tail)
  -- the moved key loses its link before the old tail is read, which must not be the same node
  have different : tail ≠ key := fun same => fresh _ inside (same ▸ tailMember)
  have someTail := relinked.tails _ inside
  rw [filled, List.getLast?_concat] at someTail
  obtain ⟨head, headPresent⟩ : ∃ head, state.heads[homeAt origin count key]? = some head :=
    ⟨_, Array.getElem?_eq_getElem (relinked.headCount ▸ inside)⟩
  have chain : Chain (detach state key node).nodes head (placed (homeAt origin count key)) :=
    relinked.linked_detach fresh headPresent
  rw [filled] at chain
  rcases chain.last_live with ⟨last, lastLive, _⟩
  have ascending : last.hash < node.hash := by
    rwa [← hashAt_of_live lastLive, hashAt_congr (relinked.records_detach present)]
  simp only [Relinking.append, detach, someTail] at lastLive ⊢
  simp only [lastLive, if_pos ascending]
  refine ⟨_, rfl, ?_⟩
  constructor
  · exact (records_relink lastLive (some key)).trans (relinked.records_detach present)
  · exact relinked.headCount
  · intro bucket head' found
    by_cases target : homeAt origin count key = bucket
    · subst target
      rw [headPresent] at found
      cases found
      rw [extended, Function.update_self, filled]
      apply Segment.append (chain.redirect distinct lastLive (some key))
      have written : (state.nodes.setIfInBounds key { node with next := none })[key]? =
          some { node with next := none } := Array.getElem?_setIfInBounds_self_of_lt bound
      rw [← Array.getElem?_setIfInBounds_ne different] at written
      exact Segment.cons written (.nil none)
    · have less : bucket < count := by
        rw [← relinked.headCount]
        exact (Array.getElem?_eq_some_iff.mp found).1
      -- the old tail gets a link, but it is on no chain but its own
      have notTail : tail ∉ placed bucket := by
        intro member
        rw [← relinked.routed bucket less tail member,
          relinked.routed _ inside tail tailMember] at target
        exact target rfl
      rw [extended, Function.update_of_ne (Ne.symm target)]
      exact Segment.set_outside (relinked.linked_detach fresh found) notTail
  · exact relinked.tails_extended
  · exact relinked.routed_extended
  · intro other waits
    obtain ⟨notKey, before⟩ := waited inside waits
    have notTail : tail ≠ other := fun same => before _ inside (same ▸ tailMember)
    rw [Array.getElem?_setIfInBounds_ne notTail, Array.getElem?_setIfInBounds_ne notKey]
    exact relinked.waiting other before

/-- A key of the right order joins its new chain, whatever that chain holds. -/
theorem append_eq (relinked : Relinked origin count placed state)
    (live : origin[key]? = some node) (fresh : ∀ bucket < count, key ∉ placed bucket)
    (inside : homeAt origin count key < count)
    (ordered : Increasing origin (placed (homeAt origin count key) ++ [key])) :
    ∃ moved, (detach state key node).append (homeAt origin count key) key node.hash = .ok moved ∧
      Relinked origin count (extended origin count placed key) moved := by
  rcases List.eq_nil_or_concat (placed (homeAt origin count key)) with
    empty | ⟨front, tail, filled⟩
  · exact relinked.append_first live fresh inside empty
  · rw [List.concat_eq_append] at filled
    rw [filled] at ordered
    obtain ⟨lower, _, across⟩ := List.pairwise_append.mp ordered
    have less := across tail (List.mem_append_right front (List.mem_singleton_self tail)) key
      (List.mem_singleton_self key)
    rw [hashAt_of_live live] at less
    exact relinked.append_later live fresh inside filled (Increasing.nodup lower) less

theorem moveChain_eq (relinked : Relinked origin count placed state) (positive : 0 < count)
    (chain : Chain origin head keys) {limit : Nat} (enough : keys.length ≤ limit)
    (distinct : keys.Nodup) (fresh : ∀ key ∈ keys, ∀ bucket < count, key ∉ placed bucket)
    (ordered : ∀ bucket < count,
      Increasing origin (placed bucket ++ goingTo origin count bucket keys)) :
    ∃ moved, Relinking.moveChain count limit head state = .ok moved ∧
      Relinked origin count (fun bucket => placed bucket ++ goingTo origin count bucket keys)
        moved := by
  -- each key moves on from any state that `Relinked` admits, so `placed` must stay general
  induction keys generalizing head limit placed state with
  | nil =>
      cases chain
      refine ⟨state, ?_, ?_⟩
      · cases limit <;> rfl
      · simpa [goingTo] using relinked
  | cons key keys ih =>
      cases chain with
      | @cons _ node _ _ live rest =>
          rcases exists_left enough with ⟨left, rfl, enoughLeft⟩
          obtain ⟨notLater, distinctLater⟩ := List.nodup_cons.mp distinct
          have inside : homeAt origin count key < count := Nat.mod_lt _ positive
          have freshKey := fresh key List.mem_cons_self
          have present : state.nodes[key]? = some node := (relinked.waiting key freshKey).trans live
          have next : Increasing origin (placed (homeAt origin count key) ++ [key]) := by
            have whole := ordered _ inside
            rw [← extended_append, extended, Function.update_self] at whole
            exact (List.pairwise_append.mp whole).1
          obtain ⟨appended, appends, relinkedNext⟩ :=
            relinked.append_eq live freshKey inside next
          have destination : Table.bucketAmong node.hash count = .ok (homeAt origin count key) := by
            simp only [Table.bucketAmong, Hash.bucket?, if_neg (Nat.ne_of_gt positive), homeAt,
              hashAt_of_live live]
          obtain ⟨moved, moves, relinkedLast⟩ := ih relinkedNext rest enoughLeft distinctLater
            (by
              intro other member bucket less inExtended
              rcases mem_extended.mp inExtended with before | ⟨_, rfl⟩
              · exact fresh other (List.mem_cons_of_mem key member) bucket less before
              · exact notLater member)
            (by
              intro bucket less
              rw [extended_append]
              exact ordered bucket less)
          refine ⟨moved, ?_, ?_⟩
          · simp only [detach] at appends
            simp only [Relinking.moveChain, present, destination, bind, Except.bind, appends, moves]
          · simpa only [extended_append] using relinkedLast

theorem moveChains_eq (relinked : Relinked origin count placed state) (positive : 0 < count)
    {heads : List (Option Key)} {chains : List (List Key)}
    (linked : List.Forall₂ (Chain origin) heads chains) {limit : Nat}
    (enough : ∀ keys ∈ chains, keys.length ≤ limit) (distinct : chains.flatten.Nodup)
    (fresh : ∀ key ∈ chains.flatten, ∀ bucket < count, key ∉ placed bucket)
    (ordered : ∀ bucket < count,
      Increasing origin (placed bucket ++ goingTo origin count bucket chains.flatten)) :
    ∃ moved, heads.foldlM (fun state head => Relinking.moveChain count limit head state) state =
        .ok moved ∧
      Relinked origin count
        (fun bucket => placed bucket ++ goingTo origin count bucket chains.flatten) moved := by
  induction linked generalizing placed state with
  | nil => exact ⟨state, rfl, by simpa [goingTo] using relinked⟩
  | @cons head keys heads chains chain _ ih =>
      rw [List.flatten_cons] at distinct fresh ordered
      obtain ⟨distinctHere, distinctLater, apart⟩ := List.nodup_append.mp distinct
      have parts : ∀ bucket, placed bucket ++ goingTo origin count bucket (keys ++ chains.flatten) =
          placed bucket ++ goingTo origin count bucket keys ++
            goingTo origin count bucket chains.flatten := by
        intro bucket
        calc
          placed bucket ++ goingTo origin count bucket (keys ++ chains.flatten) =
              placed bucket ++ (goingTo origin count bucket keys ++
                goingTo origin count bucket chains.flatten) := by
            rw [goingTo, List.filter_append]
            rfl
          _ = placed bucket ++ goingTo origin count bucket keys ++
              goingTo origin count bucket chains.flatten := (List.append_assoc _ _ _).symm
      simp only [parts] at ordered
      obtain ⟨next, moves, relinkedNext⟩ := relinked.moveChain_eq positive chain
        (enough keys List.mem_cons_self) distinctHere
        (fun key member => fresh key (List.mem_append_left _ member))
        (fun bucket less => (List.pairwise_append.mp (ordered bucket less)).1)
      -- no key of the later chains has moved: it was not placed before, and it is not on this chain
      obtain ⟨moved, movesLater, relinkedLast⟩ := ih relinkedNext
        (fun other member => enough other (List.mem_cons_of_mem keys member)) distinctLater
        (by
          intro key member bucket less inPlaced
          rcases List.mem_append.mp inPlaced with before | going
          · exact fresh key (List.mem_append_right _ member) bucket less before
          · exact apart key (List.mem_of_mem_filter going) key member rfl)
        ordered
      refine ⟨moved, ?_, ?_⟩
      · rw [List.foldlM_cons, moves]
        exact movesLater
      · simpa only [List.flatten_cons, parts] using relinkedLast

end Relinked

end Interner
