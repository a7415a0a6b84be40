import Interner.Table.Basic

/-!
Chains threaded through an arena. A segment lists the nodes met on the way from one link to another;
a chain is a segment that ends. Only the `next` fields of the nodes on the way matter to it.
-/

namespace Interner

variable {w : Width}

def Node.record (node : Node w) : Hash w × Bytes := (node.hash, node.bytes)

def records (nodes : Array (Node w)) : List (Hash w × Bytes) := nodes.toList.map Node.record

/-- The hash under a key; a key that is not live reads as zero. -/
def hashAt (nodes : Array (Node w)) (key : Key) : Hash w := (nodes[key]?.map Node.hash).getD 0

/-- Following `next` from `start` meets exactly `keys` and arrives at `stop`. -/
inductive Segment (nodes : Array (Node w)) : Option Key → List Key → Option Key → Prop where
  | nil (start : Option Key) : Segment nodes start [] start
  | cons {key : Key} {node : Node w} {keys : List Key} {stop : Option Key}
      (live : nodes[key]? = some node) (rest : Segment nodes node.next keys stop) :
      Segment nodes (some key) (key :: keys) stop

/-- Following `next` from `head` meets exactly `keys` and ends there. -/
def Chain (nodes : Array (Node w)) (head : Option Key) (keys : List Key) : Prop :=
  Segment nodes head keys none

variable {nodes changed : Array (Node w)} {start middle stop : Option Key} {key last : Key}
  {keys front back : List Key} {node found : Node w}

@[simp] theorem length_records (nodes : Array (Node w)) : (records nodes).length = nodes.size := by
  simp [records]

theorem getElem?_records (nodes : Array (Node w)) (key : Key) :
    (records nodes)[key]? = nodes[key]?.map Node.record := by
  simp [records]

theorem records_push (nodes : Array (Node w)) (node : Node w) :
    records (nodes.push node) = records nodes ++ [node.record] := by
  simp [records]

theorem records_relink (live : nodes[key]? = some node) (target : Option Key) :
    records (nodes.setIfInBounds key { node with next := target }) = records nodes := by
  apply List.ext_getElem?
  intro other
  rw [getElem?_records, getElem?_records, Array.getElem?_setIfInBounds]
  by_cases same : key = other
  · subst other
    have inside : key < nodes.size := (Array.getElem?_eq_some_iff.mp live).1
    rw [if_pos rfl, if_pos inside, live]
    rfl
  · rw [if_neg same]

theorem hashAt_of_live (live : nodes[key]? = some node) : hashAt nodes key = node.hash := by
  simp [hashAt, live]

theorem hashAt_eq (nodes : Array (Node w)) (key : Key) :
    hashAt nodes key = ((records nodes)[key]?.map Prod.fst).getD 0 := by
  rw [getElem?_records, Option.map_map]
  rfl

theorem hashAt_congr (same : records changed = records nodes) (key : Key) :
    hashAt changed key = hashAt nodes key := by
  rw [hashAt_eq, hashAt_eq, same]

theorem size_congr (same : records changed = records nodes) : changed.size = nodes.size := by
  simpa using congrArg List.length same

namespace Segment

theorem append (first : Segment nodes start front middle) (second : Segment nodes middle back stop) :
    Segment nodes start (front ++ back) stop := by
  induction first with
  | nil => exact second
  | cons live _ ih => exact .cons live (ih second)

theorem split (whole : Segment nodes start (front ++ back) stop) :
    ∃ middle, Segment nodes start front middle ∧ Segment nodes middle back stop := by
  induction front generalizing start with
  | nil => exact ⟨start, .nil start, whole⟩
  | cons key front ih =>
      cases whole with
      | cons live rest =>
          obtain ⟨middle, first, second⟩ := ih rest
          exact ⟨middle, .cons live first, second⟩

theorem start_eq (segment : Segment nodes start [] stop) : start = stop := by
  cases segment
  rfl

theorem unique (segment : Segment nodes start keys stop) (ends : stop = none)
    (other : Segment nodes start back none) : keys = back := by
  induction segment generalizing back with
  | nil start =>
      subst ends
      cases other
      rfl
  | cons live _ ih =>
      cases other with
      | cons present rest =>
          rw [live] at present
          cases present
          rw [ih ends rest]

theorem live (segment : Segment nodes start keys stop) (member : key ∈ keys) : key < nodes.size := by
  induction segment with
  | nil => cases member
  | cons live _ ih =>
      rcases List.mem_cons.mp member with rfl | member
      · exact (Array.getElem?_eq_some_iff.mp live).1
      · exact ih member

theorem congr (segment : Segment nodes start keys stop)
    (same : ∀ key ∈ keys, changed[key]?.map Node.next = nodes[key]?.map Node.next) :
    Segment changed start keys stop := by
  induction segment with
  | nil start => exact .nil start
  | @cons key node keys stop live _ ih =>
      have link : changed[key]?.map Node.next = some node.next := by
        rw [same key List.mem_cons_self, live, Option.map_some]
      obtain ⟨written, present, next⟩ := Option.map_eq_some_iff.mp link
      apply Segment.cons present
      rw [next]
      exact ih fun other member => same other (List.mem_cons_of_mem key member)

theorem set_outside (segment : Segment nodes start keys stop) (outside : key ∉ keys) :
    Segment (nodes.setIfInBounds key node) start keys stop := by
  apply segment.congr
  intro other member
  have different : key ≠ other := fun same => outside (same ▸ member)
  rw [Array.getElem?_setIfInBounds_ne different]

theorem push (segment : Segment nodes start keys stop) : Segment (nodes.push node) start keys stop := by
  apply segment.congr
  intro other member
  rw [Array.getElem?_push, if_neg (Nat.ne_of_lt (segment.live member))]

/-- Redirecting the last node of a segment changes where the segment arrives, and nothing else. -/
theorem redirect (segment : Segment nodes start (front ++ [last]) stop)
    (distinct : (front ++ [last]).Nodup) (live : nodes[last]? = some found) (target : Option Key) :
    Segment (nodes.setIfInBounds last { found with next := target }) start (front ++ [last]) target := by
  have outside : last ∉ front := fun member =>
    (List.nodup_append.mp distinct).2.2 last member last (List.mem_singleton_self last) rfl
  have inside : last < nodes.size := (Array.getElem?_eq_some_iff.mp live).1
  rcases segment.split with ⟨middle, first, second⟩
  cases second with
  | cons _ _ =>
      have written : (nodes.setIfInBounds last { found with next := target })[last]? =
          some { found with next := target } := Array.getElem?_setIfInBounds_self_of_lt inside
      apply (first.set_outside outside).append
      exact .cons written (.nil target)

end Segment

end Interner
