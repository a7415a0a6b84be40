import Interner.Proofs.Table.Rehash
import Interner.Table.Cursor

namespace Interner

variable {w : Width}

def Node.entry (node : Node w) : Hash w × Bytes := (node.hash, node.content)

def entryAt (nodes : Array (Node w)) (key : Key) : Option (Hash w × Bytes) :=
  nodes[key]?.map Node.entry

theorem entryAt_of_live {nodes : Array (Node w)} {key : Key} {node : Node w}
    (live : nodes[key]? = some node) : entryAt nodes key = some node.entry := by
  rw [entryAt, live, Option.map_some]

namespace Cursor

variable {table : Table w} {chains : Nat → List Key} {cursor : Cursor} {keys : List Key}
  {entries : List (Hash w × Bytes)}

def Standing (table : Table w) (cursor : Cursor) : Prop := ∃ keys, Chain table.nodes cursor.node keys

theorem standing_start (table : Table w) : Standing table {} := ⟨[], .nil none⟩

/-- The cursor has `keys` before it: what is left of its chain, and the chains behind that one. -/
def Ahead (table : Table w) (chains : Nat → List Key) (cursor : Cursor) (keys : List Key) : Prop :=
  ∃ here, Chain table.nodes cursor.node here ∧
    keys = here ++ ((Arranged.listed table chains).drop cursor.bucket).flatten

theorem length_listed (table : Table w) (chains : Nat → List Key) :
    (Arranged.listed table chains).length = table.bucketCount := by
  simp [Arranged.listed]

theorem ahead_start (table : Table w) (chains : Nat → List Key) :
    Ahead table chains {} (Arranged.listed table chains).flatten :=
  ⟨[], .nil none, rfl⟩

theorem Ahead.live (ahead : cursor.Ahead table chains keys) (arranged : Arranged table chains)
    {key : Key} (member : key ∈ keys) : key < table.size := by
  obtain ⟨here, chain, rfl⟩ := ahead
  rcases List.mem_append.mp member with inChain | behind
  · exact chain.live inChain
  · obtain ⟨part, inParts, inPart⟩ := List.mem_flatten.mp behind
    obtain ⟨bucket, inside, rfl⟩ := Arranged.mem_listed (List.mem_of_mem_drop inParts)
    exact arranged.live_of_mem inside inPart

theorem next_ahead (arranged : Arranged table chains) (ahead : cursor.Ahead table chains keys) :
    ∃ after, cursor.next table = .ok (keys.head?.bind (entryAt table.nodes), after) ∧
      after.Ahead table chains keys.tail := by
  induction cursor using Cursor.next.induct table with
  | case1 cursor key stands =>
      obtain ⟨here, chain, rfl⟩ := ahead
      rw [stands] at chain
      cases chain with
      | @cons _ node here _ live rest =>
          rw [Cursor.next, stands]
          simp only [nodeAt_live live, bind, Except.bind, pure, Except.pure, List.cons_append,
            List.head?_cons, Option.bind_some, entryAt_of_live live, List.tail_cons]
          exact ⟨_, rfl, here, rest, rfl⟩
  | case2 cursor stands inside ih =>
      -- the chain is used up, and the next bucket begins
      obtain ⟨here, chain, rfl⟩ := ahead
      rw [stands] at chain
      cases chain
      rw [Cursor.next, stands]
      simp only [dif_pos inside]
      have listed : cursor.bucket < (Arranged.listed table chains).length := by
        rw [length_listed]
        exact inside
      refine ih ⟨chains cursor.bucket,
        arranged.linked _ _ (Array.getElem?_eq_getElem inside), ?_⟩
      rw [List.drop_eq_getElem_cons listed]
      simp [Arranged.listed]
  | case3 cursor stands outside =>
      obtain ⟨here, chain, rfl⟩ := ahead
      rw [stands] at chain
      cases chain
      have past : (Arranged.listed table chains).drop cursor.bucket = [] := by
        apply List.drop_eq_nil_of_le
        rw [length_listed]
        exact Nat.not_lt.mp outside
      rw [Cursor.next, stands, past]
      simp only [dif_neg outside]
      refine ⟨cursor, rfl, [], ?_, ?_⟩
      · rw [stands]
        exact .nil none
      · rw [past]
        rfl

/-- The cursor has `entries` before it: those of the keys ahead, none of which is left out. -/
def Awaits (table : Table w) (chains : Nat → List Key) (cursor : Cursor)
    (entries : List (Hash w × Bytes)) : Prop :=
  ∃ keys, Ahead table chains cursor keys ∧ entries = keys.filterMap (entryAt table.nodes)

theorem next_awaits (arranged : Arranged table chains)
    (awaits : cursor.Awaits table chains entries) :
    ∃ after, cursor.next table = .ok (entries.head?, after) ∧
      after.Awaits table chains entries.tail := by
  rcases awaits with ⟨keys, ahead, rfl⟩
  rcases next_ahead arranged ahead with ⟨after, advances, onward⟩
  cases keys with
  | nil => exact ⟨after, advances, [], onward, rfl⟩
  | cons key keys =>
      have live := ahead.live arranged List.mem_cons_self
      have found := entryAt_of_live (Array.getElem?_eq_getElem live)
      rw [List.head?_cons, Option.bind_some, found] at advances
      rw [List.filterMap_cons_some found]
      exact ⟨after, advances, keys, onward, rfl⟩

theorem take_awaits (arranged : Arranged table chains) (limit : Nat)
    (awaits : cursor.Awaits table chains entries) :
    ∃ after, Cursor.take table limit cursor = .ok (entries.take limit, after) ∧
      after.Awaits table chains (entries.drop limit) := by
  induction limit generalizing cursor entries with
  | zero => exact ⟨cursor, rfl, awaits⟩
  | succ limit ih =>
      rcases next_awaits arranged awaits with ⟨after, advances, onward⟩
      cases entries with
      | nil =>
          simp only [Cursor.take, advances, bind, Except.bind]
          exact ⟨after, rfl, onward⟩
      | cons entry entries =>
          rcases ih onward with ⟨last, takes, rest⟩
          simp only [Cursor.take, advances, takes, bind, Except.bind, pure, Except.pure,
            List.head?_cons, List.tail_cons]
          exact ⟨last, rfl, rest⟩

theorem take_eq (arranged : Arranged table chains) (limit : Nat) (standing : cursor.Standing table) :
    ∃ taken, Cursor.take table limit cursor = .ok taken := by
  rcases standing with ⟨here, chain⟩
  rcases take_awaits arranged limit ⟨_, ⟨here, chain, rfl⟩, rfl⟩ with ⟨after, takes, _⟩
  exact ⟨_, takes⟩

end Cursor

end Interner
