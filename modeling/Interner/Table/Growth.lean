import Interner.Event
import Interner.Table.Basic

/-!
Growth of a table. The bucket array doubles, and every node moves to the tail of its new chain;
each new chain is fed by one old chain, so it stays in order.
-/

namespace Interner.Table

variable {w : Width}

/-- A table whose chains are being taken apart and built anew. -/
structure Relinking (w : Width) where
  nodes : Array (Node w)
  heads : Array (Option Key)
  tails : Array (Option Key)

namespace Relinking

def start (nodes : Array (Node w)) (count : Nat) : Relinking w :=
  ⟨nodes, Array.replicate count none, Array.replicate count none⟩

def append (state : Relinking w) (bucket : Nat) (key : Key) (hash : Hash w) :
    Except Fault (Relinking w) :=
  match state.tails[bucket]? with
  | none => .error (.bucketOutOfRange bucket)
  | some none =>
      .ok ⟨state.nodes, state.heads.setIfInBounds bucket (some key),
        state.tails.setIfInBounds bucket (some key)⟩
  | some (some tail) =>
      match state.nodes[tail]? with
      | none => .error (.missingNode tail)
      | some last =>
          if last.hash < hash then
            .ok ⟨state.nodes.setIfInBounds tail { last with next := some key }, state.heads,
              state.tails.setIfInBounds bucket (some key)⟩
          else .error (.unsortedChain key)

/-- Takes the nodes of one old chain in order and appends each to its new chain. -/
def moveChain (count : Nat) : Nat → Option Key → Relinking w → Except Fault (Relinking w)
  | _, none, state => .ok state
  | 0, some _, _ => .error .endlessChain
  | left + 1, some key, state =>
      match state.nodes[key]? with
      | none => .error (.missingNode key)
      | some node => do
          let detached : Relinking w :=
            ⟨state.nodes.setIfInBounds key { node with next := none }, state.heads, state.tails⟩
          let bucket ← bucketAmong node.hash count
          let appended ← detached.append bucket key node.hash
          moveChain count left node.next appended

end Relinking

structure Grown (w : Width) where
  table : Table w
  events : List (Event w)

def rehash (table : Table w) : Except Fault (Table w) := do
  let count := 2 * table.bucketCount
  let moved ← table.heads.toList.foldlM
    (fun state head => Relinking.moveChain count table.size head state)
    (Relinking.start table.nodes count)
  return ⟨moved.nodes, moved.heads, table.maxLoadFactor,
    growthThreshold count table.maxLoadFactor⟩

def rehashEvent (table : Table w) : Event w :=
  .rehashed table.bucketCount (2 * table.bucketCount) table.size

/-- Doubles until one more string stays below the threshold, at most `doublings` times. -/
def reserveWithin : Nat → Table w → Except Fault (Grown w)
  | 0, table => .ok ⟨table, []⟩
  | doublings + 1, table =>
      if table.threshold ≤ table.size + 1 then do
        let event := table.rehashEvent
        let doubled ← table.rehash
        let grown ← reserveWithin doublings doubled
        return ⟨grown.table, event :: grown.events⟩
      else .ok ⟨table, []⟩

/-- A bucket count is a 64-bit number, so no table doubles more often than this. -/
def maxDoublings : Nat := 64

def reserve (table : Table w) : Except Fault (Grown w) := reserveWithin maxDoublings table

end Interner.Table
