import Interner.Table.Basic

namespace Interner

/-- Stands before `node`, or else before the chain of `bucket`. -/
structure Cursor where
  bucket : Nat := 0
  node : Option Key := none
  deriving DecidableEq, Repr

namespace Cursor

variable {w : Width}

def next (table : Table w) (cursor : Cursor) : Except Fault (Option (Hash w × Bytes) × Cursor) :=
  match cursor.node with
  | some key => do
      let node ← table.nodeAt key
      return (some (node.hash, node.content), ⟨cursor.bucket, node.next⟩)
  | none =>
      if inside : cursor.bucket < table.heads.size then
        next table ⟨cursor.bucket + 1, table.heads[cursor.bucket]⟩
      else .ok (none, cursor)
termination_by table.heads.size - cursor.bucket

def take (table : Table w) : Nat → Cursor → Except Fault (List (Hash w × Bytes) × Cursor)
  | 0, cursor => .ok ([], cursor)
  | limit + 1, cursor => do
      match ← cursor.next table with
      | (none, after) => return ([], after)
      | (some entry, after) =>
          let (entries, last) ← take table limit after
          return (entry :: entries, last)

/-- Bounds on how many entries are still to come: at least none, at most all. -/
def remaining (table : Table w) (_ : Cursor) : Nat × Option Nat := (0, some table.size)

end Cursor

namespace Table

variable {w : Width}

def entries (table : Table w) : Except Fault (List (Hash w × Bytes)) := do
  let (entries, _) ← Cursor.take table table.size {}
  return entries

end Table

end Interner
