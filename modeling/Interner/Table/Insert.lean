import Interner.Store.Basic
import Interner.Table.Growth

/-!
Insertion into a table. Room is made first, whatever the outcome; the first string stored under a
hash stays.
-/

namespace Interner.Table

variable {w : Width}

def statusOf (same : Bool) : Status := if same then .old else .collision

def insert (table : Table w) (hash : Hash w) (content : Bytes) :
    Except Fault (Step (Table w) w Status) := do
  let ⟨table, events⟩ ← table.reserve
  let bucket ← table.bucketOf hash
  match ← table.position bucket hash with
  | .occupied key =>
      let node ← table.nodeAt key
      return ⟨table, statusOf (node.content == content), events⟩
  | .vacant after =>
      let added ← table.add bucket after hash content
      return ⟨added, .new, events⟩

/-- Compares `stored` with `head` followed by `suffix`, without joining the two. -/
def joins (stored head suffix : Bytes) : Bool :=
  stored.length == head.length + suffix.length && head.isPrefixOf stored &&
    stored.drop head.length == suffix

def insertExtension (table : Table w) (hash stem : Hash w) (suffix : Bytes) :
    Except Fault (Step (Table w) w (Except (StoreError w) Status)) := do
  let ⟨table, events⟩ ← table.reserve
  let bucket ← table.bucketOf hash
  let position ← table.position bucket hash
  match ← table.find stem with
  | none => return ⟨table, .error (.unknownStem stem), events⟩
  | some found =>
      let head ← table.nodeAt found
      match position with
      | .occupied key =>
          let node ← table.nodeAt key
          return ⟨table, .ok (statusOf (joins node.content head.content suffix)), events⟩
      | .vacant after =>
          let added ← table.add bucket after hash (head.content ++ suffix)
          return ⟨added, .ok .new, events⟩

/-- A table in good order never faults; a broken one is given up for an empty one. Nothing here holds
on to the table while it changes, so its arrays change in place. -/
def settle {α : Type} (answer : α) (result : Except Fault (Step (Table w) w α)) :
    Step (Table w) w α :=
  match result with
  | .ok step => step
  | .error _ => ⟨standard, answer, []⟩

instance : IdStore (Table w) w where
  insert table hash content := settle .collision (table.insert hash content)
  lookupTerminated table hash :=
    match table.lookup hash with
    | .ok found => found
    | .error _ => none
  insertExtension table hash stem suffix :=
    settle (.ok .collision) (table.insertExtension hash stem suffix)

end Interner.Table
