import Interner.Store.Basic
import Std.Data.HashMap

namespace Interner

/-- A map from hashes to contents; every lookup shows `terminator` after the content. -/
structure Plain (w : Width) where
  entries : Std.HashMap (Hash w) Bytes := ∅
  terminator : Bytes := [0]

namespace Plain

variable {w : Width}

def size (store : Plain w) : Nat := store.entries.size

def find? (store : Plain w) (hash : Hash w) : Option Bytes := store.entries[hash]?

def insert (store : Plain w) (hash : Hash w) (content : Bytes) : Step (Plain w) w Status :=
  match store.find? hash with
  | none => ⟨{ store with entries := store.entries.insert hash content }, .new, []⟩
  | some stored => ⟨store, if stored = content then .old else .collision, []⟩

theorem find?_insert (store : Plain w) (hash other : Hash w) (content : Bytes)
    (absent : store.find? hash = none) :
    (store.insert hash content).store.find? other =
      if hash = other then some content else store.find? other := by
  have missing : store.entries[hash]? = none := absent
  simp [insert, find?, missing, Std.HashMap.getElem?_insert]

theorem size_insert (store : Plain w) (hash : Hash w) (content : Bytes)
    (absent : store.find? hash = none) :
    (store.insert hash content).store.size = store.size + 1 := by
  have missing : store.entries[hash]? = none := absent
  have outside : hash ∉ store.entries := fun inside => by
    simp [Std.HashMap.getElem?_eq_some_getElem inside] at missing
  simp [insert, find?, size, Std.HashMap.size_insert, outside]

instance : IdStore (Plain w) w where
  insert := insert
  lookupTerminated store hash := (store.find? hash).map (· ++ store.terminator)

end Plain

structure Disabled (w : Width) where
  deriving DecidableEq, Repr

namespace Disabled

variable {w : Width}

def sentinel : Bytes := Bytes.ofAscii "string_id database disabled"

instance : IdStore (Disabled w) w where
  insert store _ _ := ⟨store, .new, []⟩
  lookupTerminated _ _ := some (Bytes.terminated sentinel)
  insertExtension store _ _ _ := ⟨store, .ok .new, []⟩

end Disabled

structure Refusing (w : Width) where
  deriving DecidableEq, Repr

namespace Refusing

variable {w : Width}

instance : IdStore (Refusing w) w where
  insert store _ _ := ⟨store, .collision, []⟩
  lookupTerminated _ _ := none
  insertExtension store _ _ _ := ⟨store, .ok .collision, []⟩

end Refusing

end Interner
