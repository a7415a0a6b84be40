import Interner.Store.Plain
import Interner.Table.Insert

namespace Interner

inductive Backend (w : Width) where
  | table (table : Table w)
  | plain (store : Plain w)
  | disabled (store : Disabled w)
  | refusing (store : Refusing w)
  /-- One lock around another store, taken for each single operation. -/
  | locked (inner : Backend w)

namespace Backend

variable {w : Width}

def insert : Backend w → Hash w → Bytes → Step (Backend w) w Status
  | table store, hash, content => (IdStore.insert store hash content).mapStore table
  | plain store, hash, content => (IdStore.insert store hash content).mapStore plain
  | disabled store, hash, content => (IdStore.insert store hash content).mapStore disabled
  | refusing store, hash, content => (IdStore.insert store hash content).mapStore refusing
  | locked inner, hash, content => (inner.insert hash content).mapStore locked

def insertExtension : Backend w → Hash w → Hash w → Bytes →
    Step (Backend w) w (Except (StoreError w) Status)
  | table store, hash, stem, suffix =>
      (IdStore.insertExtension store hash stem suffix).mapStore table
  | plain store, hash, stem, suffix =>
      (IdStore.insertExtension store hash stem suffix).mapStore plain
  | disabled store, hash, stem, suffix =>
      (IdStore.insertExtension store hash stem suffix).mapStore disabled
  | refusing store, hash, stem, suffix =>
      (IdStore.insertExtension store hash stem suffix).mapStore refusing
  | locked inner, hash, stem, suffix => (inner.insertExtension hash stem suffix).mapStore locked

def lookupTerminated : Backend w → Hash w → Option Bytes
  | table store, hash => IdStore.lookupTerminated store hash
  | plain store, hash => IdStore.lookupTerminated store hash
  | disabled store, hash => IdStore.lookupTerminated store hash
  | refusing store, hash => IdStore.lookupTerminated store hash
  | locked inner, hash => inner.lookupTerminated hash

instance : IdStore (Backend w) w where
  insert := insert
  lookupTerminated := lookupTerminated
  insertExtension := insertExtension

def table? : Backend w → Option (Table w)
  | table store => some store
  | locked inner => inner.table?
  | _ => none

def unlock? : Backend w → Option (Backend w)
  | locked inner => some inner
  | _ => none

end Backend

end Interner
