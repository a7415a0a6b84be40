import Interner.Store.Plain

/-!
Stores in which the first string under a hash stays. Such a store is seen through its lookups and
its size alone, so programs of store operations can be reasoned about without knowing what it is.
-/

namespace Interner

variable {σ τ : Type} {w : Width}

/-- What a content meets under a hash that holds `stored`. -/
def statusUnder (stored : Option Bytes) (content : Bytes) : Status :=
  match stored with
  | none => .new
  | some kept => if kept = content then .old else .collision

theorem statusUnder_eq_new {stored : Option Bytes} {content : Bytes} :
    statusUnder stored content = .new ↔ stored = none := by
  cases stored with
  | none => simp [statusUnder]
  | some kept =>
      rw [statusUnder]
      split <;> simp

theorem statusUnder_eq_collision {kept content : Bytes} :
    statusUnder (some kept) content = .collision ↔ kept ≠ content := by
  rw [statusUnder]
  split
  · rename_i same
    simp [same]
  · rename_i differs
    simp [differs]

structure SameEntries [IdStore σ w] [IdStore τ w] (size : σ → Nat) (count : τ → Nat) (first : σ)
    (second : τ) : Prop where
  lookup : ∀ hash : Hash w, IdStore.lookup first hash = IdStore.lookup second hash
  size : size first = count second

namespace SameEntries

variable [IdStore σ w] {size : σ → Nat} {first second third : σ}

theorem refl (store : σ) : SameEntries size size store store := ⟨fun _ => rfl, rfl⟩

theorem trans (earlier : SameEntries size size first second)
    (later : SameEntries size size second third) : SameEntries size size first third :=
  ⟨fun hash => (earlier.lookup hash).trans (later.lookup hash), earlier.size.trans later.size⟩

end SameEntries

/-- `after` is what `before` becomes when `content` is offered under `hash`. -/
structure Offered [IdStore σ w] (size : σ → Nat) (before after : σ) (hash : Hash w)
    (content : Bytes) : Prop where
  lookup : ∀ other, IdStore.lookup after other =
    if other = hash then some ((IdStore.lookup before hash).getD content)
    else IdStore.lookup before other
  size : size after = size before + if IdStore.lookup before hash = none then 1 else 0

/-- The laws of such a store, for states that are `good`. -/
structure FirstWins [IdStore σ w] (good : σ → Prop) (size : σ → Nat) : Prop where
  terminated : ∀ {store : σ} (_ : good store) (hash : Hash w),
    IdStore.lookupTerminated store hash = (IdStore.lookup store hash).map Bytes.terminated
  insert : ∀ {store : σ} (_ : good store) (hash : Hash w) (content : Bytes),
    good (IdStore.insert store hash content).store ∧
      (IdStore.insert store hash content).answer =
        statusUnder (IdStore.lookup store hash) content ∧
      Offered size store (IdStore.insert store hash content).store hash content
  extend : ∀ {store : σ} (_ : good store) (hash : Hash w) {stem : Hash w} {head : Bytes}
    (suffix : Bytes) (_ : IdStore.lookup store stem = some head),
    good (IdStore.insertExtension store hash stem suffix).store ∧
      (IdStore.insertExtension store hash stem suffix).answer =
        .ok (statusUnder (IdStore.lookup store hash) (head ++ suffix)) ∧
      Offered size store (IdStore.insertExtension store hash stem suffix).store hash
        (head ++ suffix)
  refuse : ∀ {store : σ} (_ : good store) (hash : Hash w) {stem : Hash w} (suffix : Bytes)
    (_ : IdStore.lookup store stem = none),
    good (IdStore.insertExtension store hash stem suffix).store ∧
      (IdStore.insertExtension store hash stem suffix).answer = .error (.unknownStem stem) ∧
      SameEntries size size (IdStore.insertExtension store hash stem suffix).store store

namespace Plain

theorem lookup_eq (store : Plain w) (terminator : store.terminator = [0]) (hash : Hash w) :
    IdStore.lookup store hash = store.find? hash := by
  simp only [IdStore.lookup, IdStore.lookupTerminated, terminator]
  cases store.find? hash with
  | none => rfl
  | some kept => exact congrArg some (Bytes.withoutLast_terminated kept)

theorem insert_terminator (store : Plain w) (hash : Hash w) (content : Bytes) :
    (store.insert hash content).store.terminator = store.terminator := by
  rw [insert]
  split <;> rfl

theorem insert_answer (store : Plain w) (hash : Hash w) (content : Bytes) :
    (store.insert hash content).answer = statusUnder (store.find? hash) content := by
  rw [insert]
  split
  · rename_i absent
    rw [absent]
    rfl
  · rename_i kept present
    rw [present]
    rfl

theorem insert_kept {store : Plain w} {hash : Hash w} {kept : Bytes} (content : Bytes)
    (present : store.find? hash = some kept) : (store.insert hash content).store = store := by
  simp only [insert, present]

theorem offered (store : Plain w) (terminator : store.terminator = [0]) (hash : Hash w)
    (content : Bytes) : Offered size store (store.insert hash content).store hash content := by
  have after : (store.insert hash content).store.terminator = [0] :=
    (store.insert_terminator hash content).trans terminator
  constructor
  · intro other
    rw [lookup_eq _ after, lookup_eq _ terminator, lookup_eq _ terminator]
    cases present : store.find? hash with
    | none =>
        rw [find?_insert store hash other content present]
        simp only [eq_comm, Option.getD_none]
    | some kept =>
        rw [insert_kept content present, Option.getD_some]
        split
        · rename_i same
          rw [same, present]
        · rfl
  · rw [lookup_eq _ terminator]
    cases present : store.find? hash with
    | none => simpa using size_insert store hash content present
    | some kept => simp [insert_kept content present]

theorem extend_known (store : Plain w) (hash : Hash w) {stem : Hash w} {head : Bytes}
    (suffix : Bytes) (known : IdStore.lookup store stem = some head) :
    IdStore.insertExtension store hash stem suffix =
      (store.insert hash (head ++ suffix)).mapAnswer .ok := by
  have found : (IdStore.lookupTerminated store stem).map Bytes.withoutLast = some head := known
  change insertJoined insert IdStore.lookupTerminated store hash stem suffix = _
  simp only [insertJoined, found]

theorem extend_unknown (store : Plain w) (hash : Hash w) {stem : Hash w} (suffix : Bytes)
    (unknown : IdStore.lookup store stem = none) :
    IdStore.insertExtension store hash stem suffix = ⟨store, .error (.unknownStem stem), []⟩ := by
  have found : (IdStore.lookupTerminated store stem).map Bytes.withoutLast = none := unknown
  change insertJoined insert IdStore.lookupTerminated store hash stem suffix = _
  simp only [insertJoined, found]

/-- A plain store with the usual terminator is the reference for these laws. -/
theorem firstWins : FirstWins (fun store : Plain w => store.terminator = [0]) size where
  terminated := by
    intro store terminator hash
    rw [lookup_eq _ terminator]
    simp only [IdStore.lookupTerminated, terminator]
    rfl
  insert := by
    intro store terminator hash content
    refine ⟨(store.insert_terminator hash content).trans terminator, ?_,
      store.offered terminator hash content⟩
    rw [lookup_eq _ terminator]
    exact store.insert_answer hash content
  extend := by
    intro store terminator hash stem head suffix known
    rw [store.extend_known hash suffix known, lookup_eq store terminator hash]
    refine ⟨(store.insert_terminator hash _).trans terminator, ?_,
      store.offered terminator hash (head ++ suffix)⟩
    exact congrArg Except.ok (store.insert_answer hash (head ++ suffix))
  refuse := by
    intro store terminator hash stem suffix unknown
    rw [store.extend_unknown hash suffix unknown]
    exact ⟨terminator, rfl, fun _ => rfl, rfl⟩

end Plain

end Interner
