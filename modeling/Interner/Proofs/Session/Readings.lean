import Interner.Proofs.Session.Insertions
import Interner.Proofs.Text.Decoding

namespace Interner

variable {σ γ α : Type} {w : Width}

/-- A string offered to a store: a whole one, or what the store holds under `stem` with more bytes. -/
inductive Offer (w : Width) where
  | whole (hash : Hash w) (content : Bytes)
  | extension (hash stem : Hash w) (head suffix : Bytes)
  deriving DecidableEq, Repr

namespace Offer

def hash : Offer w → Hash w
  | whole hash _ | extension hash _ _ _ => hash

def content : Offer w → Bytes
  | whole _ content => content
  | extension _ _ head suffix => head ++ suffix

/-- The first string that is offered under `hash`. -/
def first? (offers : List (Offer w)) (hash : Hash w) : Option (Offer w) :=
  offers.find? fun offer => offer.hash = hash

theorem first?_append (front back : List (Offer w)) (hash : Hash w) :
    first? (front ++ back) hash = (first? front hash).or (first? back hash) :=
  List.find?_append

variable [IdStore σ w] {before after : σ} {offer : Offer w}

/-- The store still holds what the offer extends. -/
def Backed (store : σ) : Offer w → Prop
  | whole .. => True
  | extension _ stem head _ => IdStore.lookup store stem = some head

theorem Backed.kept (backed : offer.Backed before) (keeps : Extends before after) :
    offer.Backed after := by
  cases offer with
  | whole hash content => trivial
  | extension hash stem head suffix => exact keeps stem head backed

def ofExtension (store : σ) (hash stem : Hash w) (suffix : Bytes) : List (Offer w) :=
  match IdStore.lookup store stem with
  | none => []
  | some head => [extension hash stem head suffix]

end Offer

variable [IdStore σ w] [CandidateSource γ]

def Program.offers : Program w α → σ → γ → List (Offer w)
  | done _, _, _ => []
  | insert hash content next, store, source =>
      let made := IdStore.insert store hash content
      .whole hash content :: (next made.answer).offers made.store source
  | insertExtension hash stem suffix next, store, source =>
      let made := IdStore.insertExtension store hash stem suffix
      Offer.ofExtension store hash stem suffix ++ (next made.answer).offers made.store source
  | lookupTerminated hash next, store, source =>
      (next (IdStore.lookupTerminated store hash)).offers store source
  | candidate next, store, source =>
      match CandidateSource.next source with
      | (suffix, source) => (next suffix).offers store source
  | record _ next, store, source => next.offers store source

namespace Session

def offersOf (session : Session σ w) : Call w → List (Offer w)
  | .request request => request.program.offers session.store ()
  | .generate name =>
      (session.generators name).program.offers session.store (session.generators name)
  | .discard _ _ => []

def offers (session : Session σ w) : List (Call w) → List (Offer w)
  | [] => []
  | call :: calls => session.offersOf call ++ offers (session.after call) calls

end Session

/-- `after` is what `before` becomes when these strings are offered to it one after another. -/
structure Fills (before : σ) (offers : List (Offer w)) (after : σ) : Prop where
  lookup : ∀ hash, IdStore.lookup after hash =
    (IdStore.lookup before hash).or ((Offer.first? offers hash).map Offer.content)
  backed : ∀ offer ∈ offers, offer.Backed after

namespace Fills

variable {before middle after : σ} {front back : List (Offer w)} {offer : Offer w}

theorem of_same (same : ∀ hash, IdStore.lookup after hash = IdStore.lookup before hash) :
    Fills before [] after := by
  constructor
  · intro hash
    rw [same hash]
    exact Option.or_none.symm
  · simp

theorem of_offered {size : σ → Nat}
    (offered : Offered size before after offer.hash offer.content) (backed : offer.Backed before) :
    Fills before [offer] after := by
  constructor
  · intro hash
    rw [offered.lookup hash, Offer.first?, List.find?_singleton]
    by_cases same : hash = offer.hash
    · subst same
      cases IdStore.lookup before offer.hash <;> simp
    · simp [same, Ne.symm same]
  · intro other member
    rw [List.mem_singleton.mp member]
    exact backed.kept offered.keeps

theorem keeps (fills : Fills before front after) : Extends before after := by
  intro hash kept present
  rw [fills.lookup, present, Option.some_or]

theorem append (earlier : Fills before front middle) (later : Fills middle back after) :
    Fills before (front ++ back) after := by
  constructor
  · intro hash
    rw [later.lookup, earlier.lookup, Offer.first?_append, Option.map_or, Option.or_assoc]
  · intro offer member
    rcases List.mem_append.mp member with first | second
    · exact (earlier.backed offer first).kept later.keeps
    · exact later.backed offer second

end Fills

namespace FirstWins

variable {good : σ → Prop} {size : σ → Nat} {store : σ} {session : Session σ w}
  (laws : FirstWins good size)

include laws

theorem fills_insert (ok : good store) (hash : Hash w) (content : Bytes) :
    Fills store [.whole hash content] (IdStore.insert store hash content).store :=
  .of_offered (laws.insert ok hash content).2.2 trivial

theorem fills_extend (ok : good store) (hash stem : Hash w) (suffix : Bytes) :
    Fills store (Offer.ofExtension store hash stem suffix)
      (IdStore.insertExtension store hash stem suffix).store := by
  cases found : IdStore.lookup store stem with
  | none =>
      simp only [Offer.ofExtension, found]
      exact .of_same (laws.refuse ok hash suffix found).2.2.lookup
  | some head =>
      simp only [Offer.ofExtension, found]
      exact .of_offered (laws.extend ok hash suffix found).2.2 found

theorem fills_run (program : Program w α) (ok : good store) (source : γ) :
    Fills store (program.offers store source) (program.run store source).store := by
  induction program generalizing store source with
  | done answer => exact .of_same fun _ => rfl
  | insert hash content next ih =>
      exact (laws.fills_insert ok hash content).append
        (ih _ (laws.insert ok hash content).1 source)
  | insertExtension hash stem suffix next ih =>
      exact (laws.fills_extend ok hash stem suffix).append
        (ih _ (laws.good_extend ok hash stem suffix) source)
  | lookupTerminated hash next ih => exact ih _ ok source
  | candidate next ih => exact ih _ ok _
  | record entry next ih => exact ih ok source

theorem fills_after (ok : good session.store) (call : Call w) :
    Fills session.store (session.offersOf call) (session.after call).store := by
  cases call with
  | request request => exact laws.fills_run request.program ok ()
  | generate name => exact laws.fills_run _ ok (session.generators name)
  | discard name amount => exact .of_same fun _ => rfl

theorem fills_calls (ok : good session.store) (calls : List (Call w)) :
    Fills session.store (session.offers calls) (session.run calls).store := by
  induction calls generalizing session with
  | nil => exact .of_same fun _ => rfl
  | cons call calls ih => exact (laws.fills_after ok call).append (ih (laws.good_after ok call))

end FirstWins

namespace Views

/-- The readings of a hash that holds `kept`. -/
structure Show (views : Views) (kept : Bytes) : Prop where
  terminated : views.terminated = some (kept ++ [0])
  content : views.content = some kept
  cString : ∀ shown, views.cString = some shown ↔ shown = kept ∧ 0 ∉ kept
  text : ∀ shown, views.text = some shown ↔ shown = kept ∧ Utf8.IsText kept

theorem cStringOf_terminated (kept : Bytes) :
    cStringOf (Bytes.terminated kept) = if 0 ∈ kept then none else some kept := by
  have ending : (Bytes.terminated kept).getLast? = some 0 := List.getLast?_concat
  have rest : (Bytes.terminated kept).dropLast = kept := List.dropLast_concat
  rw [cStringOf, ending, rest]
  by_cases inside : 0 ∈ kept <;> simp [inside]

theorem show_ofTerminated (kept : Bytes) :
    (ofTerminated (some (Bytes.terminated kept))).Show kept where
  terminated := rfl
  content := congrArg some (Bytes.withoutLast_terminated kept)
  cString := by
    intro shown
    simp only [ofTerminated, Option.bind_some, cStringOf_terminated]
    by_cases inside : 0 ∈ kept <;> simp [inside, eq_comm]
  text := by
    intro shown
    simp only [ofTerminated, Option.map_some, Bytes.withoutLast_terminated, Option.bind_some, textOf,
      ← Utf8.isValid_iff]
    by_cases valid : Utf8.isValid kept = true <;> simp [valid, eq_comm]

theorem Show.cString_isSome {views : Views} {kept : Bytes} (shows : views.Show kept) :
    views.cString.isSome ↔ 0 ∉ kept := by
  simp [Option.isSome_iff_exists, shows.cString]

theorem Show.text_isSome {views : Views} {kept : Bytes} (shows : views.Show kept) :
    views.text.isSome ↔ Utf8.IsText kept := by
  simp [Option.isSome_iff_exists, shows.text]

end Views

namespace Table

/-- The readings of a hash show what was first offered under it. -/
structure ReadsBack (table : Table w) (offers : List (Offer w)) (hash : Hash w) : Prop where
  absent : table.find hash = .ok none →
    Offer.first? offers hash = none ∧ IdStore.views table hash = ⟨none, none, none, none⟩
  present : table.find hash ≠ .ok none → ∃ offer, Offer.first? offers hash = some offer ∧
    (IdStore.views table hash).Show offer.content
  /-- Both parts decide what kind of text the whole is. -/
  extended : ∀ stem head suffix,
    Offer.first? offers hash = some (.extension hash stem head suffix) →
      (IdStore.views table stem).content = some head ∧
        ((IdStore.views table hash).cString.isSome ↔ 0 ∉ head ∧ 0 ∉ suffix) ∧
        (Utf8.IsText head → Utf8.IsText suffix → (IdStore.views table hash).text.isSome)

variable {start table : Table w} {offers : List (Offer w)} {hash : Hash w}

theorem find_eq_none_iff (sound : table.Sound) :
    table.find hash = .ok none ↔ IdStore.lookup table hash = none := by
  rw [lookup_eq sound, contentOf, Option.map_eq_none_iff]
  rcases sound with ⟨chains, arranged⟩
  rw [arranged.find_eq, Except.ok.injEq]
  constructor
  · intro missed
    exact lookup_records_eq_none ((arranged.keyOf?_eq_none_iff hash).mp missed)
  · exact arranged.keyOf?_of_unlisted

theorem views_of_lookup (sound : table.Sound) {kept : Bytes}
    (stored : IdStore.lookup table hash = some kept) : (IdStore.views table hash).Show kept := by
  rw [IdStore.views, firstWins.terminated sound, stored]
  exact Views.show_ofTerminated kept

theorem views_of_missing (sound : table.Sound) (missing : IdStore.lookup table hash = none) :
    IdStore.views table hash = ⟨none, none, none, none⟩ := by
  rw [IdStore.views, firstWins.terminated sound, missing]
  rfl

theorem readsBack (sound : table.Sound) (fills : Fills start offers table)
    (empty : ∀ hash, IdStore.lookup start hash = none) : ReadsBack table offers hash := by
  have stored : IdStore.lookup table hash = (Offer.first? offers hash).map Offer.content := by
    rw [fills.lookup, empty, Option.none_or]
  constructor
  · intro missed
    rw [find_eq_none_iff sound] at missed
    rw [missed, eq_comm, Option.map_eq_none_iff] at stored
    exact ⟨stored, views_of_missing sound missed⟩
  · intro found
    rw [ne_eq, find_eq_none_iff sound, stored, Option.map_eq_none_iff] at found
    rcases Option.ne_none_iff_exists'.mp found with ⟨offer, first⟩
    rw [first] at stored
    exact ⟨offer, first, views_of_lookup sound stored⟩
  · intro stem head suffix first
    rw [first] at stored
    have shows := views_of_lookup sound stored
    have backed : IdStore.lookup table stem = some head :=
      fills.backed _ (List.mem_of_find?_eq_some first)
    have zeros : (IdStore.views table hash).cString.isSome ↔ 0 ∉ head ∧ 0 ∉ suffix := by
      rw [shows.cString_isSome, Offer.content, List.mem_append, not_or]
    exact ⟨(views_of_lookup sound backed).content, zeros,
      fun headText suffixText => shows.text_isSome.mpr (headText.append suffixText)⟩

end Table

variable {config : Config}

/-- Whatever calls an empty table has answered, the readings of every hash agree with each other and with
the first string that was offered under it. -/
theorem readings_agree (valid : config.validate = .ok ()) (generators : Nat → Generator w)
    (calls : List (Call w)) (hash : Hash w) :
    ((Session.fresh config generators).run calls).store.ReadsBack
      ((Session.fresh config generators).offers calls) hash := by
  have sound : (Session.fresh config generators).store.Sound := Session.sound_fresh valid generators
  exact Table.readsBack (Table.firstWins.good_calls sound calls)
    (Table.firstWins.fills_calls sound calls) (Table.lookup_ofConfig valid)

def splitSession : Session (Table .narrow) .narrow :=
  .fresh ⟨1, Binary64.one⟩ fun _ => .counter { stem := 7 }

/-- The two bytes of a character come in one after the other, and what is offered later stays out. -/
def splitCalls : List (Call .narrow) :=
  [.request (.insert 7 [0xc3]), .request (.insertExtension 9 7 [0xa9]), .request (.insert 9 [0])]

theorem readings_agree_split :
    Offer.first? (splitSession.offers splitCalls) 9 = some (.extension 9 7 [0xc3] [0xa9]) ∧
      (splitSession.run splitCalls).store.ReadsBack (splitSession.offers splitCalls) 9 :=
  ⟨by decide +kernel, readings_agree (by decide +kernel) _ _ 9⟩

end Interner
