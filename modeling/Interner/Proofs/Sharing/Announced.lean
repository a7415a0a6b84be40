import Interner.Proofs.Sharing.News

namespace Interner

variable {ι σ : Type} {w : Width} [IdStore σ w]

namespace Crew

def news (crew : Crew ι σ w) : List (Hash w) := crew.returned.filterMap Returned.new?

def pending? (crew : Crew ι σ w) (who : ι) : Option (Hash w) :=
  (crew.workers who).job.bind Job.new?

end Crew

/-- Every id that was or is about to be returned as new is backed by the store, and none of them twice. -/
structure Announced (start : CounterGenerator w) (crew : Crew ι σ w) : Prop where
  jobs : ∀ who job, (crew.workers who).job = some job → job.Honest start ∨
    ∃ hash, job.new? = some hash ∧
      Backed start (job.call.isGenerate = true) crew.store job.drawn hash
  returned : ∀ returned ∈ crew.returned, ∀ hash, returned.new? = some hash →
    Backed start (returned.call.isGenerate = true) crew.store returned.drawn hash
  nodup : crew.news.Nodup
  pending : ∀ who hash, crew.pending? who = some hash → hash ∉ crew.news
  unique : ∀ who other hash, crew.pending? who = some hash → crew.pending? other = some hash →
    who = other

namespace Announced

variable {good : σ → Prop} {size : σ → Nat} {start : CounterGenerator w} {crew after : Crew ι σ w}
  {who other : ι} {hash : Hash w}

theorem launch (store : σ) (start : CounterGenerator w) (calls : ι → List (SharedCall w)) :
    Announced start (Crew.launch store start calls) where
  jobs := fun _ _ underway => nomatch underway
  returned := fun _ member => nomatch member
  nodup := .nil
  pending := fun _ _ new => nomatch new
  unique := fun _ _ _ new => nomatch new

theorem stored_of_news (announced : Announced start crew) (member : hash ∈ crew.news) :
    ∃ content, IdStore.lookup crew.store hash = some content := by
  obtain ⟨returned, known, new⟩ := List.mem_filterMap.mp member
  exact (announced.returned returned known hash new).stored

theorem stored_of_pending (announced : Announced start crew)
    (pending : crew.pending? who = some hash) :
    ∃ content, IdStore.lookup crew.store hash = some content := by
  obtain ⟨job, underway, new⟩ := Option.bind_eq_some_iff.mp pending
  rcases announced.jobs who job underway with honest | ⟨other, same, backed⟩
  · rw [honest.new?] at new
    cases new
  · obtain rfl := Option.some.inj (new.symm.trans same)
    exact backed.stored

theorem backed_of_answer (announced : Announced start crew) {waiting : List (SharedCall w)}
    {call : SharedCall w} {answer : Answer w} {drawn : Option (BitVec 64)}
    (turn : crew.workers who = ⟨waiting, some ⟨call, .done answer, drawn⟩⟩)
    (new : call.new? answer = some hash) :
    Backed start (call.isGenerate = true) crew.store drawn hash := by
  rcases announced.jobs who _ (by rw [turn]) with honest | ⟨other, same, backed⟩
  · exact nomatch honest.new?.symm.trans new
  · obtain rfl := Option.some.inj (new.symm.trans same)
    exact backed

variable [DecidableEq ι]

theorem pending?_elsewhere (stepped : crew.Stepped who after) (different : other ≠ who) :
    after.pending? other = crew.pending? other := by
  rw [Crew.pending?, Crew.pending?, stepped.elsewhere different]

theorem jobs_after (announced : Announced start crew) (stepped : crew.Stepped who after)
    (growth : Extends crew.store after.store)
    (self : ∀ job, (after.workers who).job = some job → job.Honest start ∨
      ∃ hash, job.new? = some hash ∧
        Backed start (job.call.isGenerate = true) after.store job.drawn hash) :
    ∀ other job, (after.workers other).job = some job → job.Honest start ∨
      ∃ hash, job.new? = some hash ∧
        Backed start (job.call.isGenerate = true) after.store job.drawn hash := by
  intro other job underway
  by_cases same : other = who
  · subst same
    exact self job underway
  · rw [stepped.elsewhere same] at underway
    exact (announced.jobs other job underway).imp_right
      fun ⟨hash, new, backed⟩ => ⟨hash, new, backed.mono growth⟩

theorem unique_after (announced : Announced start crew) (stepped : crew.Stepped who after)
    (apart : ∀ hash, after.pending? who = some hash → ∀ other, other ≠ who →
      crew.pending? other ≠ some hash) :
    ∀ first second hash, after.pending? first = some hash → after.pending? second = some hash →
      first = second := by
  intro first second hash pending again
  by_cases self : first = who
  · subst self
    by_contra different
    rw [pending?_elsewhere stepped (Ne.symm different)] at again
    exact apart hash pending second (Ne.symm different) again
  · rw [pending?_elsewhere stepped self] at pending
    by_cases selfToo : second = who
    · subst selfToo
      exact absurd pending (apart hash again first self)
    · rw [pending?_elsewhere stepped selfToo] at again
      exact announced.unique first second hash pending again

theorem keep (announced : Announced start crew) (stepped : crew.Stepped who after)
    (growth : Extends crew.store after.store) (same : after.returned = crew.returned)
    (jobs : ∀ job, (after.workers who).job = some job → job.Honest start ∨
      ∃ hash, job.new? = some hash ∧ IdStore.lookup crew.store hash = none ∧
        Backed start (job.call.isGenerate = true) after.store job.drawn hash) :
    Announced start after := by
  have news : after.news = crew.news := by rw [Crew.news, Crew.news, same]
  have free : ∀ hash, after.pending? who = some hash → IdStore.lookup crew.store hash = none := by
    intro hash pending
    obtain ⟨job, underway, new⟩ := Option.bind_eq_some_iff.mp pending
    rcases jobs job underway with honest | ⟨other, announces, free, _⟩
    · rw [honest.new?] at new
      cases new
    · obtain rfl := Option.some.inj (new.symm.trans announces)
      exact free
  refine ⟨announced.jobs_after stepped growth ?_, ?_, ?_, ?_, announced.unique_after stepped ?_⟩
  · intro job underway
    exact (jobs job underway).imp_right fun ⟨hash, new, _, backed⟩ => ⟨hash, new, backed⟩
  · intro returned member hash new
    rw [same] at member
    exact (announced.returned returned member hash new).mono growth
  · rw [news]
    exact announced.nodup
  · intro other hash pending member
    rw [news] at member
    by_cases self : other = who
    · subst self
      obtain ⟨content, stored⟩ := announced.stored_of_news member
      rw [free hash pending] at stored
      cases stored
    · rw [pending?_elsewhere stepped self] at pending
      exact announced.pending other hash pending member
  · intro hash pending other _ again
    obtain ⟨content, stored⟩ := announced.stored_of_pending again
    rw [free hash pending] at stored
    cases stored

theorem begin (announced : Announced start crew) (counted : Counted start crew)
    {call : SharedCall w} {waiting : List (SharedCall w)}
    (stepped : crew.Stepped who (crew.begin who call waiting)) :
    Announced start (crew.begin who call waiting) := by
  refine announced.keep stepped (Extends.refl _) rfl ?_
  intro job underway
  rw [crew.begin_self] at underway
  obtain rfl := Option.some.inj underway
  left
  rw [counted.stem]
  exact call.honest start

theorem take (announced : Announced start crew) (counted : Counted start crew)
    (laws : FirstWins good size) (ok : good crew.store) {job : Job w}
    {waiting : List (SharedCall w)} (turn : crew.workers who = ⟨waiting, some job⟩)
    (busy : ∀ answer, job.rest ≠ .done answer)
    (stepped : crew.Stepped who (crew.take who waiting job)) :
    Announced start (crew.take who waiting job) := by
  refine announced.keep stepped (laws.keeps_step ok job.rest crew.generator) rfl ?_
  intro next underway
  rw [crew.take_self] at underway
  obtain rfl := Option.some.inj underway
  rcases announced.jobs who job (by rw [turn]) with honest | ⟨hash, new, _⟩
  · rcases Honest.step honest laws ok counted.width with honest | ⟨hash, announces, free, backed⟩
    · exact .inl honest
    · exact .inr ⟨hash, Job.new?_eq_some.mpr announces, free, backed⟩
  · obtain ⟨answer, finished, _⟩ := Job.new?_eq_some.mp new
    exact absurd finished (busy answer)

theorem finish (announced : Announced start crew) {waiting : List (SharedCall w)}
    {call : SharedCall w} {answer : Answer w} {drawn : Option (BitVec 64)}
    (turn : crew.workers who = ⟨waiting, some ⟨call, .done answer, drawn⟩⟩) :
    Announced start (crew.finish who waiting ⟨call, drawn, answer⟩) := by
  have stepped := Crew.Stepped.finish turn
  have pending : crew.pending? who = call.new? answer := by
    rw [Crew.pending?, turn]
    rfl
  have idle : ((crew.finish who waiting ⟨call, drawn, answer⟩).workers who).job = none := by
    rw [crew.finish_self]
  have quiet : (crew.finish who waiting ⟨call, drawn, answer⟩).pending? who = none := by
    rw [Crew.pending?, idle, Option.bind_none]
  -- the id that was pending, if any, is now among the news
  have news : (crew.finish who waiting ⟨call, drawn, answer⟩).news =
      crew.news ++ (crew.pending? who).toList := by
    rw [Crew.news, Crew.finish, List.filterMap_append, pending]
    cases new : call.new? answer <;> simp [Crew.news, Returned.new?, new]
  refine ⟨announced.jobs_after stepped (Extends.refl _) ?_, ?_, ?_, ?_,
    announced.unique_after stepped ?_⟩
  · intro job underway
    exact nomatch idle.symm.trans underway
  · intro returned member hash new
    rcases List.mem_append.mp member with earlier | last
    · exact announced.returned returned earlier hash new
    · obtain rfl := List.mem_singleton.mp last
      exact announced.backed_of_answer turn new
  · rw [news]
    refine announced.nodup.append (by cases crew.pending? who <;> simp) ?_
    intro hash member last
    exact announced.pending who hash (Option.mem_toList.mp last) member
  · intro other hash again member
    by_cases self : other = who
    · subst self
      exact nomatch quiet.symm.trans again
    · rw [pending?_elsewhere stepped self] at again
      rw [news, List.mem_append, Option.mem_toList] at member
      rcases member with earlier | last
      · exact announced.pending other hash again earlier
      · exact self (announced.unique other who hash again last)
  · intro hash again
    exact nomatch quiet.symm.trans again

theorem step (announced : Announced start crew) (counted : Counted start crew)
    (laws : FirstWins good size) (ok : good crew.store) (stepped : crew.Stepped who after) :
    Announced start after := by
  cases stepped with
  | idle => exact announced
  | begin turn => exact announced.begin counted (.begin turn)
  | take turn busy => exact announced.take counted laws ok turn busy (.take turn busy)
  | finish turn => exact announced.finish turn

end Announced

/-- What every crew keeps, whatever its calls are. -/
structure Orderly (good : σ → Prop) (start : CounterGenerator w) (crew : Crew ι σ w) : Prop where
  ok : good crew.store
  counted : Counted start crew
  announced : Announced start crew

theorem FirstWins.orderly [DecidableEq ι] {good : σ → Prop} {size : σ → Nat}
    (laws : FirstWins good size) {store : σ} (ok : good store) (start : CounterGenerator w)
    (calls : ι → List (SharedCall w)) (schedule : List ι) :
    Orderly good start ((Crew.launch store start calls).run schedule) := by
  refine Crew.run_induction ⟨ok, .launch store start calls, .launch store start calls⟩ ?_ schedule
  rintro crew after who ⟨ok, counted, announced⟩ stepped
  exact ⟨laws.good_stepped ok stepped, counted.step stepped, announced.step counted laws ok stepped⟩

end Interner
