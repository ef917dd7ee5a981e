import EffectMQ.Lifecycle.Dates
import EffectMQ.Lifecycle.Moment

/-!
# What an entry with a time stands for

No time is negative. The deadline of an active id is the one of its lease, a generation that has not settled has no
dates, and a date that speaks of the record of a generation means that this record is stored and has settled.
-/

namespace EffectMQ

open Redis Transition

variable {env : Env} {id : String} {v v' : TaskView} {r : TaskRecord} {a : TaskAction} {g : ℕ}

/-- Every date of a generation. -/
def Dates.Nonneg (d : Dates) : Prop :=
  ∀ date ∈ [d.task, d.result, d.terminal, d.deadLetter, d.deadLetterExpiry], ∀ t, date = some t → 0 ≤ t

structure TaskView.Timed (v : TaskView) : Prop where
  scheduled : ∀ t, v.score .scheduled = some t → 0 ≤ t
  active : ∀ t, v.score .active = some t → 0 ≤ t
  nonneg : ∀ g, (v.dates g).Nonneg
  settled : ∀ g, (v.dates g).task.isSome ∨ (v.dates g).terminal.isSome → ∃ r, v.Settled r ∧ r.generation = g
  unsettled : ∀ r, v.record = some r → r.outcome = none → v.dates r.generation = Dates.none

/-- An active id has a lease key with its deadline, whether that has passed or not. -/
def TaskView.Leased (v : TaskView) : Prop := ∀ t, v.score .active = some t → ∃ l, v.lock = some l ∧ l.expiresAt = t

theorem Env.now_nonneg (env : Env) : 0 ≤ env.now := Nat.cast_nonneg env.clock

/-! ### Deadlines -/

/-- A completion policy takes an id out of the lists with deadlines. -/
theorem TaskView.score_applyPolicy {outcome : Outcome} (h : v.record = some r) (ho : r.outcome = some outcome) (held : Bool) :
    (v.applyPolicy env id held).score .scheduled = none ∧ (v.applyPolicy env id held).score .active = none := by
  rw [TaskView.applyPolicy_of_settled env h ho]
  split
  · simp [TaskView.delete, TaskView.drop]
  · cases r.policy outcome <;> simp [CompletionPolicy.list]

theorem TaskView.score_settle {outcome : Outcome} (h : v.record = some r) (ho : r.outcome = some outcome)
    (terminalFailure : LuaValue) (held : Bool) :
    (v.settle env id terminalFailure held).score .scheduled = none ∧
      (v.settle env id terminalFailure held).score .active = none :=
  score_applyPolicy (((record_retention env).trans (record_persist env terminalFailure)).trans h) ho held

/-- A step leaves the deadlines of an id, or the id leaves both lists, or it is given a deadline that is not over. -/
theorem TaskStep.deadlines (hstep : TaskStep env id v a v') :
    (v'.score .scheduled = v.score .scheduled ∧ v'.score .active = v.score .active ∧ (a ≠ .revoke → v'.lock = v.lock)) ∨
      (v'.score .scheduled = none ∧ v'.score .active = none) ∨
      (∃ t, 0 ≤ t ∧ v'.score .scheduled = some t ∧ v'.score .active = none) ∨
      ∃ leaseToken t, env.now ≤ t ∧ v'.score .scheduled = none ∧ v'.score .active = some t ∧
        v'.lock = some ⟨leaseToken, t⟩ := by
  obtain ⟨henabled, rfl⟩ := hstep
  cases a with
  | create args replacedTask =>
    simp only [TaskAction.apply, TaskView.announce]
    split
    · next hdelay =>
      have hnonneg : 0 ≤ env.now + args.delay.getD 0 := add_nonneg env.now_nonneg hdelay.le
      exact Or.inr (Or.inr (Or.inl ⟨_, double_nonneg hnonneg, by simp [entryScore], by simp⟩))
    · exact Or.inr (Or.inl (by simp))
  | promote | release | replace | expireTask | remove | forget =>
    exact Or.inr (Or.inl (by simp [TaskAction.apply, TaskView.delete, TaskView.drop, TaskView.unlock]))
  | lease leaseToken lockTimeout =>
    have hpos := henabled.2
    exact Or.inr (Or.inr (Or.inr ⟨leaseToken, env.now + lockTimeout, by linarith,
      by simp [TaskAction.apply, TaskView.lease, TaskView.modify],
      by simp [TaskAction.apply, TaskView.lease, TaskView.modify, entryScore], rfl⟩))
  | renew leaseToken lockTimeout =>
    have hpos := henabled.2.2
    exact Or.inr (Or.inr (Or.inr ⟨leaseToken, env.now + lockTimeout, by linarith,
      by simp [TaskAction.apply, TaskView.renew], by simp [TaskAction.apply, TaskView.renew, entryScore],
      by simp [TaskAction.apply, TaskView.renew]⟩))
  | retry cause error retryAt =>
    simp only [TaskAction.apply]
    split
    · next hlater =>
      exact Or.inr (Or.inr (Or.inl ⟨retryAt, env.now_nonneg.trans hlater.le, by simp [entryScore], by simp⟩))
    · exact Or.inr (Or.inl (by simp))
  | fail cause error retryAt held =>
    obtain ⟨⟨r, hrunning⟩, _⟩ := henabled
    obtain ⟨history, hrecord⟩ := TaskView.record_exhausted env id hrunning.record cause error retryAt
    exact Or.inr (Or.inl (TaskView.score_settle hrecord rfl error held))
  | succeed leaseToken result held =>
    obtain ⟨⟨r, hrunning⟩, _⟩ := henabled
    obtain ⟨history, hrecord⟩ := TaskView.record_succeed env id hrunning.record result
    exact Or.inr (Or.inl (TaskView.score_settle hrecord rfl .nil held))
  | refile =>
    obtain ⟨r, hsettled⟩ := henabled
    obtain ⟨outcome, ho⟩ := Option.isSome_iff_exists.mp hsettled.outcome
    exact Or.inr (Or.inl (TaskView.score_applyPolicy hsettled.record ho false))
  | progress | dropDate | holdDate | expireDeadLetter => exact Or.inl ⟨rfl, rfl, fun _ => rfl⟩
  | expireResult g held =>
    simp only [TaskAction.apply, TaskView.expireResult]
    split <;> exact Or.inl ⟨rfl, rfl, fun _ => rfl⟩
  | expireTerminal g =>
    simp only [TaskAction.apply, TaskView.expireTerminal]
    split <;> exact Or.inl ⟨rfl, rfl, fun _ => rfl⟩
  | revoke => exact Or.inl ⟨rfl, rfl, fun h => absurd rfl h⟩

/-- Only the revocation of a lease takes the key of an active id away. -/
theorem TaskStep.leased (hstep : TaskStep env id v a v') (ha : a ≠ .revoke) (h : v.Leased) : v'.Leased := by
  intro t ht
  rcases hstep.deadlines with ⟨_, hactive, hlock⟩ | ⟨_, hnone⟩ | ⟨_, _, _, hnone⟩ | ⟨leaseToken, t', _, _, hsome, hlock⟩
  · rw [hlock ha]
    exact h t (hactive ▸ ht)
  · exact absurd ht (by simp [hnone])
  · exact absurd ht (by simp [hnone])
  · obtain rfl := Option.some.inj (hsome.symm.trans ht)
    exact ⟨_, hlock, rfl⟩

/-! ### Dates -/

theorem Dates.Nonneg.none : Dates.none.Nonneg := by
  intro date hdate t ht
  simp only [Dates.none, List.mem_cons, List.not_mem_nil, or_false, or_self] at hdate
  exact absurd ht (by simp [hdate])

theorem Dates.Later.nonneg {d d' : Dates} (h : d.Later env.now d') (hd : d.Nonneg) : d'.Nonneg := by
  have hpostponed : ∀ {date date' : Option ℚ}, Postponed env.now date date' → (∀ t, date = some t → 0 ≤ t) →
      ∀ t, date' = some t → 0 ≤ t := fun hlater hdate => hlater.le hdate
  intro date hdate t ht
  simp only [List.mem_cons, List.not_mem_nil, or_false] at hdate
  rcases hdate with rfl | rfl | rfl | rfl | rfl
  · exact hpostponed h.task (hd _ (by simp)) t ht
  · exact hpostponed h.result (hd _ (by simp)) t ht
  · exact hpostponed h.terminal (hd _ (by simp)) t ht
  · rcases h.deadLetters with ⟨heq, _⟩ | ⟨hnone, _⟩
    · exact hd _ (by simp) t (heq ▸ ht)
    · exact absurd ht (by simp [hnone])
  · rcases h.deadLetters with ⟨_, heq⟩ | ⟨_, hnone⟩
    · exact hd _ (by simp) t (heq ▸ ht)
    · exact absurd ht (by simp [hnone])

theorem Dates.Later.none {d : Dates} (h : Dates.none.Later env.now d) : d = Dates.none := by
  have hpostponed : ∀ {date : Option ℚ}, Postponed env.now .none date → date = .none := fun hlater => by
    rcases hlater with rfl | rfl | ⟨t, ht, _⟩
    · rfl
    · rfl
    · exact absurd ht (by simp)
  have hletters : d.deadLetter = .none ∧ d.deadLetterExpiry = .none := by
    rcases h.deadLetters with hsame | hgone
    · exact hsame
    · exact hgone
  ext1
  · exact hpostponed h.task
  · exact hpostponed h.result
  · exact hpostponed h.terminal
  · exact hletters.1
  · exact hletters.2

theorem TaskRecord.dated_nonneg {d : Dates} (hd : d.Nonneg) : (r.dated env d).Nonneg := by
  have hnow := env.now_nonneg
  intro date hdate t ht
  simp only [TaskRecord.dated, List.mem_cons, List.not_mem_nil, or_false] at hdate
  rcases hdate with rfl | rfl | rfl | rfl | rfl
  · obtain rfl := Option.some.inj ht
    positivity
  · obtain rfl := Option.some.inj ht
    positivity
  · split at ht
    · obtain rfl := Option.some.inj ht
      positivity
    · exact hd _ (by simp) t ht
  · split at ht
    · exact hd _ (by simp) t ht
    · obtain rfl := Option.some.inj ht
      exact hnow
  · split at ht
    · exact hd _ (by simp) t ht
    · obtain rfl := Option.some.inj ht
      positivity

theorem Dates.Nonneg.disposed {d : Dates} (hd : d.Nonneg) : d.disposed.Nonneg := by
  intro date hdate t ht
  simp only [Dates.disposed, List.mem_cons, List.not_mem_nil, or_false] at hdate
  rcases hdate with rfl | rfl | rfl | rfl | rfl
  · exact absurd ht (by simp)
  · exact hd _ (by simp) t ht
  · exact absurd ht (by simp)
  · exact hd _ (by simp) t ht
  · exact hd _ (by simp) t ht

/-- A record that goes without a settlement takes the dates that speak of it along. -/
theorem TaskStep.disposed_of_lost (hstep : TaskStep env id v a v') (hv : v.Consistent env.now) (h : v.record = some r)
    (h' : v'.record = none) (hsettles : a.settles = none) :
    v'.dates r.generation = (v'.dates r.generation).disposed := by
  have hnext := hstep.next_of_lost hv h h'
  obtain ⟨henabled, rfl⟩ := hstep
  have hdelete : (v.delete env id).dates r.generation = ((v.delete env id).dates r.generation).disposed := by
    rw [TaskView.dates_delete env id h, Function.update_self]
    rfl
  cases a with
  | replace | expireTask | remove => exact hdelete
  | forget g =>
    obtain rfl := henabled.1 r h
    rw [TaskAction.apply, TaskView.dates_delete env id (v := v.erase r.generation) h, Function.update_self]
    rfl
  | refile =>
    obtain ⟨r', hsettled⟩ := henabled
    obtain rfl := Option.some.inj (h.symm.trans hsettled.record)
    obtain ⟨outcome, ho⟩ := Option.isSome_iff_exists.mp hsettled.outcome
    obtain ⟨history, hrecord⟩ := TaskView.record_applyPolicy env id h ho false
    have hpolicy : r.policy outcome = .delete ∧ false = false := by
      by_contra hne
      rw [TaskAction.apply, hrecord, TaskRecord.placed, if_neg hne] at h'
      exact absurd h' (by simp)
    rw [TaskAction.apply, TaskView.dates_applyPolicy env id h ho, if_pos hpolicy, Function.update_self]
    rfl
  | succeed | fail => exact absurd hsettles (by simp [TaskAction.settles])
  | create | promote | lease | renew | release | retry | progress | dropDate | holdDate | expireResult | expireTerminal
  | expireDeadLetter | revoke => exact absurd hnext (by simp [TaskAction.next])

/-- A settlement that leaves a date for the record leaves the record, settled. -/
theorem TaskStep.settled_of_settles (hstep : TaskStep env id v a v') (h : v.record = some r) {outcome : Outcome}
    (hsettles : a.settles = some outcome)
    (hdate : (v'.dates r.generation).task.isSome ∨ (v'.dates r.generation).terminal.isSome) :
    ∃ r', v'.Settled r' ∧ r'.generation = r.generation := by
  have hsettle : ∀ (w : TaskView) (r' : TaskRecord) (terminalFailure : LuaValue) (held : Bool), w.record = some r' →
      r'.outcome = some outcome → r'.generation = r.generation →
      ((w.settle env id terminalFailure held).dates r.generation).task.isSome ∨
        ((w.settle env id terminalFailure held).dates r.generation).terminal.isSome →
      ∃ r'', (w.settle env id terminalFailure held).Settled r'' ∧ r''.generation = r.generation := by
    intro w r' terminalFailure held hw ho hg hsome
    rw [← hg, TaskView.dates_settle env id hw ho, Function.update_self] at hsome
    obtain ⟨history, hrecord⟩ := TaskView.record_settle env id hw ho terminalFailure held
    split at hsome
    · exact absurd hsome (by simp [Dates.disposed])
    · next hkept =>
      rw [TaskRecord.placed, if_neg hkept] at hrecord
      exact ⟨_, ⟨hrecord, Option.isSome_iff_exists.mpr ⟨outcome, ho⟩⟩, hg⟩
  obtain ⟨henabled, rfl⟩ := hstep
  cases a with
  | succeed leaseToken result held =>
    obtain rfl := Option.some.inj hsettles
    obtain ⟨history, hrecord⟩ := TaskView.record_succeed env id h result
    exact hsettle _ _ .nil held hrecord rfl rfl hdate
  | fail cause error retryAt held =>
    obtain rfl := Option.some.inj hsettles
    obtain ⟨history, hrecord⟩ := TaskView.record_exhausted env id h cause error retryAt
    exact hsettle _ _ error held hrecord rfl (TaskRecord.generation_failed env r error (retryTime retryAt) cause.kind) hdate
  | create | promote | lease | renew | release | retry | progress | refile | replace | expireTask | dropDate | holdDate
  | expireResult | expireTerminal | expireDeadLetter | remove | revoke | forget =>
    exact absurd hsettles (by simp [TaskAction.settles])

/-- The dates of a generation after a step: it settles them, or they are put off at most. -/
theorem TaskStep.dates_or (hstep : TaskStep env id v a v') (g : ℕ) :
    (∃ r outcome, v.record = some r ∧ r.generation = g ∧ a.settles = some outcome) ∨
      ((v.dates g).Later env.now (v'.dates g) ∧ ∀ r, v.record = some r → r.generation = g → a.settles = none) := by
  by_cases hsettles : ∃ r outcome, v.record = some r ∧ r.generation = g ∧ a.settles = some outcome
  · exact Or.inl hsettles
  · have hother : ∀ r, v.record = some r → r.generation = g → a.settles = none := fun r hr hg => by
      by_contra hne
      obtain ⟨outcome, ho⟩ := Option.ne_none_iff_exists'.mp hne
      exact hsettles ⟨r, outcome, hr, hg, ho⟩
    exact Or.inr ⟨hstep.later hother, hother⟩

theorem Postponed.isSome {now : ℚ} {date date' : Option ℚ} (h : Postponed now date date') (h' : date'.isSome) :
    date.isSome := by
  rcases h with rfl | rfl | ⟨t, rfl, _⟩
  · exact h'
  · exact absurd h' (by simp)
  · rfl

theorem TaskStep.timed (hstep : TaskStep env id v a v') (hv : v.Consistent env.now) (h : v.Timed) : v'.Timed where
  scheduled t ht := by
    rcases hstep.deadlines with ⟨hsame, _⟩ | ⟨hnone, _⟩ | ⟨t', hle, hsome, _⟩ | ⟨_, _, _, hnone, _⟩
    · exact h.scheduled t (hsame ▸ ht)
    · exact absurd ht (by simp [hnone])
    · obtain rfl := Option.some.inj (hsome.symm.trans ht)
      exact hle
    · exact absurd ht (by simp [hnone])
  active t ht := by
    rcases hstep.deadlines with ⟨_, hsame, _⟩ | ⟨_, hnone⟩ | ⟨_, _, _, hnone⟩ | ⟨_, t', hle, _, hsome, _⟩
    · exact h.active t (hsame ▸ ht)
    · exact absurd ht (by simp [hnone])
    · exact absurd ht (by simp [hnone])
    · obtain rfl := Option.some.inj (hsome.symm.trans ht)
      exact env.now_nonneg.trans hle
  nonneg g := by
    rcases hstep.dates_or g with ⟨r, outcome, hr, rfl, hsettles⟩ | ⟨hlater, _⟩
    · obtain ⟨r', _, _, hdates | hdates⟩ := hstep.dates_of_settles hr hsettles
      · rw [hdates]
        exact TaskRecord.dated_nonneg (h.nonneg _)
      · rw [hdates]
        exact (TaskRecord.dated_nonneg (h.nonneg _)).disposed
    · exact hlater.nonneg (h.nonneg g)
  settled g hdate := by
    rcases hstep.dates_or g with ⟨r, outcome, hr, rfl, hsettles⟩ | ⟨hlater, hother⟩
    · exact hstep.settled_of_settles hr hsettles hdate
    · obtain ⟨r, hsettled, rfl⟩ := h.settled g (hdate.imp hlater.task.isSome hlater.terminal.isSome)
      have hnone := hother r hsettled.record rfl
      cases hr' : v'.record with
      | none =>
        rw [hstep.disposed_of_lost hv hsettled.record hr' hnone] at hdate
        exact absurd hdate (by simp [Dates.disposed])
      | some r' =>
        obtain ⟨hgeneration, ho⟩ := hstep.record_outcome hv hsettled.record hr'
        rw [hnone] at ho
        exact ⟨r', ⟨hr', by rw [ho]; exact hsettled.outcome⟩, hgeneration⟩
  unsettled r' hr' ho := by
    rcases hstep.record_of_generation hv hr' with ⟨r, hr, hgeneration, houtcome⟩ | ⟨hr, hgeneration, _⟩
    · rw [ho] at houtcome
      obtain ⟨hsettles, hro⟩ : a.settles = none ∧ r.outcome = none := by
        cases hsettles : a.settles with
        | none => exact ⟨rfl, by simpa [hsettles] using houtcome.symm⟩
        | some outcome => simp [hsettles] at houtcome
      have hlater := hstep.later (g := r'.generation) fun _ _ _ => hsettles
      rw [hgeneration, h.unsettled r hr hro] at hlater
      rw [hgeneration]
      exact hlater.none
    · have hlater := hstep.later (g := r'.generation) fun r hr'' _ => absurd (hr.symm.trans hr'') (by simp)
      rw [hgeneration, (hv.fresh _ (Nat.lt_succ_self _)).2.1] at hlater
      rw [hgeneration]
      exact hlater.none

/-! ### Over runs -/

/-- Every view is timed, and the members of a continuation index name its queue. -/
structure Store.Timed (s : Store) : Prop where
  views : ∀ k, (s.view k).Timed
  homed : ∀ queue x, ((s.continuations queue).score x).isSome → x.queue = queue

theorem timed_empty : Store.empty.Timed where
  views k :=
    { scheduled := fun t ht => absurd ht (by simp [Store.view, Store.empty, QueueLists.score])
      active := fun t ht => absurd ht (by simp [Store.view, Store.empty, QueueLists.score])
      nonneg := fun g => Dates.Nonneg.none
      settled := fun g hdate => absurd hdate (by simp [Store.view, Store.empty, ExpiryIndexes.dates])
      unsettled := fun r hr => absurd hr (by simp [Store.view, Store.empty]) }
  homed queue x hx := absurd hx (by simp [Store.empty])

section

variable {b b' : Busy} {s s' : Store} {act : EngineAction}

/-- Only the end of a release writes a continuation index. -/
theorem EngineStep.continuations (hstep : EngineStep env b s act b' s') :
    s'.continuations = s.continuations ∨ ∃ holder, act = .note holder ∧ s' = noteContinuation env holder s := by
  cases hstep with
  | task henabled hadmissible hlocal hline => exact Or.inl hlocal.continuations
  | create hfresh hlocal => exact Or.inl hlocal.continuations
  | createHeld hfresh hholder hroom hlocal => exact Or.inl hlocal.continuations
  | forget henabled hnoted hlocal => exact Or.inl hlocal.continuations
  | dropRefiled hcurrent hsettled hheld hlocal => exact Or.inl hlocal.continuations
  | start | pop | dropKept | acquire | tick => exact Or.inl rfl
  | note => exact Or.inr ⟨_, rfl, rfl⟩

theorem EngineStep.timed (hstep : EngineStep env b s act b' s') (hs : Sane env.now s) (h : s.Timed) : s'.Timed where
  views k := by
    rcases hstep.view k with ⟨_, hview⟩ | ⟨a, _, htask⟩
    · rw [hview]
      exact h.views k
    · exact htask.timed (hs.views k) (h.views k)
  homed queue x hx := by
    rcases hstep.continuations with heq | ⟨holder, _, rfl⟩
    · exact h.homed queue x (heq ▸ hx)
    · by_cases hqueue : queue = holder.queue
      · subst hqueue
        by_cases hx' : x = holder
        · rw [hx']
        · refine h.homed holder.queue x ?_
          unfold noteContinuation at hx
          simp only [Function.update_self] at hx
          split at hx
          · rwa [SortedSet.score_add_of_ne _ _ hx'] at hx
          · rwa [SortedSet.score_remove_of_ne _ hx'] at hx
      · unfold noteContinuation at hx
        simp only [Function.update_of_ne hqueue] at hx
        exact h.homed queue x hx

theorem EnginePath.timed {P : EngineAction → Prop} (hpath : EnginePath env P b s b' s') (hs : Sane env.now s)
    (h : s.Timed) : s'.Timed :=
  hpath.preserves (I := fun _ s => s.Timed) hs h fun _ _ _ _ _ hs h hstep _ => hstep.timed hs h

/-- Without a revocation at an id, its active entry keeps its lease key. -/
theorem EnginePath.leased {P : EngineAction → Prop} {k : TaskKey} (hpath : EnginePath env P b s b' s')
    (hs : Sane env.now s) (h : (s.view k).Leased) (hP : ∀ act, P act → act.on k ≠ some .revoke) :
    (s'.view k).Leased := by
  refine hpath.preserves (I := fun _ s => (s.view k).Leased) hs h ?_
  intro b s act b' s' _ h hstep hact
  rcases hstep.view k with ⟨_, hview⟩ | ⟨a, hon, htask⟩
  · rwa [hview]
  · exact htask.leased (fun ha => hP act hact (ha ▸ hon)) h

end

theorem run_timed {calls : List Call} {e : Engine} (h : engine.Run calls e) : e.store.Timed :=
  run_preserves h (I := fun _ s => s.Timed) timed_empty fun _ _ _ _ _ _ hs h hstep => hstep.timed hs h

end EffectMQ
