import EffectMQ.Lifecycle.Upkeep

/-!
# The backlog of a queue

The work that the due entries of a queue stand for. A lease that ran out stands for more than its own entry, because its
task may settle, which dates it and leaves holds to release; a continuation stands for one unit and one for every hold
that is left. No step of a sweep adds to the backlog, and whatever handles an entry takes something off it.
-/

namespace EffectMQ

open Redis Transition

/-- The due entries of a queue, index by index. -/
def Store.dueEntries (now : ℚ) (queue : String) (s : Store) : List Member :=
  ((s.lists queue).scheduled.due now).map .delayed ++
  (((s.lists queue).active.due now).filter fun id => (s.lock (queue, id)).all fun l => l.expiresAt < now).map .lock ++
  (s.continuations queue).members.map .continuation ++
  ((s.expiry queue).tasks.due now).map .task ++ ((s.expiry queue).results.due now).map .result ++
  ((s.expiry queue).terminal.due now).map .terminal ++ ((s.expiry queue).deadLetterExpiry.due now).map .deadLetter

/-- The due entries, with the one of the holder that is being released. -/
def Store.pending (now : ℚ) (queue : String) (b : Busy) (s : Store) : Finset Member :=
  (s.dueEntries now queue).toFinset ∪ b.elim ∅ fun h => {.continuation h.1}

def Member.weight (queue : String) (s : Store) : Member → ℕ
  | .lock id => 6 + (s.retains (s.identity queue id)).card
  | .continuation x => 1 + (s.retains x).card
  | _ => 1

def Store.backlog (now : ℚ) (queue : String) (b : Busy) (s : Store) : ℕ := ∑ m ∈ s.pending now queue b, m.weight queue s

section

variable {env : Env} {queue id : String} {v v' : TaskView} {a : TaskAction} {b b' : Busy} {s s' : Store}
  {act : EngineAction} {g : ℕ} {m : Member} {now : ℚ}

theorem Member.weight_pos (m : Member) : 0 < m.weight queue s := by
  cases m <;> simp only [Member.weight] <;> omega

theorem mem_due_of_nonneg {α : Type} [DecidableEq α] [MemberOrder α] {z : SortedSet α} {x : α} (now : ℚ)
    (h : ∀ t, z.score x = some t → 0 ≤ t) :
    x ∈ z.due now ↔ ∃ t, z.score x = some t ∧ t ≤ now := by
  rw [SortedSet.mem_due_iff]
  exact ⟨fun ⟨t, ht, _, hle⟩ => ⟨t, ht, hle⟩, fun ⟨t, ht, hle⟩ => ⟨t, ht, h t ht, hle⟩⟩

theorem mem_dueEntries (hs : s.Homed) (ht : s.Timed) : m ∈ s.dueEntries now queue ↔ m.Due now queue s := by
  have hdates : ∀ (x : TaskIdentity) (date : Dates → Option ℚ), date Dates.none = none →
      (∀ d : Dates, date d ∈ [d.task, d.result, d.terminal, d.deadLetter, d.deadLetterExpiry]) →
      ∀ t, date ((s.expiry queue).dates x) = some t → 0 ≤ t := by
    intro x date hnone hmem t hdate
    obtain ⟨_, hview⟩ := dates_of_homed hs hnone hdate
    exact (ht.views (queue, x.id)).nonneg x.generation _ (hmem _) t hview
  cases m with
  | delayed id =>
    simp [Store.dueEntries, Member.Due, mem_due_of_nonneg now (ht.views (queue, id)).scheduled]
  | lock id =>
    simp [Store.dueEntries, Member.Due, mem_due_of_nonneg now (ht.views (queue, id)).active, Option.all_eq_true]
  | continuation x => simp [Store.dueEntries, Member.Due, SortedSet.mem_members_iff]
  | task x =>
    simp [Store.dueEntries, Member.Due, mem_due_of_nonneg now (hdates x Dates.task rfl (by simp))]
  | result x =>
    simp [Store.dueEntries, Member.Due, mem_due_of_nonneg now (hdates x Dates.result rfl (by simp))]
  | terminal x =>
    simp [Store.dueEntries, Member.Due, mem_due_of_nonneg now (hdates x Dates.terminal rfl (by simp))]
  | deadLetter x =>
    simp [Store.dueEntries, Member.Due, mem_due_of_nonneg now (hdates x Dates.deadLetterExpiry rfl (by simp))]

theorem mem_pending (hs : s.Homed) (ht : s.Timed) :
    m ∈ s.pending now queue b ↔ m.Due now queue s ∨ ∃ h, b = some h ∧ m = .continuation h.1 := by
  rw [Store.pending, Finset.mem_union, List.mem_toFinset, mem_dueEntries hs ht]
  cases b <;> simp

/-! ### What a step leaves -/

theorem stallTime_not_later (env : Env) (v : TaskView) : ¬ env.now < v.stallTime := by
  have hnow := env.now_nonneg
  unfold TaskView.stallTime
  split <;> linarith

/-- A sweep gives no id a deadline. -/
theorem TaskStep.deadline_of_sweeps (hstep : TaskStep env id v a v') (ha : a.Sweeps) (hv : v.Consistent env.now)
    {l : TaskList} (hl : l = .scheduled ∨ l = .active) {t : ℚ} (hscore : v'.score l = some t) :
    v.score l = some t ∧ v'.lock = v.lock ∧
      v'.record.map TaskRecord.generation = v.record.map TaskRecord.generation := by
  have hrunnable : ∀ {r : TaskRecord}, r.place = some l →
      r.place = some .wait ∨ r.place = some .scheduled ∨ r.place = some .active := fun hplace => by
    rcases hl with rfl | rfl
    · exact Or.inr (Or.inl hplace)
    · exact Or.inr (Or.inr hplace)
  have hv' := hstep.consistent hv
  by_cases hlive : ∀ r, ¬ v.Settled r
  · rcases hstep.runnable ha hlive with ⟨rfl, _⟩ | ⟨error, rfl | ⟨held, rfl⟩, r, hrunning⟩ |
      ⟨hscheduled, hactive, hlock, hgeneration⟩
    · rw [hstep.2, TaskAction.apply] at hscore
      rcases hl with rfl | rfl <;> exact absurd hscore (by simp)
    · rw [hstep.2, TaskAction.apply, if_neg (stallTime_not_later env v)] at hscore
      rcases hl with rfl | rfl <;> exact absurd hscore (by simp)
    · obtain ⟨history, hrecord⟩ := TaskView.record_exhausted env id hrunning.record .stalled error v.stallTime
      obtain ⟨hscheduled, hactive⟩ := @TaskView.score_settle env id _ _ _ hrecord rfl error held
      rw [hstep.2, TaskAction.apply] at hscore
      rcases hl with rfl | rfl
      · exact absurd hscore (by simp [hscheduled])
      · exact absurd hscore (by simp [hactive])
    · refine ⟨?_, hlock, hgeneration⟩
      rcases hl with rfl | rfl
      · rwa [hscheduled] at hscore
      · rwa [hactive] at hscore
  · -- a settled record stays settled, and is in neither list
    obtain ⟨r, hsettled⟩ := not_forall_not.mp hlive
    obtain ⟨r', hr', hplace⟩ := record_of_score hv' hscore
    obtain ⟨outcome, ho⟩ := Option.isSome_iff_exists.mp hsettled.outcome
    have houtcome := (hstep.record_outcome hv hsettled.record hr').2
    rw [(hv'.placed r' hr').outcome_eq_none (hrunnable hplace), ho] at houtcome
    cases hsettles : a.settles <;> simp [hsettles] at houtcome

theorem Postponed.due {date date' : Option ℚ} (h : Postponed now date date') (h' : ∃ t, date' = some t ∧ t ≤ now) :
    ∃ t, date = some t ∧ t ≤ now := by
  obtain ⟨t, ht, hle⟩ := h'
  rcases h with rfl | rfl | ⟨t₀, hdate, hdue, rfl⟩
  · exact ⟨t, ht, hle⟩
  · exact absurd ht (by simp)
  · exact ⟨t₀, hdate, hdue⟩

theorem Dates.Later.due_deadLetter {d d' : Dates} (h : d.Later now d') (h' : ∃ t, d'.deadLetterExpiry = some t ∧ t ≤ now) :
    ∃ t, d.deadLetterExpiry = some t ∧ t ≤ now := by
  obtain ⟨t, ht, hle⟩ := h'
  rcases h.deadLetters with ⟨_, heq⟩ | ⟨_, hnone⟩
  · exact ⟨t, heq ▸ ht, hle⟩
  · exact absurd ht (by simp [hnone])

/-- Only a settlement gives dates to a generation. -/
theorem EngineStep.later (hstep : EngineStep env b s act b' s') {x : TaskIdentity}
    (hother : ∀ a, act.on (x.queue, x.id) = some a → a.settles = none ∨ s.identity x.queue x.id ≠ x) :
    ((s.view (x.queue, x.id)).dates x.generation).Later env.now ((s'.view (x.queue, x.id)).dates x.generation) := by
  rcases hstep.view (x.queue, x.id) with ⟨_, hview⟩ | ⟨a, hon, htask⟩
  · rw [hview]
    exact .refl _ _
  · refine htask.later fun r hr hgeneration => ?_
    rcases hother a hon with hnone | hne
    · exact hnone
    · exact absurd (identity_of_current (current_eq_some_iff.mpr ⟨hr, hgeneration⟩)) hne

/-- What a settlement may leave to do. -/
def fallout (x : TaskIdentity) : Finset Member := {.task x, .result x, .terminal x, .deadLetter x, .continuation x}

theorem EngineAction.Maintains.settles_or (hact : act.Maintains queue s) {x : TaskIdentity} :
    (∀ a, act.on (x.queue, x.id) = some a → a.settles = none ∨ s.identity x.queue x.id ≠ x) ∨
      ∃ id a, act = .task (queue, id) a ∧ a.settles.isSome ∧ s.identity queue id = x := by
  by_cases hsettles : ∃ a, act.on (x.queue, x.id) = some a ∧ a.settles.isSome ∧ s.identity x.queue x.id = x
  · obtain ⟨a, hon, hsome, hidentity⟩ := hsettles
    obtain ⟨_, ⟨rfl, hqueue⟩ | rfl⟩ := hact.on hon
    · obtain rfl : x.queue = queue := hqueue
      exact Or.inr ⟨x.id, a, rfl, hsome, hidentity⟩
    · exact absurd hsome (by simp [TaskAction.settles])
  · refine Or.inl fun a hon => ?_
    cases hnone : a.settles with
    | none => exact Or.inl rfl
    | some outcome => exact Or.inr fun hidentity => hsettles ⟨a, hon, by rw [hnone]; rfl, hidentity⟩

theorem score_of_note {holder x : TaskIdentity}
    (h : (((noteContinuation env holder s).continuations queue).score x).isSome) :
    x = holder ∨ ((s.continuations queue).score x).isSome := by
  by_cases hx : x = holder
  · exact Or.inl hx
  · refine Or.inr ?_
    unfold noteContinuation at h
    dsimp only at h
    by_cases hqueue : queue = holder.queue
    · subst hqueue
      rw [Function.update_self] at h
      split at h
      · rwa [SortedSet.score_add_of_ne _ _ hx] at h
      · rwa [SortedSet.score_remove_of_ne _ hx] at h
    · rwa [Function.update_of_ne hqueue] at h

section

variable (hstep : EngineStep env b s act b' s') (hact : act.Maintains queue s)

include hstep hact

/-- A holder that is being released after a step was before, or it was noted, or its task settled. -/
theorem EngineStep.busy_cases {x : TaskIdentity} (h : ∃ h, b' = some h ∧ h.1 = x) :
    (∃ h, b = some h ∧ h.1 = x) ∨ ((s.continuations queue).score x).isSome ∨
      ∃ id a, act = .task (queue, id) a ∧ a.settles.isSome ∧ s.identity queue id = x := by
  obtain ⟨h, rfl, rfl⟩ := h
  generalize hb' : some h = b' at hstep
  cases hstep with
  | @task s s' k a henabled hadmissible hlocal hline =>
    have hqueue : k.1 = queue := by
      rcases hact with (⟨id, a, heq, _⟩ | hunwinds) | ⟨id, heq⟩ | ⟨holder, heq, _⟩
      · exact congrArg Prod.fst (EngineAction.task.inj heq).1
      · exact hunwinds.elim
      · exact congrArg Prod.fst (EngineAction.task.inj heq).1
      · exact absurd heq (by simp)
    subst hqueue
    cases a <;> simp only [TaskAction.busy, reduceCtorEq, Option.some.injEq] at hb'
    all_goals exact Or.inr (Or.inr ⟨k.2, _, rfl, rfl, by rw [hb']⟩)
  | start =>
    obtain rfl := Option.some.inj hb'
    rcases hact with (⟨id, a, heq, _⟩ | hunwinds) | ⟨id, heq⟩ | ⟨holder, heq, hnoted⟩
    · exact absurd heq (by simp)
    · exact hunwinds.elim
    · exact absurd heq (by simp)
    · obtain rfl := EngineAction.start.inj heq
      exact Or.inr (Or.inl hnoted)
  | pop | dropKept | dropRefiled =>
    obtain rfl := Option.some.inj hb'
    exact Or.inl ⟨_, rfl, rfl⟩
  | create | createHeld | forget | note | acquire | tick => exact absurd hb' (by simp)

/-- What is pending after a step of a sweep was pending before, or a settlement left it. -/
theorem EngineStep.pending_cases (hs : Sane env.now s) (ht : s.Timed) (hm : m ∈ s'.pending env.now queue b') :
    m ∈ s.pending env.now queue b ∨
      ∃ id a, act = .task (queue, id) a ∧ a.settles.isSome ∧ m ∈ fallout (s.identity queue id) := by
  have hs' := hstep.sane hs
  rw [mem_pending hs'.homed (hstep.timed hs ht)] at hm
  rw [mem_pending hs.homed ht]
  have hdate : ∀ (x : TaskIdentity) (date : Dates → Option ℚ), date Dates.none = none →
      (∀ {d d' : Dates}, d.Later env.now d' → (∃ t, date d' = some t ∧ t ≤ env.now) → ∃ t, date d = some t ∧ t ≤ env.now) →
      (∃ t, date ((s'.expiry queue).dates x) = some t ∧ t ≤ env.now) →
      (∃ t, date ((s.expiry queue).dates x) = some t ∧ t ≤ env.now) ∨
        ∃ id a, act = .task (queue, id) a ∧ a.settles.isSome ∧ s.identity queue id = x := by
    rintro x date hnone hlater ⟨t, hsome, hle⟩
    obtain ⟨rfl, hview⟩ := dates_of_homed hs'.homed hnone hsome
    refine (hact.settles_or (x := x)).imp_left fun hother => ?_
    exact hlater (hstep.later hother) ⟨t, hview, hle⟩
  have hscore : ∀ (id : String) (l : TaskList) (t : ℚ), l = .scheduled ∨ l = .active →
      (s'.view (queue, id)).score l = some t → (s.view (queue, id)).score l = some t ∧
        (s'.view (queue, id)).lock = (s.view (queue, id)).lock := by
    intro id l t hl hscore
    rcases hstep.view (queue, id) with ⟨_, hsame⟩ | ⟨a, hon, htask⟩
    · rw [hsame] at hscore ⊢
      exact ⟨hscore, rfl⟩
    · obtain ⟨h, hlock, _⟩ := htask.deadline_of_sweeps (hact.on hon).1 (hs.views _) hl hscore
      exact ⟨h, hlock⟩
  cases m with
  | delayed id =>
    obtain ⟨t, hdue, hle⟩ := hm.resolve_right (by simp)
    exact Or.inl (Or.inl ⟨t, (hscore id .scheduled t (Or.inl rfl) hdue).1, hle⟩)
  | lock id =>
    obtain ⟨⟨t, hdue, hle⟩, hexpired⟩ := hm.resolve_right (by simp)
    obtain ⟨hbefore, hlock⟩ := hscore id .active t (Or.inr rfl) hdue
    exact Or.inl (Or.inl ⟨⟨t, hbefore, hle⟩, fun l hl => hexpired l (hlock.trans hl)⟩)
  | continuation x =>
    rcases hm with hnoted | ⟨h, hb', heq⟩
    · rcases hstep.continuations with hsame | ⟨holder, rfl, rfl⟩
      · refine Or.inl (Or.inl ?_)
        rw [Member.Due, hsame] at hnoted
        exact hnoted
      · rcases score_of_note hnoted with rfl | hnoted
        · cases hstep with
          | note => exact Or.inl (Or.inr ⟨_, rfl, rfl⟩)
        · exact Or.inl (Or.inl hnoted)
    · rcases hstep.busy_cases hact ⟨h, hb', (Member.continuation.inj heq).symm⟩ with ⟨h', hb, rfl⟩ | hnoted |
        ⟨id, a, rfl, hsettles, rfl⟩
      · exact Or.inl (Or.inr ⟨h', hb, rfl⟩)
      · exact Or.inl (Or.inl hnoted)
      · exact Or.inr ⟨id, a, rfl, hsettles, by simp [fallout]⟩
  | task x =>
    rcases hdate x Dates.task rfl (fun h => h.task.due) (hm.resolve_right (by simp)) with hdue | ⟨id, a, rfl, hsettles, rfl⟩
    · exact Or.inl (Or.inl hdue)
    · exact Or.inr ⟨id, a, rfl, hsettles, by simp [fallout]⟩
  | result x =>
    rcases hdate x Dates.result rfl (fun h => h.result.due) (hm.resolve_right (by simp)) with hdue | ⟨id, a, rfl, hsettles, rfl⟩
    · exact Or.inl (Or.inl hdue)
    · exact Or.inr ⟨id, a, rfl, hsettles, by simp [fallout]⟩
  | terminal x =>
    rcases hdate x Dates.terminal rfl (fun h => h.terminal.due) (hm.resolve_right (by simp)) with hdue | ⟨id, a, rfl, hsettles, rfl⟩
    · exact Or.inl (Or.inl hdue)
    · exact Or.inr ⟨id, a, rfl, hsettles, by simp [fallout]⟩
  | deadLetter x =>
    rcases hdate x Dates.deadLetterExpiry rfl (fun h => h.due_deadLetter) (hm.resolve_right (by simp)) with hdue |
      ⟨id, a, rfl, hsettles, rfl⟩
    · exact Or.inl (Or.inl hdue)
    · exact Or.inr ⟨id, a, rfl, hsettles, by simp [fallout]⟩

/-- A sweep takes no hold. -/
theorem EngineStep.retains_subset (h : TaskIdentity) : s'.retains h ⊆ s.retains h := by
  cases hstep with
  | task henabled hadmissible hlocal hline => rw [hlocal.retains]
  | dropRefiled hcurrent hsettled hheld hlocal => rw [hlocal.retains, Store.unhold]
  | start | dropKept | note => exact Finset.Subset.refl _
  | @pop _ holder members _ _ =>
    by_cases hh : h = holder
    · subst hh
      exact (Function.update_self h _ s.retains).subset.trans Finset.sdiff_subset
    · exact (Function.update_of_ne hh _ _).subset
  | create | createHeld | forget | acquire | tick =>
    rcases hact with (⟨_, _, heq, _⟩ | hunwinds) | ⟨_, heq⟩ | ⟨_, heq, _⟩
    · exact absurd heq (by simp)
    · exact hunwinds.elim
    · exact absurd heq (by simp)
    · exact absurd heq (by simp)

theorem EngineStep.weight_le (hs : Sane env.now s) (hm : m ∈ s'.pending env.now queue b') (ht : s.Timed) :
    m.weight queue s' ≤ m.weight queue s := by
  rw [mem_pending (hstep.sane hs).homed (hstep.timed hs ht)] at hm
  cases m with
  | lock id =>
    obtain ⟨⟨t, hscore, _⟩, _⟩ := hm.resolve_right (by simp)
    have hidentity : s'.identity queue id = s.identity queue id := by
      rcases hstep.view (queue, id) with ⟨_, hsame⟩ | ⟨a, hon, htask⟩
      · have htask : s'.task (queue, id) = s.task (queue, id) := congrArg TaskView.record hsame
        rw [Store.identity, Store.identity, Store.generation, Store.generation, htask]
      · have hgeneration := (htask.deadline_of_sweeps (hact.on hon).1 (hs.views _) (Or.inr rfl) hscore).2.2
        exact congrArg (fun g : Option ℕ => TaskIdentity.mk queue id (g.getD 0)) hgeneration
    simp only [Member.weight, hidentity]
    exact Nat.add_le_add_left (Finset.card_le_card (hstep.retains_subset hact _)) _
  | continuation x =>
    exact Nat.add_le_add_left (Finset.card_le_card (hstep.retains_subset hact x)) _
  | delayed | task | result | terminal | deadLetter => exact le_rfl

end

/-- A due entry that is handled, but for a continuation, is not due any more. -/
theorem Member.HandledBy.gone (hstep : EngineStep env b s act b' s') (hs : Sane env.now s) (ht : s.Timed)
    (hdue : m.Due env.now queue s) (h : m.HandledBy queue s act s') (hm : ∀ x, m ≠ .continuation x) :
    ¬ m.Due env.now queue s' := by
  have hs' := hstep.sane hs
  have ht' := hstep.timed hs ht
  have hdisposed : ∀ {x : TaskIdentity} (date : Dates → Option ℚ), date Dates.none = none →
      (∀ d, (date d).isSome → d.task.isSome ∨ d.terminal.isSome) → Disposed x s s' →
      ¬ ∃ t, date ((s'.expiry queue).dates x) = some t ∧ t ≤ env.now := by
    rintro x date hnone hspeaks ⟨_, hgone⟩ ⟨t, hsome, _⟩
    obtain ⟨rfl, hview⟩ := dates_of_homed hs'.homed hnone hsome
    obtain ⟨r, hsettled, hgeneration⟩ := (ht'.views (x.queue, x.id)).settled x.generation
      (hspeaks _ (by rw [hview]; rfl))
    rw [current_eq_some_iff.mpr ⟨hsettled.record, hgeneration⟩] at hgone
    exact absurd hgone (by simp)
  have hdate : ∀ {x : TaskIdentity} {a : TaskAction} (date : Dates → Option ℚ), date Dates.none = none →
      act = .task (queue, x.id) a → (∃ t, date ((s.expiry queue).dates x) = some t ∧ t ≤ env.now) →
      (∀ v : TaskView, ∀ t, date ((a.apply env x.id v).dates x.generation) = some t → ¬ t ≤ env.now) →
      ¬ ∃ t, date ((s'.expiry queue).dates x) = some t ∧ t ≤ env.now := by
    rintro x a date hnone rfl ⟨t₀, hbefore, _⟩ hafter ⟨t, hsome, hle⟩
    obtain ⟨rfl, hview⟩ := dates_of_homed hs'.homed hnone hsome
    rw [hstep.view_task.1.2] at hview
    exact hafter _ t hview hle
  have hlater : ∀ t : ℚ, some (env.now + 1000) = some t → ¬ t ≤ env.now := by
    intro t heq
    obtain rfl := Option.some.inj heq
    linarith
  cases m with
  | delayed id =>
    obtain rfl : act = .task (queue, id) .promote := h
    rintro ⟨t, hscore, _⟩
    have hnone : (s'.view (queue, id)).score .scheduled = none := by
      rw [hstep.view_task.1.2]
      simp [TaskAction.apply]
    exact absurd (hscore.symm.trans hnone) (by simp)
  | lock id =>
    obtain ⟨a, error, hfailure, rfl⟩ := h
    rintro ⟨⟨t, hscore, _⟩, _⟩
    obtain ⟨htask, _⟩ := hstep.view_task
    have hsweeps : a.Sweeps := Or.inr (Or.inl hfailure.isUpkeep)
    have hrunning : ∃ r, (s.view (queue, id)).Running r := by
      rcases hfailure with rfl | ⟨held, rfl⟩ <;> exact htask.1.1
    obtain ⟨r, hrunning⟩ := hrunning
    have hscore' : (s'.view (queue, id)).score .active = some t := hscore
    rw [htask.2] at hscore'
    rcases hfailure with rfl | ⟨held, rfl⟩
    · rw [TaskAction.apply, if_neg (stallTime_not_later env _)] at hscore'
      exact absurd hscore' (by simp)
    · obtain ⟨history, hrecord⟩ := TaskView.record_exhausted env id hrunning.record .stalled error
        (s.view (queue, id)).stallTime
      have hnone := (@TaskView.score_settle env id _ _ _ hrecord rfl error held).2
      exact absurd (hscore'.symm.trans hnone) (by simp)
  | continuation x => exact absurd rfl (hm x)
  | task x =>
    rcases h with hgone | rfl
    · exact hdisposed Dates.task rfl (fun _ hsome => Or.inl hsome) hgone
    · exact hdate Dates.task rfl rfl hdue fun v t hsome => hlater t (by simpa [TaskAction.apply, TaskView.setDates] using hsome)
  | result x =>
    obtain ⟨held, rfl⟩ := h
    refine hdate Dates.result rfl rfl hdue fun v t hsome => ?_
    cases held with
    | true => exact hlater t (by simpa [TaskAction.apply, TaskView.expireResult, TaskView.setDates] using hsome)
    | false => simp [TaskAction.apply, TaskView.expireResult, TaskView.setDates] at hsome
  | terminal x =>
    rcases h with rfl | hgone
    · refine hdate Dates.terminal rfl rfl hdue fun v t hsome => ?_
      simp [TaskAction.apply, TaskView.expireTerminal, TaskView.setDates] at hsome
    · exact hdisposed Dates.terminal rfl (fun _ hsome => Or.inr hsome) hgone
  | deadLetter x =>
    obtain rfl : act = _ := h
    refine hdate Dates.deadLetterExpiry rfl rfl hdue fun v t hsome => ?_
    simp [TaskAction.apply, TaskView.setDates] at hsome

theorem weight_fallout (x : TaskIdentity) : ∑ m ∈ fallout x, m.weight queue s = 5 + (s.retains x).card := by
  unfold fallout
  rw [Finset.sum_insert (by simp), Finset.sum_insert (by simp), Finset.sum_insert (by simp), Finset.sum_insert (by simp),
    Finset.sum_singleton]
  simp only [Member.weight]
  omega

/-- A running attempt without a lease is due. -/
theorem due_lock_of_running (hl : (s.view (queue, id)).Leased) (hs : Sane env.now s) {r : TaskRecord}
    (hrunning : (s.view (queue, id)).Running r) (hidle : (s.view (queue, id)).leaseholder env = none) :
    (Member.lock id).Due env.now queue s := by
  have hsome : ((s.view (queue, id)).score .active).isSome :=
    ((hs.views (queue, id)).listed.score .active).mpr ⟨(TaskView.place_of_record hrunning.record).trans hrunning.place, by simp⟩
  obtain ⟨t, hscore⟩ := Option.isSome_iff_exists.mp hsome
  obtain ⟨l, hlock, rfl⟩ := hl t hscore
  have hexpired := TaskView.leaseholder_eq_none_iff.mp hidle
  exact ⟨⟨_, hscore, (hexpired l hlock).le⟩, hexpired⟩

section

variable (hstep : EngineStep env b s act b' s') (hact : act.Maintains queue s) (hs : Sane env.now s) (ht : s.Timed)

include hstep hact hs ht

/-- What a settlement leaves to do is less than the lease that it was. -/
theorem EngineStep.backlog_lt_of_settles {a : TaskAction} (hl : (s.view (queue, id)).Leased)
    (heq : act = .task (queue, id) a) (hsettles : a.settles.isSome) :
    s'.backlog env.now queue b' < s.backlog env.now queue b := by
  subst heq
  obtain ⟨htask, _⟩ := hstep.view_task
  obtain ⟨error, held, rfl⟩ : ∃ error held, a = .fail .stalled error (s.view (queue, id)).stallTime held := by
    have ha := (hact.on (k := (queue, id)) (if_pos rfl)).1
    cases a with
    | fail cause error retryAt held =>
      rcases ha with heq | ha | heq
      · exact absurd heq (by simp)
      · cases cause with
        | stalled => exact ⟨error, held, by rw [htask.1.2.1.2.2]⟩
        | reported => exact ha.elim
      · exact absurd heq (by simp)
    | succeed => rcases ha with heq | ha | heq <;> first | exact ha.elim | exact absurd heq (by simp)
    | create | promote | lease | renew | release | retry | progress | refile | replace | expireTask | dropDate | holdDate
    | expireResult | expireTerminal | expireDeadLetter | remove | revoke | forget =>
      exact absurd hsettles (by simp [TaskAction.settles])
  obtain ⟨⟨r, hrunning⟩, hauthorized, _⟩ := htask.1
  have hdue := due_lock_of_running hl hs hrunning hauthorized.1
  have hmem : Member.lock id ∈ s.pending env.now queue b := (mem_pending hs.homed ht).mpr (Or.inl hdue)
  have hgone := Member.HandledBy.gone (m := .lock id) hstep hs ht hdue ⟨_, error, Or.inr ⟨held, rfl⟩, rfl⟩ (by simp)
  have hsubset : s'.pending env.now queue b' ⊆
      (s.pending env.now queue b).erase (.lock id) ∪ fallout (s.identity queue id) := by
    intro m hm
    rw [Finset.mem_union, Finset.mem_erase]
    rcases hstep.pending_cases hact hs ht hm with hbefore | ⟨id', a', heq, _, hfallout⟩
    · refine Or.inl ⟨?_, hbefore⟩
      rintro rfl
      rw [mem_pending (hstep.sane hs).homed (hstep.timed hs ht)] at hm
      exact hgone (hm.resolve_right (by simp))
    · obtain ⟨hk, -⟩ := EngineAction.task.inj heq
      obtain rfl := (Prod.mk.inj hk).2
      exact Or.inr hfallout
  have hunion : _ = ∑ m ∈ (s.pending env.now queue b).erase (.lock id), m.weight queue s +
      ∑ m ∈ fallout (s.identity queue id), m.weight queue s := Finset.sum_union_inter
  have herase := Finset.add_sum_erase (s.pending env.now queue b) (fun m => m.weight queue s) hmem
  have hfallout := @weight_fallout queue s (s.identity queue id)
  have hlock : (Member.lock id).weight queue s = 6 + (s.retains (s.identity queue id)).card := rfl
  calc s'.backlog env.now queue b'
      ≤ ∑ m ∈ s'.pending env.now queue b', m.weight queue s :=
        Finset.sum_le_sum fun m hm => hstep.weight_le hact hs hm ht
    _ ≤ ∑ m ∈ (s.pending env.now queue b).erase (.lock id) ∪ fallout (s.identity queue id), m.weight queue s :=
        Finset.sum_le_sum_of_subset hsubset
    _ < s.backlog env.now queue b := by
        unfold Store.backlog
        omega

/-- No step of a sweep adds to the backlog. -/
theorem EngineStep.backlog_le (hl : ∀ k, (s.view k).Leased) : s'.backlog env.now queue b' ≤ s.backlog env.now queue b := by
  by_cases hsettles : ∃ id a, act = .task (queue, id) a ∧ a.settles.isSome
  · obtain ⟨id, a, heq, hsettles⟩ := hsettles
    exact (hstep.backlog_lt_of_settles hact hs ht (hl _) heq hsettles).le
  · have hsubset : s'.pending env.now queue b' ⊆ s.pending env.now queue b := fun m hm =>
      (hstep.pending_cases hact hs ht hm).resolve_right fun ⟨id, a, heq, hsome, _⟩ => hsettles ⟨id, a, heq, hsome⟩
    exact (Finset.sum_le_sum fun m hm => hstep.weight_le hact hs hm ht).trans (Finset.sum_le_sum_of_subset hsubset)

/-- Whatever handles a due entry takes something off the backlog. -/
theorem EngineStep.backlog_lt (hl : ∀ k, (s.view k).Leased) (hdue : m.Due env.now queue s) (hhandled : m.HandledBy queue s act s') :
    s'.backlog env.now queue b' < s.backlog env.now queue b := by
  by_cases hsettles : ∃ id a, act = .task (queue, id) a ∧ a.settles.isSome
  · obtain ⟨id, a, heq, hsettles⟩ := hsettles
    exact hstep.backlog_lt_of_settles hact hs ht (hl _) heq hsettles
  have hsubset : s'.pending env.now queue b' ⊆ s.pending env.now queue b := fun m hm =>
    (hstep.pending_cases hact hs ht hm).resolve_right fun ⟨id, a, heq, hsome, _⟩ => hsettles ⟨id, a, heq, hsome⟩
  have hweights := fun m hm => hstep.weight_le (m := m) hact hs hm ht
  have hmem : m ∈ s.pending env.now queue b := (mem_pending hs.homed ht).mpr (Or.inl hdue)
  have hmem' := @mem_pending queue b' s' m env.now (hstep.sane hs).homed (hstep.timed hs ht)
  have hlost : m ∉ s'.pending env.now queue b' → s'.backlog env.now queue b' < s.backlog env.now queue b := fun hnot =>
    (Finset.sum_le_sum hweights).trans_lt
      (Finset.sum_lt_sum_of_subset hsubset hmem hnot m.weight_pos fun _ _ _ => Nat.zero_le _)
  by_cases hm : ∀ x, m ≠ .continuation x
  · refine hlost fun hback => ?_
    rcases hmem'.mp hback with hdue' | ⟨h, _, heq⟩
    · exact hhandled.gone hstep hs ht hdue hm hdue'
    · exact hm _ heq
  · obtain ⟨x, rfl⟩ := not_forall_not.mp hm
    have hretains := hstep.retains_subset hact x
    rcases hhandled with ⟨members, hne, rfl⟩ | ⟨rfl, hempty⟩
    · cases hstep with
      | pop hnodup hpopped =>
        have hback := hmem'.mpr (Or.inr ⟨_, rfl, rfl⟩)
        refine (Finset.sum_lt_sum hweights ⟨_, hback, ?_⟩).trans_le (Finset.sum_le_sum_of_subset hsubset)
        obtain ⟨y, hy⟩ := List.exists_mem_of_ne_nil members hne
        refine Nat.add_lt_add_left (Finset.card_lt_card ?_) 1
        refine (Finset.ssubset_iff_of_subset hretains).mpr ⟨y, hpopped y hy, ?_⟩
        simp [hy]
    · cases hstep with
      | note =>
        refine hlost fun hback => ?_
        have hnoted : (((noteContinuation env x s).continuations queue).score x).isSome :=
          (hmem'.mp hback).resolve_right (by simp)
        have hqueue : x.queue = queue := (ht.homed queue x hdue)
        subst hqueue
        simp [noteContinuation, hempty] at hnoted

end

end

end EffectMQ
