import EffectMQ.Lifecycle.Advance
import EffectMQ.Lifecycle.Archive
import EffectMQ.Lifecycle.Dates
import EffectMQ.Lifecycle.Moment
import EffectMQ.Properties.Retention

/-!
# Retention windows

The settlement of a generation starts four clocks. Its result stays until its time is over and nothing holds it,
its record until its time is over and nothing holds it or somebody asks for its removal, and a dead letter stays
as long as its own expiry entry.
-/

namespace EffectMQ

open Redis Transition

/-- The dates of a generation that settled at a time under the terms of a record: the windows are still open, or
the entry is gone. -/
structure TaskView.Windows (settledAt : ℕ) (r : TaskRecord) (g : ℕ) (v : TaskView) : Prop where
  task : ∀ t, (v.dates g).task = some t → (settledAt : ℚ) + r.taskRecordRetentionMs ≤ t
  result : ∀ t, (v.dates g).result = some t → (settledAt : ℚ) + r.resultRetentionMs ≤ t
  deadLetters : ((v.dates g).deadLetter = none ∧ (v.dates g).deadLetterExpiry = none) ∨
    ((v.dates g).deadLetter = some (settledAt : ℚ) ∧
      (v.dates g).deadLetterExpiry = some ((settledAt : ℚ) + r.deadLetterRetentionMs))

section

variable {env : Env} {id : String} {v v' : TaskView} {a : TaskAction} {r r' : TaskRecord} {g : ℕ} {settledAt : ℕ}

theorem TaskView.Windows.later (h : v.Windows settledAt r g) (hlater : (v.dates g).Later env.now (v'.dates g)) :
    v'.Windows settledAt r g where
  task := hlater.task.le h.task
  result := hlater.result.le h.result
  deadLetters := by
    rcases hlater.deadLetters with ⟨hletter, hexpiry⟩ | hnone
    · rw [hletter, hexpiry]
      exact h.deadLetters
    · exact Or.inl hnone

/-- Settling opens the windows. -/
theorem TaskStep.windows_of_settles (hstep : TaskStep env id v a v') (h : v.record = some r) {outcome : Outcome}
    (hsettles : a.settles = some outcome)
    (hnone : (v.dates r.generation).deadLetter = none ∧ (v.dates r.generation).deadLetterExpiry = none) :
    v'.Windows env.clock r r.generation := by
  obtain ⟨r', hadvances, ho, hdates⟩ := hstep.dates_of_settles h hsettles
  have hletters : ((r'.dated env (v.dates r.generation)).deadLetter = none ∧
      (r'.dated env (v.dates r.generation)).deadLetterExpiry = none) ∨
      ((r'.dated env (v.dates r.generation)).deadLetter = some (env.clock : ℚ) ∧
        (r'.dated env (v.dates r.generation)).deadLetterExpiry = some ((env.clock : ℚ) + r.deadLetterRetentionMs)) := by
    cases outcome with
    | success => exact Or.inl (by simp [TaskRecord.dated, ho, hnone])
    | failure => exact Or.inr (by simp [TaskRecord.dated, ho, hadvances.deadLetterRetentionMs, Env.now])
  have htask : (r'.dated env (v.dates r.generation)).task = some ((env.clock : ℚ) + r.taskRecordRetentionMs) := by
    simp [TaskRecord.dated, hadvances.sameOffer.taskRecordRetentionMs, Env.now]
  have hresult : (r'.dated env (v.dates r.generation)).result = some ((env.clock : ℚ) + r.resultRetentionMs) := by
    simp [TaskRecord.dated, hadvances.sameOffer.resultRetentionMs, Env.now]
  rcases hdates with heq | heq
  · rw [← heq] at hletters htask hresult
    exact ⟨fun t ht => (Option.some.inj (htask.symm.trans ht)).le,
      fun t ht => (Option.some.inj (hresult.symm.trans ht)).le, hletters⟩
  · refine ⟨fun t ht => absurd ht (by simp [heq, Dates.disposed]), fun t ht => ?_, by rw [heq]; exact hletters⟩
    rw [heq] at ht
    exact (Option.some.inj (hresult.symm.trans ht)).le

end

/-! ### Over a run -/

def NoForce (calls : List Call) : Prop := ∀ c ∈ calls, ∀ queue id, c.op ≠ .forceRemoveTask queue id

/-- The result that a settlement left went when its time was over and nothing held it. -/
def ResultExpired (calls : List Call) (clock : ℕ) (x : TaskIdentity) (settledAt : ℕ) (date : ℚ) : Prop :=
  ∃ c b s b' s', Occurs calls c b s (.task x.key (.expireResult x.generation false)) b' s' ∧
    (∃ t, s.result x = some t ∧ t.settledAt = settledAt) ∧ s.retainedBy x = ∅ ∧ date ≤ c.env.now ∧ c.env.clock ≤ clock

/-- A settled generation was removed, or replaced by a new one, because a call asked for it. -/
def Discarded (calls : List Call) (x : TaskIdentity) : Prop :=
  ∃ c b s act b' s', Occurs calls c b s act b' s' ∧ (∃ r, s.current x = some r ∧ r.outcome.isSome) ∧
    s'.current x = none ∧ (act = .task x.key .remove ∧ c.op = .removeTask x.queue x.id ∨
      act = .task x.key .replace ∧
        ∃ a, c.op = .createTask a ∧ (a.queue, a.id) = x.key ∧ a.onDuplicate = .newGeneration)

/-- A forced removal forgot a generation. -/
def Forced (calls : List Call) (x : TaskIdentity) : Prop :=
  ∃ c b s b' s', Occurs calls c b s (.forget x) b' s' ∧ c.op = .forceRemoveTask x.queue x.id

/-- What is left at a clock of a generation that settled in the step to a store, under the terms of its record. -/
structure Honoured (calls : List Call) (clock : ℕ) (x : TaskIdentity) (settledAt : ℕ) (r : TaskRecord)
    (outcome : Outcome) (s₀ s : Store) : Prop where
  settled : (s.view x.key).terminalOutcomes x.generation = [outcome]
  windows : (s.view x.key).Windows settledAt r x.generation
  result : (∃ t, s.result x = some t ∧ t.settledAt = settledAt) ∨
    ResultExpired calls clock x settledAt (settledAt + r.resultRetentionMs) ∨ Forced calls x
  offer : ∀ r', s.current x = some r' → r.SameOffer r'
  record : r.policy outcome ≠ .delete → (s₀.view x.key).Grown (s.view x.key) ∨
    (s.current x = none ∧ (settledAt : ℚ) + r.taskRecordRetentionMs ≤ clock) ∨ Discarded calls x ∨ Forced calls x

/-- The step of a run that settles a generation. -/
structure SettledBy (calls : List Call) (x : TaskIdentity) (c : Call) (r : TaskRecord) (s s' : Store) : Prop where
  occurs : ∃ b act b', Occurs calls c b s act b' s'
  current : s.current x = some r
  before : (s.view x.key).terminalOutcomes x.generation = []
  after : (s'.view x.key).terminalOutcomes x.generation ≠ []

theorem NoForce.not_forced {calls : List Call} {x : TaskIdentity} (h : NoForce calls) : ¬ Forced calls x :=
  fun ⟨c, _, _, _, _, hoccurs, hop⟩ => h c hoccurs.mem _ _ hop

theorem Discarded.append {calls : List Call} {x : TaskIdentity} (h : Discarded calls x) (rest : List Call) :
    Discarded (calls ++ rest) x := by
  obtain ⟨c, b, s, act, b', s', hoccurs, hdiscarded⟩ := h
  exact ⟨c, b, s, act, b', s', hoccurs.append rest, hdiscarded⟩

theorem Forced.append {calls : List Call} {x : TaskIdentity} (h : Forced calls x) (rest : List Call) :
    Forced (calls ++ rest) x := by
  obtain ⟨c, b, s, b', s', hoccurs, hop⟩ := h
  exact ⟨c, b, s, b', s', hoccurs.append rest, hop⟩

theorem ResultExpired.append {calls : List Call} {clock : ℕ} {x : TaskIdentity} {settledAt : ℕ} {date : ℚ}
    (h : ResultExpired calls clock x settledAt date) {clock' : ℕ} (hclock : clock ≤ clock') (rest : List Call) :
    ResultExpired (calls ++ rest) clock' x settledAt date := by
  obtain ⟨c, b, s, b', s', hoccurs, hresult, hheld, hdate, hle⟩ := h
  exact ⟨c, b, s, b', s', hoccurs.append rest, hresult, hheld, hdate, hle.trans hclock⟩

theorem SettledBy.append {calls : List Call} {x : TaskIdentity} {c : Call} {r : TaskRecord} {s s' : Store}
    (h : SettledBy calls x c r s s') (rest : List Call) : SettledBy (calls ++ rest) x c r s s' := by
  obtain ⟨⟨b, act, b', hoccurs⟩, hcurrent, hbefore, hafter⟩ := h
  exact ⟨⟨b, act, b', hoccurs.append rest⟩, hcurrent, hbefore, hafter⟩

section

variable {calls : List Call} {clock : ℕ} {x : TaskIdentity} {settledAt : ℕ} {r : TaskRecord} {outcome : Outcome}
  {s₀ s s' : Store} {c : Call} {b b' : Busy} {act : EngineAction}

theorem Honoured.append (h : Honoured calls clock x settledAt r outcome s₀ s) {clock' : ℕ} (hclock : clock ≤ clock')
    (rest : List Call) : Honoured (calls ++ rest) clock' x settledAt r outcome s₀ s where
  settled := h.settled
  windows := h.windows
  result := h.result.imp_right fun h => h.imp (fun h => h.append hclock rest) fun h => h.append rest
  offer := h.offer
  record hpolicy := (h.record hpolicy).imp_right fun h =>
    h.imp (fun hover => ⟨hover.1, hover.2.trans (Nat.cast_le.mpr hclock)⟩) fun h =>
      h.imp (fun h => h.append rest) fun h => h.append rest

theorem Occurs.book (h : Occurs calls c b s act b' s') (k : TaskKey) (g : ℕ) : (s.view k).Book g :=
  h.preserves (I := fun _ s => (s.view k).Book g) (book_empty k g) fun _ _ _ _ _ _ hs hbook hstep =>
    hstep.book hs hbook

/-- A step that publishes no terminal event of a generation does not settle it. -/
theorem settles_eq_none {env : Env} {id : String} {v v' : TaskView} {a : TaskAction} {g : ℕ}
    (hstep : TaskStep env id v a v') (hv : v.Consistent env.now) (hevents : v'.terminalOutcomes g = v.terminalOutcomes g) :
    ∀ r, v.record = some r → r.generation = g → a.settles = none := by
  intro r hr hg
  have happend := hstep.terminalOutcomes hv hr g
  rw [hevents, if_pos hg] at happend
  simpa using happend

/-- A removal, or the replacement of a generation, is asked for. -/
theorem Op.Allows.of_discard {env : Env} {op : Op} {k : TaskKey} {a : TaskAction} (h : op.Allows env s act)
    (hon : act.on k = some a) (ha : a = .replace ∨ a = .remove) :
    act = .task k .remove ∧ op = .removeTask k.1 k.2 ∨
      act = .task k .replace ∧ ∃ args, op = .createTask args ∧ (args.queue, args.id) = k ∧
        args.onDuplicate = .newGeneration := by
  have hact : act = .task k a := by
    rcases EngineAction.on_cases hon with hact | ⟨_, _, _, _, _, rfl⟩ | ⟨_, _, _, rfl⟩ | ⟨_, _, _, _, rfl⟩
    · exact hact
    all_goals simp at ha
  subst hact
  rcases h with hsweep | hdoes
  · rcases ha with rfl | rfl <;> exact absurd hsweep (by simp [EngineAction.IsSweep])
  · rcases ha with rfl | rfl <;> cases op <;>
      simp [Op.Does, TaskAction.IsFailure, EngineAction.IsRelease, EngineAction.IsRemoval,
        EngineAction.IsForcedRemoval] at hdoes
    · exact Or.inr ⟨rfl, _, rfl, hdoes.1.symm, hdoes.2⟩
    · exact Or.inl ⟨rfl, by rw [hdoes]⟩

/-- A step after the settlement. -/
theorem Honoured.step (h : Honoured calls clock x settledAt r outcome s₀ s) (h₀ : s₀.current x = some r)
    (hoccurs : Occurs calls c b s act b' s') (hclock : clock = c.env.clock) :
    Honoured calls clock x settledAt r outcome s₀ s' := by
  have hs := hoccurs.sane
  have hbook := hoccurs.book x.key x.generation
  have hsettled : (s.view x.key).terminalOutcomes x.generation ≠ [] := by simp [h.settled]
  obtain ⟨calls', e, hrun, hperforms⟩ := hoccurs.performs
  have hstep := hoccurs.step
  have hundisturbed := (hperforms.settlement_or hrun x.key x.generation).resolve_left fun hs => hsettled hs.before.1
  have hcounted : x.generation ≤ s.generations x.key := by
    by_contra hlt
    exact hsettled (hbook.unallocated (not_le.mp hlt))
  have hoffer : ∀ r', s'.current x = some r' → r.SameOffer r' := by
    intro r' hr'
    obtain ⟨r₁, hr₁, hadvances⟩ := hstep.advances hs hcounted hr'
    exact (h.offer r₁ hr₁).trans hadvances.sameOffer
  refine ⟨hundisturbed.events.trans h.settled, ?_, ?_, hoffer, fun hpolicy => ?_⟩
  · rcases hstep.view x.key with ⟨_, hview⟩ | ⟨a, _, htask⟩
    · rw [hview]
      exact h.windows
    · exact h.windows.later (htask.later (settles_eq_none htask (hs.views _) hundisturbed.events))
  · rcases h.result with ⟨t, ht, hsettledAt⟩ | hgone
    · rcases hundisturbed.result with heq | ⟨_, rfl | ⟨rfl, hop⟩⟩
      · exact Or.inl ⟨t, heq.trans ht, hsettledAt⟩
      · refine Or.inr (Or.inl ⟨c, b, s, b', s', hoccurs, ⟨t, ht, hsettledAt⟩, ?_, ?_, hclock.ge⟩)
        · cases hstep with
          | task henabled hadmissible hlocal hline => exact not_hasRetentionHolds.mp hadmissible
        · obtain ⟨date, hdate, hdue⟩ := hstep.view_task.1.1
          exact (h.windows.result date hdate).trans hdue
      · exact Or.inr (Or.inr ⟨c, b, s, b', s', hoccurs, hop⟩)
    · exact Or.inr hgone
  · rcases h.record hpolicy with hgrown | hover | hgone
    · obtain ⟨hrecord₀, hgeneration₀⟩ := current_eq_some_iff.mp h₀
      obtain ⟨r₁, hr₁, hgeneration₁, _⟩ := hgrown r hrecord₀
      have hcurrent₁ : s.current x = some r₁ := current_eq_some_iff.mpr ⟨hr₁, hgeneration₁.trans hgeneration₀⟩
      have ho₁ : r₁.outcome = some outcome := by
        have hlist := (hbook.outcome r₁ hr₁ (hgeneration₁.trans hgeneration₀)).symm.trans h.settled
        simpa [Option.toList_eq_singleton_iff] using hlist
      cases hr₂ : s'.current x with
      | some r₂ =>
        refine Or.inl ?_
        rcases hstep.view x.key with ⟨_, hview⟩ | ⟨a, _, htask⟩
        · rwa [hview]
        · have hne : (s'.view x.key).record ≠ none := by
            rw [show (s'.view x.key).record = some r₂ from (current_eq_some_iff.mp hr₂).1]
            simp
          exact hgrown.trans (htask.grown hne)
      | none =>
        obtain ⟨a, hon, htask, hnext⟩ := hstep.lost hs hcurrent₁ hr₂
        have hdiscarded : a = .replace ∨ a = .remove → Discarded calls x := fun ha =>
          ⟨c, b, s, act, b', s', hoccurs, ⟨r₁, hcurrent₁, by simp [ho₁]⟩, hr₂, hperforms.allowed.of_discard hon ha⟩
        rcases TaskAction.lost_cases hnext with rfl | rfl | rfl | ⟨g, rfl⟩ | ⟨outcome', ho', hdelete⟩
        · exact Or.inr (Or.inr (Or.inl (hdiscarded (Or.inl rfl))))
        · obtain ⟨r', hsettled', date, hdate, hdue⟩ := htask.1
          obtain rfl := Option.some.inj (hr₁.symm.trans hsettled'.record)
          rw [hgeneration₁.trans hgeneration₀] at hdate
          refine Or.inr (Or.inl ⟨rfl, (h.windows.task date hdate).trans ?_⟩)
          rw [hclock]
          exact hdue
        · exact Or.inr (Or.inr (Or.inl (hdiscarded (Or.inr rfl))))
        · have hforget : act = .forget ⟨x.queue, x.id, g⟩ := by
            rcases EngineAction.on_cases hon with rfl | ⟨_, _, _, _, _, ha⟩ | ⟨y, rfl, hy, ha⟩ | ⟨_, _, _, _, ha⟩
            · cases hstep with
              | task henabled hadmissible hlocal hline => exact absurd hadmissible (by simp [TaskAction.Admissible])
            · exact absurd ha (by simp)
            · obtain rfl := TaskAction.forget.inj ha
              obtain ⟨hqueue, hid⟩ := Prod.mk.inj hy
              rw [← hqueue, ← hid]
            · exact absurd ha (by simp)
          have hg : g = x.generation := (htask.1.1 r₁ hr₁).symm.trans (hgeneration₁.trans hgeneration₀)
          subst hg hforget
          exact Or.inr (Or.inr (Or.inr ⟨c, b, s, b', s', hoccurs, hperforms.allowed.of_forget.1⟩))
        · rw [settles_eq_none htask (hs.views _) hundisturbed.events r₁ hr₁ (hgeneration₁.trans hgeneration₀), ho₁] at ho'
          obtain rfl := Option.some.inj ho'
          exact absurd ((h.offer r₁ hcurrent₁).policy outcome ▸ hdelete) hpolicy
    · refine Or.inr (Or.inl ⟨Option.eq_none_iff_forall_ne_some.mpr fun r' hr' => ?_, hover.2⟩)
      obtain ⟨r₁, hr₁, _⟩ := hstep.advances hs hcounted hr'
      exact absurd (hr₁.symm.trans hover.1) (by simp)
    · exact Or.inr (Or.inr hgone)

/-- The step that settles a generation opens its windows. -/
theorem Occurs.settles (hoccurs : Occurs calls c b s act b' s')
    (hsettlement : (s.view x.key).Settlement x.generation (s'.view x.key))
    (hnone : ((s.view x.key).dates x.generation).deadLetter = none ∧
      ((s.view x.key).dates x.generation).deadLetterExpiry = none) :
    ∃ r outcome, SettledBy calls x c r s s' ∧
      Honoured calls c.env.clock x c.env.clock r outcome s s' := by
  have hs := hoccurs.sane
  have hstep := hoccurs.step
  obtain ⟨r, hrunning, hg⟩ := hsettlement.running
  obtain ⟨t, ht, hevents, hrecord⟩ := hsettlement.after
  rcases hstep.view x.key with ⟨_, hview⟩ | ⟨a, hon, htask⟩
  · rw [hview, hsettlement.before.1] at hevents
    exact absurd hevents (by simp)
  have hsettles : a.settles = some t.outcome := by
    have happend := htask.terminalOutcomes (hs.views _) hrunning.record x.generation
    rw [hevents, hsettlement.before.1, if_pos hg, List.nil_append] at happend
    simpa [Option.toList_eq_singleton_iff] using happend.symm
  have hcurrent : s.current x = some r := current_eq_some_iff.mpr ⟨hrunning.record, hg⟩
  refine ⟨r, t.outcome, ⟨⟨b, act, b', hoccurs⟩, hcurrent, hsettlement.before.1, by simp [hevents]⟩, hevents, ?_,
    ?_, fun r' hr' => ?_, fun hpolicy => Or.inl (htask.grown fun hlost => ?_)⟩
  · rw [← hg] at hnone ⊢
    exact htask.windows_of_settles hrunning.record hsettles hnone
  · obtain ⟨t', ht', _, hsettledAt⟩ := htask.result_of_settles hrunning.record hsettles
    rw [hg] at ht'
    exact Or.inl ⟨t', by rw [← Function.update_self x.generation (some t') (s.view x.key).result, ← ht']; rfl, hsettledAt⟩
  · exact htask.sameOffer (hs.views _) hrunning.record (current_eq_some_iff.mp hr').1
  · rcases TaskAction.lost_cases (htask.next_of_lost (hs.views _) hrunning.record hlost) with
      rfl | rfl | rfl | ⟨g, rfl⟩ | ⟨outcome, ho, hdelete⟩
    · exact absurd hsettles (by simp [TaskAction.settles])
    · exact absurd hsettles (by simp [TaskAction.settles])
    · exact absurd hsettles (by simp [TaskAction.settles])
    · exact absurd hsettles (by simp [TaskAction.settles])
    · rw [hsettles] at ho
      obtain rfl := Option.some.inj ho
      exact hpolicy hdelete

end

/-- A generation that settled did so in a step of the run, and its windows were honoured since. -/
structure TrackRecord (x : TaskIdentity) (calls : List Call) (clock : ℕ) (s : Store) : Prop where
  unsettled : (s.view x.key).terminalOutcomes x.generation = [] →
    ((s.view x.key).dates x.generation).deadLetter = none ∧ ((s.view x.key).dates x.generation).deadLetterExpiry = none
  settled : (s.view x.key).terminalOutcomes x.generation ≠ [] → ∃ c r outcome s₀ s₁, SettledBy calls x c r s₀ s₁ ∧
    Honoured calls clock x c.env.clock r outcome s₀ s

theorem trackRecord (x : TaskIdentity) : MomentInvariant fun calls clock _ s => TrackRecord x calls clock s := by
  constructor
  · refine ⟨fun _ => ⟨rfl, rfl⟩, fun hne => absurd ?_ hne⟩
    simp [TaskView.terminalOutcomes, Store.view, Store.log, Store.empty, Stream.empty]
  · rintro calls c clock s hle ⟨hunsettled, hsettled⟩
    refine ⟨hunsettled, fun hne => ?_⟩
    obtain ⟨d, r, outcome, s₀, s₁, hby, hhonoured⟩ := hsettled hne
    exact ⟨d, r, outcome, s₀, s₁, hby.append [c], hhonoured.append hle [c]⟩
  · rintro calls c b s act b' s' hoccurs ⟨hunsettled, hsettled⟩
    have hs := hoccurs.sane
    obtain ⟨calls', e', hrun, hperforms⟩ := hoccurs.performs
    rcases hperforms.settlement_or hrun x.key x.generation with hsettlement | hundisturbed
    · obtain ⟨t, _, hevents, _⟩ := hsettlement.after
      obtain ⟨r, outcome, hby, hhonoured⟩ := hoccurs.settles hsettlement (hunsettled hsettlement.before.1)
      exact ⟨fun hempty => absurd (hevents.symm.trans hempty) (by simp),
        fun _ => ⟨c, r, outcome, s, s', hby, hhonoured⟩⟩
    · refine ⟨fun hempty => ?_, fun hne => ?_⟩
      · have hnone := hunsettled (hundisturbed.events.symm.trans hempty)
        rcases hperforms.step.view x.key with ⟨_, hview⟩ | ⟨a, _, htask⟩
        · rwa [hview]
        · rcases (htask.later (settles_eq_none htask (hs.views _) hundisturbed.events)).deadLetters with
            ⟨hletter, hexpiry⟩ | hnone'
          · exact ⟨hletter.trans hnone.1, hexpiry.trans hnone.2⟩
          · exact hnone'
      · obtain ⟨d, r, outcome, s₀, s₁, hby, hhonoured⟩ := hsettled (by rwa [← hundisturbed.events])
        exact ⟨d, r, outcome, s₀, s₁, hby, hhonoured.step hby.current hoccurs rfl⟩

/-- A settled generation of a run without forced removals keeps its result until a moment when the result's time was
over and nothing held it, and its record, unless its policy deletes it, until the record's time is over and nothing
holds it or a call asked for its removal or replacement. In any run a generation is a dead letter exactly as long
as it has its own dead-letter expiry. -/
theorem run_retentionWindows {calls : List Call} {e : Engine} (h : engine.Run calls e) (x : TaskIdentity) :
    ((e.store.view x.key).terminalOutcomes x.generation = [] →
      (e.store.expiry x.queue).deadLetters.score x = none ∧ (e.store.expiry x.queue).deadLetterExpiry.score x = none) ∧
    ((e.store.view x.key).terminalOutcomes x.generation ≠ [] → ∃ c r outcome s₀ s₁, SettledBy calls x c r s₀ s₁ ∧
      (e.store.view x.key).terminalOutcomes x.generation = [outcome] ∧
      (NoForce calls →
        ((∃ t, e.store.result x = some t ∧ t.settledAt = c.env.clock) ∨
          ResultExpired calls e.clock x c.env.clock (c.env.clock + r.resultRetentionMs)) ∧
        (r.policy outcome ≠ .delete → (s₀.view x.key).Grown (e.store.view x.key) ∨
          ((c.env.clock : ℚ) + r.taskRecordRetentionMs ≤ e.clock ∧ e.store.retainedBy x = ∅) ∨ Discarded calls x)) ∧
      ((e.store.expiry x.queue).deadLetters.score x = none ∧ (e.store.expiry x.queue).deadLetterExpiry.score x = none ∨
        (e.store.expiry x.queue).deadLetters.score x = some (c.env.clock : ℚ) ∧
          (e.store.expiry x.queue).deadLetterExpiry.score x = some ((c.env.clock : ℚ) + r.deadLetterRetentionMs))) := by
  obtain ⟨hunsettled, hsettled⟩ := (trackRecord x).run h
  refine ⟨hunsettled, fun hne => ?_⟩
  obtain ⟨c, r, outcome, s₀, s₁, hby, hhonoured⟩ := hsettled hne
  refine ⟨c, r, outcome, s₀, s₁, hby, hhonoured.settled, fun hforce => ⟨?_, fun hpolicy => ?_⟩,
    hhonoured.windows.deadLetters⟩
  · exact hhonoured.result.imp_right fun h => h.resolve_right hforce.not_forced
  rcases hhonoured.record hpolicy with hgrown | hover | hdiscarded | hforced
  · exact Or.inl hgrown
  · refine Or.inr (Or.inl ⟨hover.2, ?_⟩)
    by_contra hheld
    obtain ⟨r', hr'⟩ := (run_kept h).stored x hheld
    exact absurd (hr'.symm.trans hover.1) (by simp)
  · exact Or.inr (Or.inr hdiscarded)
  · exact absurd hforced hforce.not_forced

/-- The calls are an offer, a lease and a failure. -/
def showsFailed (calls : List Call) : Bool :=
  match calls with
  | [c, d, f] => decide (c.op = .createTask { CreateArgs.default "mail" "a" with onFailurePolicy := .keep } ∧
      d.op = .takeTask "mail" "token" (some 30000) ∧
      f.op = .writeError "mail" "token" "a" (.string "lost") (some (-1)))
  | _ => false

/-- A task that failed under a keep policy is a dead letter, and its result and its record are there. -/
theorem run_retentionWindows_failed : ∃ calls e, engine.Run calls e ∧ NoForce calls ∧
    ∃ c r s₀ s₁, SettledBy calls ⟨"mail", "a", 1⟩ c r s₀ s₁ ∧
      (e.store.expiry "mail").deadLetters.score ⟨"mail", "a", 1⟩ = some (c.env.clock : ℚ) ∧
      (e.store.expiry "mail").deadLetterExpiry.score ⟨"mail", "a", 1⟩ =
        some ((c.env.clock : ℚ) + r.deadLetterRetentionMs) := by
  obtain ⟨calls, e, h, hplayed⟩ := @play_run
    [(.at 1, .createTask { CreateArgs.default "mail" "a" with onFailurePolicy := .keep }),
      (.at 2, .takeTask "mail" "token" (some 30000)),
      (.at 3, .writeError "mail" "token" "a" (.string "lost") (some (-1)))]
    (fun calls e => decide ((e.store.view ("mail", "a")).terminalOutcomes 1 = [.failure] ∧
      ((e.store.expiry "mail").deadLetters.score ⟨"mail", "a", 1⟩).isSome) &&
      showsFailed calls) (by decide +kernel)
  rw [Bool.and_eq_true] at hplayed
  obtain ⟨houtcome, hletter⟩ := of_decide_eq_true hplayed.1
  have hcalls := hplayed.2
  unfold showsFailed at hcalls
  split at hcalls
  case h_2 => exact absurd hcalls (by simp)
  case h_1 c d f =>
    obtain ⟨hc, hd, hf⟩ := of_decide_eq_true hcalls
    have hforce : NoForce [c, d, f] := by simp [NoForce, hc, hd, hf]
    have hsettled : (e.store.view (TaskIdentity.key ⟨"mail", "a", 1⟩)).terminalOutcomes 1 ≠ [] := by
      rw [show (e.store.view (TaskIdentity.key ⟨"mail", "a", 1⟩)).terminalOutcomes 1 = [.failure] from houtcome]
      simp
    obtain ⟨c', r, outcome, s₀, s₁, hby, _, _, hletters⟩ := (run_retentionWindows h ⟨"mail", "a", 1⟩).2 hsettled
    refine ⟨_, e, h, hforce, c', r, s₀, s₁, hby, ?_⟩
    rcases hletters with ⟨hnone, _⟩ | hdates
    · rw [hnone] at hletter
      exact absurd hletter (by simp)
    · exact hdates

end EffectMQ
