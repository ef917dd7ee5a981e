import EffectMQ.Lifecycle.Holds
import EffectMQ.Properties.StatePath
import EffectMQ.TaskState.Model

/-!
# The engine and the reference model

A model represents a store when it has the same tasks, each with the counts and the holders of its record, in the state that
the record is in. A task that is scheduled is one that is retried; of a task that waits, the record does not tell whether it
was. A step of the engine is matched by operations of the model that all succeed.
-/

namespace EffectMQ

open Redis Transition

/-- The reference model of all queues. -/
abbrev QueueModel := TaskStateModel TaskKey TaskIdentity

abbrev QueueOp := ModelOp TaskKey TaskIdentity

/-- A task of the model stands for a record. A lease of the model may outlive the lock of the engine. -/
structure ModelTask.Represents (t : ModelTask TaskKey TaskIdentity) (k : TaskKey) (lock : Option Lock) (r : TaskRecord)
    (retainedBy : Finset TaskIdentity) : Prop where
  id : t.id = k
  generation : t.generation = r.generation
  handlerFailureCount : t.handlerFailureCount = r.handlerFailureCount
  stalledAttemptCount : t.stalledAttemptCount = r.stalledAttemptCount
  retainedBy : t.retainedBy = retainedBy
  settled : ∀ outcome, r.outcome = some outcome → t.state = outcome.state ∧ t.leaseToken = none
  leased : r.outcome = none → r.place = some .active →
    t.state = .leased ∧ ∃ token, t.leaseToken = some token ∧ ∀ l, lock = some l → l.token = token
  runnable : r.outcome = none → r.place ≠ some .active →
    (t.state = .waiting ∨ t.state = .retryScheduled) ∧ t.leaseToken = none
  scheduled : r.place = some .scheduled → t.state = .retryScheduled

/-- A model stands for a store. -/
structure Represents (model : QueueModel) (s : Store) : Prop where
  absent : ∀ k, s.task k = none → model.tasks k = none
  present : ∀ k r, s.task k = some r →
    ∃ t, model.tasks k = some t ∧ t.Represents k (s.lock k) r (s.retainedBy ⟨k.1, k.2, r.generation⟩)

/-- Two stores differ at one task only. -/
structure Elsewhere (k : TaskKey) (s s' : Store) : Prop where
  view : ∀ k', k' ≠ k → s'.view k' = s.view k'
  retainedBy : ∀ x : TaskIdentity, (x.queue, x.id) ≠ k → s'.retainedBy x = s.retainedBy x

section

variable {model model' : QueueModel} {s s' : Store} {k : TaskKey} {t : ModelTask TaskKey TaskIdentity} {r r' : TaskRecord}
  {lock lock' : Option Lock} {held : Finset TaskIdentity}

theorem represents_empty : Represents .make Store.empty where
  absent _ _ := rfl
  present k r hr := absurd hr (by simp [Store.empty])

/-- A change that the model does not see. -/
theorem ModelTask.Represents.congr (h : t.Represents k lock r held) (hgeneration : r'.generation = r.generation)
    (hhandler : r'.handlerFailureCount = r.handlerFailureCount) (hstalled : r'.stalledAttemptCount = r.stalledAttemptCount)
    (ho : r'.outcome = r.outcome) (hplace : r.outcome = none → (r'.place = some .active ↔ r.place = some .active))
    (hscheduled : r'.place = some .scheduled → r.place = some .scheduled)
    (hlock : ∀ l', lock' = some l' → ∃ l, lock = some l ∧ l'.token = l.token) : t.Represents k lock' r' held where
  id := h.id
  generation := h.generation.trans hgeneration.symm
  handlerFailureCount := h.handlerFailureCount.trans hhandler.symm
  stalledAttemptCount := h.stalledAttemptCount.trans hstalled.symm
  retainedBy := h.retainedBy
  settled outcome hout := h.settled outcome (ho ▸ hout)
  leased hout hactive := by
    rw [ho] at hout
    obtain ⟨hstate, token, htoken, hl⟩ := h.leased hout ((hplace hout).mp hactive)
    refine ⟨hstate, token, htoken, fun l' hl' => ?_⟩
    obtain ⟨l, hlock, heq⟩ := hlock l' hl'
    exact heq.trans (hl l hlock)
  runnable hout hactive := by
    rw [ho] at hout
    exact h.runnable hout fun hplace' => hactive ((hplace hout).mpr hplace')
  scheduled hplace' := h.scheduled (hscheduled hplace')

namespace Represents

theorem frame (h : Represents model s) (helse : Elsewhere k s s') (hm : ∀ k', k' ≠ k → model'.tasks k' = model.tasks k')
    (habsent : s'.task k = none → model'.tasks k = none)
    (hpresent : ∀ r', s'.task k = some r' →
      ∃ t, model'.tasks k = some t ∧ t.Represents k (s'.lock k) r' (s'.retainedBy ⟨k.1, k.2, r'.generation⟩)) :
    Represents model' s' where
  absent k' hnone := by
    by_cases hk : k' = k
    · subst hk
      exact habsent hnone
    · rw [hm k' hk]
      exact h.absent k' ((congrArg TaskView.record (helse.view k' hk)).symm.trans hnone)
  present k' r hr := by
    by_cases hk : k' = k
    · subst hk
      exact hpresent r hr
    · obtain ⟨t, ht, hshows⟩ := h.present k' r ((congrArg TaskView.record (helse.view k' hk)).symm.trans hr)
      refine ⟨t, (hm k' hk).trans ht, ?_⟩
      rw [helse.retainedBy ⟨k'.1, k'.2, r.generation⟩ hk]
      have hlock : s'.lock k' = s.lock k' := congrArg TaskView.lock (helse.view k' hk)
      rw [hlock]
      exact hshows

/-- The model replaces the task. -/
theorem replaced (h : Represents model s) (helse : Elsewhere k s s') (hr' : s'.task k = some r')
    (ht : t.Represents k (s'.lock k) r' (s'.retainedBy ⟨k.1, k.2, r'.generation⟩)) :
    Represents (model.replace t) s' := by
  obtain rfl := ht.id
  refine h.frame helse (fun k' hk => Function.update_of_ne hk _ _) (fun hnone => ?_) fun r hr => ?_
  · exact absurd (hr'.symm.trans hnone) (by simp)
  · obtain rfl := Option.some.inj (hr'.symm.trans hr)
    exact ⟨t, Function.update_self .., ht⟩

/-- The model leaves the task as it is. -/
theorem kept (h : Represents model s) (helse : Elsewhere k s s') (ht : model.tasks k = some t) (hr' : s'.task k = some r')
    (hshows : t.Represents k (s'.lock k) r' (s'.retainedBy ⟨k.1, k.2, r'.generation⟩)) : Represents model s' := by
  refine h.frame helse (fun _ _ => rfl) (fun hnone => ?_) fun r hr => ?_
  · exact absurd (hr'.symm.trans hnone) (by simp)
  · obtain rfl := Option.some.inj (hr'.symm.trans hr)
    exact ⟨t, ht, hshows⟩

/-- The model removes the task. -/
theorem removed (h : Represents model s) (helse : Elsewhere k s s') (hnone : s'.task k = none) :
    Represents ⟨Function.update model.tasks k none⟩ s' := by
  refine h.frame helse (fun k' hk => Function.update_of_ne hk _ _) (fun _ => Function.update_self ..) fun r hr => ?_
  exact absurd (hnone.symm.trans hr) (by simp)

/-- The task is neither here nor there. -/
theorem missing (h : Represents model s) (helse : Elsewhere k s s') (hbefore : s.task k = none) (hafter : s'.task k = none) :
    Represents model s' := by
  refine h.frame helse (fun _ _ => rfl) (fun _ => h.absent k hbefore) fun r hr => ?_
  exact absurd (hafter.symm.trans hr) (by simp)

end Represents

/-! ### Operations that succeed -/

namespace TaskStateModel

theorem tasks_replace (model : QueueModel) (t : ModelTask TaskKey TaskIdentity) : (model.replace t).tasks t.id = some t :=
  Function.update_self ..

theorem replace_replace (model : QueueModel) {t t' : ModelTask TaskKey TaskIdentity} (hid : t'.id = t.id) :
    (model.replace t).replace t' = model.replace t' := by
  unfold replace
  rw [hid, Function.update_idem]

theorem offer_ok (hnone : model.tasks k = none) (generation : ℕ) :
    model.offer k (some generation) false = .ok (model.replace ⟨k, generation, .waiting, none, 0, 0, ∅⟩) := by
  simp only [offer, hnone]
  rfl

theorem acquire_ok (ht : model.tasks k = some t) (hstate : t.state = .waiting ∨ t.state = .retryScheduled)
    (leaseToken : String) :
    model.acquire k leaseToken = .ok (model.replace { t with state := .leased, leaseToken := some leaseToken }) := by
  simp only [acquire, find, ht, Except.bind]
  rw [if_neg]
  rcases hstate with heq | heq <;> simp [heq]

theorem currentLease_ok (ht : model.tasks k = some t) (hstate : t.state = .leased) {leaseToken : String}
    (htoken : t.leaseToken = some leaseToken) : model.currentLease k leaseToken = .ok t := by
  simp only [currentLease, find, ht, Except.bind]
  rw [if_pos ⟨hstate, htoken⟩]

theorem expire_ok (ht : model.tasks k = some t) (hstate : t.state = .leased) (maxStalledCount : ℕ) :
    model.expire k maxStalledCount = .ok (model.replace
      { t with
        state := if maxStalledCount < t.stalledAttemptCount + 1 then .failed else .waiting
        leaseToken := none
        stalledAttemptCount := t.stalledAttemptCount + 1 }) := by
  simp only [expire, find, ht, Except.bind]
  rw [if_neg (not_not_intro hstate)]

theorem remove_ok (ht : model.tasks k = some t) (hstate : t.state = .succeeded ∨ t.state = .failed)
    (hfree : t.retainedBy = ∅) : model.remove k = .ok ⟨Function.update model.tasks k none⟩ := by
  simp only [remove, find, ht, Except.bind]
  rw [if_neg, if_neg (not_not_intro hfree)]
  rcases hstate with heq | heq <;> simp [heq]

theorem retain_ok (ht : model.tasks k = some t) (holder : TaskIdentity) :
    model.retain k holder = .ok (model.replace { t with retainedBy := insert holder t.retainedBy }) := by
  simp only [retain, find, ht, Except.map]

theorem release_ok (ht : model.tasks k = some t) (holder : TaskIdentity) :
    model.release k holder = .ok (model.replace { t with retainedBy := t.retainedBy.erase holder }) := by
  simp only [release, find, ht, Except.map]

end TaskStateModel

/-- An offer on behalf of a holder. -/
theorem heldOffer_path (hnone : model.tasks k = none) (generation : ℕ) (holder : TaskIdentity) :
    (reference TaskKey TaskIdentity).Path model [.offer k (some generation) false, .retain k holder]
      (model.replace ⟨k, generation, .waiting, none, 0, 0, insert holder ∅⟩) := by
  have hretain := TaskStateModel.retain_ok
    (TaskStateModel.tasks_replace model ⟨k, generation, .waiting, none, 0, 0, ∅⟩) holder
  have hoffer : model.apply (.offer k (some generation) false) = .ok (model.replace ⟨k, generation, .waiting, none, 0, 0, ∅⟩) :=
    TaskStateModel.offer_ok hnone generation
  refine (System.Path.single hoffer).trans (.single (hretain.trans (congrArg Except.ok ?_)))
  exact TaskStateModel.replace_replace model rfl

theorem Outcome.state_cases (outcome : Outcome) : outcome.state = .succeeded ∨ outcome.state = .failed := by
  cases outcome with
  | success => exact Or.inl rfl
  | failure => exact Or.inr rfl

end

end EffectMQ
