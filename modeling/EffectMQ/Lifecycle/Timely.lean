import EffectMQ.Lifecycle.Moment
import EffectMQ.Lifecycle.Advance

/-!
# Earliest times

The delay of its offer and the retry time of every failed attempt are times before which a generation must not be
leased. A scheduled generation has a score that none of them is beyond, and they all have passed when it waits or runs.
-/

namespace EffectMQ

open Redis Transition

/-- The retry time that an event promises. -/
def Event.Promises (e : Event) (t : ℚ) : Prop :=
  ∃ error policy kind attempt, e.body = .failed error policy kind attempt false (some t)

/-- The end of the delay of a record: a delayed task has the sum as its score. -/
def TaskRecord.readyAt (r : TaskRecord) : ℚ := if 0 < r.delay then double (r.createdAt + r.delay) else r.createdAt

/-- A time before which a stored generation must not be leased. -/
def TaskView.NotBefore (v : TaskView) (r : TaskRecord) (t : ℚ) : Prop :=
  t = r.readyAt ∨ ∃ e ∈ v.log, e.generation = r.generation ∧ e.Promises t

structure TaskView.Timely (now : ℚ) (v : TaskView) : Prop where
  scheduled : ∀ r t, v.record = some r → v.NotBefore r t → r.place = some .scheduled →
    ∃ readyAt, v.score .scheduled = some readyAt ∧ t ≤ readyAt
  passed : ∀ r t, v.record = some r → v.NotBefore r t → r.place = some .wait ∨ r.place = some .active → t ≤ now
  published : ∀ e ∈ v.log, e.generation ≤ v.counter

variable {env : Env} {id : String} {now : ℚ} {v v' : TaskView} {r r' : TaskRecord} {a : TaskAction}

theorem TaskView.Timely.mono (h : v.Timely now) {now' : ℚ} (hle : now ≤ now') : v.Timely now' :=
  { h with passed := fun r t hr ht hplace => (h.passed r t hr ht hplace).trans hle }

theorem TaskAction.next_created (h : a.next env r = some r') : r'.createdAt = r.createdAt ∧ r'.delay = r.delay := by
  have hfailed : ∀ error retryAt kind, (r.failed env error retryAt kind).createdAt = r.createdAt ∧
      (r.failed env error retryAt kind).delay = r.delay := fun error retryAt kind => by
    unfold TaskRecord.failed
    split <;> exact ⟨rfl, rfl⟩
  cases a with
  | promote | lease | renew | release | create | progress | dropDate | holdDate | expireResult | expireDeadLetter
  | revoke =>
    obtain rfl := Option.some.inj h
    exact ⟨rfl, rfl⟩
  | retry cause error retryAt =>
    obtain rfl := Option.some.inj h
    exact hfailed error (retryTime retryAt) cause.kind
  | fail cause error retryAt held =>
    obtain rfl := TaskRecord.placed_eq_some h
    exact hfailed error (retryTime retryAt) cause.kind
  | succeed leaseToken result held =>
    obtain rfl := TaskRecord.placed_eq_some h
    exact ⟨rfl, rfl⟩
  | refile =>
    cases ho : r.outcome with
    | none =>
      simp only [TaskAction.next, ho, Option.elim_none] at h
      obtain rfl := Option.some.inj h
      exact ⟨rfl, rfl⟩
    | some outcome =>
      simp only [TaskAction.next, ho, Option.elim_some] at h
      obtain rfl := TaskRecord.placed_eq_some h
      exact ⟨rfl, rfl⟩
  | expireTerminal g =>
    simp only [TaskAction.next] at h
    obtain rfl := Option.some.inj h
    split
    · unfold TaskRecord.unindexed
      split <;> exact ⟨rfl, rfl⟩
    · exact ⟨rfl, rfl⟩
  | replace | expireTask | remove | forget => exact absurd h (by simp [TaskAction.next])

/-- The retry time that an action promises. -/
def TaskAction.promise : TaskAction → Option ℚ
  | .retry _ _ retryAt => retryTime retryAt
  | _ => none

/-- Only a retried failure promises a time. -/
theorem promises_of_body {body : EventBody} {t : ℚ} (hbody : body ∈ a.bodies env r)
    (ht : (r.stamp id body).Promises t) : a.promise = some t := by
  obtain ⟨error, policy, kind, attempt, heq⟩ := ht
  have hmoves : ∀ (r₁ : TaskRecord) list, body ∉ r₁.moves list := fun r₁ list hmem => by
    unfold TaskRecord.moves at hmem
    split at hmem
    · exact absurd hmem List.not_mem_nil
    · obtain rfl := List.mem_singleton.mp hmem
      exact absurd heq (by simp [TaskRecord.stamp])
  cases a with
  | promote | lease | renew | release | replace | expireTask | remove | forget => exact absurd hbody (hmoves _ _)
  | retry cause error' retryAt =>
    rcases List.mem_cons.mp hbody with rfl | hbody
    · simp only [TaskRecord.stamp, EventBody.failed.injEq] at heq
      exact heq.2.2.2.2.2
    · exact absurd hbody (hmoves _ _)
  | fail cause error' retryAt held =>
    rcases List.mem_cons.mp hbody with rfl | hbody
    · simp [TaskRecord.stamp] at heq
    · exact absurd hbody (hmoves _ _)
  | succeed leaseToken result held =>
    rcases List.mem_cons.mp hbody with rfl | hbody
    · simp [TaskRecord.stamp] at heq
    · exact absurd hbody (hmoves _ _)
  | refile =>
    cases ho : r.outcome with
    | none => simp [TaskAction.bodies, ho] at hbody
    | some outcome =>
      simp only [TaskAction.bodies, ho, Option.elim_some] at hbody
      exact absurd hbody (hmoves _ _)
  | create | progress | dropDate | holdDate | expireResult | expireTerminal | expireDeadLetter | revoke =>
    exact absurd hbody List.not_mem_nil

/-- What a step adds to the times of a stored generation. -/
theorem TaskStep.notBefore (hstep : TaskStep env id v a v') (hv : v.Consistent env.now) (h : v.record = some r)
    (h' : v'.record = some r') {t : ℚ} (ht : v'.NotBefore r' t) : v.NotBefore r t ∨ a.promise = some t := by
  obtain ⟨r₁, history, hnext, rfl⟩ := hstep.record_next hv h h'
  obtain ⟨hcreated, hdelay⟩ := TaskAction.next_created hnext
  have hgeneration := (TaskAction.next_sameOffer hnext).generation
  rcases ht with rfl | ⟨e, he, hg, hpromise⟩
  · refine Or.inl (Or.inl ?_)
    simp only [TaskRecord.readyAt, TaskRecord.withHistory, hcreated, hdelay]
  · rw [(hstep.accounted hv h).log] at he
    rcases List.mem_append.mp he with he | he
    · exact Or.inl (Or.inr ⟨e, he, hg.trans hgeneration, hpromise⟩)
    · obtain ⟨body, hbody, rfl⟩ := List.mem_map.mp he
      exact Or.inr (promises_of_body hbody hpromise)

/-- What the times of a stored generation need of a step. -/
theorem TaskView.Timely.of_step (h : v.Timely env.now) (hstep : TaskStep env id v a v') (hv : v.Consistent env.now)
    (hr : v.record = some r)
    (hkeep : ∀ r', a.next env r = some r' →
      (r'.place = some .scheduled → ∃ readyAt, v'.score .scheduled = some readyAt ∧ (∀ t, a.promise = some t → t ≤ readyAt) ∧
        (r.place = some .scheduled ∧ v.score .scheduled = some readyAt ∨ r.place = some .active ∧ env.now ≤ readyAt)) ∧
      (r'.place = some .wait ∨ r'.place = some .active → (∀ t, a.promise = some t → t ≤ env.now) ∧
        (r.place = some .wait ∨ r.place = some .active ∨
          r.place = some .scheduled ∧ TaskView.Due env (v.score .scheduled)))) : v'.Timely env.now := by
  have hcounter : v'.counter = v.counter := hstep.counter fun args replacedTask heq => by
    subst heq
    exact absurd (hr.symm.trans hstep.1) (by simp)
  have hpublished : ∀ e ∈ v'.log, e.generation ≤ v'.counter := by
    intro e he
    rw [(hstep.accounted hv hr).log] at he
    rw [hcounter]
    rcases List.mem_append.mp he with he | he
    · exact h.published e he
    · obtain ⟨body, _, rfl⟩ := List.mem_map.mp he
      exact (hv.generation r hr).1.le
  refine ⟨fun r' t hr' ht hplace => ?_, fun r' t hr' ht hplace => ?_, hpublished⟩
  · obtain ⟨r₁, history, hnext, rfl⟩ := hstep.record_next hv hr hr'
    obtain ⟨readyAt, hscore, hpromised, hbefore⟩ := (hkeep r₁ hnext).1 hplace
    refine ⟨readyAt, hscore, ?_⟩
    rcases hstep.notBefore hv hr hr' ht with hold | hnew
    · rcases hbefore with ⟨hscheduled, hsame⟩ | ⟨hactive, hlater⟩
      · obtain ⟨readyAt', hscore', hle⟩ := h.scheduled r t hr hold hscheduled
        obtain rfl := Option.some.inj (hsame.symm.trans hscore')
        exact hle
      · exact (h.passed r t hr hold (Or.inr hactive)).trans hlater
    · exact hpromised t hnew
  · obtain ⟨r₁, history, hnext, rfl⟩ := hstep.record_next hv hr hr'
    obtain ⟨hpromised, hbefore⟩ := (hkeep r₁ hnext).2 hplace
    rcases hstep.notBefore hv hr hr' ht with hold | hnew
    · rcases hbefore with hwait | hactive | ⟨hscheduled, readyAt', hscore', hdue⟩
      · exact h.passed r t hr hold (Or.inl hwait)
      · exact h.passed r t hr hold (Or.inr hactive)
      · obtain ⟨readyAt, hscore, hle⟩ := h.scheduled r t hr hold hscheduled
        obtain rfl := Option.some.inj (hscore.symm.trans hscore')
        exact hle.trans hdue
    · exact hpromised t hnew

theorem retryTime_eq_some {retryAt t : ℚ} (h : retryTime retryAt = some t) : t = retryAt := by
  unfold retryTime at h
  split at h
  · exact absurd h (by simp)
  · exact (Option.some.inj h).symm

/-- The place that a completion policy gives is none of the lists of runnable tasks. -/
theorem policy_place (policy : CompletionPolicy) {l : TaskList} (hl : l = .wait ∨ l = .active ∨ l = .scheduled) :
    policy.list ≠ some l := by
  cases policy <;> rcases hl with rfl | rfl | rfl <;> simp [CompletionPolicy.list]

/-- A settled record that a policy placed is in none of the lists of runnable tasks. -/
theorem placed_place {r₀ : TaskRecord} {policy : CompletionPolicy} {held : Bool} (h : r₀.placed policy held = some r')
    {l : TaskList} (hl : l = .wait ∨ l = .active ∨ l = .scheduled) : r'.place ≠ some l := by
  obtain rfl := TaskRecord.placed_eq_some h
  exact policy_place policy hl

/-! ### Preservation -/

/-- A new generation is bounded by the end of its delay only. -/
theorem TaskStep.notBefore_created {args : CreateArgs} {replacedTask : Option TaskRecord}
    (hstep : TaskStep env id v (.create args replacedTask) v') (h : v.Timely env.now) {t : ℚ} (hr' : v'.record = some r')
    (ht : v'.NotBefore r' t) : t = (newRecord env args (v.counter + 1)).readyAt := by
  obtain ⟨⟨history, hrecord⟩, _, hlog⟩ := hstep.created
  obtain rfl := Option.some.inj (hr'.symm.trans hrecord)
  rcases ht with rfl | ⟨e, he, hg, error, policy, kind, attempt, hbody⟩
  · rfl
  · rw [hlog] at he
    rcases List.mem_append.mp he with he | he
    · have hle := h.published e he
      have heq : e.generation = v.counter + 1 := hg
      omega
    · obtain ⟨body, hmem, rfl⟩ := List.mem_map.mp he
      cases replacedTask <;>
        · simp only [TaskAction.createBodies, List.mem_cons, List.not_mem_nil, or_false] at hmem
          rcases hmem with rfl | rfl <;> exact absurd hbody (by simp [TaskRecord.stamp])

theorem TaskStep.timely_created {args : CreateArgs} {replacedTask : Option TaskRecord}
    (hstep : TaskStep env id v (.create args replacedTask) v') (h : v.Timely env.now) : v'.Timely env.now := by
  obtain ⟨⟨history, hrecord⟩, hcounter, hlog⟩ := hstep.created
  have hplace : ∀ r', v'.record = some r' → r'.place = some (TaskAction.firstList args) := fun r' hr' => by
    obtain rfl := Option.some.inj (hr'.symm.trans hrecord)
    rfl
  refine ⟨fun r' t hr' ht hscheduled => ?_, fun r' t hr' ht hrunnable => ?_, fun e he => ?_⟩
  · obtain rfl := hstep.notBefore_created h hr' ht
    have hdelay : 0 < args.delay.getD 0 := by
      rw [hplace r' hr', TaskAction.firstList] at hscheduled
      by_contra hdelay
      rw [if_neg hdelay] at hscheduled
      exact absurd hscheduled (by simp)
    refine ⟨_, ?_, le_refl _⟩
    rw [hstep.2, TaskRecord.readyAt, if_pos (show 0 < (newRecord env args (v.counter + 1)).delay from hdelay)]
    simp only [TaskAction.apply, TaskView.announce, hdelay, ↓reduceIte, TaskView.score_move, ne_eq, reduceCtorEq,
      not_false_eq_true, and_true, entryScore]
    rfl
  · obtain rfl := hstep.notBefore_created h hr' ht
    have hdelay : ¬ 0 < args.delay.getD 0 := by
      rw [hplace r' hr', TaskAction.firstList] at hrunnable
      intro hdelay
      rw [if_pos hdelay] at hrunnable
      exact absurd hrunnable (by simp)
    rw [TaskRecord.readyAt, if_neg (show ¬ 0 < (newRecord env args (v.counter + 1)).delay from hdelay)]
    exact le_refl _
  · rw [hlog] at he
    rw [hcounter]
    rcases List.mem_append.mp he with he | he
    · exact (h.published e he).trans (Nat.le_succ _)
    · obtain ⟨body, _, rfl⟩ := List.mem_map.mp he
      exact le_refl _

/-- A step after which the generation is not runnable, or gone. -/
theorem TaskView.Timely.of_unlisted (h : v.Timely env.now) (hstep : TaskStep env id v a v') (hv : v.Consistent env.now)
    (hr : v.record = some r) (hplace : ∀ r', a.next env r = some r' → ∀ l : TaskList,
      l = .wait ∨ l = .active ∨ l = .scheduled → r'.place ≠ some l) : v'.Timely env.now := by
  refine h.of_step hstep hv hr fun r' hnext => ?_
  refine ⟨fun hscheduled => absurd hscheduled (hplace r' hnext _ (Or.inr (Or.inr rfl))), fun hrunnable => ?_⟩
  rcases hrunnable with hwait | hactive
  · exact absurd hwait (hplace r' hnext _ (Or.inl rfl))
  · exact absurd hactive (hplace r' hnext _ (Or.inr (Or.inl rfl)))

/-- A step after which the generation is where it was. -/
theorem TaskView.Timely.of_unmoved (h : v.Timely env.now) (hstep : TaskStep env id v a v') (hv : v.Consistent env.now)
    (hr : v.record = some r) (hsame : a.next env r = some r) (hnone : a.promise = none)
    (hscore : v'.score .scheduled = v.score .scheduled) : v'.Timely env.now := by
  refine h.of_step hstep hv hr fun r' hnext => ?_
  obtain rfl := Option.some.inj (hsame.symm.trans hnext)
  refine ⟨fun hscheduled => ?_, fun hrunnable => ⟨by simp [hnone], hrunnable.imp_right Or.inl⟩⟩
  obtain ⟨readyAt, hready⟩ := Option.isSome_iff_exists.mp
    ((hv.listed.score .scheduled).mpr ⟨(TaskView.place_of_record hr).trans hscheduled, by simp⟩)
  exact ⟨readyAt, hscore.trans hready, by simp [hnone], Or.inl ⟨hscheduled, hready⟩⟩

/-- A retried failure waits for its retry time, if that is still to come. -/
theorem TaskStep.timely_retry {cause : Cause} {error : LuaValue} {retryAt : ℚ}
    (hstep : TaskStep env id v (.retry cause error retryAt) v') (hv : v.Consistent env.now) (h : v.Timely env.now)
    (hr : v.record = some r) (hactive : r.place = some .active) : v'.Timely env.now := by
  refine h.of_step hstep hv hr fun r' hnext => ?_
  obtain rfl := Option.some.inj hnext
  have hplace : ((r.failed env error (retryTime retryAt) cause.kind).listed
      (some (TaskRecord.retryList env retryAt))).place = some (TaskRecord.retryList env retryAt) := rfl
  rw [hplace, TaskRecord.retryList]
  by_cases hlater : env.now < retryAt
  · simp only [if_pos hlater]
    refine ⟨fun _ => ⟨retryAt, ?_, fun t ht => (retryTime_eq_some ht).le, Or.inr ⟨hactive, hlater.le⟩⟩, fun hrunnable =>
      absurd hrunnable (by simp)⟩
    rw [hstep.2]
    simp only [TaskAction.apply, hlater, ↓reduceIte, TaskView.score_move, ne_eq, reduceCtorEq, not_false_eq_true,
      and_true, entryScore]
  · simp only [if_neg hlater]
    exact ⟨fun hscheduled => absurd hscheduled (by simp), fun _ =>
      ⟨fun t ht => (retryTime_eq_some ht).trans_le (not_lt.mp hlater), Or.inr (Or.inl hactive)⟩⟩

/-- The end of an index entry takes a settled generation out of its index, and leaves every other one. -/
theorem TaskStep.timely_expireTerminal {g : ℕ} (hstep : TaskStep env id v (.expireTerminal g) v') (hv : v.Consistent env.now)
    (h : v.Timely env.now) (hr : v.record = some r) : v'.Timely env.now := by
  by_cases hindexed : r.generation = g ∧ (r.place = some .success ∨ r.place = some .failed)
  · refine h.of_unlisted hstep hv hr fun r' hnext l hl => ?_
    simp only [TaskAction.next, if_pos hindexed.1, TaskRecord.unindexed, if_pos hindexed.2] at hnext
    obtain rfl := Option.some.inj hnext
    simp [TaskRecord.listed, TaskRecord.place]
  · refine h.of_unmoved hstep hv hr ?_ rfl ?_
    · simp only [TaskAction.next, TaskRecord.unindexed]
      split
      · next hg => rw [if_neg fun hplace => hindexed ⟨hg, hplace⟩]
      · rfl
    · rw [hstep.2]
      simp only [TaskAction.apply, TaskView.expireTerminal, TaskView.setDates]
      split <;> simp [TaskView.unindexTerminal]

theorem TaskStep.timely_recorded (hstep : TaskStep env id v a v') (hv : v.Consistent env.now) (h : v.Timely env.now)
    (hr : v.record = some r) : v'.Timely env.now := by
  have henabled := hstep.1
  have hrunning : (∃ r', v.Running r') → r.place = some .active := by
    rintro ⟨r', hrun⟩
    obtain rfl := Option.some.inj (hr.symm.trans hrun.record)
    exact hrun.place
  have hplaced : ∀ {l}, (∃ r', v.record = some r' ∧ r'.place = some l) → r.place = some l := by
    rintro l ⟨r', hr', hplace⟩
    obtain rfl := Option.some.inj (hr.symm.trans hr')
    exact hplace
  cases a with
  | create => exact absurd (hr.symm.trans henabled) (by simp)
  | promote =>
    refine h.of_step hstep hv hr fun r' hnext => ?_
    obtain rfl := Option.some.inj hnext
    refine ⟨fun hscheduled => absurd hscheduled (by simp [TaskRecord.listed, TaskRecord.place]), fun _ => ?_⟩
    exact ⟨by simp [TaskAction.promise], Or.inr (Or.inr ⟨hplaced henabled.1, henabled.2⟩)⟩
  | lease leaseToken lockTimeout =>
    refine h.of_step hstep hv hr fun r' hnext => ?_
    obtain rfl := Option.some.inj hnext
    refine ⟨fun hscheduled => absurd hscheduled (by simp [TaskRecord.listed, TaskRecord.place]), fun _ => ?_⟩
    exact ⟨by simp [TaskAction.promise], Or.inl (hplaced henabled.1)⟩
  | renew | release =>
    refine h.of_step hstep hv hr fun r' hnext => ?_
    obtain rfl := Option.some.inj hnext
    refine ⟨fun hscheduled => absurd hscheduled (by simp [TaskRecord.listed, TaskRecord.place]), fun _ => ?_⟩
    exact ⟨by simp [TaskAction.promise], Or.inr (Or.inl (hrunning henabled.1))⟩
  | retry => exact hstep.timely_retry hv h hr (hrunning henabled.1)
  | fail | succeed => exact h.of_unlisted hstep hv hr fun r' hnext l hl => placed_place hnext hl
  | refile =>
    obtain ⟨r₁, hsettled⟩ := henabled
    obtain rfl := Option.some.inj (hr.symm.trans hsettled.record)
    obtain ⟨outcome, ho⟩ := Option.isSome_iff_exists.mp hsettled.outcome
    refine h.of_unlisted hstep hv hr fun r' hnext l hl => ?_
    simp only [TaskAction.next, ho, Option.elim_some] at hnext
    exact placed_place hnext hl
  | replace | expireTask | remove | forget =>
    exact h.of_unlisted hstep hv hr fun r' hnext => absurd hnext (by simp [TaskAction.next])
  | progress | dropDate | holdDate | expireDeadLetter | revoke =>
    exact h.of_unmoved hstep hv hr rfl rfl (by rw [hstep.2]; rfl)
  | expireResult g held =>
    refine h.of_unmoved hstep hv hr rfl rfl ?_
    rw [hstep.2]
    simp only [TaskAction.apply, TaskView.expireResult]
    split <;> rfl
  | expireTerminal => exact hstep.timely_expireTerminal hv h hr

theorem TaskStep.timely (hstep : TaskStep env id v a v') (hv : v.Consistent env.now) (h : v.Timely env.now) :
    v'.Timely env.now := by
  cases hr : v.record with
  | some r => exact hstep.timely_recorded hv h hr
  | none =>
    by_cases hcreate : ∃ args replacedTask, a = .create args replacedTask
    · obtain ⟨args, replacedTask, rfl⟩ := hcreate
      exact hstep.timely_created h
    · have hother : ∀ args replacedTask, a ≠ .create args replacedTask := fun args replacedTask heq =>
        hcreate ⟨args, replacedTask, heq⟩
      obtain ⟨hnone, hlog⟩ := hstep.unrecorded hv hr hother
      refine ⟨fun r' t hr' => absurd (hnone.symm.trans hr') (by simp), fun r' t hr' => absurd (hnone.symm.trans hr')
        (by simp), ?_⟩
      rw [hlog, hstep.counter hother]
      exact h.published

/-- A time that bounds a generation bounds it as long as it is stored. -/
theorem TaskView.NotBefore.step (hstep : TaskStep env id v a v') (hv : v.Consistent env.now) (h : v.record = some r)
    (h' : v'.record = some r') {t : ℚ} (ht : v.NotBefore r t) : v'.NotBefore r' t := by
  obtain ⟨r₁, history, hnext, rfl⟩ := hstep.record_next hv h h'
  obtain ⟨hcreated, hdelay⟩ := TaskAction.next_created hnext
  rcases ht with rfl | ⟨e, he, hg, hpromise⟩
  · exact Or.inl (by simp only [TaskRecord.readyAt, TaskRecord.withHistory, hcreated, hdelay])
  · refine Or.inr ⟨e, ?_, hg.trans (TaskAction.next_sameOffer hnext).generation.symm, hpromise⟩
    rw [(hstep.accounted hv h).log]
    exact List.mem_append_left _ he

/-- A stored generation is bounded by a time. -/
def Store.NotBefore (s : Store) (x : TaskIdentity) (t : ℚ) : Prop :=
  x.generation ≤ s.generations x.key ∧ ∀ r, s.current x = some r → (s.view x.key).NotBefore r t

theorem EngineStep.notBefore {b b' : Busy} {s s' : Store} {act : EngineAction} (hstep : EngineStep env b s act b' s')
    (hs : Sane env.now s) {x : TaskIdentity} {t : ℚ} (h : s.NotBefore x t) : s'.NotBefore x t := by
  refine ⟨h.1.trans (hstep.counter_le _), fun r' hr' => ?_⟩
  obtain ⟨hrecord', hg'⟩ := current_eq_some_iff.mp hr'
  rcases hstep.view x.key with ⟨_, hview⟩ | ⟨a, _, htask⟩
  · rw [hview]
    exact h.2 r' (current_eq_some_iff.mpr ⟨(congrArg TaskView.record hview).symm.trans hrecord', hg'⟩)
  · obtain ⟨r, hr, hadvances⟩ := hstep.advances hs h.1 hr'
    exact (h.2 r hr).step htask (hs.views _) (current_eq_some_iff.mp hr).1 hrecord'

theorem EnginePath.notBefore {b b' : Busy} {s s' : Store} {P : EngineAction → Prop} (hpath : EnginePath env P b s b' s')
    (hs : Sane env.now s) {x : TaskIdentity} {t : ℚ} (h : s.NotBefore x t) : s'.NotBefore x t :=
  hpath.preserves (I := fun _ s => s.NotBefore x t) hs h fun _ _ _ _ _ hs h hstep _ => hstep.notBefore hs h

theorem path_notBefore {calls calls' : List Call} {e e' : Engine} (h : engine.Run calls e)
    (h' : engine.Path e calls' e') {x : TaskIdentity} {t : ℚ} (ht : e.store.NotBefore x t) : e'.store.NotBefore x t := by
  refine path_preserves h h' (I := fun _ e' => e'.store.NotBefore x t) ht ?_
  intro calls₁ e₁ c e₂ hrun _ ht ⟨hclock, _, hexec⟩
  have hs : Sane c.env.now e₁.store := (run_sane hrun).mono (Nat.cast_le.mpr hclock)
  exact (exec_path hs hexec).notBefore hs ht

theorem EngineStep.timely {b b' : Busy} {s s' : Store} {act : EngineAction} (hstep : EngineStep env b s act b' s')
    (hs : Sane env.now s) {k : TaskKey} (h : (s.view k).Timely env.now) : (s'.view k).Timely env.now := by
  rcases hstep.view k with ⟨_, hview⟩ | ⟨a, _, htask⟩
  · rw [hview]
    exact h
  · exact htask.timely (hs.views k) h

/-- In every run, no generation waits or runs before its time. -/
theorem run_timely {calls : List Call} {e : Engine} (h : engine.Run calls e) (k : TaskKey) :
    (e.store.view k).Timely e.clock := by
  refine h.invariant (I := fun e => Sane e.clock e.store ∧ (e.store.view k).Timely e.clock) ?_ ?_ |>.2
  · rintro _ rfl
    exact ⟨sane_empty _, ⟨fun r t hr => absurd hr (by simp [Store.view, Store.empty]), fun r t hr => absurd hr
      (by simp [Store.view, Store.empty]), fun e he => absurd he (by simp [Store.view, Store.log, Store.empty, Stream.empty])⟩⟩
  · rintro e c e' ⟨hs, htimely⟩ hc
    have hs' : Sane c.env.now e.store := hs.mono (Nat.cast_le.mpr hc.1)
    refine ⟨engine_step_sane hs hc, ?_⟩
    rw [hc.2.1]
    exact (exec_path hs' hc.2.2).preserves (I := fun _ s => (s.view k).Timely c.env.now) hs'
      (htimely.mono (Nat.cast_le.mpr hc.1)) fun _ _ _ _ _ hs htimely hstep _ => hstep.timely hs htimely

end EffectMQ
