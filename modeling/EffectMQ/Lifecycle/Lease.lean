import EffectMQ.Lifecycle.Raise

/-!
# Leases along a run

A step changes the live lease of a task only when its owner, an administrator or the take of a waiting task does
it: what maintenance and other tasks do leaves a lease that has not run out. The calls and replies of a run
therefore tell which lease is alive, and for which attempt.
-/

namespace EffectMQ

open Redis

namespace TaskView

/-- The lease that has not run out at a clock value. -/
def aliveLock (now : ℚ) (v : TaskView) : Option Lock := v.lock.filter fun l => now ≤ l.expiresAt

variable {env : Env} {id : String} {v v' : TaskView} {r : TaskRecord} {a : TaskAction}

theorem leaseholder_eq (v : TaskView) : v.leaseholder env = (v.aliveLock env.now).map Lock.token := rfl

theorem aliveLock_eq_none_iff {now : ℚ} : v.aliveLock now = none ↔ ∀ l, v.lock = some l → l.expiresAt < now := by
  unfold aliveLock
  cases v.lock <;> simp

theorem aliveLock_of_idle (h : v.leaseholder env = none) : v.aliveLock env.now = none :=
  Option.map_eq_none_iff.mp h

/-- Only a running attempt has a live lease. -/
theorem Consistent.running_of_aliveLock {now : ℚ} (hv : v.Consistent now) (h : v.aliveLock now ≠ none) :
    ∃ r, v.Running r := by
  obtain ⟨l, hl⟩ := Option.ne_none_iff_exists'.mp h
  obtain ⟨hlock, halive⟩ := Option.filter_eq_some_iff.mp hl
  obtain ⟨r, hrunning, _⟩ := hv.lease l hlock (of_decide_eq_true halive)
  exact ⟨r, hrunning⟩

theorem Consistent.aliveLock_of_record_none {now : ℚ} (hv : v.Consistent now) (h : v.record = none) :
    v.aliveLock now = none := by
  by_contra hne
  obtain ⟨r, hrunning⟩ := hv.running_of_aliveLock hne
  rw [hrunning.record] at h
  exact absurd h (by simp)

theorem Consistent.aliveLock_of_settled {now : ℚ} (hv : v.Consistent now) (h : v.Settled r) :
    v.aliveLock now = none := aliveLock_eq_none_iff.mpr (hv.expired_of_settled h)

@[simp] theorem lock_settle (terminalFailure : LuaValue) (held : Bool) :
    (v.settle env id terminalFailure held).lock = v.lock := by
  rw [settle, lock_applyPolicy]
  unfold retention persist
  split <;> split <;> rfl

@[simp] theorem lock_delete : (v.delete env id).lock = v.lock := by simp [delete, drop]

end TaskView

/-- The lease after an action. -/
def TaskAction.lock (env : Env) (v : TaskView) : TaskAction → Option Lock
  | .lease leaseToken lockTimeout => some ⟨leaseToken, env.now + lockTimeout⟩
  | .renew leaseToken lockTimeout => some ⟨leaseToken, env.now + lockTimeout⟩
  | .release _ | .retry _ _ _ | .fail _ _ _ _ | .succeed _ _ _ | .replace | .revoke => none
  | _ => v.lock

/-- The actions of nobody who owns, takes or revokes the lease. -/
def TaskAction.LeavesLease : TaskAction → Prop
  | .lease _ _ | .renew _ _ | .release _ | .succeed _ _ _ | .revoke => False
  | .retry (.reported _) _ _ | .fail (.reported _) _ _ _ => False
  | _ => True

variable {env : Env} {id : String} {v v' : TaskView} {r : TaskRecord} {a : TaskAction}

theorem TaskAction.lock_apply (a : TaskAction) : (a.apply env id v).lock = a.lock env v := by
  cases a with
  | create a replacedTask =>
    simp only [apply, TaskView.announce, lock]
    split <;> simp [TaskView.create]
  | promote => simp [apply, lock]
  | lease | revoke => rfl
  | renew => simp [apply, lock, TaskView.renew]
  | release => simp [apply, lock, TaskView.unlock]
  | retry cause error retryAt =>
    simp only [apply, lock]
    split <;> simp only [TaskView.lock_move] <;> rfl
  | fail cause error retryAt held =>
    simp only [apply, lock, TaskView.lock_settle]
    rfl
  | succeed leaseToken result held =>
    simp only [apply, lock, TaskView.lock_settle]
    rfl
  | progress => rfl
  | refile => simp [apply, lock]
  | replace => rfl
  | expireTask | remove => simp [apply, lock]
  | dropDate | holdDate | expireDeadLetter => rfl
  | expireResult g held =>
    simp only [apply, lock, TaskView.expireResult]
    split <;> rfl
  | expireTerminal g =>
    simp only [apply, lock, TaskView.expireTerminal]
    split <;> rfl
  | forget g => simp [apply, lock, TaskView.erase, TaskView.setDates]

theorem TaskStep.aliveLock (hstep : TaskStep env id v a v') (hv : v.Consistent env.now) (ha : a.LeavesLease) :
    v'.aliveLock env.now = v.aliveLock env.now := by
  obtain ⟨henabled, rfl⟩ := hstep
  have hlock := @TaskAction.lock_apply env id v a
  have hkeep : a.lock env v = v.lock → (a.apply env id v).aliveLock env.now = v.aliveLock env.now := fun h => by
    rw [TaskView.aliveLock, hlock, h, TaskView.aliveLock]
  have hdead : a.lock env v = none → v.aliveLock env.now = none →
      (a.apply env id v).aliveLock env.now = v.aliveLock env.now := fun h hnone => by
    rw [TaskView.aliveLock, hlock, h, hnone]
    rfl
  cases a with
  | retry cause error retryAt =>
    cases cause with
    | reported => exact absurd ha (by simp [TaskAction.LeavesLease])
    | stalled => exact hdead rfl (TaskView.aliveLock_of_idle henabled.2.1.1)
  | fail cause error retryAt held =>
    cases cause with
    | reported => exact absurd ha (by simp [TaskAction.LeavesLease])
    | stalled => exact hdead rfl (TaskView.aliveLock_of_idle henabled.2.1.1)
  | replace =>
    obtain ⟨r, hsettled⟩ := henabled
    exact hdead rfl (hv.aliveLock_of_settled hsettled)
  | lease | renew | release | succeed | revoke => exact absurd ha (by simp [TaskAction.LeavesLease])
  | create | promote | progress | refile | expireTask | dropDate | holdDate | expireResult | expireTerminal
  | expireDeadLetter | remove | forget => exact hkeep rfl

/-- An attempt whose lease is alive before and after a step is the same attempt. -/
theorem TaskStep.keeps_attempt (hstep : TaskStep env id v a v') (hrunning : v.Running r)
    (halive : v.leaseholder env ≠ none) (hlock : v'.lock ≠ none) :
    ∃ r', v'.record = some r' ∧ r'.generation = r.generation ∧ r'.attempt = r.attempt := by
  obtain ⟨henabled, rfl⟩ := hstep
  rw [TaskAction.lock_apply] at hlock
  have hplaced : ∀ {l}, (∃ r', v.record = some r' ∧ r'.place = some l) → l = .active := by
    rintro l ⟨r', hr', hplace⟩
    obtain rfl := Option.some.inj (hrunning.record.symm.trans hr')
    exact Option.some.inj (hplace.symm.trans hrunning.place)
  have hunsettled : ∀ r', ¬ v.Settled r' := by
    intro r' hsettled
    obtain rfl := Option.some.inj (hrunning.record.symm.trans hsettled.record)
    exact absurd hsettled.outcome (by simp [hrunning.outcome])
  cases a with
  | create => exact absurd (hrunning.record.symm.trans henabled) (by simp)
  | promote => exact absurd (hplaced henabled.1) (by simp)
  | lease => exact absurd (hplaced henabled.1) (by simp)
  | renew leaseToken lockTimeout =>
    obtain ⟨history, hrecord⟩ := TaskView.record_move env id none (some .active) (env.now + lockTimeout)
      (v := { v with lock := some ⟨leaseToken, env.now + lockTimeout⟩ }) hrunning.record
    exact ⟨_, hrecord, rfl, rfl⟩
  | release | retry | fail | succeed | replace | revoke => exact absurd rfl hlock
  | progress leaseToken data =>
    obtain ⟨history, hrecord⟩ := TaskView.record_push env id (.progress data) none hrunning.record
    exact ⟨_, hrecord, rfl, rfl⟩
  | refile =>
    obtain ⟨r', hsettled⟩ := henabled
    exact absurd hsettled (hunsettled r')
  | expireTask =>
    obtain ⟨r', hsettled, _⟩ := henabled
    exact absurd hsettled (hunsettled r')
  | dropDate | holdDate | expireDeadLetter => exact ⟨r, hrunning.record, rfl, rfl⟩
  | expireResult g held =>
    refine ⟨r, ?_, rfl, rfl⟩
    simp only [TaskAction.apply, TaskView.expireResult]
    split <;> exact hrunning.record
  | expireTerminal g =>
    simp only [TaskAction.apply, TaskView.expireTerminal]
    split
    · refine ⟨v.unindexed r, by simp [TaskView.setDates, TaskView.unindexTerminal, hrunning.record], ?_, ?_⟩ <;>
        unfold TaskView.unindexed <;> split <;> rfl
    · exact ⟨r, hrunning.record, rfl, rfl⟩
  | remove => exact absurd henabled halive
  | forget => exact absurd henabled.2 halive

/-- A take returns a record that runs. -/
theorem Effect.running_of_leased {env : Env} {m s : Store} {queue leaseToken token id : String} {lockTimeout : Option ℚ}
    {task : Option TaskRecord} (h : Effect env m (.takeTask queue leaseToken lockTimeout) (.leased token id task) s)
    (hs : Sane env.now m) : ∃ r, task = some r ∧ (s.view (queue, id)).Running r := by
  cases h with
  | refused op reply hfault => exact absurd hfault (by simp [Reply.IsFault])
  | answered op reply hfence hquiet => exact absurd (hquiet.leased _ _ _ rfl) (by simp)
  | leased hhead htask hstep =>
    subst htask
    obtain ⟨⟨_, hpos⟩, hview⟩ := hstep.view_task.1
    obtain ⟨r, hrunning⟩ := ((hstep.sane hs).views (queue, id)).running_of_aliveLock (by
      rw [TaskView.aliveLock, hview, TaskAction.lock_apply]
      simp [TaskAction.lock, Option.filter, le_of_lt hpos])
    exact ⟨r, hrunning.record, hrunning⟩
  | scheduled op reply hop => rcases hop with ⟨_, _, _, hop⟩ | ⟨_, _, _, _, hop⟩ <;> exact absurd hop (by simp)

end EffectMQ
