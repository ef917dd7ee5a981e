import EffectMQ.Proof.Moves

/-!
# Attempts, settlement and creation are local

The rest of the functions that work on one task, up to the release of the holds a settled task owns.
-/

namespace EffectMQ

open Redis

variable (env : Env) {queue id : String}

/-! ### Attempts -/

theorem local_unlockTask (s : Store) : Local (queue, id) TaskView.unlock s (unlockTask queue id s) :=
  local_setLock s queue id none

theorem local_setTask (s : Store) (f : TaskRecord → TaskRecord) :
    Local (queue, id) (fun v => v.set env f) s (setTask env queue id f s) :=
  local_modifyTask s queue id _

theorem local_lockTask {w : World} (h : w.store.Listed queue id) (leaseToken : String) (lockTimeout : ℚ) :
    Local (queue, id) (fun v => v.lease env id leaseToken lockTimeout) w.store
      (lockTask env queue id leaseToken lockTimeout w).store := by
  have hmove := @local_moveToList env queue id (assertHistory queue id w) (by simpa using h) (some .active)
    (env.now + lockTimeout) false (by simp) (some (((w.store.task (queue, id)).map TaskRecord.attempt).getD 0 + 1))
  rw [assertHistory_store] at hmove
  have hlocal := (hmove.trans (local_modifyTask _ queue id fun r => { r with attempt := r.attempt + 1 })).trans
    (local_setLock _ queue id (some ⟨leaseToken, env.now + lockTimeout⟩))
  simp only [lockTask, assertHistory_store, World.modify]
  exact hlocal.congr rfl

theorem local_renewLease {w : World} (h : w.store.Listed queue id) (leaseToken : String) (lockTimeout : ℚ) :
    Local (queue, id) (fun v => v.renew env id leaseToken lockTimeout) w.store
      (renewLease env queue id leaseToken lockTimeout w).store := by
  have hlock := local_setLock w.store queue id (some ⟨leaseToken, env.now + lockTimeout⟩)
  have hmove := @local_moveToList env queue id (w.modify fun s =>
    { s with lock := Function.update s.lock (queue, id) (some ⟨leaseToken, env.now + lockTimeout⟩) }) h
    (some .active) (env.now + lockTimeout) false (by simp) none
  exact hlock.trans hmove

theorem local_countFailure (s : Store) (failureKind : FailureKind) :
    Local (queue, id) (fun v => v.countFailure failureKind) s (countFailure queue id failureKind s) :=
  (local_unlockTask s).trans (local_modifyTask _ queue id _)

theorem local_appendTaskError (s : Store) (error : LuaValue) (retryAt : Option ℚ) :
    Local (queue, id) (fun v => v.appendTaskError env error retryAt) s
      (appendTaskError env queue id error retryAt s) :=
  local_setTask env s _

theorem local_recordFailure (w : World) (error : LuaValue) (retryAt : Option ℚ) (failureKind : FailureKind) :
    Local (queue, id) (fun v => v.recordFailure env id error retryAt failureKind) w.store
      (recordFailure env queue id error retryAt failureKind w).store := by
  have hcount := (@local_countFailure queue id w.store failureKind).trans
    (local_appendTaskError env _ error retryAt)
  have hpublish := @local_publishEvent env queue id
    ((assertHistory queue id w).modify fun s =>
      appendTaskError env queue id error retryAt (countFailure queue id failureKind s))
    (failedEvent (appendTaskError env queue id error retryAt (countFailure queue id failureKind w.store)) queue id
      error retryAt failureKind)
    (some (if error.errorTag = some canceledTag then .canceled else failureKind)) none
  have hbody : failedEvent (appendTaskError env queue id error retryAt (countFailure queue id failureKind w.store))
      queue id error retryAt failureKind =
      (((w.store.view (queue, id)).countFailure failureKind).appendTaskError env error retryAt).failedEvent
        error retryAt failureKind := by
    rw [← hcount.view_self]
    rfl
  unfold recordFailure
  simp only [World.modify_store, assertHistory_store] at hpublish ⊢
  refine (hcount.trans hpublish).congr ?_
  rw [hbody]
  rfl

/-! ### Settlement -/

theorem local_persistTerminalResult (s : Store) (terminalFailure : LuaValue) :
    Local (queue, id) (fun v => v.persist env terminalFailure) s
      (persistTerminalResult env queue id terminalFailure s) := by
  unfold persistTerminalResult
  cases hr : s.task (queue, id) with
  | none =>
    have hview : (s.view (queue, id)).record = none := hr
    exact (Local.refl _ _).congr (by simp [TaskView.persist, hview])
  | some r =>
    have hview : (s.view (queue, id)).record = some r := hr
    dsimp only
    refine ((local_setExpiry s queue id r.generation _ fun x hx => ?_).trans
      (local_setResult _ queue id r.generation _)).congr ?_
    · split <;> simp [ExpiryIndexes.dates, SortedSet.score_add_of_ne _ _ hx]
    · simp only [TaskView.persist, hview]
      split <;> simp_all [ExpiryIndexes.dates, TaskView.setDates, TaskView.resultOf, Store.view]

theorem local_scheduleTerminalRetention (s : Store) :
    Local (queue, id) (fun v => v.retention env) s (scheduleTerminalRetention env queue id s) := by
  unfold scheduleTerminalRetention
  cases hr : s.task (queue, id) with
  | none =>
    have hview : (s.view (queue, id)).record = none := hr
    exact (Local.refl _ _).congr (by simp [TaskView.retention, hview])
  | some r =>
    have hview : (s.view (queue, id)).record = some r := hr
    dsimp only
    refine (local_setExpiry s queue id r.generation _ fun x hx => ?_).congr ?_
    · split <;> simp [ExpiryIndexes.dates, SortedSet.score_add_of_ne _ _ hx]
    · simp only [TaskView.retention, hview]
      split <;> simp_all [ExpiryIndexes.dates, TaskView.setDates, Store.view]

theorem local_applyCompletionPolicy {w : World} (h : w.store.Listed queue id) {held : Bool}
    (hheld : w.store.hasRetentionHolds (w.store.identity queue id) = held) :
    Local (queue, id) (fun v => v.applyPolicy env id held) w.store (applyCompletionPolicy env queue id w).store := by
  unfold applyCompletionPolicy
  cases hr : w.store.task (queue, id) with
  | none =>
    have hview : (w.store.view (queue, id)).record = none := hr
    exact (Local.refl _ _).congr (by simp [TaskView.applyPolicy, hview])
  | some r =>
    have hview : (w.store.view (queue, id)).record = some r := hr
    simp only
    cases ho : r.outcome with
    | none => exact (Local.refl _ _).congr (by simp [TaskView.applyPolicy, hview, ho])
    | some outcome =>
      have hidentity : w.store.identity queue id = ⟨queue, id, r.generation⟩ := by
        simp [Store.identity, Store.generation, hr]
      have hmove := local_moveToList env h (r.policy outcome).list 0 false (by simp) none
      have hheld' : (moveToList env queue id (r.policy outcome).list 0 false none w).store.hasRetentionHolds
          ⟨queue, id, r.generation⟩ = held := by
        rw [← hheld, hidentity]
        simp only [Store.hasRetentionHolds, hmove.retainedBy]
      simp only [hheld']
      split
      · next hdelete =>
        have hplace : (moveToList env queue id (r.policy outcome).list 0 false none w).store.place queue id = none := by
          have hmoved := TaskView.place_move env id none (r.policy outcome).list 0 hview
          rw [← hmove.view_self, hdelete.1] at hmoved
          rw [hdelete.1]
          exact hmoved
        have hlisted := view_listed_iff.mp
          (hmove.view_self ▸ TaskView.listed_move env id none (r.policy outcome).list 0 hview)
        refine (hmove.trans (local_deleteTask env hlisted true fun _ => hplace)).congr ?_
        simp [TaskView.applyPolicy, hview, ho, hdelete]
      · next hkeep => exact hmove.congr (by simp [TaskView.applyPolicy, hview, ho, hkeep])

/-! ### Creation -/

theorem local_writeRecord (a : CreateArgs) (s : Store) :
    Local (a.queue, a.id) (fun v => v.create env a) s (writeRecord env a s) :=
  (local_setRecord s a.queue a.id _ _ _ fun _ hid => SortedSet.score_add_of_ne _ _ hid).congr
    (by simp [TaskView.create]; exact ⟨rfl, rfl⟩)

theorem announce_store (a : CreateArgs) (replacedTask : Option TaskRecord) (w : World) :
    (announce env a replacedTask w).2 =
      let w' := publishEvent env a.queue a.id ((w.store.view (a.queue, a.id)).announcement env a replacedTask) none none w
      if 0 < a.delay.getD 0 then
        moveToList env a.queue a.id (some .scheduled) (double (env.now + a.delay.getD 0)) true none w'
      else moveToList env a.queue a.id (some .wait) 0 true none w' := by
  cases replacedTask <;> rfl

theorem local_announce {a : CreateArgs} {w : World} (h : w.store.Listed a.queue a.id)
    (hplace : w.store.place a.queue a.id = none) (replacedTask : Option TaskRecord) :
    Local (a.queue, a.id) (fun v => v.announce env a.id a replacedTask) w.store
      (announce env a replacedTask w).2.store := by
  rw [announce_store]
  generalize hevent : (w.store.view (a.queue, a.id)).announcement env a replacedTask = event
  have hpublish := @local_publishEvent env a.queue a.id w event none none
  have hview := hpublish.view_self
  have hlisted : (publishEvent env a.queue a.id event none none w).store.Listed a.queue a.id := by
    rw [← view_listed_iff, hview]
    exact (view_listed_iff.mpr h).publish env a.id event none none
  have hplace' : (publishEvent env a.queue a.id event none none w).store.place a.queue a.id = none := by
    have hpublished : (TaskView.publish env a.id (w.store.view (a.queue, a.id)) event none none).place = none := by
      rw [TaskView.place_publish]
      exact hplace
    rw [← hview] at hpublished
    exact hpublished
  dsimp only
  split
  · next hdelay =>
    refine (hpublish.trans (local_moveToList env hlisted (some .scheduled) _ true (fun _ => hplace') none)).congr ?_
    simp only [TaskView.announce, hevent, hdelay, ↓reduceIte]
  · next hdelay =>
    refine (hpublish.trans (local_moveToList env hlisted (some .wait) 0 true (fun _ => hplace') none)).congr ?_
    simp only [TaskView.announce, hevent, hdelay, ↓reduceIte]

end EffectMQ
