import EffectMQ.Lifecycle.Creation

/-!
# Operations as paths

After its sweep an operation does nothing, takes one step, or takes one step and releases the holds of the task
that it settled or removed.
-/

namespace EffectMQ

open Redis

variable {env : Env} {queue id : String}

theorem leaseholder_view (s : Store) : (s.view (queue, id)).leaseholder env = getLockId env s queue id := rfl

/-- The owner of a live lease runs its attempt. -/
theorem running_of_leaseholder {v : TaskView} {leaseToken : String} (hv : v.Consistent env.now)
    (h : v.leaseholder env = some leaseToken) : ∃ r, v.Running r := by
  obtain ⟨l, hl, _⟩ := Option.map_eq_some_iff.mp h
  obtain ⟨hlock, halive⟩ := Option.filter_eq_some_iff.mp hl
  obtain ⟨r, hrunning, _⟩ := hv.lease l hlock (of_decide_eq_true halive)
  exact ⟨r, hrunning⟩

/-! ### Attempts -/

/-- A waiting id is stored and not locked, so that it is leased. -/
theorem takeSwept_spec {w : World} (hs : Sane env.now w.store) (leaseToken : String) {lockTimeout : ℚ}
    (hpos : 0 < lockTimeout) :
    ((w.store.lists queue).wait = [] ∧ takeSwept env queue leaseToken lockTimeout w = (.nil, w)) ∨
      ∃ id task, (w.store.lists queue).wait.head? = some id ∧
        (takeSwept env queue leaseToken lockTimeout w).1 = .leased leaseToken id task ∧
        task = (takeSwept env queue leaseToken lockTimeout w).2.store.task (queue, id) ∧
        EngineStep env none w.store (.task (queue, id) (.lease leaseToken lockTimeout)) none
          (takeSwept env queue leaseToken lockTimeout w).2.store := by
  unfold takeSwept
  cases hhead : (w.store.lists queue).wait.head? with
  | none => exact Or.inl ⟨List.head?_eq_none_iff.mp hhead, rfl⟩
  | some id =>
    have hview := hs.views (queue, id)
    have hmem : id ∈ (w.store.lists queue).wait := List.mem_of_head? hhead
    have hplace : (w.store.view (queue, id)).place = some .wait := by
      have hwaiting := hview.listed.waiting
      have hcount : 0 < (w.store.view (queue, id)).waiting := List.count_pos_iff.mpr hmem
      by_contra hne
      rw [if_neg hne] at hwaiting
      omega
    obtain ⟨r, hr⟩ : ∃ r, (w.store.view (queue, id)).record = some r := by
      cases hr : (w.store.view (queue, id)).record with
      | none => exact absurd hplace (by simp [TaskView.place_of_record_none hr])
      | some r => exact ⟨r, rfl⟩
    rw [TaskView.place_of_record hr] at hplace
    have hidle : isLocked env w.store queue id = false := by
      by_contra hlocked
      obtain ⟨leaseToken', htoken⟩ := Option.isSome_iff_exists.mp (Bool.eq_true_of_not_eq_false hlocked)
      obtain ⟨r', hrunning⟩ := running_of_leaseholder hview htoken
      obtain rfl := Option.some.inj (hr.symm.trans hrunning.record)
      rw [hrunning.place] at hplace
      exact absurd hplace (by simp)
    simp only [hidle, Bool.false_eq_true, ↓reduceIte]
    have henabled : (TaskAction.lease leaseToken lockTimeout).Enabled env (w.store.view (queue, id)) :=
      ⟨⟨r, hr, hplace⟩, hpos⟩
    exact Or.inr ⟨id, _, rfl, rfl, rfl,
      .task henabled trivial (local_lockTask env (hs.listed queue id) leaseToken lockTimeout) False.elim⟩

theorem completeTask_ends {w : World} (hs : Sane env.now w.store) {leaseToken : String}
    (howner : (w.store.view (queue, id)).leaseholder env = some leaseToken) (result : String) :
    ∃ held, Ends env (queue, id) (.succeed leaseToken result held) w.store
      (completeTask env queue id result w).store := by
  obtain ⟨r, hrunning⟩ := running_of_leaseholder (hs.views (queue, id)) howner
  have hset := (@local_unlockTask queue id w.store).trans
    (local_setTask env _ fun r => { r with success := some result, outcome := some .success })
  unfold completeTask
  dsimp only
  generalize hw : ((assertHistory queue id w).modify (unlockTask queue id)).modify
    (setTask env queue id fun r => { r with success := some result, outcome := some .success }) = w₁
  have hstore : w₁.store = setTask env queue id (fun r => { r with success := some result, outcome := some .success })
      (unlockTask queue id w.store) := by
    rw [← hw]
    simp only [World.modify_store, assertHistory_store]
  rw [← hstore] at hset
  have hview := hset.view_self
  generalize hbody : EventBody.completed result
    (((w₁.store.task (queue, id)).map TaskRecord.onSuccessPolicy).getD .delete) = body
  have hpublish := @local_publishEvent env queue id w₁ body none none
  have hlocal : Local (queue, id) (fun v => v.succeed env id result) w.store
      (publishEvent env queue id body none none w₁).store := by
    refine (hset.trans hpublish).congr ?_
    rw [← hbody]
    have htask : w₁.store.task (queue, id) = (w₁.store.view (queue, id)).record := rfl
    rw [htask, hview]
    rfl
  have hview' := hlocal.view_self
  have hrecord : ((w.store.view (queue, id)).unlock.set env
      fun r => { r with success := some result, outcome := some .success }).record =
      some { r with updatedAt := env.clock, success := some result, outcome := some .success } := by
    simp [TaskView.set, TaskView.modify, TaskView.unlock, hrunning.record]
  obtain ⟨history, hsucceed⟩ := TaskView.record_publish env id (.completed result
    ((((w.store.view (queue, id)).unlock.set env
      fun r => { r with success := some result, outcome := some .success }).record.map
        TaskRecord.onSuccessPolicy).getD .delete)) none none hrecord
  have hrecord' : ((publishEvent env queue id body none none w₁).store.view (queue, id)).record = _ :=
    (congrArg TaskView.record hview').trans hsucceed
  have hmid : (publishEvent env queue id body none none w₁).store.Listed queue id := by
    rw [← view_listed_iff]
    refine (view_listed_iff.mpr (hs.listed queue id)).congr ((congrArg TaskView.waiting hview').trans rfl)
      ((congrArg TaskView.score hview').trans rfl) ?_
    rw [TaskView.place_of_record hrecord', TaskView.place_of_record hrunning.record]
    rfl
  have hidentity : (publishEvent env queue id body none none w₁).store.identity queue id =
      w.store.identity queue id := by
    rw [identity_of_record hrecord', identity_of_record hrunning.record]
  have hcore := local_settleCore env hmid rfl .nil
  have hstep : EngineStep env none w.store (.task (queue, id) (.succeed leaseToken result
      ((publishEvent env queue id body none none w₁).store.hasRetentionHolds
        ((publishEvent env queue id body none none w₁).store.identity queue id))))
      (some (w.store.identity queue id, []))
      (settleCore env queue id .nil (publishEvent env queue id body none none w₁)).store := by
    refine EngineStep.task ⟨⟨r, hrunning⟩, howner⟩ ?_ (hlocal.trans hcore) False.elim
    rw [TaskAction.Admissible, hidentity]
    exact (hasRetentionHolds_congr hlocal.retainedBy _).symm
  rw [settleTask_eq, hidentity]
  exact ⟨_, _, hstep, releaseOwnedHolds_path (w.store.identity queue id) (hstep.sane hs)⟩

/-- The checks that the acknowledgements share: an effect happens under the live lease only. -/
theorem acknowledge_spec {w : World} (hs : Sane env.now w.store) (leaseToken : String) (effect : World → World) :
    ((w.store.view (queue, id)).leaseholder env = some leaseToken ∧
        acknowledge env queue leaseToken id effect w = (.nil, effect w)) ∨
      ((w.store.view (queue, id)).leaseholder env ≠ some leaseToken ∧
        ∃ message, acknowledge env queue leaseToken id effect w = (.error message, w)) := by
  unfold acknowledge isLockedBy
  rw [← leaseholder_view]
  by_cases howner : (w.store.view (queue, id)).leaseholder env = some leaseToken
  · obtain ⟨r, hrunning⟩ := running_of_leaseholder (hs.views (queue, id)) howner
    have hr : w.store.task (queue, id) = some r := hrunning.record
    refine Or.inl ⟨howner, ?_⟩
    simp [hr, howner]
  · refine Or.inr ⟨howner, ?_⟩
    by_cases hr : w.store.task (queue, id) = none
    · exact ⟨_, if_pos hr⟩
    · refine ⟨"LEASE_LOST", ?_⟩
      simp [hr, howner]

theorem renewLease_step {w : World} (hs : Sane env.now w.store) {leaseToken : String} {lockTimeout : ℚ}
    (howner : (w.store.view (queue, id)).leaseholder env = some leaseToken) (hpos : 0 < lockTimeout) :
    EngineStep env none w.store (.task (queue, id) (.renew leaseToken lockTimeout)) none
      (renewLease env queue id leaseToken lockTimeout w).store := by
  have hrunning := running_of_leaseholder (hs.views (queue, id)) howner
  have henabled : (TaskAction.renew leaseToken lockTimeout).Enabled env (w.store.view (queue, id)) :=
    ⟨hrunning, howner, hpos⟩
  exact .task henabled trivial (local_renewLease env (hs.listed queue id) leaseToken lockTimeout) False.elim

theorem release_step {w : World} (hs : Sane env.now w.store) {leaseToken : String}
    (howner : (w.store.view (queue, id)).leaseholder env = some leaseToken) :
    EngineStep env none w.store (.task (queue, id) (.release leaseToken)) none
      (moveToList env queue id (some .wait) 0 false none (w.modify (unlockTask queue id))).store := by
  have hrunning := running_of_leaseholder (hs.views (queue, id)) howner
  have henabled : (TaskAction.release leaseToken).Enabled env (w.store.view (queue, id)) := ⟨hrunning, howner⟩
  have hmove := @local_moveToList env queue id (w.modify (unlockTask queue id)) (hs.listed queue id) (some .wait) 0
    false (by simp) none
  exact .task henabled trivial ((@local_unlockTask queue id w.store).trans hmove) False.elim

theorem progress_step {w : World} (hs : Sane env.now w.store) {leaseToken : String}
    (howner : (w.store.view (queue, id)).leaseholder env = some leaseToken) (data : String) :
    EngineStep env none w.store (.task (queue, id) (.progress leaseToken data)) none
      (appendHistory env queue id (.progress data) none (assertHistory queue id w)).store := by
  have hrunning := running_of_leaseholder (hs.views (queue, id)) howner
  have henabled : (TaskAction.progress leaseToken data).Enabled env (w.store.view (queue, id)) := ⟨hrunning, howner⟩
  have hpush := @local_appendHistory env queue id (assertHistory queue id w) (.progress data) none
  rw [assertHistory_store] at hpush
  exact .task henabled trivial hpush False.elim

/-! ### Removal -/

section Release

variable {b b' : Busy} {s s' : Store} (h : EnginePath env EngineAction.IsRelease b s b' s')

include h

/-- A release keeps every lock. -/
theorem release_lock_eq (k : TaskKey) : (s'.view k).lock = (s.view k).lock := by
  induction h with
  | refl => rfl
  | tail _ hstep hact ih =>
    rcases hstep.view k with ⟨_, hview⟩ | ⟨a, hon, _, hview⟩
    · rw [hview, ih]
    · obtain rfl := hact.on hon
      rw [hview, ← ih]
      exact TaskView.lock_applyPolicy env false

/-- A release creates no record. -/
theorem release_record {k : TaskKey} {r' : TaskRecord} (hr' : (s'.view k).record = some r') :
    ∃ r, (s.view k).record = some r ∧ r.generation = r'.generation := by
  induction h generalizing r' with
  | refl => exact ⟨r', hr', rfl⟩
  | tail _ hstep hact ih =>
    rcases hstep.view k with ⟨_, hview⟩ | ⟨a, hon, henabled, hview⟩
    · rw [hview] at hr'
      exact ih hr'
    · obtain rfl := hact.on hon
      obtain ⟨r₁, hr₁, hsettled⟩ := henabled
      obtain ⟨outcome, ho⟩ := Option.isSome_iff_exists.mp hsettled
      obtain ⟨r, hr, hgeneration⟩ := ih hr₁
      refine ⟨r, hr, hgeneration.trans ?_⟩
      rw [hview, TaskAction.apply, TaskView.applyPolicy_of_settled env hr₁ ho] at hr'
      split at hr'
      · exact absurd hr' (by simp [TaskView.record_delete])
      · obtain ⟨history, hmove⟩ := TaskView.record_move env k.2 none (r₁.policy outcome).list 0 hr₁
        have heq := hmove.symm.trans hr'
        rw [← Option.some.inj heq]

/-- A release adds no holds. -/
theorem release_retainedBy_subset (x : TaskIdentity) : s'.retainedBy x ⊆ s.retainedBy x := by
  induction h with
  | refl => exact Finset.Subset.refl _
  | tail _ hstep hact ih =>
    refine Finset.Subset.trans ?_ ih
    have hunhold : ∀ (t : Store) holder y, (t.unhold holder y).retainedBy x ⊆ t.retainedBy x := by
      intro t holder y
      unfold Store.unhold
      by_cases hx : x = y
      · subst hx
        simpa using Finset.erase_subset _ _
      · simp [hx]
    cases hstep with
    | start | pop | note => exact Finset.Subset.refl _
    | dropKept hkept => exact hunhold _ _ _
    | dropRefiled hcurrent hsettled hheld hlocal =>
      rw [hlocal.retainedBy]
      exact hunhold _ _ _
    | task | create | createHeld | forget | acquire | tick => exact absurd hact (by simp [EngineAction.IsRelease])

end Release

/-- A removal: the holds of the task, then its record. -/
def EngineAction.IsRemoval (k : TaskKey) (act : EngineAction) : Prop := act = .task k .remove ∨ act.IsRelease

theorem removal_path {w : World} (hs : Sane env.now w.store) (hidle : (w.store.view (queue, id)).leaseholder env = none)
    {r : TaskRecord} (hr : w.store.task (queue, id) = some r)
    (hheld : w.store.hasRetentionHolds (w.store.identity queue id) = false) :
    EnginePath env (EngineAction.IsRemoval (queue, id)) none w.store none
      (deleteTask env queue id false (releaseOwnedHolds env (w.store.identity queue id) w)).store := by
  have hrelease := releaseOwnedHolds_start hs (w.store.identity queue id)
  have hnoted := @noted_of_releaseOwnedHolds env (w.store.identity queue id) w
  have hidentity : w.store.identity queue id = ⟨queue, id, r.generation⟩ := identity_of_record hr
  generalize releaseOwnedHolds env (w.store.identity queue id) w = w' at hrelease hnoted ⊢
  have hlocal := local_deleteTask env ((hrelease.sane hs).listed queue id) false (by simp)
  have hidle' : (w'.store.view (queue, id)).leaseholder env = none := by
    unfold TaskView.leaseholder at hidle ⊢
    rwa [release_lock_eq hrelease]
  have henabled : TaskAction.remove.Enabled env (w'.store.view (queue, id)) := hidle'
  refine (hrelease.mono fun act hact => Or.inr hact).tail (.task henabled ?_ hlocal False.elim) (Or.inl rfl)
  intro r' hr'
  obtain ⟨r₀, hr₀, hgeneration⟩ := release_record hrelease hr'
  obtain rfl := Option.some.inj (hr.symm.trans hr₀)
  rw [hidentity] at hheld hnoted
  rw [← hgeneration]
  refine ⟨?_, hnoted⟩
  have hsubset := release_retainedBy_subset hrelease ⟨queue, id, r.generation⟩
  have hempty : w.store.retainedBy ⟨queue, id, r.generation⟩ = ∅ := by
    simpa [Store.hasRetentionHolds] using hheld
  rw [hempty] at hsubset
  simp [Store.hasRetentionHolds, Finset.subset_empty.mp hsubset]

theorem local_eraseGeneration (s : Store) (x : TaskIdentity) :
    Local (x.queue, x.id) (fun v => v.erase x.generation)
      { s with retainedBy := Function.update s.retainedBy x ∅ } (eraseGeneration x s) := by
  have hdates := local_setExpiry { s with retainedBy := Function.update s.retainedBy x ∅ } x.queue x.id x.generation
    ⟨(s.expiry x.queue).tasks.remove x, (s.expiry x.queue).results.remove x, (s.expiry x.queue).terminal.remove x,
      (s.expiry x.queue).deadLetters.remove x, (s.expiry x.queue).deadLetterExpiry.remove x⟩
    fun y hy => by simp [ExpiryIndexes.dates, SortedSet.score_remove_of_ne _ hy]
  refine (hdates.trans (local_setResult _ x.queue x.id x.generation none)).congr ?_
  simp [TaskView.erase, TaskView.setDates, ExpiryIndexes.dates, Dates.none]

/-- The actions of a forced removal after the lease went. -/
def EngineAction.IsForcedRemoval (x : TaskIdentity) (act : EngineAction) : Prop := act = .forget x ∨ act.IsRelease

theorem forcedRemoval_path {w : World} (hs : Sane env.now w.store) {r : TaskRecord}
    (hr : w.store.task (queue, id) = some r) :
    ∃ t, EngineStep env none w.store (.task (queue, id) .revoke) none t ∧
      EnginePath env (EngineAction.IsForcedRemoval (w.store.identity queue id)) none t none
        (deleteTask env queue id false ((releaseOwnedHolds env (w.store.identity queue id)
          (w.modify (unlockTask queue id))).modify (eraseGeneration (w.store.identity queue id)))).store := by
  have hidentity : w.store.identity queue id = ⟨queue, id, r.generation⟩ := identity_of_record hr
  have hrevoke : EngineStep env none w.store (.task (queue, id) .revoke) none (w.modify (unlockTask queue id)).store :=
    .task trivial trivial (local_unlockTask w.store) fun _ => rfl
  have hrelease := releaseOwnedHolds_start (hrevoke.sane hs) (w.store.identity queue id)
  have hnoted := @noted_of_releaseOwnedHolds env (w.store.identity queue id) (w.modify (unlockTask queue id))
  rw [hidentity] at hrelease hnoted ⊢
  generalize releaseOwnedHolds env ⟨queue, id, r.generation⟩ (w.modify (unlockTask queue id)) = w' at hrelease hnoted ⊢
  have hs' := hrelease.sane (hrevoke.sane hs)
  have herase := local_eraseGeneration w'.store ⟨queue, id, r.generation⟩
  have hlisted : (w'.modify (eraseGeneration ⟨queue, id, r.generation⟩)).store.Listed queue id := by
    rw [← view_listed_iff]
    exact (view_listed_iff.mpr (hs'.listed queue id)).congr rfl rfl rfl
  have hlocal := herase.trans (local_deleteTask env hlisted false (by simp))
  refine ⟨_, hrevoke, (hrelease.mono fun act hact => Or.inr hact).tail (.forget ⟨?_, ?_⟩ hnoted hlocal) (Or.inl rfl)⟩
  · intro r' hr'
    obtain ⟨r₀, hr₀, hgeneration⟩ := release_record hrelease hr'
    obtain rfl := Option.some.inj (hr.symm.trans hr₀)
    exact hgeneration.symm
  · have hlock := release_lock_eq hrelease (queue, id)
    have hunlocked : ((w.modify (unlockTask queue id)).store.view (queue, id)).lock = none := by
      simp [unlockTask, Store.view]
    unfold TaskView.leaseholder
    rw [hlock, hunlocked]
    rfl

end EffectMQ
