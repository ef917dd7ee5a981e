import EffectMQ.TaskState.Represents

/-!
# The steps of the engine in the reference model

Each step of the engine is matched by operations of the model: one for what the caller did, and expiries, retentions,
releases and removals for what the engine does on its own account.
-/

namespace EffectMQ

open Redis Transition

/-- The operations that callers make; the others follow from them or from the clock. -/
def ModelOp.shown {K H : Type} (op : ModelOp K H) : Option (ModelOp K H) :=
  match op with
  | .offer _ _ _ | .acquire _ _ | .renew _ _ | .fail _ _ _ | .succeed _ _ => some op
  | .expire _ _ | .retain _ _ | .release _ _ | .remove _ => none

/-- The operation that an action of a task shows. -/
def TaskAction.shown (k : TaskKey) : TaskAction → Option QueueOp
  | .lease leaseToken _ => some (.acquire k leaseToken)
  | .renew leaseToken _ => some (.renew k leaseToken)
  | .retry (.reported leaseToken) _ _ => some (.fail k leaseToken true)
  | .fail (.reported leaseToken) _ _ _ => some (.fail k leaseToken false)
  | .succeed leaseToken _ _ => some (.succeed k leaseToken)
  | _ => none

/-- The model has operations for an action: it knows no release of a lease, and it removes settled tasks only. -/
def TaskAction.Modelled (record : Option TaskRecord) : TaskAction → Prop
  | .create _ _ | .release _ | .revoke | .forget _ | .refile => False
  | .remove => ∀ r, record = some r → r.outcome.isSome
  | _ => True

/-- Operations of the model lead to a model of the store, and show an operation of a caller or none. -/
def Matched (model : QueueModel) (s : Store) (seen : Option QueueOp) : Prop :=
  ∃ ops model', (reference TaskKey TaskIdentity).Path model ops model' ∧ Represents model' s ∧
    ops.filterMap ModelOp.shown = seen.toList

section

variable {env : Env} {b b' : Busy} {model model' : QueueModel} {s s' s'' : Store} {k : TaskKey} {a : TaskAction}
  {t : ModelTask TaskKey TaskIdentity} {r r' : TaskRecord} {op op' : QueueOp} {seen : Option QueueOp}

theorem Matched.same (h : Represents model s) : Matched model s none := ⟨[], model, .nil, h, rfl⟩

theorem Matched.single (op : QueueOp) (happly : model.apply op = .ok model') (h : Represents model' s) :
    Matched model s op.shown := by
  refine ⟨[op], model', .single happly, h, ?_⟩
  cases hshown : op.shown <;> simp [hshown]

/-- Operations that show nothing, after others. -/
theorem Matched.trans (h : Matched model s seen) (h' : ∀ model', Represents model' s → Matched model' s' none) :
    Matched model s' seen := by
  obtain ⟨ops, model', hpath, hR, hseen⟩ := h
  obtain ⟨ops', model'', hpath', hR', hseen'⟩ := h' model' hR
  refine ⟨ops ++ ops', model'', hpath.trans hpath', hR', ?_⟩
  rw [List.filterMap_append, hseen, hseen']
  exact List.append_nil _

/-- Operations that show nothing, before others. -/
theorem Matched.after (h : Matched model s none) (h' : ∀ model', Represents model' s → Matched model' s' seen) :
    Matched model s' seen := by
  obtain ⟨ops, model', hpath, hR, hseen⟩ := h
  obtain ⟨ops', model'', hpath', hR', hseen'⟩ := h' model' hR
  refine ⟨ops ++ ops', model'', hpath.trans hpath', hR', ?_⟩
  rw [List.filterMap_append, hseen, hseen']
  rfl

/-! ### Steps of a task -/

/-- What a step of a task leaves: its record, its lock and everything elsewhere. -/
structure TaskMoves (env : Env) (k : TaskKey) (a : TaskAction) (s s' : Store) : Prop where
  elsewhere : Elsewhere k s s'
  retainedBy : s'.retainedBy = s.retainedBy
  record : ∀ r, s.task k = some r → ∃ history, s'.task k = (a.next env r).map fun r => r.withHistory history
  unrecorded : s.task k = none → (∀ args replacedTask, a ≠ .create args replacedTask) → s'.task k = none
  lock : s'.lock k = a.lock env (s.view k)

theorem Local.taskMoves (hlocal : Local k (fun v => a.apply env k.2 v) s s') (hs : (s.view k).Consistent env.now)
    (henabled : a.Enabled env (s.view k)) : TaskMoves env k a s s' := by
  have htask : TaskStep env k.2 (s.view k) a (s'.view k) := ⟨henabled, hlocal.view_self⟩
  refine ⟨⟨fun k' hk => hlocal.view_of_ne hk, fun x _ => congrFun hlocal.retainedBy x⟩, hlocal.retainedBy,
    fun r hr => (htask.accounted hs hr).record, fun hnone hcreate => (htask.unrecorded hs hnone hcreate).1, ?_⟩
  exact (congrArg TaskView.lock htask.2).trans a.lock_apply

theorem EngineStep.taskMoves (hs : Sane env.now s) (hstep : EngineStep env b s (.task k a) b' s') :
    TaskMoves env k a s s' := by
  cases hstep with
  | task henabled hadmissible hlocal hline => exact hlocal.taskMoves (hs.views k) henabled

/-- A record in a list of tasks that wait has not settled. -/
theorem outcome_of_place (hs : Sane env.now s) (hr : s.task k = some r) {list : TaskList} (hplace : r.place = some list)
    (hlist : list = .wait ∨ list = .scheduled) : r.outcome = none := by
  by_contra hne
  obtain ⟨outcome, ho⟩ := Option.ne_none_iff_exists'.mp hne
  rcases ((hs.views k).placed r hr).settled outcome ho with hnone | hpolicy
  · exact absurd (hplace.symm.trans hnone) (by simp)
  · rw [hplace] at hpolicy
    rcases hlist with rfl | rfl <;> cases h : r.policy outcome <;> simp [h, CompletionPolicy.list] at hpolicy

/-- An action that the model does not see. -/
structure TaskAction.Unseen (env : Env) (v : TaskView) (r : TaskRecord) (a : TaskAction) (r' : TaskRecord) : Prop where
  next : a.next env r = some r'
  generation : r'.generation = r.generation
  handlerFailureCount : r'.handlerFailureCount = r.handlerFailureCount
  stalledAttemptCount : r'.stalledAttemptCount = r.stalledAttemptCount
  outcome : r'.outcome = r.outcome
  place : r.outcome = none → (r'.place = some .active ↔ r.place = some .active)
  scheduled : r'.place = some .scheduled → r.place = some .scheduled
  lock : ∀ l', a.lock env v = some l' → ∃ l, v.lock = some l ∧ l'.token = l.token

theorem TaskMoves.unseen (h : TaskMoves env k a s s') (hR : Represents model s) (hr : s.task k = some r)
    (ha : a.Unseen env (s.view k) r r') : Represents model s' := by
  obtain ⟨t, ht, hshows⟩ := hR.present k r hr
  obtain ⟨history, hrecord⟩ := h.record r hr
  rw [ha.next] at hrecord
  refine hR.kept h.elsewhere ht hrecord ?_
  rw [h.retainedBy]
  have hgeneration : (r'.withHistory history).generation = r.generation := ha.generation
  rw [hgeneration]
  refine hshows.congr ha.generation ha.handlerFailureCount ha.stalledAttemptCount ha.outcome ha.place ha.scheduled
    fun l' hl' => ?_
  rw [h.lock] at hl'
  exact ha.lock l' hl'

/-- The record goes. -/
theorem TaskMoves.disposed (h : TaskMoves env k a s s') (hR : Represents model s) (hr : s.task k = some r)
    (hsettled : r.outcome.isSome) (hfree : s.retainedBy ⟨k.1, k.2, r.generation⟩ = ∅) (hnext : a.next env r = none) :
    Matched model s' none := by
  obtain ⟨t, ht, hshows⟩ := hR.present k r hr
  obtain ⟨history, hrecord⟩ := h.record r hr
  rw [hnext] at hrecord
  obtain ⟨outcome, ho⟩ := Option.isSome_iff_exists.mp hsettled
  have hstate : t.state = .succeeded ∨ t.state = .failed := by
    rw [(hshows.settled outcome ho).1]
    exact outcome.state_cases
  exact .single (.remove k) (TaskStateModel.remove_ok ht hstate (hshows.retainedBy.trans hfree))
    (hR.removed h.elsewhere hrecord)

/-- The record changes with the task of the model, which then may go. -/
theorem TaskMoves.advanced (h : TaskMoves env k a s s') (hR : Represents model s) (hr : s.task k = some r)
    {t' : ModelTask TaskKey TaskIdentity} (op : QueueOp) (happly : model.apply op = .ok (model.replace t'))
    (ht' : ∀ r' history, a.next env r = some r' →
      t'.Represents k (s'.lock k) (r'.withHistory history) (s.retainedBy ⟨k.1, k.2, r'.generation⟩))
    (hgone : a.next env r = none → t'.id = k ∧ (t'.state = .succeeded ∨ t'.state = .failed) ∧ t'.retainedBy = ∅) :
    Matched model s' op.shown := by
  obtain ⟨history, hrecord⟩ := h.record r hr
  cases hnext : a.next env r with
  | some r' =>
    rw [hnext] at hrecord
    refine .single op happly (hR.replaced h.elsewhere hrecord ?_)
    rw [h.retainedBy]
    exact ht' r' history hnext
  | none =>
    rw [hnext] at hrecord
    obtain ⟨hid, hstate, hfree⟩ := hgone hnext
    have hremove : (model.replace t').apply (.remove k) = .ok ⟨Function.update (model.replace t').tasks k none⟩ :=
      TaskStateModel.remove_ok (hid ▸ model.tasks_replace t') hstate hfree
    have hsame : Function.update (model.replace t').tasks k none = Function.update model.tasks k none := by
      rw [← hid]
      exact Function.update_idem ..
    rw [hsame] at hremove
    refine ⟨[op, .remove k], _, (System.Path.single happly).trans (.single hremove), hR.removed h.elsewhere hrecord, ?_⟩
    rw [List.filterMap_cons]
    cases op.shown <;> rfl

/-! ### The actions -/

theorem task_leased (hR : Represents model s) (hs : Sane env.now s) {leaseToken : String} {lockTimeout : ℚ}
    (hstep : EngineStep env b s (.task k (.lease leaseToken lockTimeout)) b' s') :
    Matched model s' (some (.acquire k leaseToken)) := by
  have hmoves := hstep.taskMoves hs
  obtain ⟨⟨r, hrecord, hplace⟩, _⟩ := hstep.view_task.1.1
  have hr : s.task k = some r := hrecord
  have ho := outcome_of_place hs hr hplace (Or.inl rfl)
  obtain ⟨t, ht, hshows⟩ := hR.present k r hr
  obtain ⟨hstate, _⟩ := hshows.runnable ho (by simp [hplace])
  refine hmoves.advanced hR hr (.acquire k leaseToken) (TaskStateModel.acquire_ok ht hstate leaseToken)
    (fun r' history hnext => ?_) fun hnext => absurd hnext (by simp [TaskAction.next])
  obtain rfl := Option.some.inj hnext
  refine ⟨hshows.id, hshows.generation, hshows.handlerFailureCount, hshows.stalledAttemptCount, hshows.retainedBy,
    fun outcome hout => ?_, fun _ _ => ⟨rfl, leaseToken, rfl, fun l hl => ?_⟩, fun _ hplace' => absurd rfl hplace',
    fun hscheduled => ?_⟩
  · exact absurd (ho.symm.trans hout) (by simp)
  · rw [hmoves.lock] at hl
    rw [← Option.some.inj hl]
  · have hactive : some TaskList.active = some .scheduled := hscheduled
    exact absurd hactive (by simp)

/-- The lease of a running attempt in the model. -/
theorem Represents.lease_of_running (hR : Represents model s) (env : Env) (hrunning : (s.view k).Running r) :
    ∃ t, model.tasks k = some t ∧ t.Represents k (s.lock k) r (s.retainedBy ⟨k.1, k.2, r.generation⟩) ∧
      t.state = .leased ∧ ∀ leaseToken, (s.view k).leaseholder env = some leaseToken → t.leaseToken = some leaseToken := by
  obtain ⟨t, ht, hshows⟩ := hR.present k r hrunning.record
  obtain ⟨hstate, token, htoken, hl⟩ := hshows.leased hrunning.outcome hrunning.place
  refine ⟨t, ht, hshows, hstate, fun leaseToken howner => ?_⟩
  obtain ⟨l, hlock, rfl⟩ := Option.map_eq_some_iff.mp howner
  rw [htoken, hl l (Option.filter_eq_some_iff.mp hlock).1]

theorem task_renewed (hR : Represents model s) (hs : Sane env.now s) {leaseToken : String} {lockTimeout : ℚ}
    (hstep : EngineStep env b s (.task k (.renew leaseToken lockTimeout)) b' s') :
    Matched model s' (some (.renew k leaseToken)) := by
  have hmoves := hstep.taskMoves hs
  obtain ⟨⟨r, hrunning⟩, howner, _⟩ := hstep.view_task.1.1
  obtain ⟨t, ht, hshows, hstate, htoken⟩ := hR.lease_of_running env hrunning
  have hlease := TaskStateModel.currentLease_ok ht hstate (htoken leaseToken howner)
  have happly : model.apply (.renew k leaseToken) = .ok model := by
    simp only [TaskStateModel.apply, TaskStateModel.renew, hlease, Except.map]
  refine .single (.renew k leaseToken) happly (hmoves.unseen hR hrunning.record
    ⟨rfl, rfl, rfl, rfl, rfl, fun _ => ?_, fun hscheduled => ?_, fun l' hl' => ?_⟩)
  · exact iff_of_true rfl hrunning.place
  · have hactive : some TaskList.active = some .scheduled := hscheduled
    exact absurd hactive (by simp)
  · obtain ⟨l, hlock, htoken⟩ := Option.map_eq_some_iff.mp howner
    refine ⟨l, (Option.filter_eq_some_iff.mp hlock).1, ?_⟩
    rw [← Option.some.inj hl', htoken]

/-- A stall is retried while the limit allows it. -/
theorem willRetry_stalled {v : TaskView} (hr : v.record = some r) (clock : ℕ) :
    willRetry (stalledError clock) (retryTime v.stallTime) = true ↔ ¬ r.maxStalledCount < r.stalledAttemptCount + 1 := by
  have hstall : v.stallTime = if r.maxStalledCount < r.stalledAttemptCount + 1 then -1 else 0 := by
    simp [TaskView.stallTime, hr]
  have htag : (stalledError clock).errorTag ≠ some canceledTag := by
    simp only [stalledError, LuaValue.errorTag]
    decide
  unfold willRetry retryTime
  rw [hstall]
  split <;> simp [*]

/-- A stalled attempt is never put off. -/
theorem stallTime_le (env : Env) (v : TaskView) : v.stallTime ≤ env.now := by
  have hnow : 0 ≤ env.now := Nat.cast_nonneg _
  unfold TaskView.stallTime
  split <;> linarith

/-- The model after a failure of an attempt. -/
theorem failure_applied (hR : Represents model s) (hrunning : (s.view k).Running r) {cause : Cause} {error : LuaValue}
    {retryAt : ℚ} (hauthorized : cause.Authorized env (s.view k) error retryAt) :
    ∃ op t', model.apply op = .ok (model.replace t') ∧
      op.shown = (match cause with
        | .reported leaseToken => some (.fail k leaseToken (willRetry error (retryTime retryAt)))
        | .stalled => none) ∧
      t'.id = k ∧ t'.generation = r.generation ∧
      t'.handlerFailureCount = (r.failed env error (retryTime retryAt) cause.kind).handlerFailureCount ∧
      t'.stalledAttemptCount = (r.failed env error (retryTime retryAt) cause.kind).stalledAttemptCount ∧
      t'.retainedBy = s.retainedBy ⟨k.1, k.2, r.generation⟩ ∧ t'.leaseToken = none ∧
      (if willRetry error (retryTime retryAt) = true then
          (t'.state = .waiting ∨ t'.state = .retryScheduled) ∧ (env.now < retryAt → t'.state = .retryScheduled)
        else t'.state = .failed) := by
  obtain ⟨t, ht, hshows, hstate, htoken⟩ := hR.lease_of_running env hrunning
  cases cause with
  | reported leaseToken =>
    have hlease := TaskStateModel.currentLease_ok ht hstate (htoken leaseToken hauthorized)
    refine ⟨.fail k leaseToken (willRetry error (retryTime retryAt)),
      { t with
        state := if willRetry error (retryTime retryAt) then .retryScheduled else .failed
        leaseToken := none
        handlerFailureCount := t.handlerFailureCount + 1 },
      ?_, rfl, hshows.id, hshows.generation, ?_, hshows.stalledAttemptCount, hshows.retainedBy, rfl, ?_⟩
    · simp only [TaskStateModel.apply, TaskStateModel.fail, hlease, Except.map]
    · exact congrArg (· + 1) hshows.handlerFailureCount
    · dsimp only
      split
      · exact ⟨Or.inr rfl, fun _ => rfl⟩
      · rfl
  | stalled =>
    obtain ⟨_, rfl, rfl⟩ := hauthorized
    refine ⟨.expire k r.maxStalledCount, _, TaskStateModel.expire_ok ht hstate _, rfl, hshows.id, hshows.generation,
      hshows.handlerFailureCount, congrArg (· + 1) hshows.stalledAttemptCount, hshows.retainedBy, rfl, ?_⟩
    dsimp only
    rw [hshows.stalledAttemptCount]
    split
    · next hwill =>
      rw [if_neg ((willRetry_stalled hrunning.record _).mp hwill)]
      exact ⟨Or.inl rfl, fun hlater => absurd hlater (stallTime_le _ _).not_gt⟩
    · next hwill =>
      rw [if_pos (not_not.mp fun hlt => hwill ((willRetry_stalled hrunning.record _).mpr hlt))]

theorem task_retried (hR : Represents model s) (hs : Sane env.now s) {cause : Cause} {error : LuaValue} {retryAt : ℚ}
    (hstep : EngineStep env b s (.task k (.retry cause error retryAt)) b' s') :
    Matched model s' ((TaskAction.retry cause error retryAt).shown k) := by
  have hmoves := hstep.taskMoves hs
  obtain ⟨⟨r, hrunning⟩, hauthorized, hwill⟩ := hstep.view_task.1.1
  obtain ⟨op, t', happly, hshown, hid, hgeneration, hhandler, hstalled, hretainedBy, htoken, hstate⟩ :=
    failure_applied hR hrunning hauthorized
  rw [hwill, if_pos rfl] at hstate
  have hmatched := hmoves.advanced hR hrunning.record op happly (fun r' history hnext => ?_) fun hnext =>
    absurd hnext (by simp [TaskAction.next])
  · rw [hshown] at hmatched
    cases cause with
    | reported leaseToken => rwa [hwill] at hmatched
    | stalled => exact hmatched
  · obtain rfl := Option.some.inj hnext
    have hplace : ((r.failed env error (retryTime retryAt) cause.kind).listed (some (TaskRecord.retryList env retryAt))).place ≠
        some .active := by
      simp only [TaskRecord.listed, TaskRecord.place, TaskRecord.retryList]
      split <;> simp
    have hgeneration' := TaskRecord.generation_failed env r error (retryTime retryAt) cause.kind
    have houtcome := (TaskRecord.outcome_failed env r error (retryTime retryAt) cause.kind).trans hrunning.outcome
    refine ⟨hid, hgeneration.trans hgeneration'.symm, hhandler, hstalled, ?_, fun outcome hout => ?_,
      fun _ hactive => absurd hactive hplace, fun _ _ => ⟨hstate.1, htoken⟩, fun hscheduled => hstate.2 ?_⟩
    · exact hretainedBy.trans (congrArg (fun g => s.retainedBy ⟨k.1, k.2, g⟩) hgeneration'.symm)
    · exact absurd (houtcome.symm.trans hout) (by simp)
    · by_contra hnow
      have hwait : some (TaskRecord.retryList env retryAt) = some .scheduled := hscheduled
      rw [TaskRecord.retryList, if_neg hnow] at hwait
      cases hwait

theorem CompletionPolicy.list_ne_scheduled (policy : CompletionPolicy) : policy.list ≠ some .scheduled := by
  cases policy <;> simp [CompletionPolicy.list]

/-- A settled record that a policy placed, or disposed of. -/
theorem placed_represents {policy : CompletionPolicy} {held : Bool} (lock : Option Lock) (outcome : Outcome) (r₁ : TaskRecord)
    {retainedBy : Finset TaskIdentity} (hid : t.id = k) (hgeneration : t.generation = r₁.generation)
    (hhandler : t.handlerFailureCount = r₁.handlerFailureCount) (hstalled : t.stalledAttemptCount = r₁.stalledAttemptCount)
    (hretainedBy : t.retainedBy = retainedBy) (ho : r₁.outcome = some outcome) (hstate : t.state = outcome.state)
    (htoken : t.leaseToken = none) (hnext : r₁.placed policy held = some r') (history : HistoryFields) :
    r'.generation = r₁.generation ∧ t.Represents k lock (r'.withHistory history) retainedBy := by
  obtain rfl := TaskRecord.placed_eq_some hnext
  refine ⟨rfl, hid, hgeneration, hhandler, hstalled, hretainedBy, fun outcome' hout => ?_, fun hnone => ?_,
    fun hnone => ?_, fun hscheduled => absurd hscheduled (policy.list_ne_scheduled)⟩
  · obtain rfl := Option.some.inj (ho.symm.trans hout)
    exact ⟨hstate, htoken⟩
  · exact absurd (ho.symm.trans hnone) (by simp)
  · exact absurd (ho.symm.trans hnone) (by simp)

theorem free_of_placed {policy : CompletionPolicy} {held : Bool} {x : TaskIdentity} (hnext : r.placed policy held = none)
    (hheld : s.hasRetentionHolds x = held) : s.retainedBy x = ∅ := by
  unfold TaskRecord.placed at hnext
  split at hnext
  · next hdelete => exact not_hasRetentionHolds.mp (hheld.trans hdelete.2)
  · cases hnext

theorem EngineStep.admissible (hstep : EngineStep env b s (.task k a) b' s') : a.Admissible s k := by
  cases hstep with
  | task henabled hadmissible hlocal hline => exact hadmissible

theorem task_failed (hR : Represents model s) (hs : Sane env.now s) {cause : Cause} {error : LuaValue} {retryAt : ℚ}
    {held : Bool} (hstep : EngineStep env b s (.task k (.fail cause error retryAt held)) b' s') :
    Matched model s' ((TaskAction.fail cause error retryAt held).shown k) := by
  have hmoves := hstep.taskMoves hs
  have hadmissible : s.hasRetentionHolds (s.identity k.1 k.2) = held := hstep.admissible
  obtain ⟨⟨r, hrunning⟩, hauthorized, hwill⟩ := hstep.view_task.1.1
  have hidentity : s.identity k.1 k.2 = ⟨k.1, k.2, r.generation⟩ := identity_of_record hrunning.record
  obtain ⟨op, t', happly, hshown, hid, hgeneration, hhandler, hstalled, hretainedBy, htoken, hstate⟩ :=
    failure_applied hR hrunning hauthorized
  rw [hwill, if_neg Bool.false_ne_true] at hstate
  have hgeneration' := TaskRecord.generation_failed env r error (retryTime retryAt) cause.kind
  have hmatched := hmoves.advanced hR hrunning.record op happly (fun r' history hnext => ?_) fun hnext => ?_
  · rw [hshown] at hmatched
    cases cause with
    | reported leaseToken => rwa [hwill] at hmatched
    | stalled => exact hmatched
  · obtain ⟨heq, hshows⟩ := placed_represents (s'.lock k) .failure (r.exhausted env error (retryTime retryAt) cause.kind)
      hid (hgeneration.trans hgeneration'.symm) hhandler hstalled
      hretainedBy rfl hstate htoken hnext history
    rw [heq.trans hgeneration']
    exact hshows
  · exact ⟨hid, Or.inr hstate, hretainedBy.trans (hidentity ▸ free_of_placed hnext hadmissible)⟩

theorem task_succeeded (hR : Represents model s) (hs : Sane env.now s) {leaseToken result : String} {held : Bool}
    (hstep : EngineStep env b s (.task k (.succeed leaseToken result held)) b' s') :
    Matched model s' (some (.succeed k leaseToken)) := by
  have hmoves := hstep.taskMoves hs
  have hadmissible : s.hasRetentionHolds (s.identity k.1 k.2) = held := hstep.admissible
  obtain ⟨⟨r, hrunning⟩, howner⟩ := hstep.view_task.1.1
  have hidentity : s.identity k.1 k.2 = ⟨k.1, k.2, r.generation⟩ := identity_of_record hrunning.record
  obtain ⟨t, ht, hshows, hstate, htoken⟩ := hR.lease_of_running env hrunning
  have hlease := TaskStateModel.currentLease_ok ht hstate (htoken leaseToken howner)
  have happly : model.apply (.succeed k leaseToken) =
      .ok (model.replace { t with state := .succeeded, leaseToken := none }) := by
    simp only [TaskStateModel.apply, TaskStateModel.succeed, hlease, Except.map]
  refine hmoves.advanced hR hrunning.record (.succeed k leaseToken) happly (fun r' history hnext => ?_) fun hnext => ?_
  · obtain ⟨heq, hshows'⟩ := placed_represents (t := { t with state := .succeeded, leaseToken := none }) (s'.lock k)
      .success (r.succeeded env result) hshows.id hshows.generation hshows.handlerFailureCount
      hshows.stalledAttemptCount hshows.retainedBy rfl rfl rfl hnext history
    rw [heq]
    exact hshows'
  · exact ⟨hshows.id, Or.inl rfl, hshows.retainedBy.trans (hidentity ▸ free_of_placed hnext hadmissible)⟩

/-- The actions that leave a task in its execution state. -/
def TaskAction.Quiet : TaskAction → Prop
  | .promote | .progress _ _ | .dropDate _ | .holdDate _ | .expireResult _ _ | .expireTerminal _ | .expireDeadLetter _ => True
  | _ => False

theorem TaskAction.Quiet.unseen (hquiet : a.Quiet) (henabled : a.Enabled env (s.view k)) (hr : s.task k = some r) :
    ∃ r', a.Unseen env (s.view k) r r' := by
  have hsame : a.next env r = some r → a.lock env (s.view k) = (s.view k).lock → ∃ r', a.Unseen env (s.view k) r r' :=
    fun hnext hlock => ⟨r, hnext, rfl, rfl, rfl, rfl, fun _ => Iff.rfl, id, fun l' hl' => ⟨l', hlock ▸ hl', rfl⟩⟩
  cases a with
  | promote =>
    obtain ⟨⟨r₀, hr₀, hplace⟩, _⟩ := henabled
    obtain rfl := Option.some.inj (hr.symm.trans hr₀)
    refine ⟨_, rfl, rfl, rfl, rfl, rfl, fun _ => iff_of_false ?_ ?_, fun _ => hplace, fun l' hl' => ⟨l', hl', rfl⟩⟩
    · simp [TaskRecord.listed, TaskRecord.place]
    · simp [hplace]
  | progress | dropDate | holdDate | expireResult | expireDeadLetter => exact hsame rfl rfl
  | expireTerminal g =>
    by_cases hg : r.generation = g
    · by_cases hplace : r.place = some .success ∨ r.place = some .failed
      · have hnext : TaskAction.next env r (.expireTerminal g) = some (r.listed none) :=
          (congrArg some (if_pos hg)).trans (congrArg some (if_pos hplace))
        refine ⟨_, hnext, rfl, rfl, rfl, rfl, fun _ => iff_of_false ?_ ?_, fun hscheduled => ?_,
          fun l' hl' => ⟨l', hl', rfl⟩⟩
        · simp [TaskRecord.listed, TaskRecord.place]
        · rcases hplace with heq | heq <;> simp [heq]
        · simp [TaskRecord.listed, TaskRecord.place] at hscheduled
      · exact hsame ((congrArg some (if_pos hg)).trans (congrArg some (if_neg hplace))) rfl
    · exact hsame (congrArg some (if_neg hg)) rfl
  | create | lease | renew | release | retry | fail | succeed | refile | replace | expireTask | remove | revoke | forget =>
    exact hquiet.elim

theorem task_quiet (hR : Represents model s) (hs : Sane env.now s) (hstep : EngineStep env b s (.task k a) b' s')
    (hquiet : a.Quiet) : Matched model s' none := by
  have hmoves := hstep.taskMoves hs
  cases hr : s.task k with
  | some r =>
    obtain ⟨r', hunseen⟩ := hquiet.unseen hstep.view_task.1.1 hr
    exact .same (hmoves.unseen hR hr hunseen)
  | none =>
    have hcreate : ∀ args replacedTask, a ≠ .create args replacedTask := by
      intro args replacedTask heq
      exact (heq ▸ hquiet : (TaskAction.create args replacedTask).Quiet)
    exact .same (hR.missing hmoves.elsewhere hr (hmoves.unrecorded hr hcreate))

/-- A step of a task is matched. -/
theorem task_matched (hR : Represents model s) (hs : Sane env.now s) (hmodelled : a.Modelled (s.task k))
    (hstep : EngineStep env b s (.task k a) b' s') : Matched model s' (a.shown k) := by
  have hmoves := hstep.taskMoves hs
  have henabled := hstep.view_task.1.1
  have hadmissible := hstep.admissible
  cases a with
  | lease leaseToken lockTimeout => exact task_leased hR hs hstep
  | renew leaseToken lockTimeout => exact task_renewed hR hs hstep
  | retry cause error retryAt => exact task_retried hR hs hstep
  | fail cause error retryAt held => exact task_failed hR hs hstep
  | succeed leaseToken result held => exact task_succeeded hR hs hstep
  | promote | progress | dropDate | holdDate | expireResult | expireTerminal | expireDeadLetter =>
    exact task_quiet hR hs hstep trivial
  | replace =>
    obtain ⟨r, hr, hsettled⟩ := henabled
    have hfree : s.hasRetentionHolds (s.identity k.1 k.2) = false := hadmissible
    rw [identity_of_record hr] at hfree
    exact hmoves.disposed hR hr hsettled (not_hasRetentionHolds.mp hfree) rfl
  | expireTask =>
    obtain ⟨r, ⟨hr, hsettled⟩, _⟩ := henabled
    have hfree : s.hasRetentionHolds (s.identity k.1 k.2) = false := hadmissible
    rw [identity_of_record hr] at hfree
    exact hmoves.disposed hR hr hsettled (not_hasRetentionHolds.mp hfree) rfl
  | remove =>
    cases hr : s.task k with
    | some r => exact hmoves.disposed hR hr (hmodelled r hr) (not_hasRetentionHolds.mp (hadmissible r hr).1) rfl
    | none => exact .same (hR.missing hmoves.elsewhere hr (hmoves.unrecorded hr (by simp)))
  | create | release | revoke | forget | refile => exact hmodelled.elim

/-! ### Holds -/

/-- A store with the same tasks and the same holders of every stored generation. -/
theorem Represents.of_views (hR : Represents model s) (hview : ∀ k, s'.view k = s.view k)
    (hretainedBy : ∀ x r, s.current x = some r → s'.retainedBy x = s.retainedBy x) : Represents model s' where
  absent k hnone := hR.absent k ((congrArg TaskView.record (hview k)).symm.trans hnone)
  present k r hr := by
    have hr₀ : s.task k = some r := (congrArg TaskView.record (hview k)).symm.trans hr
    obtain ⟨t, ht, hshows⟩ := hR.present k r hr₀
    have hlock : s'.lock k = s.lock k := congrArg TaskView.lock (hview k)
    rw [hretainedBy _ r (current_eq_some_iff.mpr ⟨hr₀, rfl⟩), hlock]
    exact ⟨t, ht, hshows⟩

/-- The holders of one stored generation change in the model as they do in the store. -/
theorem Represents.retaining (hR : Represents model s) (op : QueueOp) (hview : ∀ k, s'.view k = s.view k) {x : TaskIdentity}
    (hother : ∀ y, y ≠ x → s'.retainedBy y = s.retainedBy y) (hr : s.current x = some r)
    (happly : ∀ t, model.tasks (x.queue, x.id) = some t → t.retainedBy = s.retainedBy x →
      model.apply op = .ok (model.replace { t with retainedBy := s'.retainedBy x })) : Matched model s' op.shown := by
  obtain ⟨hrecord, hg⟩ := current_eq_some_iff.mp hr
  obtain ⟨t, ht, hshows⟩ := hR.present (x.queue, x.id) r hrecord
  have hx : (⟨x.queue, x.id, r.generation⟩ : TaskIdentity) = x := by rw [hg]
  have hlock : s'.lock (x.queue, x.id) = s.lock (x.queue, x.id) := congrArg TaskView.lock (hview _)
  have helse : Elsewhere (x.queue, x.id) s s' := by
    refine ⟨fun k' _ => hview k', fun y hy => hother y ?_⟩
    rintro rfl
    exact hy rfl
  refine .single op (happly t ht (hx ▸ hshows.retainedBy)) (hR.replaced helse
    ((congrArg TaskView.record (hview (x.queue, x.id))).trans hrecord) ?_)
  rw [hlock]
  exact ⟨hshows.id, hshows.generation, hshows.handlerFailureCount, hshows.stalledAttemptCount,
    congrArg s'.retainedBy hx.symm, hshows.settled, hshows.leased, hshows.runnable, hshows.scheduled⟩

theorem hold_matched (hR : Represents model s) {holder x : TaskIdentity} (hr : s.current x = some r) :
    Matched model (s.hold holder x) none := by
  refine hR.retaining (.retain (x.queue, x.id) holder) (fun _ => rfl) (fun y hy => Function.update_of_ne hy _ _) hr
    fun t ht hretainedBy => ?_
  have hsame : (s.hold holder x).retainedBy x = insert holder t.retainedBy := by
    rw [hretainedBy]
    exact Function.update_self ..
  rw [hsame]
  exact TaskStateModel.retain_ok ht holder

theorem unhold_matched (hR : Represents model s) (holder x : TaskIdentity) : Matched model (s.unhold holder x) none := by
  cases hr : s.current x with
  | some r =>
    refine hR.retaining (.release (x.queue, x.id) holder) (fun _ => rfl) (fun y hy => Function.update_of_ne hy _ _) hr
      fun t ht hretainedBy => ?_
    have hsame : (s.unhold holder x).retainedBy x = t.retainedBy.erase holder := by
      rw [hretainedBy]
      exact Function.update_self ..
    rw [hsame]
    exact TaskStateModel.release_ok ht holder
  | none =>
    refine .same (hR.of_views (fun _ => rfl) fun y r hy => Function.update_of_ne ?_ _ _)
    rintro rfl
    exact absurd (hr.symm.trans hy) (by simp)

/-- A task without a holder that its policy moves, or disposes of. -/
theorem refiled_matched (hR : Represents model s) {x : TaskIdentity} (hs : (s.view (x.queue, x.id)).Consistent env.now)
    (hcurrent : s.current x = some r) (hsettled : r.outcome.isSome) (hheld : s.hasRetentionHolds x = false)
    (hlocal : Local (x.queue, x.id) (fun v => TaskAction.refile.apply env x.id v) s s') : Matched model s' none := by
  obtain ⟨hr, hg⟩ := current_eq_some_iff.mp hcurrent
  have hx : (⟨x.queue, x.id, r.generation⟩ : TaskIdentity) = x := by rw [hg]
  have hmoves := Local.taskMoves hlocal hs ⟨r, hr, hsettled⟩
  obtain ⟨outcome, ho⟩ := Option.isSome_iff_exists.mp hsettled
  cases hnext : TaskAction.refile.next env r with
  | none => exact hmoves.disposed hR hr hsettled ((congrArg s.retainedBy hx).trans (not_hasRetentionHolds.mp hheld)) hnext
  | some r' =>
    have hplaced : r.placed (r.policy outcome) false = some r' := by
      rw [← hnext]
      simp [TaskAction.next, ho]
    obtain rfl := TaskRecord.placed_eq_some hplaced
    refine .same (hmoves.unseen hR hr ⟨hnext, rfl, rfl, rfl, rfl, fun hnone => ?_,
      fun hscheduled => absurd hscheduled (CompletionPolicy.list_ne_scheduled _), fun l' hl' => ⟨l', hl', rfl⟩⟩)
    exact absurd (ho.symm.trans hnone) (by simp)

/-! ### Creations -/

theorem created_represents {args : CreateArgs} {replacedTask : Option TaskRecord} (hR : Represents model s)
    (hdelay : ¬ 0 < args.delay.getD 0) (helse : Elsewhere (args.queue, args.id) s s')
    (hstep : TaskStep env args.id (s.view (args.queue, args.id)) (.create args replacedTask) (s'.view (args.queue, args.id))) :
    Represents (model.replace
      { id := (args.queue, args.id)
        generation := s.generations (args.queue, args.id) + 1
        state := .waiting
        leaseToken := none
        handlerFailureCount := 0
        stalledAttemptCount := 0
        retainedBy := s'.retainedBy ⟨args.queue, args.id, s.generations (args.queue, args.id) + 1⟩ }) s' := by
  obtain ⟨history, hrecord⟩ := hstep.created.1
  refine hR.replaced helse hrecord ⟨rfl, rfl, rfl, rfl, rfl, fun outcome ho => ?_, fun _ hactive => ?_,
    fun _ _ => ⟨Or.inl rfl, rfl⟩, fun hscheduled => ?_⟩
  · have hnone : (none : Option Outcome) = some outcome := ho
    exact absurd hnone (by simp)
  · have hwait : some TaskList.wait = some .active := (congrArg some (if_neg hdelay)).symm.trans hactive
    exact absurd hwait (by simp)
  · have hwait : some TaskList.wait = some .scheduled := (congrArg some (if_neg hdelay)).symm.trans hscheduled
    exact absurd hwait (by simp)

/-- An offer and, with a holder, a retention. -/
theorem created_matched {args : CreateArgs} {replacedTask : Option TaskRecord} {holder : Option TaskIdentity}
    (hR : Represents model s) (hs : Sane env.now s) (hkept : Kept b s) (hdelay : ¬ 0 < args.delay.getD 0)
    (hstep : EngineStep env b s (.create args replacedTask holder) b' s') :
    Matched model s' (some (.offer (args.queue, args.id) (some (s.generations (args.queue, args.id) + 1)) false)) := by
  have hfree : s.retainedBy ⟨args.queue, args.id, s.generations (args.queue, args.id) + 1⟩ = ∅ := by
    by_contra hne
    obtain ⟨r, hr⟩ := hkept.stored _ hne
    exact absurd ((hs.current_nextIdentity args.queue args.id).symm.trans hr) (by simp)
  cases hstep with
  | create hfresh hlocal =>
    have helse : Elsewhere (args.queue, args.id) s s' :=
      ⟨fun k' hk => hlocal.view_of_ne hk, fun x _ => congrFun hlocal.retainedBy x⟩
    have hcreated := created_represents hR hdelay helse ⟨hfresh, hlocal.view_self⟩
    rw [congrFun hlocal.retainedBy _, hfree] at hcreated
    have hoffer := TaskStateModel.offer_ok (hR.absent _ hfresh) (s.generations (args.queue, args.id) + 1)
    exact .single (.offer (args.queue, args.id) (some (s.generations (args.queue, args.id) + 1)) false) hoffer hcreated
  | @createHeld _ _ _ _ holder hfresh hholder hroom hlocal =>
    have helse : Elsewhere (args.queue, args.id) s s' := by
      refine ⟨fun k' hk => hlocal.view_of_ne hk, fun x hx => (congrFun hlocal.retainedBy x).trans (Function.update_of_ne ?_ _ _)⟩
      rintro rfl
      exact hx rfl
    have hcreated := created_represents hR hdelay helse ⟨hfresh, hlocal.view_self⟩
    have hheld : s'.retainedBy ⟨args.queue, args.id, s.generations (args.queue, args.id) + 1⟩ = insert holder ∅ := by
      rw [hlocal.retainedBy, ← hfree]
      exact Function.update_self ..
    rw [hheld] at hcreated
    exact ⟨_, _, heldOffer_path (hR.absent _ hfresh) _ holder, hcreated, rfl⟩

/-! ### Steps and paths of the engine -/

/-- The operation that a step of the engine shows. -/
def EngineAction.shown (s : Store) : EngineAction → Option QueueOp
  | .task k a => a.shown k
  | .create a _ _ => some (.offer (a.queue, a.id) (some (s.generations (a.queue, a.id) + 1)) false)
  | _ => none

/-- The steps that the model has operations for. -/
def EngineAction.Modelled (s : Store) : EngineAction → Prop
  | .task k a => a.Modelled (s.task k)
  | .create a _ _ => ¬ 0 < a.delay.getD 0
  | .forget _ => False
  | _ => True

theorem EngineStep.represented {act : EngineAction} (hstep : EngineStep env b s act b' s') (hs : Sane env.now s)
    (hkept : Kept b s) (hR : Represents model s) (hmodelled : act.Modelled s) : Matched model s' (act.shown s) := by
  have hsame : ∀ {s'' : Store}, (∀ k, s''.view k = s.view k) → s''.retainedBy = s.retainedBy → Matched model s'' none :=
    fun hview hretainedBy => .same (hR.of_views hview fun x r _ => congrFun hretainedBy x)
  cases act with
  | task k a => exact task_matched hR hs hmodelled hstep
  | create a replacedTask holder => exact created_matched hR hs hkept hmodelled hstep
  | forget x => exact hmodelled.elim
  | start | pop | note | tick =>
    cases hstep
    exact hsame (fun _ => rfl) rfl
  | acquire holder x =>
    cases hstep with
    | acquire hholder hcurrent hroom => exact hold_matched hR hcurrent
  | drop holder x refiled =>
    have hunhold := unhold_matched hR holder x
    cases hstep with
    | dropKept hkept => exact hunhold
    | dropRefiled hcurrent hsettled hheld hlocal =>
      exact hunhold.trans fun model' hR' => refiled_matched hR' (hs.views _) hcurrent hsettled hheld hlocal

/-- A path whose steps show nothing. -/
theorem EnginePath.matched {P : EngineAction → Prop} {I : Store → Prop} (hpath : EnginePath env P b s b' s')
    (hs : Sane env.now s) (hkept : Kept b s) (hR : Represents model s) (hI : I s)
    (hstep : ∀ b s act b' s', Sane env.now s → EngineStep env b s act b' s' → P act → I s →
      act.Modelled s ∧ act.shown s = none ∧ I s') : Matched model s' none := by
  refine (hpath.preserves hs (I := fun b s => Kept b s ∧ I s ∧ Matched model s none) ⟨hkept, hI, .same hR⟩ ?_).2.2
  intro b₁ s₁ act b₂ s₂ hs₁ ⟨hkept₁, hI₁, hmatched⟩ hstep₁ hact
  obtain ⟨hmodelled, hshown, hI₂⟩ := hstep _ _ _ _ _ hs₁ hstep₁ hact hI₁
  refine ⟨hstep₁.kept hs₁ hkept₁, hI₂, hmatched.trans fun model' hR' => ?_⟩
  rw [← hshown]
  exact hstep₁.represented hs₁ hkept₁ hR' hmodelled

theorem EngineAction.IsSweep.silent {act : EngineAction} (h : act.IsSweep) (s : Store) :
    act.Modelled s ∧ act.shown s = none := by
  cases act with
  | task k a =>
    cases a with
    | retry cause | fail cause => cases cause with
      | reported => exact h.elim
      | stalled => exact ⟨trivial, rfl⟩
    | promote | progress | dropDate | holdDate | expireResult | expireTerminal | expireDeadLetter | expireTask =>
      exact ⟨trivial, rfl⟩
    | create | lease | renew | release | succeed | refile | replace | remove | revoke | forget => exact h.elim
  | start | pop | drop | note | tick => exact ⟨trivial, rfl⟩
  | create | forget | acquire => exact h.elim

/-- What the engine does on its own account. -/
theorem sweep_matched {P : EngineAction → Prop} (hpath : EnginePath env P b s b' s') (hP : ∀ act, P act → act.IsSweep)
    (hs : Sane env.now s) (hkept : Kept b s) (hR : Represents model s) : Matched model s' none :=
  hpath.matched (I := fun _ => True) hs hkept hR trivial fun _ s act _ _ _ _ hact _ =>
    ⟨((hP act hact).silent s).1, ((hP act hact).silent s).2, trivial⟩

/-- An id whose record, if it has one, is settled. -/
def Store.SettledAt (s : Store) (k : TaskKey) : Prop := ∀ r, s.task k = some r → r.outcome.isSome

theorem EngineStep.settledAt {act : EngineAction} (hstep : EngineStep env b s act b' s') (hs : Sane env.now s)
    (h : s.SettledAt k) (hcreate : ∀ args replacedTask, act.on k ≠ some (.create args replacedTask)) : s'.SettledAt k := by
  intro r' hr'
  rcases hstep.view k with ⟨_, hview⟩ | ⟨a, hon, htask⟩
  · exact h r' ((congrArg TaskView.record hview).symm.trans hr')
  · rcases htask.offer_cases (hs.views k) hr' with ⟨r, hr, _, houtcome⟩ | ⟨args, replacedTask, rfl, _⟩
    · obtain ⟨outcome, ho⟩ := Option.isSome_iff_exists.mp (h r hr)
      rw [houtcome, ho]
      cases a.settles <;> rfl
    · exact absurd hon (hcreate args replacedTask)

/-- The removal of a settled task. -/
theorem removal_matched (hpath : EnginePath env (EngineAction.IsRemoval k) b s b' s') (hs : Sane env.now s)
    (hkept : Kept b s) (hR : Represents model s) (hsettled : s.SettledAt k) : Matched model s' none := by
  refine hpath.matched (I := fun s => s.SettledAt k) hs hkept hR hsettled fun b₁ s₁ act b₂ s₂ hs₁ hstep hact hsettled₁ => ?_
  rcases hact with rfl | hrelease
  · refine ⟨hsettled₁, rfl, hstep.settledAt hs₁ hsettled₁ fun args replacedTask hon => ?_⟩
    simp [EngineAction.on] at hon
  · have hsilent := hrelease.isSweep.silent s₁
    refine ⟨hsilent.1, hsilent.2, hstep.settledAt hs₁ hsettled₁ fun args replacedTask hon => ?_⟩
    exact absurd (hrelease.on hon) (by simp)

end

end EffectMQ
