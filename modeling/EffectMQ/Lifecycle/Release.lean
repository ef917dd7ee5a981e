import EffectMQ.Lifecycle.Engine

/-!
# Settlement and release as paths

A release pops members of the holder's set and processes them one by one; a settlement is one step of the task's
own machine followed by the release of the holds it owns.
-/

namespace EffectMQ

open Redis

/-- The actions of a release. -/
def EngineAction.IsRelease : EngineAction → Prop
  | .start _ | .pop _ _ | .drop _ _ _ | .note _ => True
  | _ => False

variable {env : Env} {queue id : String}

theorem identity_of_current {s : Store} {x : TaskIdentity} {r : TaskRecord} (h : s.current x = some r) :
    s.identity x.queue x.id = x := by
  obtain ⟨hr, hgeneration⟩ := current_eq_some_iff.mp h
  simp [Store.identity, Store.generation, hr, hgeneration]

theorem identity_of_record {s : Store} {r : TaskRecord} (h : (s.view (queue, id)).record = some r) :
    s.identity queue id = ⟨queue, id, r.generation⟩ := by
  have hr : s.task (queue, id) = some r := h
  simp [Store.identity, Store.generation, hr]

theorem hasRetentionHolds_congr {s s' : Store} (h : s'.retainedBy = s.retainedBy) (x : TaskIdentity) :
    s'.hasRetentionHolds x = s.hasRetentionHolds x := by
  unfold Store.hasRetentionHolds
  rw [h]

/-! ### Releases -/

theorem releaseHold_step {w : World} (hs : Sane env.now w.store) (holder x : TaskIdentity) (rest : List TaskIdentity) :
    ∃ refiled, EngineStep env (some (holder, x :: rest)) w.store (.drop holder x refiled) (some (holder, rest))
      (releaseHold env holder w x).store := by
  have hcurrent : (w.store.unhold holder x).current x = w.store.current x := rfl
  have hstore : (w.modify fun s => s.unhold holder x).store = w.store.unhold holder x := rfl
  unfold releaseHold
  dsimp only
  split
  · next hnone =>
    have hr : w.store.current x = none := hnone
    exact ⟨false, .dropKept fun r hr' => absurd (hr.symm.trans hr') (by simp)⟩
  · next r hsome =>
    have hr : w.store.current x = some r := hsome
    split
    · next hfree =>
      have hlisted : (w.modify fun s => s.unhold holder x).store.Listed x.queue x.id := hs.listed x.queue x.id
      have hidentity : (w.store.unhold holder x).identity x.queue x.id = x := identity_of_current (hcurrent.trans hr)
      refine ⟨true, .dropRefiled hr hfree.1 hfree.2 ?_⟩
      refine local_applyCompletionPolicy env hlisted ?_
      rw [hstore, hidentity]
      exact hfree.2
    · next hheld =>
      refine ⟨false, .dropKept fun r' hr' => ?_⟩
      obtain rfl := Option.some.inj (hr.symm.trans hr')
      by_cases ho : r.outcome = none
      · exact Or.inl ho
      · refine Or.inr ?_
        by_contra hfree
        exact hheld ⟨Option.isSome_iff_ne_none.mpr ho, Bool.eq_false_of_not_eq_true hfree⟩

/-- The steps of a release that is under way. -/
def EngineAction.Unwinds : EngineAction → Prop
  | .pop _ _ | .drop _ _ _ | .note _ => True
  | _ => False

theorem EngineAction.Unwinds.isRelease {act : EngineAction} (h : act.Unwinds) : act.IsRelease := by
  cases act <;> first | exact trivial | exact absurd h (by simp [EngineAction.Unwinds])

theorem releaseHold_path (holder : TaskIdentity) (members : List TaskIdentity) {w : World} (hs : Sane env.now w.store) :
    EnginePath env (fun act => ∃ x refiled, act = .drop holder x refiled) (some (holder, members)) w.store
      (some (holder, [])) (members.foldl (releaseHold env holder) w).store := by
  induction members generalizing w with
  | nil => exact .refl
  | cons x rest ih =>
    obtain ⟨refiled, hstep⟩ := releaseHold_step hs holder x rest
    exact (EnginePath.single hstep ⟨x, refiled, rfl⟩).trans (ih (hstep.sane hs))

/-- The members that a release pops. -/
def poppedMembers (env : Env) (holder : TaskIdentity) (w : World) : List TaskIdentity :=
  if 0 < w.remaining then env.spop.pop holder (w.store.retains holder) w.remaining.toNat else []

/-- A release pops members of its holder's set, drops them one after the other, and notes what is left. -/
theorem releaseOwnedHolds_steps (holder : TaskIdentity) {w : World} (hs : Sane env.now w.store) :
    ∃ s₁ s₂, EngineStep env (some (holder, [])) w.store (.pop holder (poppedMembers env holder w))
        (some (holder, poppedMembers env holder w)) s₁ ∧
      EnginePath env (fun act => ∃ x refiled, act = .drop holder x refiled) (some (holder, poppedMembers env holder w)) s₁
        (some (holder, [])) s₂ ∧
      EngineStep env (some (holder, [])) s₂ (.note holder) none (releaseOwnedHolds env holder w).store ∧
      (w.store.retains holder = ∅ → s₂.retains holder = ∅) := by
  have hpop : EngineStep env (some (holder, [])) w.store (.pop holder (poppedMembers env holder w))
      (some (holder, poppedMembers env holder w))
      { w.store with
        retains := Function.update w.store.retains holder
          (w.store.retains holder \ (poppedMembers env holder w).toFinset) } := by
    refine .pop ?_ fun x hx => ?_
    · unfold poppedMembers
      split
      · exact env.spop.nodup _ _ _
      · exact List.nodup_nil
    · unfold poppedMembers at hx
      split at hx
      · exact env.spop.subset _ _ _ x hx
      · exact absurd hx List.not_mem_nil
  have hdrops := @releaseHold_path env holder (poppedMembers env holder w)
    ((w.modify fun s => { s with
      retains := Function.update s.retains holder
        (s.retains holder \ (poppedMembers env holder w).toFinset) }).spend (poppedMembers env holder w).length)
    (hpop.sane hs)
  refine ⟨_, _, hpop, hdrops, .note, fun hempty => ?_⟩
  have hmembers : poppedMembers env holder w = [] := by
    unfold poppedMembers
    split
    · rw [← List.length_eq_zero_iff, env.spop.length, hempty, Finset.card_empty, Nat.min_zero]
    · rfl
  rw [hmembers]
  exact (Function.update_self ..).trans (by rw [hempty, Finset.empty_sdiff])

theorem releaseOwnedHolds_unwinds (holder : TaskIdentity) {w : World} (hs : Sane env.now w.store) :
    EnginePath env EngineAction.Unwinds (some (holder, [])) w.store none (releaseOwnedHolds env holder w).store := by
  obtain ⟨_, _, hpop, hdrops, hnote, _⟩ := releaseOwnedHolds_steps holder hs
  refine ((EnginePath.single hpop trivial).trans (hdrops.mono ?_)).tail hnote trivial
  rintro _ ⟨x, refiled, rfl⟩
  exact trivial

theorem releaseOwnedHolds_path (holder : TaskIdentity) {w : World} (hs : Sane env.now w.store) :
    EnginePath env EngineAction.IsRelease (some (holder, [])) w.store none
      (releaseOwnedHolds env holder w).store :=
  (releaseOwnedHolds_unwinds holder hs).mono fun _ hact => hact.isRelease

/-- A release leaves its holder without holds or in the continuation index. -/
theorem noted_of_releaseOwnedHolds (holder : TaskIdentity) (w : World) :
    (releaseOwnedHolds env holder w).store.retains holder ≠ ∅ →
      (releaseOwnedHolds env holder w).store.Noted holder := by
  unfold releaseOwnedHolds
  dsimp only
  intro hne
  simp only [World.modify_store, noteContinuation, Store.Noted] at hne ⊢
  rw [if_pos (Finset.card_pos.mpr (Finset.nonempty_iff_ne_empty.mpr hne))]
  simp

/-- What a release can do to a task: refile it, when it is settled. -/
theorem EngineAction.IsRelease.on {act : EngineAction} (h : act.IsRelease) {k : TaskKey} {a : TaskAction}
    (hon : act.on k = some a) : a = .refile := by
  cases act with
  | drop holder x refiled =>
    cases refiled with
    | false => exact absurd hon (by simp [EngineAction.on])
    | true =>
      simp only [EngineAction.on] at hon
      split at hon
      · exact (Option.some.inj hon).symm
      · exact absurd hon (by simp)
  | start | pop | note => exact absurd hon (by simp [EngineAction.on])
  | task | create | forget | acquire | tick => exact absurd h (by simp [EngineAction.IsRelease])

/-- A release leaves every task that runs, or that has no record, as it is. -/
theorem release_view_eq {b b' : Busy} {s s' : Store} (h : EnginePath env EngineAction.IsRelease b s b' s') {k : TaskKey}
    (hunsettled : ∀ r, (s.view k).record = some r → r.outcome = none) : s'.view k = s.view k := by
  induction h with
  | refl => rfl
  | tail _ hstep hact ih =>
    rcases hstep.view k with ⟨_, hview⟩ | ⟨a, hon, henabled, _⟩
    · rw [hview, ih]
    · obtain rfl := hact.on hon
      obtain ⟨r, hr, ho⟩ := henabled
      rw [ih] at hr
      rw [hunsettled r hr] at ho
      exact absurd ho (by simp)

/-! ### The end of an attempt -/

/-- `settleTask` without its release. -/
def settleCore (env : Env) (queue id : String) (terminalFailure : LuaValue) (w : World) : World :=
  applyCompletionPolicy env queue id
    (w.modify fun s => scheduleTerminalRetention env queue id (persistTerminalResult env queue id terminalFailure s))

theorem settleTask_eq (terminalFailure : LuaValue) (w : World) :
    settleTask env queue id terminalFailure w =
      releaseOwnedHolds env (w.store.identity queue id) (settleCore env queue id terminalFailure w) := rfl

theorem settle_start (env : Env) (v : TaskView) (terminalFailure : LuaValue) :
    ((v.persist env terminalFailure).retention env).record = v.record ∧
      ((v.persist env terminalFailure).retention env).waiting = v.waiting ∧
      ((v.persist env terminalFailure).retention env).score = v.score := by
  refine ⟨(TaskView.record_retention env).trans (TaskView.record_persist env terminalFailure), ?_, ?_⟩ <;>
    unfold TaskView.retention TaskView.persist <;> split <;> split <;> rfl

theorem local_settleCore (env : Env) {w : World} (h : w.store.Listed queue id) {held : Bool}
    (hheld : w.store.hasRetentionHolds (w.store.identity queue id) = held) (terminalFailure : LuaValue) :
    Local (queue, id) (fun v => v.settle env id terminalFailure held) w.store
      (settleCore env queue id terminalFailure w).store := by
  have hdates := (@local_persistTerminalResult env queue id w.store terminalFailure).trans
    (local_scheduleTerminalRetention env _)
  obtain ⟨hrecord, hwaiting, hscore⟩ := settle_start env (w.store.view (queue, id)) terminalFailure
  have hview := hdates.view_self
  refine hdates.trans (@local_applyCompletionPolicy env queue id (w.modify fun s =>
    scheduleTerminalRetention env queue id (persistTerminalResult env queue id terminalFailure s)) ?_ held ?_)
  · rw [← view_listed_iff]
    refine (view_listed_iff.mpr h).congr ?_ ?_ ?_
    · exact (congrArg TaskView.waiting hview).trans hwaiting
    · exact (congrArg TaskView.score hview).trans hscore
    · exact congrArg (fun r : Option TaskRecord => r.bind TaskRecord.place)
        ((congrArg TaskView.record hview).trans hrecord)
  · rw [← hheld]
    have htask := (congrArg TaskView.record hview).trans hrecord
    have hidentity : (scheduleTerminalRetention env queue id
        (persistTerminalResult env queue id terminalFailure w.store)).identity queue id =
        w.store.identity queue id :=
      congrArg (fun r : Option TaskRecord => TaskIdentity.mk queue id ((r.map TaskRecord.generation).getD 0)) htask
    exact (congrArg _ hidentity).trans (hasRetentionHolds_congr hdates.retainedBy _)

/-- A step of a task, and the release that it may call for. -/
def Ends (env : Env) (k : TaskKey) (a : TaskAction) (m s : Store) : Prop :=
  ∃ t, EngineStep env none m (.task k a) (a.busy m k) t ∧ EnginePath env EngineAction.IsRelease (a.busy m k) t none s

theorem Ends.path {k : TaskKey} {a : TaskAction} {m s : Store} (h : Ends env k a m s) :
    EnginePath env (fun act => act = .task k a ∨ act.IsRelease) none m none s := by
  obtain ⟨t, hstep, hrelease⟩ := h
  exact (EnginePath.single hstep (Or.inl rfl)).trans (hrelease.mono fun act hact => Or.inr hact)

/-- What a failure of a cause can do to its task. -/
def TaskAction.IsFailure (cause : Cause) (error : LuaValue) (retryAt : ℚ) (a : TaskAction) : Prop :=
  a = .retry cause error retryAt ∨ ∃ held, a = .fail cause error retryAt held

theorem failTask_unwinds {w : World} (hs : Sane env.now w.store) {r : TaskRecord}
    (hrunning : (w.store.view (queue, id)).Running r) (cause : Cause) {error : LuaValue} {retryAt : ℚ}
    (hauthorized : cause.Authorized env (w.store.view (queue, id)) error retryAt) :
    ∃ a, a.IsFailure cause error retryAt ∧
      ∃ t, EngineStep env none w.store (.task (queue, id) a) (a.busy w.store (queue, id)) t ∧
        EnginePath env EngineAction.Unwinds (a.busy w.store (queue, id)) t none
          (failTask env queue id error retryAt cause.kind w).store := by
  have hfailure := @local_recordFailure env queue id w error (retryTime retryAt) cause.kind
  obtain ⟨history, hrecord⟩ := TaskView.record_recordFailure env id hrunning.record error (retryTime retryAt) cause.kind
  have hlisted : (TaskAction.failed env id cause error retryAt (w.store.view (queue, id))).Listed := by
    refine (view_listed_iff.mpr (hs.listed queue id)).congr rfl rfl ?_
    refine (TaskView.place_of_record hrecord).trans (Eq.trans ?_ (TaskView.place_of_record hrunning.record).symm)
    exact congrArg Option.join (TaskRecord.currentList_failed env r error (retryTime retryAt) cause.kind)
  have hview := hfailure.view_self
  unfold failTask
  dsimp only
  split
  · next hretry =>
    have hmid : (recordFailure env queue id error (retryTime retryAt) cause.kind w).store.Listed queue id := by
      rw [← view_listed_iff, hview]
      exact hlisted
    have henabled : (TaskAction.retry cause error retryAt).Enabled env (w.store.view (queue, id)) :=
      ⟨⟨r, hrunning⟩, hauthorized, hretry⟩
    refine ⟨.retry cause error retryAt, Or.inl rfl, _, EngineStep.task henabled trivial ?_ False.elim, .refl⟩
    split
    · next hlater =>
      refine (hfailure.trans (local_moveToList env hmid (some .scheduled) retryAt false (by simp) none)).congr ?_
      simp only [TaskAction.apply, hlater, ↓reduceIte]
      rfl
    · next hlater =>
      refine (hfailure.trans (local_moveToList env hmid (some .wait) 0 false (by simp) none)).congr ?_
      simp only [TaskAction.apply, hlater, ↓reduceIte]
      rfl
  · next hterminal =>
    have hset := hfailure.trans (local_setTask env (recordFailure env queue id error (retryTime retryAt) cause.kind w).store
      fun r => { r with outcome := some .failure })
    generalize hw : (recordFailure env queue id error (retryTime retryAt) cause.kind w).modify
      (setTask env queue id fun r => { r with outcome := some .failure }) = w'
    have hstore : w'.store = setTask env queue id (fun r => { r with outcome := some .failure })
        (recordFailure env queue id error (retryTime retryAt) cause.kind w).store := by rw [← hw]; rfl
    rw [← hstore] at hset
    have hview' := hset.view_self
    obtain ⟨r', hrecord', hgeneration⟩ : ∃ r', (w'.store.view (queue, id)).record = some r' ∧
        r'.generation = r.generation := by
      rw [hview']
      exact ⟨_, congrArg (Option.map _) hrecord, TaskRecord.generation_failed env r error (retryTime retryAt) cause.kind⟩
    have hmid : w'.store.Listed queue id := by
      rw [← view_listed_iff, hview']
      exact hlisted.modify _ fun _ => rfl
    have hidentity : w'.store.identity queue id = w.store.identity queue id := by
      rw [identity_of_record hrecord', identity_of_record hrunning.record, hgeneration]
    have hcore := local_settleCore env hmid rfl error
    have hstep : EngineStep env none w.store (.task (queue, id) (.fail cause error retryAt
        (w'.store.hasRetentionHolds (w'.store.identity queue id))))
        (some (w.store.identity queue id, [])) (settleCore env queue id error w').store := by
      refine EngineStep.task ⟨⟨r, hrunning⟩, hauthorized, Bool.eq_false_of_not_eq_true hterminal⟩ ?_ (hset.trans hcore)
        False.elim
      rw [TaskAction.Admissible, hidentity]
      exact (hasRetentionHolds_congr hset.retainedBy _).symm
    rw [settleTask_eq, hidentity]
    exact ⟨_, Or.inr ⟨_, rfl⟩, _, hstep, releaseOwnedHolds_unwinds (w.store.identity queue id) (hstep.sane hs)⟩

theorem failTask_ends {w : World} (hs : Sane env.now w.store) {r : TaskRecord}
    (hrunning : (w.store.view (queue, id)).Running r) (cause : Cause) {error : LuaValue} {retryAt : ℚ}
    (hauthorized : cause.Authorized env (w.store.view (queue, id)) error retryAt) :
    ∃ a, a.IsFailure cause error retryAt ∧
      Ends env (queue, id) a w.store (failTask env queue id error retryAt cause.kind w).store := by
  obtain ⟨a, ha, t, hstep, hrelease⟩ := failTask_unwinds hs hrunning cause hauthorized
  exact ⟨a, ha, t, hstep, hrelease.mono fun _ hact => hact.isRelease⟩

end EffectMQ
