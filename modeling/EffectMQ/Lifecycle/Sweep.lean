import EffectMQ.Lifecycle.Release

/-!
# A sweep as a path

Every sweep works through a list of members that was read before the first of them is processed. The guard of a
member still holds when its turn comes, because processing one member leaves the views that the others are
about.
-/

namespace EffectMQ

open Redis

/-- The actions of a maintenance sweep. -/
def EngineAction.IsSweep : EngineAction → Prop
  | .task _ .promote | .task _ .expireTask | .task _ (.dropDate _) | .task _ (.holdDate _)
  | .task _ (.expireResult _ _) | .task _ (.expireTerminal _) | .task _ (.expireDeadLetter _)
  | .task _ (.retry .stalled _ _) | .task _ (.fail .stalled _ _ _)
  | .start _ | .pop _ _ | .drop _ _ _ | .note _ | .tick => True
  | _ => False

/-- The actions of the sweeps that do not look at delayed tasks. -/
def EngineAction.IsUpkeep : EngineAction → Prop
  | .task _ .promote => False
  | act => act.IsSweep

theorem EngineAction.IsRelease.isUpkeep {act : EngineAction} (h : act.IsRelease) : act.IsUpkeep := by
  cases act <;> first | exact trivial | exact absurd h (by simp [EngineAction.IsRelease])

theorem EngineAction.IsUpkeep.isSweep {act : EngineAction} (h : act.IsUpkeep) : act.IsSweep := by
  unfold EngineAction.IsUpkeep at h
  split at h
  · exact h.elim
  · exact h

theorem EngineAction.IsRelease.isSweep {act : EngineAction} (h : act.IsRelease) : act.IsSweep := h.isUpkeep.isSweep

/-- What the sweeps that do not look at delayed tasks do to a task of their queue. -/
def TaskAction.IsUpkeep : TaskAction → Prop
  | .expireTask | .dropDate _ | .holdDate _ | .expireResult _ _ | .expireTerminal _ | .expireDeadLetter _
  | .retry .stalled _ _ | .fail .stalled _ _ _ => True
  | _ => False

/-- The actions of these sweeps, but for the start of a release. -/
def EngineAction.Tends (queue : String) (act : EngineAction) : Prop :=
  (∃ id a, act = .task (queue, id) a ∧ a.IsUpkeep) ∨ act.Unwinds

theorem EngineAction.Tends.isUpkeep {queue : String} {act : EngineAction} (h : act.Tends queue) : act.IsUpkeep := by
  rcases h with ⟨id, a, rfl, ha⟩ | hact
  · cases a with
    | retry cause => cases cause <;> exact ha
    | fail cause => cases cause <;> exact ha
    | expireTask | dropDate | holdDate | expireResult | expireTerminal | expireDeadLetter => exact trivial
    | create | promote | lease | renew | release | succeed | progress | refile | replace | remove | revoke | forget =>
      exact ha
  · exact hact.isRelease.isUpkeep

variable {env : Env} {queue : String}

/-- A sweep over distinct members whose guards outlive the processing of the others. -/
theorem foldl_path {ι : Type} {f : World → ι → World} {P : EngineAction → Prop} {G : Store → ι → Prop}
    (hstep : ∀ w x, Sane env.now w.store → G w.store x → EnginePath env P none w.store none (f w x).store ∧
      ∀ y, y ≠ x → G w.store y → G (f w x).store y) (items : List ι) (hnodup : items.Nodup) {w : World}
    (hs : Sane env.now w.store) (hguard : ∀ x ∈ items, G w.store x) :
    EnginePath env P none w.store none (items.foldl f w).store := by
  induction items generalizing w with
  | nil => exact .refl
  | cons x rest ih =>
    obtain ⟨hx, hrest⟩ := List.nodup_cons.mp hnodup
    obtain ⟨hpath, hkeep⟩ := hstep w x hs (hguard x List.mem_cons_self)
    refine hpath.trans (ih hrest (hpath.sane hs) fun y hy => hkeep y (fun heq => hx (heq ▸ hy)) ?_)
    exact hguard y (List.mem_cons_of_mem _ hy)

/-- The same after the first member. -/
theorem foldl_tail {ι : Type} {f : World → ι → World} {P : EngineAction → Prop} {G : Store → ι → Prop}
    (hstep : ∀ w x, Sane env.now w.store → G w.store x → EnginePath env P none w.store none (f w x).store ∧
      ∀ y, y ≠ x → G w.store y → G (f w x).store y) {items : List ι} {first : ι} (hfirst : items.head? = some first)
    (hnodup : items.Nodup) {w : World} (hs : Sane env.now w.store) (hguard : ∀ x ∈ items, G w.store x) :
    EnginePath env P none (f w first).store none (items.foldl f w).store := by
  obtain ⟨rest, rfl⟩ := List.head?_eq_some_iff.mp hfirst
  obtain ⟨hx, hrest⟩ := List.nodup_cons.mp hnodup
  obtain ⟨hpath, hkeep⟩ := hstep w first hs (hguard first List.mem_cons_self)
  refine foldl_path hstep rest hrest (hpath.sane hs) fun y hy => hkeep y (fun heq => hx (heq ▸ hy)) ?_
  exact hguard y (List.mem_cons_of_mem _ hy)

@[simp] theorem World.spend_store (w : World) (n : ℕ) : (w.spend n).store = w.store := rfl

/-! ### Delayed tasks and leases -/

theorem record_of_score {now : ℚ} {v : TaskView} (h : v.Consistent now) {l : TaskList} {t : ℚ}
    (hscore : v.score l = some t) : ∃ r, v.record = some r ∧ r.place = some l := by
  obtain ⟨hplace, _⟩ := (h.listed.score l).mp (by rw [hscore]; rfl)
  cases hr : v.record with
  | none =>
    rw [TaskView.place_of_record_none hr] at hplace
    exact absurd hplace (by simp)
  | some r => exact ⟨r, rfl, (TaskView.place_of_record hr).symm.trans hplace⟩

/-- A due member of a range that starts at zero. -/
theorem due_of_range {w : World} {id : String}
    (hid : id ∈ (w.store.lists queue).scheduled.rangeByScore env.now w.remaining) :
    TaskView.Due env ((w.store.view (queue, id)).score .scheduled) := by
  obtain ⟨t, ht, _, hle⟩ := SortedSet.score_of_mem_rangeByScore hid
  exact ⟨t, ht, hle⟩

theorem promote_step {w : World} {id : String} (hs : Sane env.now w.store)
    (hdue : TaskView.Due env ((w.store.view (queue, id)).score .scheduled)) :
    EngineStep env none w.store (.task (queue, id) .promote) none
      (moveToList env queue id (some .wait) 0 false none w).store := by
  obtain ⟨t, ht, hle⟩ := hdue
  have henabled : TaskAction.promote.Enabled env (w.store.view (queue, id)) :=
    ⟨record_of_score (hs.views (queue, id)) ht, t, ht, hle⟩
  exact .task henabled trivial (local_moveToList env (hs.listed queue id) (some .wait) 0 false (by simp) none) False.elim

theorem promote_keeps (w : World) (id : String) (hs : Sane env.now w.store)
    (hdue : TaskView.Due env ((w.store.view (queue, id)).score .scheduled)) :
    EnginePath env (fun act => ∃ id, act = .task (queue, id) .promote) none w.store none
        (moveToList env queue id (some .wait) 0 false none w).store ∧
      ∀ id', id' ≠ id → TaskView.Due env ((w.store.view (queue, id')).score .scheduled) →
        TaskView.Due env (((moveToList env queue id (some .wait) 0 false none w).store.view (queue, id')).score .scheduled) := by
  have hstep := promote_step hs hdue
  refine ⟨.single hstep ⟨id, rfl⟩, fun id' hid hdue' => ?_⟩
  rw [hstep.view_task.2 _ fun h => hid (Prod.mk.inj h).2]
  exact hdue'

theorem syncDelayed_path {w : World} (hs : Sane env.now w.store) :
    EnginePath env (fun act => ∃ id, act = .task (queue, id) .promote) none w.store none
      (syncDelayed env queue w).store := by
  unfold syncDelayed
  split
  · exact .refl
  · exact foldl_path (G := fun s id => TaskView.Due env ((s.view (queue, id)).score .scheduled)) promote_keeps _
      (SortedSet.rangeByScore_nodup _ _ _) (w := w.spend _) hs fun _ => due_of_range

theorem running_of_active {now : ℚ} {v : TaskView} (h : v.Consistent now) {t : ℚ} (hscore : v.score .active = some t) :
    ∃ r, v.Running r := by
  obtain ⟨r, hr, hplace⟩ := record_of_score h hscore
  exact ⟨r, hr, hplace, (h.placed r hr).outcome_eq_none (Or.inr (Or.inr hplace))⟩

theorem failStalled_step {w : World} {id : String} (hs : Sane env.now w.store) {r : TaskRecord}
    (hrunning : (w.store.view (queue, id)).Running r) (hidle : isLocked env w.store queue id = false) :
    ∃ a, a.IsFailure .stalled (stalledError env.clock) (w.store.view (queue, id)).stallTime ∧
      ∃ t, EngineStep env none w.store (.task (queue, id) a) (a.busy w.store (queue, id)) t ∧
        EnginePath env EngineAction.Unwinds (a.busy w.store (queue, id)) t none (failStalled env queue w id).store := by
  have hauthorized : Cause.stalled.Authorized env (w.store.view (queue, id)) (stalledError env.clock)
      (w.store.view (queue, id)).stallTime :=
    ⟨Option.not_isSome_iff_eq_none.mp (Bool.not_eq_true _ ▸ hidle), rfl, rfl⟩
  unfold failStalled
  rw [if_neg (by simp [hidle])]
  exact failTask_unwinds hs hrunning .stalled hauthorized

theorem TaskAction.IsFailure.isUpkeep {a : TaskAction} {error : LuaValue} {retryAt : ℚ}
    (h : a.IsFailure .stalled error retryAt) : a.IsUpkeep := by
  rcases h with rfl | ⟨held, rfl⟩ <;> exact trivial

theorem failStalled_path (w : World) (id : String) (hs : Sane env.now w.store)
    (hrunning : ∃ r, (w.store.view (queue, id)).Running r) :
    EnginePath env (EngineAction.Tends queue) none w.store none (failStalled env queue w id).store ∧
      ∀ id', id' ≠ id → (∃ r, (w.store.view (queue, id')).Running r) →
        ∃ r, ((failStalled env queue w id).store.view (queue, id')).Running r := by
  obtain ⟨r, hrunning⟩ := hrunning
  by_cases hidle : isLocked env w.store queue id = false
  · obtain ⟨a, ha, t, hstep, hrelease⟩ := failStalled_step hs hrunning hidle
    refine ⟨(EnginePath.single hstep (Or.inl ⟨id, a, rfl, ha.isUpkeep⟩)).trans
      (hrelease.mono fun _ hact => Or.inr hact), fun id' hid ⟨r', hr'⟩ => ⟨r', ?_⟩⟩
    have hview : (t.view (queue, id')) = w.store.view (queue, id') :=
      hstep.view_task.2 _ fun h => hid (Prod.mk.inj h).2
    rw [release_view_eq (hrelease.mono fun _ hact => hact.isRelease) fun r hr => ?_, hview]
    · exact hr'
    · rw [hview] at hr
      obtain rfl := Option.some.inj (hr'.record.symm.trans hr)
      exact hr'.outcome
  · rw [failStalled, if_pos (Bool.eq_true_of_not_eq_false hidle)]
    exact ⟨.refl, fun _ _ h => h⟩

theorem expiredActive_spec {w : World} (hs : Sane env.now w.store) :
    (getExpiredActiveList env queue w).Nodup ∧
      ∀ id ∈ getExpiredActiveList env queue w, ∃ r, (w.store.view (queue, id)).Running r := by
  unfold getExpiredActiveList
  split
  · exact ⟨List.nodup_nil, fun id hid => absurd hid List.not_mem_nil⟩
  · refine ⟨SortedSet.rangeByScore_nodup _ _ _, fun id hid => ?_⟩
    obtain ⟨t, ht, _⟩ := SortedSet.score_of_mem_rangeByScore hid
    exact running_of_active (hs.views (queue, id)) ht

theorem syncLocks_path {w : World} (hs : Sane env.now w.store) :
    EnginePath env (EngineAction.Tends queue) none w.store none (syncLocks env queue w).store := by
  obtain ⟨hnodup, hrunning⟩ := @expiredActive_spec env queue w hs
  exact foldl_path (G := fun s id => ∃ r, (s.view (queue, id)).Running r) failStalled_path _ hnodup (w := w.spend _) hs
    hrunning

/-! ### Continuations -/

theorem releaseOwnedHolds_start {w : World} (hs : Sane env.now w.store) (holder : TaskIdentity) :
    EnginePath env EngineAction.IsRelease none w.store none (releaseOwnedHolds env holder w).store :=
  (EnginePath.single .start trivial).trans (releaseOwnedHolds_path holder hs)

theorem range_nodup (z : SortedSet TaskIdentity) (first last : ℕ) : (z.range first last).Nodup :=
  (z.nodup.sublist (List.drop_sublist _ _)).sublist (List.take_sublist _ _)

theorem syncRetentionContinuations_path {w : World} (hs : Sane env.now w.store) :
    EnginePath env EngineAction.IsUpkeep none w.store none (syncRetentionContinuations env queue w).store := by
  unfold syncRetentionContinuations
  split
  · exact .refl
  · refine foldl_path (G := fun _ _ => True) ?_ _ (range_nodup _ 0 0) hs fun _ _ => trivial
    intro w holder hs _
    exact ⟨(releaseOwnedHolds_start hs holder).mono fun act hact => hact.isUpkeep, fun _ _ h => h⟩

/-! ### Expiry -/

/-- A generation in an expiry index of its own queue, with a date that has come. -/
def DueIn (env : Env) (queue : String) (date : Dates → Option ℚ) (s : Store) (x : TaskIdentity) : Prop :=
  x.queue = queue ∧ TaskView.Due env (date ((s.view (x.queue, x.id)).dates x.generation))

/-- A step at a member leaves the dates of the other members. -/
theorem DueIn.keep {date : Dates → Option ℚ} {s s' : Store} {x y : TaskIdentity} {a : TaskAction} {b : Busy}
    (hstep : EngineStep env none s (.task (queue, x.id) a) b s')
    (hwithin : TaskView.Within x.generation (s.view (queue, x.id)) (a.apply env x.id (s.view (queue, x.id))))
    (hx : x.queue = queue) (hne : y ≠ x) (h : DueIn env queue date s y) : DueIn env queue date s' y := by
  obtain ⟨⟨_, hself⟩, hothers⟩ := hstep.view_task
  refine ⟨h.1, ?_⟩
  by_cases hk : (y.queue, y.id) = (queue, x.id)
  · have hg : y.generation ≠ x.generation := by
      intro hg
      obtain ⟨hq, hid⟩ := Prod.mk.inj hk
      exact hne (by cases x; cases y; simp_all)
    have hdue := h.2
    rw [hk] at hdue ⊢
    rw [hself, hwithin.dates _ hg]
    exact hdue
  · rw [hothers _ hk]
    exact h.2

/-- The due members of an index of a queue. -/
theorem due_members {w : World} (hs : Sane env.now w.store) (queue : String)
    (index : ExpiryIndexes → SortedSet TaskIdentity) (date : Dates → Option ℚ)
    (hdate : ∀ (e : ExpiryIndexes) x, (index e).score x = date (e.dates x))
    (hnone : date Dates.none = none) :
    (dueExpiryMembers env (index (w.store.expiry queue)) w).Nodup ∧
      ∀ x ∈ dueExpiryMembers env (index (w.store.expiry queue)) w, DueIn env queue date w.store x := by
  unfold dueExpiryMembers
  split
  · exact ⟨List.nodup_nil, fun x hx => absurd hx List.not_mem_nil⟩
  · refine ⟨SortedSet.rangeByScore_nodup _ _ _, fun x hx => ?_⟩
    obtain ⟨t, ht, _, hle⟩ := SortedSet.score_of_mem_rangeByScore hx
    rw [hdate] at ht
    have hqueue : x.queue = queue := by
      by_contra hne
      rw [hs.homed queue x hne, hnone] at ht
      exact absurd ht (by simp)
    subst hqueue
    exact ⟨rfl, t, ht, hle⟩

/-- What a sweep does to a member of its expiry index. -/
def Expires (env : Env) (queue : String) (date : Dates → Option ℚ) (f : World → TaskIdentity → World)
    (A : Store → TaskIdentity → TaskAction → Prop) : Prop :=
  ∀ w x, Sane env.now w.store → DueIn env queue date w.store x → ∃ a, A w.store x a ∧ a.IsUpkeep ∧
    EngineStep env none w.store (.task (queue, x.id) a) none (f w x).store ∧
    TaskView.Within x.generation (w.store.view (queue, x.id)) (a.apply env x.id (w.store.view (queue, x.id)))

theorem Expires.keeps {f : World → TaskIdentity → World} {date : Dates → Option ℚ}
    {A : Store → TaskIdentity → TaskAction → Prop} (hf : Expires env queue date f A) (w : World) (x : TaskIdentity)
    (hs : Sane env.now w.store) (hx : DueIn env queue date w.store x) :
    EnginePath env (EngineAction.Tends queue) none w.store none (f w x).store ∧
      ∀ y, y ≠ x → DueIn env queue date w.store y → DueIn env queue date (f w x).store y := by
  obtain ⟨a, _, hupkeep, hstep, hwithin⟩ := hf w x hs hx
  exact ⟨.single hstep (Or.inl ⟨x.id, a, rfl, hupkeep⟩), fun y hy => DueIn.keep hstep hwithin hx.1 hy⟩

/-- A sweep over an expiry index. -/
theorem expiry_path {f : World → TaskIdentity → World} {date : Dates → Option ℚ}
    {A : Store → TaskIdentity → TaskAction → Prop} (hf : Expires env queue date f A)
    (members : List TaskIdentity) (hnodup : members.Nodup) {w : World} (hs : Sane env.now w.store)
    (hdue : ∀ x ∈ members, DueIn env queue date w.store x) :
    EnginePath env (EngineAction.Tends queue) none w.store none (members.foldl f w).store :=
  foldl_path hf.keeps members hnodup hs hdue

theorem expireTask_expires : Expires env queue Dates.task (expireTask env queue) fun s x a =>
    ((∃ r, (s.view (queue, x.id)).Settled r ∧ r.generation = x.generation) ∧ (a = .expireTask ∨ a = .holdDate x.generation)) ∨
      ((∀ r, (s.view (queue, x.id)).record = some r → r.generation = x.generation → r.outcome = none) ∧
        a = .dropDate x.generation) := by
  intro w x hs ⟨hqueue, hx⟩
  subst hqueue
  by_cases hsettled : ∃ r, w.store.current x = some r ∧ r.outcome.isSome
  · obtain ⟨r, hr, ho⟩ := hsettled
    obtain ⟨hrecord, hgeneration⟩ := current_eq_some_iff.mp hr
    have hidentity := identity_of_current hr
    have hstored : ∃ r, (w.store.view (x.queue, x.id)).Settled r ∧ r.generation = x.generation :=
      ⟨r, ⟨hrecord, ho⟩, hgeneration⟩
    by_cases hheld : w.store.hasRetentionHolds x = true
    · have henabled : (TaskAction.holdDate x.generation).Enabled env (w.store.view (x.queue, x.id)) := ⟨hstored, hx⟩
      exact ⟨.holdDate x.generation, Or.inl ⟨hstored, Or.inr rfl⟩, trivial,
        .task henabled hheld (local_expireTask_held env hr ho hheld) False.elim,
        TaskView.Within.setDates x.generation fun d => { d with task := some (env.now + 1000) }⟩
    · rw [Bool.not_eq_true] at hheld
      have henabled : TaskAction.expireTask.Enabled env (w.store.view (x.queue, x.id)) :=
        ⟨r, ⟨hrecord, ho⟩, hgeneration ▸ hx⟩
      exact ⟨.expireTask, Or.inl ⟨hstored, Or.inl rfl⟩, trivial,
        .task henabled ((congrArg _ hidentity).trans hheld) (local_expireTask_delete env (hs.listed _ _) hr ho hheld)
          False.elim,
        TaskView.Within.delete env x.id hrecord hgeneration⟩
  · have hunsettled : ∀ r, w.store.current x = some r → r.outcome = none := fun r hr => by
      by_contra ho
      exact hsettled ⟨r, hr, Option.isSome_iff_ne_none.mpr ho⟩
    have hgoing : ∀ r, (w.store.view (x.queue, x.id)).record = some r → r.generation = x.generation → r.outcome = none :=
      fun r hr hgeneration => hunsettled r (current_eq_some_iff.mpr ⟨hr, hgeneration⟩)
    have henabled : (TaskAction.dropDate x.generation).Enabled env (w.store.view (x.queue, x.id)) := ⟨hgoing, hx⟩
    exact ⟨.dropDate x.generation, Or.inr ⟨hgoing, rfl⟩, trivial,
      .task henabled trivial (local_expireTask_drop env hunsettled) fun _ => wait_expireTask env hunsettled,
      TaskView.Within.setDates x.generation fun d => { d with task := none }⟩

theorem syncTaskExpiry_path {w : World} (hs : Sane env.now w.store) :
    EnginePath env (EngineAction.Tends queue) none w.store none (syncTaskExpiry env queue w).store := by
  obtain ⟨hnodup, hdue⟩ := due_members hs queue ExpiryIndexes.tasks Dates.task (fun _ _ => rfl) rfl
  exact expiry_path expireTask_expires _ hnodup (w := w.spend _) hs hdue

theorem within_expireResult (g : ℕ) (held : Bool) (v : TaskView) :
    TaskView.Within g v (TaskView.expireResult env held g v) := by
  unfold TaskView.expireResult
  split
  · exact TaskView.Within.setDates _ _
  · exact (TaskView.Within.setDates g fun d => { d with result := none }).trans
      ⟨fun g' hne => Function.update_of_ne hne _ _, fun _ _ => rfl, fun _ _ => rfl⟩

theorem expireResult_expires : Expires env queue Dates.result (expireResult env queue) fun _ x a =>
    ∃ held, a = .expireResult x.generation held := by
  intro w x hs ⟨hqueue, hx⟩
  subst hqueue
  have henabled : (TaskAction.expireResult x.generation (w.store.hasRetentionHolds x)).Enabled env
    (w.store.view (x.queue, x.id)) := hx
  exact ⟨_, ⟨_, rfl⟩, trivial,
    .task henabled rfl (local_expireResult env w x) fun _ => wait_expireResult env w x, within_expireResult _ _ _⟩

theorem syncResultExpiry_path {w : World} (hs : Sane env.now w.store) :
    EnginePath env (EngineAction.Tends queue) none w.store none (syncResultExpiry env queue w).store := by
  obtain ⟨hnodup, hdue⟩ := due_members hs queue ExpiryIndexes.results Dates.result (fun _ _ => rfl) rfl
  exact expiry_path expireResult_expires _ hnodup (w := w.spend _) hs hdue

theorem within_expireTerminal (g : ℕ) (v : TaskView) : TaskView.Within g v (v.expireTerminal g) := by
  unfold TaskView.expireTerminal
  split
  · exact (TaskView.Within.of_eq rfl rfl rfl : TaskView.Within g v v.unindexTerminal).trans
      (TaskView.Within.setDates g _)
  · exact TaskView.Within.setDates g _

theorem expireTerminal_expires : Expires env queue Dates.terminal (expireTerminal queue) fun _ x a =>
    a = .expireTerminal x.generation := by
  intro w x hs ⟨hqueue, hx⟩
  subst hqueue
  have henabled : (TaskAction.expireTerminal x.generation).Enabled env (w.store.view (x.queue, x.id)) := hx
  exact ⟨_, rfl, trivial, .task henabled trivial (local_expireTerminal w x) fun _ => wait_expireTerminal w x,
    within_expireTerminal _ _⟩

theorem syncTerminalExpiry_path {w : World} (hs : Sane env.now w.store) :
    EnginePath env (EngineAction.Tends queue) none w.store none (syncTerminalExpiry env queue w).store := by
  obtain ⟨hnodup, hdue⟩ := due_members hs queue ExpiryIndexes.terminal Dates.terminal (fun _ _ => rfl) rfl
  exact expiry_path expireTerminal_expires _ hnodup (w := w.spend _) hs hdue

theorem expireDeadLetter_expires : Expires env queue Dates.deadLetterExpiry (expireDeadLetter queue) fun _ x a =>
    a = .expireDeadLetter x.generation := by
  intro w x hs ⟨hqueue, hx⟩
  subst hqueue
  have henabled : (TaskAction.expireDeadLetter x.generation).Enabled env (w.store.view (x.queue, x.id)) := hx
  exact ⟨_, rfl, trivial, .task henabled trivial (local_expireDeadLetter w x) fun _ => rfl,
    TaskView.Within.setDates x.generation fun d => { d with deadLetter := none, deadLetterExpiry := none }⟩

theorem syncDeadLetterExpiry_path {w : World} (hs : Sane env.now w.store) :
    EnginePath env (EngineAction.Tends queue) none w.store none (syncDeadLetterExpiry env queue w).store := by
  obtain ⟨hnodup, hdue⟩ := due_members hs queue ExpiryIndexes.deadLetterExpiry Dates.deadLetterExpiry
    (fun _ _ => rfl) rfl
  exact expiry_path expireDeadLetter_expires _ hnodup (w := w.spend _) hs hdue

/-! ### The rotation -/

theorem upkeep_path {sync : Env → String → World → World} (hsync : sync ∈ syncers.tail) {w : World}
    (hs : Sane env.now w.store) :
    EnginePath env EngineAction.IsUpkeep none w.store none (sync env queue w).store := by
  simp only [syncers, List.tail_cons, List.mem_cons, List.not_mem_nil, or_false] at hsync
  have htends : ∀ {s' : Store}, EnginePath env (EngineAction.Tends queue) none w.store none s' →
      EnginePath env EngineAction.IsUpkeep none w.store none s' := fun h => h.mono fun _ hact => hact.isUpkeep
  rcases hsync with rfl | rfl | rfl | rfl | rfl | rfl
  · exact htends (syncLocks_path hs)
  · exact syncRetentionContinuations_path hs
  · exact htends (syncTaskExpiry_path hs)
  · exact htends (syncResultExpiry_path hs)
  · exact htends (syncTerminalExpiry_path hs)
  · exact htends (syncDeadLetterExpiry_path hs)

theorem syncer_path {sync : Env → String → World → World} (hsync : sync ∈ syncers) {w : World}
    (hs : Sane env.now w.store) :
    EnginePath env EngineAction.IsSweep none w.store none (sync env queue w).store := by
  rcases List.mem_cons.mp hsync with rfl | hsync
  · refine (syncDelayed_path hs).mono ?_
    rintro _ ⟨id, rfl⟩
    exact trivial
  · exact (upkeep_path hsync hs).mono fun _ hact => hact.isSweep

theorem syncTurn_path (cursor offset : ℕ) {w : World} (hs : Sane env.now w.store) :
    EnginePath env EngineAction.IsSweep none w.store none (syncTurn env queue cursor w offset).store := by
  unfold syncTurn
  split
  · exact .refl
  · split
    · next sync hsync => exact syncer_path (List.mem_of_getElem? hsync) hs
    · exact .refl

theorem syncAll_path {w : World} (hs : Sane env.now w.store) :
    EnginePath env EngineAction.IsSweep none w.store none (syncAll env queue w).store := by
  unfold syncAll
  dsimp only
  have hturns : EnginePath env EngineAction.IsSweep none w.store none
      ((List.range syncers.length).foldl (syncTurn env queue (w.store.maintenanceCursor queue)) w).store :=
    foldl_path (G := fun _ _ => True) (fun w offset hs _ => ⟨syncTurn_path _ offset hs, fun _ _ h => h⟩) _
      List.nodup_range hs fun _ _ => trivial
  exact hturns.tail (.tick _ _) trivial

end EffectMQ
