import EffectMQ.Lifecycle.Effect
import EffectMQ.Transition.System

/-!
# Runs of the engine

Completed invocations one after the other, from the empty store, under a clock that never runs backwards. Each
invocation brings its own surroundings: any clock value from the last one on, any maintenance batch, any choice
of the members that a pop removes and of the entries that a trim drops.
-/

namespace EffectMQ

open Redis Transition

/-- An invocation and its reply. -/
structure Call where
  env : Env
  op : Op
  reply : Reply

/-- The store and the clock of the last invocation. -/
structure Engine where
  clock : ℕ
  store : Store

/-- The store at the end of an invocation. -/
def Result.store : Result → Store
  | .replied _ s => s
  | .raised _ s => s

/-- The engine as a transition system. A step is an invocation that was completed: one that the script aborts, at a history
whose sequence is exhausted, is none. Stores are keyed by queue, id and generation, so the runs are those of ids of which
none shadows another. -/
def engine : System Engine Call where
  initial e := e = ⟨0, Store.empty⟩
  step e c e' := e.clock ≤ c.env.clock ∧ e'.clock = c.env.clock ∧ exec c.env c.op e.store = .replied c.reply e'.store

theorem consistent_empty (now : ℚ) (k : TaskKey) : (Store.empty.view k).Consistent now where
  listed := ⟨rfl, fun l => by cases l <;> simp [Store.view, Store.empty, QueueLists.score, TaskView.place]⟩
  created := rfl
  placed r hr := absurd hr (by simp [Store.view, Store.empty])
  lease l hl := absurd hl (by simp [Store.view, Store.empty])
  generation r hr := absurd hr (by simp [Store.view, Store.empty])
  fresh g _ := ⟨rfl, rfl, rfl⟩

theorem sane_empty (now : ℚ) : Sane now Store.empty := ⟨consistent_empty now, fun _ _ _ => rfl⟩

/-- The actions of the effect of an operation. -/
def Op.Does (m : Store) : Op → EngineAction → Prop
  | .createTask a, act => (∃ replacedTask holder, act = .create a replacedTask holder) ∨
      (act = .task (a.queue, a.id) .replace ∧ a.onDuplicate = .newGeneration) ∨
      (∃ holder, act = .acquire holder (m.identity a.queue a.id))
  | .takeTask queue leaseToken lockTimeout, act =>
    ∃ id ttl, lockTimeout = some ttl ∧ act = .task (queue, id) (.lease leaseToken ttl)
  | .writeSuccess queue leaseToken id result, act =>
    (∃ held, act = .task (queue, id) (.succeed leaseToken result held)) ∨ act.IsRelease
  | .writeError queue leaseToken id error retryAt, act =>
    (∃ t a, retryAt = some t ∧ a.IsFailure (.reported leaseToken) error t ∧ act = .task (queue, id) a) ∨ act.IsRelease
  | .extendLock queue leaseToken id lockTimeout, act =>
    ∃ ttl, lockTimeout = some ttl ∧ act = .task (queue, id) (.renew leaseToken ttl)
  | .removeLock queue leaseToken id, act => act = .task (queue, id) (.release leaseToken)
  | .appendProgress queue id _ _ leaseToken data, act => act = .task (queue, id) (.progress leaseToken data)
  | .removeTask queue id, act => act.IsRemoval (queue, id)
  | .forceRemoveTask queue id, act => act = .task (queue, id) .revoke ∨ act.IsForcedRemoval (m.identity queue id)
  | .setSchedule _ _ _, act => act = .tick
  | .consumeSchedule _ _ _ _, act => act = .tick
  | _, _ => False

variable {env : Env} {m s : Store} {op : Op} {reply : Reply}

theorem Offered.path {a : CreateArgs} (h : Offered env a m reply s) :
    EnginePath env ((Op.createTask a).Does m) none m none s := by
  cases h with
  | refused | existing => exact .refl
  | held hr hmode hstep => exact .single hstep (Or.inr (Or.inr ⟨_, rfl⟩))
  | created hr hstep => exact .single hstep (Or.inl ⟨_, _, rfl⟩)
  | replaced hr hmode hdispose hstep =>
    exact (EnginePath.single hdispose (Or.inr (Or.inl ⟨rfl, hmode⟩))).tail hstep (Or.inl ⟨_, _, rfl⟩)
  | disposed hr hoffer hmode hholder hlive hdispose hfull => exact .single hdispose (Or.inr (Or.inl ⟨rfl, hmode⟩))

theorem Effect.path (h : Effect env m op reply s) : EnginePath env (op.Does m) none m none s := by
  cases h with
  | refused | answered => exact .refl
  | offered hvalid h => exact h.path
  | leased hhead htask hstep => exact .single hstep ⟨_, _, rfl, rfl⟩
  | succeeded howner hends => exact hends.path.mono fun act hact => hact.imp_left fun hact => ⟨_, hact⟩
  | failed howner ha hends => exact hends.path.mono fun act hact => hact.imp_left fun hact => ⟨_, _, rfl, ha, hact⟩
  | renewed hstep => exact .single hstep ⟨_, rfl, rfl⟩
  | released hstep => exact .single hstep rfl
  | progressed hgeneration hstep => exact .single hstep rfl
  | removed hidle hheld hpath => exact hpath
  | forced hrevoke hpath =>
    exact (EnginePath.single hrevoke (Or.inl rfl)).trans (hpath.mono fun act hact => Or.inr hact)
  | scheduled op reply hop hreply hstep =>
    refine .single hstep ?_
    rcases hop with ⟨queue, name, next, rfl⟩ | ⟨queue, name, current, next, rfl⟩ <;> rfl

/-- The actions of an invocation: those of its sweep, then those of its effect. -/
def Op.Allows (env : Env) (s : Store) (op : Op) (act : EngineAction) : Prop :=
  act.IsSweep ∨ op.Does (op.swept env s) act

theorem exec_path (hs : Sane env.now s) {s' : Store} (h : exec env op s = .replied reply s') :
    EnginePath env (op.Allows env s) none s none s' :=
  ((swept_path hs op).mono fun _ hact => Or.inl hact).trans
    ((exec_effect hs h).path.mono fun _ hact => Or.inr hact)

theorem engine_step_sane {e e' : Engine} {c : Call} (hs : Sane e.clock e.store) (h : engine.step e c e') :
    Sane e'.clock e'.store := by
  obtain ⟨hclock, hclock', hexec⟩ := h
  have hs' : Sane c.env.now e.store := hs.mono (Nat.cast_le.mpr hclock)
  rw [hclock']
  exact (exec_path hs' hexec).sane hs'

theorem run_sane {calls : List Call} {e : Engine} (h : engine.Run calls e) : Sane e.clock e.store :=
  h.invariant (I := fun e => Sane e.clock e.store) (by
    rintro _ rfl
    exact sane_empty _) fun _ _ _ => engine_step_sane

/-- A step inside an invocation that may come next. -/
structure Engine.Performs (e : Engine) (env : Env) (op : Op) (b : Busy) (s : Store) (act : EngineAction) (b' : Busy)
    (s' : Store) : Prop where
  clock : e.clock ≤ env.clock
  path : EnginePath env (op.Allows env e.store) none e.store b s
  step : EngineStep env b s act b' s'
  allowed : op.Allows env e.store act

theorem Engine.Performs.sane {e : Engine} {b b' : Busy} {s' : Store} {act : EngineAction} {calls : List Call}
    (h : e.Performs env op b s act b' s') (hrun : engine.Run calls e) : Sane env.now s :=
  h.path.sane ((run_sane hrun).mono (Nat.cast_le.mpr h.clock))

/-- An invariant of the steps of the engine, which between two invocations is not releasing any holder, holds of
every state of a run. -/
theorem run_preserves {calls : List Call} {e : Engine} (h : engine.Run calls e) {I : Busy → Store → Prop}
    (hempty : I none Store.empty)
    (hstep : ∀ env b s act b' s', Sane env.now s → I b s → EngineStep env b s act b' s' → I b' s') :
    I none e.store := by
  refine (h.invariant (I := fun e => Sane e.clock e.store ∧ I none e.store) ?_ ?_).2
  · rintro _ rfl
    exact ⟨sane_empty _, hempty⟩
  · intro e c e' ⟨hs, hI⟩ hc
    have hs' : Sane c.env.now e.store := hs.mono (Nat.cast_le.mpr hc.1)
    exact ⟨engine_step_sane hs hc,
      (exec_path hs' hc.2.2).preserves hs' hI fun b s act b' s' hs hI hstep' _ => hstep _ b s act b' s' hs hI hstep'⟩

/-- The same for the runs whose operations all meet a condition, with the operation that a step belongs to. -/
theorem run_preserves_of {calls : List Call} {e : Engine} (h : engine.Run calls e) {C : Op → Prop}
    (hcalls : ∀ c ∈ calls, C c.op) {I : Busy → Store → Prop} (hempty : I none Store.empty)
    (hstep : ∀ env op m b s act b' s', C op → op.Allows env m act → Sane env.now s → I b s →
      EngineStep env b s act b' s' → I b' s') : I none e.store := by
  revert hcalls
  refine h.induction (P := fun calls e => (∀ c ∈ calls, C c.op) → I none e.store) ?_ ?_
  · rintro _ rfl _
    exact hempty
  · intro calls e c e' hrun ih ⟨hclock, _, hexec⟩ hcalls
    have hs : Sane c.env.now e.store := (run_sane hrun).mono (Nat.cast_le.mpr hclock)
    have hc : C c.op := hcalls c (List.mem_append_right _ (List.mem_singleton_self c))
    refine (exec_path hs hexec).preserves hs (ih fun d hd => hcalls d (List.mem_append_left _ hd)) ?_
    exact fun b s act b' s' hs hI hstep' hact => hstep _ _ _ b s act b' s' hc hact hs hI hstep'

/-- The same in the middle of an invocation. -/
theorem Engine.Performs.preserves {e : Engine} {b b' : Busy} {s' : Store} {act : EngineAction} {calls : List Call}
    (h : e.Performs env op b s act b' s') (hrun : engine.Run calls e) {I : Busy → Store → Prop}
    (hempty : I none Store.empty)
    (hstep : ∀ env b s act b' s', Sane env.now s → I b s → EngineStep env b s act b' s' → I b' s') : I b s :=
  h.path.preserves ((run_sane hrun).mono (Nat.cast_le.mpr h.clock)) (run_preserves hrun hempty hstep)
    fun b s act b' s' hs hI hstep' _ => hstep env b s act b' s' hs hI hstep'

/-- What every invocation preserves is preserved along a path that starts in a state of a run. -/
theorem path_preserves {calls calls' : List Call} {e e' : Engine} (h : engine.Run calls e) (h' : engine.Path e calls' e')
    {I : List Call → Engine → Prop} (hrefl : I [] e)
    (hstep : ∀ calls₁ e₁ c e₂, engine.Run calls₁ e₁ → ∀ calls₂, I calls₂ e₁ → engine.step e₁ c e₂ →
      I (calls₂ ++ [c]) e₂) : I calls' e' := by
  induction h' with
  | nil => exact hrefl
  | snoc hpath hlast ih => exact hstep _ _ _ _ (h.extend hpath) _ ih hlast

end EffectMQ
