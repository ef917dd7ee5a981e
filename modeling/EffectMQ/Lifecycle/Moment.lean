import EffectMQ.Lifecycle.Holds

/-!
# The moments of a run

The steps inside the invocations of a run, each with what the run did before it and up to the reply of its call. An
invariant that also speaks of the calls so far is proved for every such step.
-/

namespace EffectMQ

open Redis Transition

/-- A path that passes a step. -/
theorem EnginePath.preserves_between {env : Env} {P : EngineAction → Prop} {b b' : Busy} {s s' : Store}
    {I : Busy → Store → Prop} (h : EnginePath env P b s b' s') (hI : I b s)
    (hstep : ∀ b₁ s₁ act b₂ s₂, EnginePath env P b s b₁ s₁ → I b₁ s₁ → EngineStep env b₁ s₁ act b₂ s₂ → P act →
      EnginePath env P b₂ s₂ b' s' → I b₂ s₂) : I b' s' := by
  suffices ∀ b₁ s₁, EnginePath env P b s b₁ s₁ → EnginePath env P b₁ s₁ b' s' → I b₁ s₁ from this b' s' h .refl
  intro b₁ s₁ hpath
  induction hpath with
  | refl => exact fun _ => hI
  | tail hpath hlast hact ih =>
    intro hrest
    exact hstep _ _ _ _ _ hpath (ih ((EnginePath.single hlast hact).trans hrest)) hlast hact hrest

/-- A step that a call of a run takes on its way to its reply. -/
structure Occurs (calls : List Call) (c : Call) (b : Busy) (s : Store) (act : EngineAction) (b' : Busy) (s' : Store) :
    Prop where
  call : ∃ before after e e', calls = before ++ c :: after ∧ engine.Run before e ∧ engine.step e c e' ∧
    e.Performs c.env c.op b s act b' s' ∧ EnginePath c.env (c.op.Allows c.env e.store) b' s' none e'.store

namespace Occurs

variable {calls : List Call} {c : Call} {b b' : Busy} {s s' : Store} {act : EngineAction}

theorem mem (h : Occurs calls c b s act b' s') : c ∈ calls := by
  obtain ⟨before, after, _, _, rfl, _⟩ := h.call
  simp

theorem append (h : Occurs calls c b s act b' s') (rest : List Call) : Occurs (calls ++ rest) c b s act b' s' := by
  obtain ⟨before, after, e, e', rfl, hrest⟩ := h.call
  exact ⟨before, after ++ rest, e, e', by simp, hrest⟩

theorem performs (h : Occurs calls c b s act b' s') :
    ∃ before e, engine.Run before e ∧ e.Performs c.env c.op b s act b' s' := by
  obtain ⟨before, _, e, _, _, hrun, _, hperforms, _⟩ := h.call
  exact ⟨before, e, hrun, hperforms⟩

theorem step (h : Occurs calls c b s act b' s') : EngineStep c.env b s act b' s' :=
  h.performs.choose_spec.choose_spec.2.step

theorem sane (h : Occurs calls c b s act b' s') : Sane c.env.now s := by
  obtain ⟨_, _, hrun, hperforms⟩ := h.performs
  exact hperforms.sane hrun

/-- An invariant of the steps of the engine holds before every step of a run. -/
theorem preserves (h : Occurs calls c b s act b' s') {I : Busy → Store → Prop} (hempty : I none Store.empty)
    (hstep : ∀ env b s act b' s', Sane env.now s → I b s → EngineStep env b s act b' s' → I b' s') : I b s := by
  obtain ⟨_, _, hrun, hperforms⟩ := h.performs
  exact hperforms.preserves hrun hempty hstep

end Occurs

/-- An invariant of the moments of a run. The calls so far include the one that takes the step. -/
structure MomentInvariant (I : List Call → ℕ → Busy → Store → Prop) : Prop where
  empty : I [] 0 none Store.empty
  call : ∀ calls c clock s, clock ≤ c.env.clock → I calls clock none s → I (calls ++ [c]) c.env.clock none s
  step : ∀ calls c b s act b' s', Occurs (calls ++ [c]) c b s act b' s' → I (calls ++ [c]) c.env.clock b s →
    I (calls ++ [c]) c.env.clock b' s'

namespace MomentInvariant

variable {I : List Call → ℕ → Busy → Store → Prop} {calls : List Call} {c : Call} {e e' : Engine} {b : Busy} {s : Store}

theorem within_call (hI : MomentInvariant I) (h : engine.Run calls e) (hbefore : I calls e.clock none e.store)
    (hstep : engine.step e c e') (hpath : EnginePath c.env (c.op.Allows c.env e.store) none e.store b s)
    (hrest : EnginePath c.env (c.op.Allows c.env e.store) b s none e'.store) : I (calls ++ [c]) c.env.clock b s := by
  refine hpath.preserves_between (I := fun b s => I (calls ++ [c]) c.env.clock b s)
    (hI.call calls c e.clock e.store hstep.1 hbefore) ?_
  intro b₁ s₁ act b₂ s₂ hpath₁ hI₁ hstep₁ hact hrest₁
  exact hI.step calls c b₁ s₁ act b₂ s₂
    ⟨calls, [], e, e', rfl, h, hstep, ⟨hstep.1, hpath₁, hstep₁, hact⟩, hrest₁.trans hrest⟩ hI₁

theorem run (hI : MomentInvariant I) (h : engine.Run calls e) : I calls e.clock none e.store := by
  refine h.induction (P := fun calls e => I calls e.clock none e.store) ?_ ?_
  · rintro _ rfl
    exact hI.empty
  · intro calls e c e' hrun hbefore hstep
    rw [hstep.2.1]
    have hs : Sane c.env.now e.store := (run_sane hrun).mono (Nat.cast_le.mpr hstep.1)
    exact hI.within_call hrun hbefore hstep (exec_path hs hstep.2.2) .refl

/-- The invariant at a moment of the call that follows a run. -/
theorem within (hI : MomentInvariant I) (h : engine.Run calls e) (hstep : engine.step e c e')
    (hpath : EnginePath c.env (c.op.Allows c.env e.store) none e.store b s)
    (hrest : EnginePath c.env (c.op.Allows c.env e.store) b s none e'.store) : I (calls ++ [c]) c.env.clock b s :=
  hI.within_call h (hI.run h) hstep hpath hrest

end MomentInvariant

/-! ### Where a step of a generation can be -/

theorem engine_step_unique {c : Call} {e e₁ e₂ : Engine} (h₁ : engine.step e c e₁) (h₂ : engine.step e c e₂) :
    e₁ = e₂ := by
  obtain ⟨_, hclock₁, hexec₁⟩ := h₁
  obtain ⟨_, hclock₂, hexec₂⟩ := h₂
  cases e₁
  cases e₂
  have hstore := Result.replied.inj (hexec₁.symm.trans hexec₂)
  simp_all

theorem engine_path_unique {calls : List Call} {e e₁ e₂ : Engine} (h₁ : engine.Path e calls e₁)
    (h₂ : engine.Path e calls e₂) : e₁ = e₂ := by
  induction h₁ generalizing e₂ with
  | nil => exact (System.Path.eq_of_nil h₂).symm
  | snoc _ hstep ih =>
    obtain ⟨t, ht, hstep'⟩ := System.Path.of_snoc h₂
    rw [ih ht] at hstep
    exact engine_step_unique hstep hstep'

theorem engine_run_unique {calls : List Call} {e₁ e₂ : Engine} (h₁ : engine.Run calls e₁)
    (h₂ : engine.Run calls e₂) : e₁ = e₂ := by
  obtain ⟨_, rfl, hpath₁⟩ := h₁
  obtain ⟨_, rfl, hpath₂⟩ := h₂
  exact engine_path_unique hpath₁ hpath₂

theorem EnginePath.counter_le {env : Env} {P : EngineAction → Prop} {b b' : Busy} {s s' : Store}
    (h : EnginePath env P b s b' s') (k : TaskKey) : s.generations k ≤ s'.generations k := by
  induction h with
  | refl => exact le_refl _
  | tail _ hstep _ ih => exact ih.trans (hstep.counter_le k)

/-- Only a creation under an id changes its counter. -/
theorem EnginePath.counter_eq {env : Env} {P : EngineAction → Prop} {b b' : Busy} {s s' : Store}
    (h : EnginePath env P b s b' s') {k : TaskKey}
    (hP : ∀ act, P act → ∀ args replacedTask, act.on k ≠ some (.create args replacedTask)) :
    s'.generations k = s.generations k := by
  induction h with
  | refl => rfl
  | tail _ hstep hact ih =>
    rcases hstep.view k with ⟨_, hview⟩ | ⟨a, hon, htask⟩
    · exact (congrArg TaskView.counter hview).trans ih
    · exact (htask.counter fun args replacedTask ha => hP _ hact args replacedTask (hon.trans (congrArg some ha))).trans ih

theorem EngineAction.IsSweep.on {act : EngineAction} (h : act.IsSweep) {k : TaskKey} {a : TaskAction}
    (hon : act.on k = some a) : act = .task k a ∨ a = .refile := by
  rcases EngineAction.on_cases hon with rfl | ⟨_, _, _, rfl, _⟩ | ⟨_, rfl, _⟩ | ⟨_, _, _, _, rfl⟩
  · exact Or.inl rfl
  · exact h.elim
  · exact h.elim
  · exact Or.inr rfl

theorem EngineAction.IsSweep.not_create {act : EngineAction} (h : act.IsSweep) {k : TaskKey} (args : CreateArgs)
    (replacedTask : Option TaskRecord) : act.on k ≠ some (.create args replacedTask) := by
  intro hon
  rcases h.on hon with rfl | heq
  · exact h
  · exact absurd heq (by simp)

/-- A sweep gives no generation. -/
theorem Op.counter_swept {env : Env} {s : Store} (hs : Sane env.now s) (op : Op) (k : TaskKey) :
    (op.swept env s).generations k = s.generations k :=
  (swept_path hs op).counter_eq fun _ hact => hact.not_create

theorem path_counter_le {calls calls' : List Call} {e e' : Engine} (h : engine.Run calls e)
    (h' : engine.Path e calls' e') (k : TaskKey) : e.store.generations k ≤ e'.store.generations k := by
  refine path_preserves h h' (I := fun _ e' => e.store.generations k ≤ e'.store.generations k) (le_refl _) ?_
  intro calls₁ e₁ c e₂ hrun _ hle ⟨hclock, _, hexec⟩
  have hs : Sane c.env.now e₁.store := (run_sane hrun).mono (Nat.cast_le.mpr hclock)
  exact hle.trans ((exec_path hs hexec).counter_le k)

/-- A step that finds or leaves a generation allocated comes after the calls that had not allocated it yet. -/
theorem Occurs.after {calls rest : List Call} {e : Engine} (h : engine.Run calls e) {c : Call} {b b' : Busy}
    {s s' : Store} {act : EngineAction} (hoccurs : Occurs (calls ++ rest) c b s act b' s') {k : TaskKey} {g : ℕ}
    (hbefore : e.store.generations k < g) (hafter : g ≤ s'.generations k) :
    ∃ pre post e₁ e₂, rest = pre ++ c :: post ∧ engine.Path e pre e₁ ∧ engine.step e₁ c e₂ ∧
      e₁.Performs c.env c.op b s act b' s' ∧ EnginePath c.env (c.op.Allows c.env e₁.store) b' s' none e₂.store := by
  obtain ⟨before, after, e₁, e₂, heq, hrun, hstep, hperforms, hrest⟩ := hoccurs.call
  rcases List.append_eq_append_iff.mp heq with ⟨mid, rfl, hmid⟩ | ⟨mid, rfl, hmid⟩
  · obtain ⟨e₃, hrun₃, hpath⟩ := hrun.split
    obtain rfl := engine_run_unique h hrun₃
    exact ⟨mid, after, e₁, e₂, hmid, hpath, hstep, hperforms, hrest⟩
  · cases mid with
    | nil =>
      rw [List.append_nil] at h
      obtain rfl := engine_run_unique h hrun
      exact ⟨[], after, e, e₂, hmid.symm, .nil, hstep, hperforms, hrest⟩
    | cons d mid =>
      -- the call was one of the calls before, which had not allocated the generation
      obtain ⟨rfl, _⟩ := List.cons.inj hmid
      obtain ⟨e₃, hrun₃, hpath⟩ := h.split
      obtain rfl := engine_run_unique hrun hrun₃
      obtain ⟨e₄, hfirst, hpath⟩ := System.Path.split (l := [c]) hpath
      obtain rfl := engine_path_unique (.single hstep) hfirst
      have hle := (hrest.counter_le k).trans (path_counter_le (hrun.snoc hstep) hpath k)
      omega

end EffectMQ
