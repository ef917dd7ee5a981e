import EffectMQ.Lifecycle.Holds

/-!
# How a record advances

The record of a generation before and after a step, in full. What its offer fixed stays fixed as long as the
generation is stored, and its counters only grow; so the same holds between any two states of a run.
-/

namespace EffectMQ

open Redis Transition

/-- The key of the id that an identity names a generation of. -/
def TaskIdentity.key (x : TaskIdentity) : TaskKey := (x.queue, x.id)

/-- A later record of the same generation. -/
structure TaskRecord.Advances (r r' : TaskRecord) : Prop where
  sameOffer : r.SameOffer r'
  protocolVersion : r'.protocolVersion = r.protocolVersion
  schemaId : r'.schemaId = r.schemaId
  createdAt : r'.createdAt = r.createdAt
  maxRetries : r'.maxRetries = r.maxRetries
  maxStalledCount : r'.maxStalledCount = r.maxStalledCount
  deadLetterRetentionMs : r'.deadLetterRetentionMs = r.deadLetterRetentionMs
  attempt : r.attempt ≤ r'.attempt
  handlerFailureCount : r.handlerFailureCount ≤ r'.handlerFailureCount
  stalledAttemptCount : r.stalledAttemptCount ≤ r'.stalledAttemptCount

namespace TaskRecord.Advances

variable {r r' r'' : TaskRecord}

theorem refl (r : TaskRecord) : r.Advances r :=
  ⟨.refl r, rfl, rfl, rfl, rfl, rfl, rfl, le_refl _, le_refl _, le_refl _⟩

theorem trans (h : r.Advances r') (h' : r'.Advances r'') : r.Advances r'' where
  sameOffer := h.sameOffer.trans h'.sameOffer
  protocolVersion := h'.protocolVersion.trans h.protocolVersion
  schemaId := h'.schemaId.trans h.schemaId
  createdAt := h'.createdAt.trans h.createdAt
  maxRetries := h'.maxRetries.trans h.maxRetries
  maxStalledCount := h'.maxStalledCount.trans h.maxStalledCount
  deadLetterRetentionMs := h'.deadLetterRetentionMs.trans h.deadLetterRetentionMs
  attempt := h.attempt.trans h'.attempt
  handlerFailureCount := h.handlerFailureCount.trans h'.handlerFailureCount
  stalledAttemptCount := h.stalledAttemptCount.trans h'.stalledAttemptCount

theorem withHistory (h : r.Advances r') (history : HistoryFields) : r.Advances (r'.withHistory history) := by
  obtain ⟨⟨h₁, h₂, h₃, h₄, h₅, h₆, h₇⟩, h₈, h₉, h₁₀, h₁₁, h₁₂, h₁₃, h₁₄, h₁₅, h₁₆⟩ := h
  exact ⟨⟨h₁, h₂, h₃, h₄, h₅, h₆, h₇⟩, h₈, h₉, h₁₀, h₁₁, h₁₂, h₁₃, h₁₄, h₁₅, h₁₆⟩

/-- A record that differs in its place, its outcome, its success or its history only. -/
theorem of_eq (hoffer : r.SameOffer r') (hprotocol : r'.protocolVersion = r.protocolVersion)
    (hschema : r'.schemaId = r.schemaId) (hcreated : r'.createdAt = r.createdAt)
    (hretries : r'.maxRetries = r.maxRetries) (hstalled : r'.maxStalledCount = r.maxStalledCount)
    (hdead : r'.deadLetterRetentionMs = r.deadLetterRetentionMs) (hattempt : r'.attempt = r.attempt)
    (hhandler : r'.handlerFailureCount = r.handlerFailureCount)
    (hstalls : r'.stalledAttemptCount = r.stalledAttemptCount) : r.Advances r' :=
  ⟨hoffer, hprotocol, hschema, hcreated, hretries, hstalled, hdead, hattempt.ge, hhandler.ge, hstalls.ge⟩

theorem failed (env : Env) (r : TaskRecord) (error : LuaValue) (retryAt : Option ℚ) (kind : FailureKind) :
    r.Advances (r.failed env error retryAt kind) := by
  unfold TaskRecord.failed
  split
  · exact ⟨⟨rfl, rfl, rfl, rfl, rfl, rfl, rfl⟩, rfl, rfl, rfl, rfl, rfl, rfl, le_refl _, le_refl _, Nat.le_succ _⟩
  · exact ⟨⟨rfl, rfl, rfl, rfl, rfl, rfl, rfl⟩, rfl, rfl, rfl, rfl, rfl, rfl, le_refl _, Nat.le_succ _, le_refl _⟩

end TaskRecord.Advances

section

variable {env : Env} {a : TaskAction} {r r' : TaskRecord}

theorem TaskAction.next_advances (h : a.next env r = some r') : r.Advances r' := by
  have hoffer := TaskAction.next_sameOffer h
  cases a with
  | succeed leaseToken result held =>
    obtain rfl := TaskRecord.placed_eq_some h
    exact .of_eq hoffer rfl rfl rfl rfl rfl rfl rfl rfl rfl
  | fail cause error retryAt held =>
    obtain rfl := TaskRecord.placed_eq_some h
    have hfailed := TaskRecord.Advances.failed env r error (retryTime retryAt) cause.kind
    exact { hfailed with sameOffer := hoffer }
  | retry cause error retryAt =>
    obtain rfl := Option.some.inj h
    have hfailed := TaskRecord.Advances.failed env r error (retryTime retryAt) cause.kind
    exact { hfailed with sameOffer := hoffer }
  | lease leaseToken lockTimeout =>
    obtain rfl := Option.some.inj h
    exact ⟨hoffer, rfl, rfl, rfl, rfl, rfl, rfl, Nat.le_succ _, le_refl _, le_refl _⟩
  | refile =>
    cases ho : r.outcome with
    | none =>
      simp only [TaskAction.next, ho, Option.elim_none] at h
      exact Option.some.inj h ▸ .refl r
    | some outcome =>
      simp only [TaskAction.next, ho, Option.elim_some] at h
      obtain rfl := TaskRecord.placed_eq_some h
      exact .of_eq hoffer rfl rfl rfl rfl rfl rfl rfl rfl rfl
  | expireTerminal g =>
    obtain rfl := Option.some.inj h
    unfold TaskRecord.unindexed at hoffer ⊢
    split
    · split <;> exact .of_eq (by simp_all) rfl rfl rfl rfl rfl rfl rfl rfl rfl
    · exact .refl r
  | replace | expireTask | remove | forget => exact absurd h (by simp [TaskAction.next])
  | create | promote | renew | release | progress | dropDate | holdDate | expireResult | expireDeadLetter | revoke =>
    obtain rfl := Option.some.inj h
    exact .of_eq hoffer rfl rfl rfl rfl rfl rfl rfl rfl rfl

end

variable {env : Env} {b b' : Busy} {s s' : Store} {act : EngineAction}

/-- The record that a step leaves: the one before, what the action makes of it, or a created one. -/
theorem EngineStep.record_cases (hstep : EngineStep env b s act b' s') (hs : Sane env.now s) {x : TaskIdentity}
    {r' : TaskRecord} (h' : s'.current x = some r') :
    (s.current x = some r' ∧ act.on (x.queue, x.id) = none) ∨
    (∃ r a next history, s.current x = some r ∧ act.on (x.queue, x.id) = some a ∧
      TaskStep env x.id (s.view (x.queue, x.id)) a (s'.view (x.queue, x.id)) ∧ a.next env r = some next ∧
      r' = next.withHistory history) ∨
    ∃ args replacedTask holder history, act = .create args replacedTask holder ∧
      x = s.nextIdentity args.queue args.id ∧ s.task (x.queue, x.id) = none ∧
      r' = ((newRecord env args x.generation).listed (some (TaskAction.firstList args))).withHistory history := by
  obtain ⟨hrecord', hgeneration'⟩ := current_eq_some_iff.mp h'
  rcases hstep.view (x.queue, x.id) with ⟨hon, hview⟩ | ⟨a, hon, htask⟩
  · have hrecord := (congrArg TaskView.record hview).symm.trans hrecord'
    exact Or.inl ⟨current_eq_some_iff.mpr ⟨hrecord, hgeneration'⟩, hon⟩
  · cases hr : (s.view (x.queue, x.id)).record with
    | some r =>
      obtain ⟨next, history, hnext, rfl⟩ := htask.record_next (hs.views _) hr hrecord'
      have hgeneration := (TaskAction.next_sameOffer hnext).generation.symm.trans hgeneration'
      exact Or.inr (Or.inl ⟨r, a, next, history, current_eq_some_iff.mpr ⟨hr, hgeneration⟩, hon, htask, hnext, rfl⟩)
    | none =>
      rcases hstep.current_cases hs h' with ⟨r, hr', _⟩ | ⟨args, replacedTask, holder, rfl, rfl, hnone, _⟩
      · exact absurd ((current_eq_some_iff.mp hr').1.symm.trans hr) (by simp)
      · obtain rfl : TaskAction.create args replacedTask = a := by
          simpa [EngineAction.on, Store.nextIdentity] using hon
        obtain ⟨⟨history, hcreated⟩, _⟩ := htask.created
        exact Or.inr (Or.inr ⟨args, replacedTask, holder, history, rfl, rfl, hnone,
          Option.some.inj (hrecord'.symm.trans hcreated)⟩)

theorem EngineStep.advances (hstep : EngineStep env b s act b' s') (hs : Sane env.now s) {x : TaskIdentity}
    {r' : TaskRecord} (hcounted : x.generation ≤ s.generations (x.queue, x.id)) (h' : s'.current x = some r') :
    ∃ r, s.current x = some r ∧ r.Advances r' := by
  rcases hstep.record_cases hs h' with ⟨hr, _⟩ | ⟨r, a, next, history, hr, _, _, hnext, rfl⟩ |
    ⟨_, _, _, _, _, rfl, _⟩
  · exact ⟨r', hr, .refl r'⟩
  · exact ⟨r, hr, (TaskAction.next_advances hnext).withHistory history⟩
  · exact absurd hcounted (Nat.not_succ_le_self _)

/-- An allocated generation that is stored after some steps was stored before them. -/
theorem EnginePath.advances {P : EngineAction → Prop} (h : EnginePath env P b s b' s') (hs : Sane env.now s)
    {x : TaskIdentity} (hcounted : x.generation ≤ s.generations (x.queue, x.id)) :
    x.generation ≤ s'.generations (x.queue, x.id) ∧
      ∀ r', s'.current x = some r' → ∃ r, s.current x = some r ∧ r.Advances r' := by
  refine h.preserves (I := fun _ s' => x.generation ≤ s'.generations (x.queue, x.id) ∧
    ∀ r', s'.current x = some r' → ∃ r, s.current x = some r ∧ r.Advances r') hs
    ⟨hcounted, fun r' hr' => ⟨r', hr', .refl r'⟩⟩ ?_
  intro b s₁ act b' s₂ hs₁ ⟨hle, hback⟩ hstep _
  refine ⟨hle.trans (hstep.counter_le _), fun r'' hr'' => ?_⟩
  obtain ⟨r', hr', hadvances'⟩ := hstep.advances hs₁ hle hr''
  obtain ⟨r, hr, hadvances⟩ := hback r' hr'
  exact ⟨r, hr, hadvances.trans hadvances'⟩

theorem path_advances {calls calls' : List Call} {e e' : Engine} (h : engine.Run calls e)
    (h' : engine.Path e calls' e') {x : TaskIdentity}
    (hcounted : x.generation ≤ e.store.generations (x.queue, x.id)) :
    x.generation ≤ e'.store.generations (x.queue, x.id) ∧
      ∀ r', e'.store.current x = some r' → ∃ r, e.store.current x = some r ∧ r.Advances r' := by
  refine path_preserves h h' (I := fun _ e' => x.generation ≤ e'.store.generations (x.queue, x.id) ∧
    ∀ r', e'.store.current x = some r' → ∃ r, e.store.current x = some r ∧ r.Advances r')
    ⟨hcounted, fun r' hr' => ⟨r', hr', .refl r'⟩⟩ ?_
  intro calls₁ e₁ c e₂ hrun _ ⟨hle, hback⟩ ⟨hclock, _, hexec⟩
  have hs : Sane c.env.now e₁.store := (run_sane hrun).mono (Nat.cast_le.mpr hclock)
  obtain ⟨hle', hback'⟩ := (exec_path hs hexec).advances hs hle
  refine ⟨hle', fun r'' hr'' => ?_⟩
  obtain ⟨r', hr', hadvances'⟩ := hback' r'' hr''
  obtain ⟨r, hr, hadvances⟩ := hback r' hr'
  exact ⟨r, hr, hadvances.trans hadvances'⟩

end EffectMQ
