import EffectMQ.Properties.Fencing

/-!
# Heartbeats

An attempt whose lease is renewed in time is never taken away: whatever workers, producers and maintenance do meanwhile, its
renewals are acknowledged, its generation and its attempt stay, and its report is accepted.
-/

namespace EffectMQ

open Redis Transition

/-- The task that an operation removes by force. -/
def Op.forced : Op → Option TaskKey
  | .forceRemoveTask queue id => some (queue, id)
  | _ => none

/-- The task and the token of a release or a report. -/
def Op.closing : Op → Option (TaskKey × String)
  | .extendLock _ _ _ _ => none
  | op => op.lease

/-- An operation that ends an attempt on purpose: the release or the report of its owner, or a forced removal. -/
def Op.EndsAttempt (k : TaskKey) (leaseToken : String) (op : Op) : Prop :=
  op.forced = some k ∨ op.closing = some (k, leaseToken)

instance (k : TaskKey) (leaseToken : String) (op : Op) : Decidable (op.EndsAttempt k leaseToken) :=
  inferInstanceAs (Decidable (_ ∨ _))

/-- The time up to which a renewal of an attempt asks for its lease. -/
def Call.renewal (k : TaskKey) (leaseToken : String) (c : Call) : Option ℚ :=
  match c.op with
  | .extendLock queue token id lockTimeout =>
    if (queue, id) = k ∧ token = leaseToken ∧ isPositiveSafeInteger lockTimeout then
      some (c.env.now + lockTimeout.getD 0)
    else none
  | _ => none

/-- No call of a list comes later than the deadline that the renewals before it left, none ends the attempt, and at the end
there is still time. -/
def Punctual (k : TaskKey) (leaseToken : String) (now : ℚ) : ℚ → List Call → Prop
  | deadline, [] => now ≤ deadline
  | deadline, c :: calls => c.env.now ≤ deadline ∧ ¬ c.op.EndsAttempt k leaseToken ∧
      Punctual k leaseToken now ((c.renewal k leaseToken).getD deadline) calls

instance decidablePunctual (k : TaskKey) (leaseToken : String) (now : ℚ) :
    (deadline : ℚ) → (calls : List Call) → Decidable (Punctual k leaseToken now deadline calls)
  | deadline, [] => inferInstanceAs (Decidable (now ≤ deadline))
  | deadline, c :: calls =>
    have := decidablePunctual k leaseToken now ((c.renewal k leaseToken).getD deadline) calls
    inferInstanceAs (Decidable (c.env.now ≤ deadline ∧ ¬ c.op.EndsAttempt k leaseToken ∧
      Punctual k leaseToken now ((c.renewal k leaseToken).getD deadline) calls))

section

variable {env : Env} {k : TaskKey} {m s : Store} {op : Op} {reply : Reply} {leaseToken : String}

theorem renewal_of_lease (h : op.lease = none) : Call.renewal k leaseToken ⟨env, op, reply⟩ = none := by
  cases op <;> first | rfl | exact absurd h (by simp [Op.lease])

/-- A refused call is no renewal by the owner. -/
theorem renewal_of_refused (howner : (m.view k).leaseholder env = some leaseToken)
    (hlease : ∀ k' token, op.lease = some (k', token) → op.Admitted → (m.view k').leaseholder env ≠ some token) :
    Call.renewal k leaseToken ⟨env, op, reply⟩ = none := by
  cases op with
  | extendLock queue token id lockTimeout =>
    refine if_neg ?_
    rintro ⟨rfl, rfl, hvalid⟩
    exact hlease _ _ rfl hvalid howner
  | createTask | takeTask | writeSuccess | writeError | removeLock | appendProgress | readHistory | removeTask
  | forceRemoveTask | maintain | listTasks | getTask | getGeneration | getResult | eventCursors | setSchedule
  | consumeSchedule => rfl

/-- An operation that was acknowledged had arguments that pass the checks. -/
theorem exec_admitted {s' : Store} (h : exec env op s = .replied .nil s') : op.Admitted := by
  obtain ⟨hreply, _⟩ := exec_replied h
  cases op with
  | createTask a =>
    rw [Op.Admitted, ← Option.not_isSome_iff_eq_none]
    intro hfault
    obtain ⟨message, hfault⟩ := Option.isSome_iff_exists.mp hfault
    simp [Op.run, createTask, hfault] at hreply
  | takeTask queue token lockTimeout | extendLock queue token id lockTimeout =>
    simp only [Op.run, takeTask, extendLock] at hreply
    by_contra hinvalid
    simp [Bool.eq_false_of_not_eq_true hinvalid] at hreply
  | writeError queue token id error retryAt =>
    by_contra hinvalid
    have hfalse : isRetryTime retryAt = false := Bool.eq_false_of_not_eq_true hinvalid
    have hrefused : writeError env queue token id error retryAt (World.begin env s) =
        (.error "invalid retryAt", World.begin env s) := if_pos hfalse
    rw [Op.run, hrefused] at hreply
    cases hreply
  | writeSuccess | removeLock | appendProgress | readHistory | removeTask | forceRemoveTask | maintain | listTasks | getTask
  | getGeneration | getResult | eventCursors | setSchedule | consumeSchedule => trivial

/-- What a call does to the lease of an attempt that it does not end: nothing, or it is the renewal. -/
theorem Effect.leaseEvent_of_owned (h : Effect env m op reply s) (hs : Sane env.now m)
    (howner : (m.view k).leaseholder env = some leaseToken) (hends : ¬ op.EndsAttempt k leaseToken)
    (hadmitted : reply = .nil → op.Admitted) :
    Call.leaseEvent k ⟨env, op, reply⟩ = none ∧ Call.renewal k leaseToken ⟨env, op, reply⟩ = none ∨
      reply = .nil ∧ ∃ expiresAt, Call.leaseEvent k ⟨env, op, reply⟩ = some (.extended expiresAt) ∧
        Call.renewal k leaseToken ⟨env, op, reply⟩ = some expiresAt := by
  obtain ⟨r, hrunning⟩ := (hs.views k).running_of_aliveLock (by
    intro hnone
    rw [TaskView.leaseholder_eq, hnone] at howner
    cases howner)
  -- whoever else holds a lease holds that of another task
  have hother : ∀ {k' : TaskKey} {token : String}, ¬ some (k', token) = some (k, leaseToken) →
      (m.view k').leaseholder env = some token → k' ≠ k := by
    rintro k' token hne howner' rfl
    rw [howner] at howner'
    obtain rfl := Option.some.inj howner'
    exact hne rfl
  have hunsettled : ¬ ∃ r, (m.view k).Settled r := by
    rintro ⟨r', hsettled⟩
    obtain rfl := Option.some.inj (hrunning.record.symm.trans hsettled.record)
    exact absurd hsettled.outcome (by simp [hrunning.outcome])
  cases h with
  | refused op reply hfault hlease => exact Or.inl ⟨leaseEvent_of_fault hfault, renewal_of_refused howner hlease⟩
  | answered op reply hfence hquiet =>
    refine Or.inl ⟨?_, renewal_of_lease (by cases op <;> first | rfl | exact absurd hfence (by simp [Op.fence, Op.lease]))⟩
    cases op with
    | createTask a => exact absurd rfl (hquiet.created a)
    | takeTask queue token lockTimeout =>
      rw [hquiet.leased _ _ _ rfl]
      rfl
    | forceRemoveTask queue id =>
      have hk : (queue, id) ≠ k := fun heq => hends (Or.inl (congrArg some heq))
      cases reply <;> first | rfl | exact if_neg hk
    | writeSuccess | writeError | extendLock | removeLock => exact absurd hfence (by simp [Op.fence, Op.lease])
    | appendProgress | readHistory | removeTask | maintain | listTasks | getTask | getGeneration | getResult
    | eventCursors | setSchedule | consumeSchedule => rfl
  | @offered a reply s hvalid h =>
    refine Or.inl ⟨?_, rfl⟩
    cases h with
    | refused | existing | held | disposed => rfl
    | created hr hstep cursor task =>
      refine if_neg ?_
      rintro rfl
      exact absurd (hrunning.record.symm.trans hr) (by simp)
    | replaced hr hmode hdispose hstep cursor task =>
      refine if_neg ?_
      rintro rfl
      exact hunsettled hdispose.view_task.1.1
  | leased hhead htask hstep =>
    refine Or.inl ⟨if_neg ?_, rfl⟩
    rintro rfl
    obtain ⟨⟨r', hr', hplace⟩, _⟩ := hstep.view_task.1.1
    obtain rfl := Option.some.inj (hrunning.record.symm.trans hr')
    exact absurd (hrunning.place.symm.trans hplace) (by simp)
  | succeeded howner' hends' => exact Or.inl ⟨if_neg (hother (mt Or.inr hends) howner'), rfl⟩
  | failed howner' ha hends' => exact Or.inl ⟨if_neg (hother (mt Or.inr hends) howner'), rfl⟩
  | released hstep => exact Or.inl ⟨if_neg (hother (mt Or.inr hends) hstep.view_task.1.1.2), rfl⟩
  | @renewed queue token id lockTimeout s hstep =>
    by_cases hk : (queue, id) = k
    · obtain rfl : token = leaseToken := by
        subst hk
        exact Option.some.inj (hstep.view_task.1.1.2.1.symm.trans howner)
      exact Or.inr ⟨rfl, _, if_pos hk, if_pos ⟨hk, rfl, hadmitted rfl⟩⟩
    · exact Or.inl ⟨if_neg hk, if_neg fun h => hk h.1⟩
  | progressed hgeneration hstep => exact Or.inl ⟨rfl, rfl⟩
  | removed hidle hheld hpath => exact Or.inl ⟨rfl, rfl⟩
  | forced hrevoke hpath => exact Or.inl ⟨if_neg fun heq => hends (Or.inl (congrArg some heq)), rfl⟩
  | scheduled op reply hop hreply hstep =>
    rcases hop with ⟨queue, name, next, rfl⟩ | ⟨queue, name, current, next, rfl⟩ <;> exact Or.inl ⟨rfl, rfl⟩

end

section

variable {calls calls' : List Call} {e e' : Engine} {k : TaskKey} {grant : Grant} {leaseToken : String} {c : Call} {now : ℚ}

/-- One call before the deadline leaves the grant, but for the deadline that it set itself. -/
theorem step_kept (h : engine.Run calls e) (hstep : engine.step e c e') (hgrant : granted k calls = some grant)
    (htime : c.env.now ≤ grant.expiresAt) (hends : ¬ c.op.EndsAttempt k grant.token) :
    (∀ g, c.leaseEvent k ≠ some (.taken g)) ∧ ((c.renewal k grant.token).isSome → c.reply = .nil) ∧
      granted k (calls ++ [c]) =
        some { grant with expiresAt := (c.renewal k grant.token).getD grant.expiresAt } := by
  have hs : Sane c.env.now e.store := (run_sane h).mono (Nat.cast_le.mpr hstep.1)
  have howner := (owns_iff h hstep.1 k grant.token c.op).mp ⟨grant, hgrant, rfl, htime⟩
  have heffect := exec_effect hs hstep.2.2
  obtain ⟨env, op, reply⟩ := c
  rw [granted_snoc, hgrant]
  rcases heffect.leaseEvent_of_owned ((swept_path hs op).sane hs) howner hends (fun hnil => by
      have hexec := hstep.2.2
      rw [hnil] at hexec
      exact exec_admitted hexec) with
    ⟨hevent, hrenewal⟩ | ⟨hreply, expiresAt, hevent, hrenewal⟩
  · rw [hevent, hrenewal]
    exact ⟨by simp, by simp, rfl⟩
  · rw [hevent, hrenewal]
    exact ⟨by simp, fun _ => hreply, rfl⟩

theorem path_kept (h : engine.Run calls e) (hpath : engine.Path e calls' e') (hgrant : granted k calls = some grant)
    (hpunctual : Punctual k grant.token now grant.expiresAt calls') :
    (∀ c ∈ calls', ∀ g, c.leaseEvent k ≠ some (.taken g)) ∧
      (∀ c ∈ calls', (c.renewal k grant.token).isSome → c.reply = .nil) ∧
      ∃ deadline, now ≤ deadline ∧ granted k (calls ++ calls') = some { grant with expiresAt := deadline } := by
  induction calls' generalizing calls e grant with
  | nil =>
    rw [List.append_nil]
    exact ⟨by simp, by simp, grant.expiresAt, hpunctual, hgrant⟩
  | cons c calls' ih =>
    obtain ⟨htime, hends, hpunctual⟩ := hpunctual
    obtain ⟨e₁, hstep, hrest⟩ := hpath.of_cons
    obtain ⟨htaken, hreply, hgrant'⟩ := step_kept h hstep hgrant htime hends
    obtain ⟨htaken', hreply', deadline, hdeadline, hgrant''⟩ := ih (h.snoc hstep) hrest hgrant' hpunctual
    rw [List.append_assoc, List.singleton_append] at hgrant''
    exact ⟨List.forall_mem_cons.mpr ⟨htaken, htaken'⟩, List.forall_mem_cons.mpr ⟨hreply, hreply'⟩, deadline, hdeadline,
      hgrant''⟩

end

/-- An attempt that is renewed in time runs on, whoever calls meanwhile: no take returns its task, every renewal is
acknowledged, and the stored task stays in that attempt, whose owner may still report. -/
theorem run_lease_kept {calls calls' : List Call} {e e' : Engine} (h : engine.Run calls e) (hpath : engine.Path e calls' e')
    {k : TaskKey} {grant : Grant} (hgrant : granted k calls = some grant) {env : Env} (hclock : e'.clock ≤ env.clock)
    (hpunctual : Punctual k grant.token env.now grant.expiresAt calls') :
    (∀ c ∈ calls', ∀ g, c.leaseEvent k ≠ some (.taken g)) ∧
      (∀ c ∈ calls', (c.renewal k grant.token).isSome → c.reply = .nil) ∧
      (∃ r, (e'.store.view k).Running r ∧ r.generation = grant.generation ∧ r.attempt = grant.attempt) ∧
      ∀ op : Op, op.lease = some (k, grant.token) → op.Admitted → Accepted env op e'.store := by
  obtain ⟨htaken, hreply, deadline, hdeadline, hgrant'⟩ := path_kept h hpath hgrant hpunctual
  have hrun := h.extend hpath
  have halive : (e'.clock : ℚ) ≤ deadline := le_trans (Nat.cast_le.mpr hclock) hdeadline
  have ht := run_tracked hrun k
  obtain ⟨r, hr, hgeneration, hattempt⟩ := ht.attempt _ hgrant' halive
  obtain ⟨r', hrunning⟩ := ((run_sane hrun).views k).running_of_aliveLock (by rw [ht.alive hgrant' halive]; simp)
  obtain rfl := Option.some.inj (hrunning.record.symm.trans hr)
  refine ⟨htaken, hreply, ⟨r', hrunning, hgeneration, hattempt⟩, fun op hop hadmitted => ?_⟩
  exact accepted_of_owns hrun hclock hop hadmitted ⟨_, hgrant', rfl, hdeadline⟩

/-- Two renewals carry an attempt past its first deadline, over a sweep and the take of another worker. -/
theorem run_lease_kept_renewed : ∃ calls e calls' e' grant, engine.Run calls e ∧ engine.Path e calls' e' ∧
    granted ("mail", "a") calls = some grant ∧ grant.expiresAt < 190 ∧ (Env.at 190).clock = e'.clock ∧
    ∃ r, (e'.store.view ("mail", "a")).Running r ∧ r.attempt = grant.attempt := by
  obtain ⟨calls, e, h, hplayed⟩ := @play_run
    [(.at 1, .createTask (.default "mail" "a")), (.at 2, .takeTask "mail" "first" (some 100))]
    (fun calls e => (granted ("mail", "a") calls).any fun grant : Grant =>
      (play e [(.at 90, .extendLock "mail" "first" "a" (some 60)), (.at 120, .takeTask "mail" "second" (some 100)),
        (.at 140, .extendLock "mail" "first" "a" (some 100)), (.at 190, .maintain "mail")]).any fun last : List Call × Engine =>
          decide (Punctual ("mail", "a") grant.token (Env.at 190).now grant.expiresAt last.1 ∧ grant.expiresAt < 190 ∧
            (Env.at 190).clock = last.2.clock)) (by decide +kernel)
  obtain ⟨grant, hgrant, hplayed⟩ := (Option.any_eq_true _ _).mp hplayed
  obtain ⟨⟨calls', e'⟩, hplay, hplayed⟩ := (Option.any_eq_true _ _).mp hplayed
  obtain ⟨hpunctual, hexpires, hclock⟩ := of_decide_eq_true hplayed
  have hpath := play_path hplay
  obtain ⟨_, _, ⟨r, hrunning, _, hattempt⟩, _⟩ := run_lease_kept h hpath hgrant hclock.ge hpunctual
  exact ⟨calls, e, calls', e', grant, h, hpath, hgrant, hexpires, hclock, r, hrunning, hattempt⟩

end EffectMQ
