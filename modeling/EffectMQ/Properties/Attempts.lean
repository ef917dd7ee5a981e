import EffectMQ.Lifecycle.Verdict
import EffectMQ.Properties.FailureRouting
import EffectMQ.Properties.Fencing
import EffectMQ.TaskQueue.Scenario

/-!
# What a worker reports

A round of a worker that processed a task has put the outcome of its handler on record, for the generation and the attempt
that it leased and for no other. Workers run beside each other and beside every other call, their connections may fail, and
every take brings a token of its own.
-/

namespace EffectMQ

open Redis Transition

/-! ### The log of a task -/

section

variable {env : Env} {id : String} {v v' : TaskView} {a : TaskAction} {r : TaskRecord} {b b' : Busy} {m s : Store}
  {k : TaskKey} {P : EngineAction → Prop}

/-- No step takes an event back. -/
theorem TaskStep.log_grows (hstep : TaskStep env id v a v') (hv : v.Consistent env.now) : v.log <+: v'.log := by
  cases hr : v.record with
  | some r => exact ⟨_, (hstep.accounted hv hr).log.symm⟩
  | none =>
    by_cases hcreate : ∃ args replacedTask, a = .create args replacedTask
    · obtain ⟨args, replacedTask, rfl⟩ := hcreate
      exact ⟨_, hstep.created.2.2.symm⟩
    · rw [(hstep.unrecorded hv hr fun args replacedTask heq => hcreate ⟨args, replacedTask, heq⟩).2]

theorem EnginePath.log_grows (hpath : EnginePath env P b m b' s) (hs : Sane env.now m) (k : TaskKey) :
    (m.view k).log <+: (s.view k).log := by
  refine hpath.preserves (I := fun _ s => (m.view k).log <+: (s.view k).log) hs List.prefix_rfl ?_
  intro b₁ s₁ act b₂ s₂ hs₁ hgrown hstep _
  rcases hstep.view k with ⟨_, hview⟩ | ⟨a, _, htask⟩
  · rwa [hview]
  · exact hgrown.trans (htask.log_grows (hs₁.views k))

/-- The end of an attempt publishes its events, and they stay. -/
theorem Ends.log_grows (h : Ends env k a m s) (hs : Sane env.now m) (hr : (m.view k).record = some r) :
    (m.view k).log ++ (a.bodies env r).map (r.stamp k.2) <+: (s.view k).log := by
  obtain ⟨t, hstep, hrelease⟩ := h
  rw [← (hstep.view_task.1.accounted (hs.views k) hr).log]
  exact hrelease.log_grows (hstep.sane hs) k

end

/-! ### Acknowledged calls -/

section

variable {calls : List Call} {e : Engine} {k : TaskKey} {grant : Grant} {c d : Call} {queue id leaseToken : String}

theorem Effect.owner {env : Env} {m s : Store} {op : Op} (h : Effect env m op .nil s) (hop : op.fence = some (k, leaseToken)) :
    (m.view k).leaseholder env = some leaseToken := by
  by_contra hnot
  exact (h.rejected hop hnot).2

/-- The attempt of the owner is the one that its grant names. -/
theorem owned_attempt (h : engine.Run calls e) {env : Env} (hclock : e.clock ≤ env.clock) {op : Op}
    (howner : ((op.swept env e.store).view k).leaseholder env = some leaseToken) :
    ∃ d ∈ calls, ∃ grant r, d.leaseEvent k = some (.taken grant) ∧ grant.token = leaseToken ∧
      ((op.swept env e.store).view k).Running r ∧ r.generation = grant.generation ∧ r.attempt = grant.attempt := by
  have hs : Sane env.now e.store := (run_sane h).mono (Nat.cast_le.mpr hclock)
  obtain ⟨grant, hgrant, rfl, halive⟩ := (owns_iff h hclock k leaseToken op).mpr howner
  obtain ⟨before, d, after, grant', rfl, hd, htoken, hgeneration', hattempt', _⟩ := granted_eq_some hgrant
  obtain ⟨r, hr, hgeneration, hattempt⟩ :=
    (((run_tracked h k).mono (Nat.cast_le.mpr hclock)).swept hs op).attempt grant hgrant halive
  obtain ⟨r', hrunning⟩ := (((swept_path hs op).sane hs).views k).running_of_aliveLock (by
    intro hnone
    rw [TaskView.leaseholder_eq, hnone] at howner
    cases howner)
  obtain rfl := Option.some.inj (hrunning.record.symm.trans hr)
  exact ⟨d, List.mem_append_right _ List.mem_cons_self, grant', r', hd, htoken, hrunning,
    hgeneration.trans hgeneration'.symm, hattempt.trans hattempt'.symm⟩

/-- A call that is acknowledged under the token of a take comes after that take, and finds its attempt running. -/
theorem step_acknowledged {before : List Call} {e' : Engine} (h : engine.Run before e) (hstep : engine.step e c e')
    (hfresh : FreshTokens calls) (hbefore : before ⊆ calls) (hd : d ∈ calls)
    (htaken : d.leaseEvent k = some (.taken grant)) (hop : c.op.fence = some (k, grant.token)) (hreply : c.reply = .nil) :
    d ∈ before ∧ ∃ r, ((c.op.swept c.env e.store).view k).Running r ∧ r.generation = grant.generation ∧
      r.attempt = grant.attempt := by
  have hs : Sane c.env.now e.store := (run_sane h).mono (Nat.cast_le.mpr hstep.1)
  have heffect := exec_effect hs hstep.2.2
  rw [hreply] at heffect
  obtain ⟨d', hd', grant', r, htaken', htoken, hrunning, hgeneration, hattempt⟩ :=
    owned_attempt h hstep.1 (heffect.owner hop)
  obtain rfl : d' = d := hfresh.eq (hbefore hd') hd (takeToken_of_taken htaken')
    ((takeToken_of_taken htaken).trans (congrArg some htoken.symm))
  rw [htaken] at htaken'
  obtain rfl := LeaseEvent.taken.inj (Option.some.inj htaken')
  exact ⟨hd', r, hrunning, hgeneration, hattempt⟩

/-- Of a call that was acknowledged under the token of a take: its effect on the attempt of that take, and the events. -/
theorem run_acknowledged (h : engine.Run calls e) (hfresh : FreshTokens calls) (hd : d ∈ calls)
    (htaken : d.leaseEvent k = some (.taken grant)) (hc : c ∈ calls) (hop : c.op.fence = some (k, grant.token))
    (hreply : c.reply = .nil) :
    ∃ m s r, Sane c.env.now m ∧ Effect c.env m c.op .nil s ∧ (m.view k).Running r ∧ r.generation = grant.generation ∧
      r.attempt = grant.attempt ∧ (s.view k).log <+: (e.store.view k).log := by
  obtain ⟨before, after, e₁, e₂, rfl, hrun, hstep, hpath⟩ := h.of_mem hc
  have hs : Sane c.env.now e₁.store := (run_sane hrun).mono (Nat.cast_le.mpr hstep.1)
  have heffect := exec_effect hs hstep.2.2
  obtain ⟨_, r, hrunning, hgeneration, hattempt⟩ :=
    step_acknowledged hrun hstep hfresh (List.subset_append_left _ _) hd htaken hop hreply
  rw [hreply] at heffect
  exact ⟨_, _, r, (swept_path hs c.op).sane hs, heffect, hrunning, hgeneration, hattempt,
    path_log (hrun.snoc hstep) hpath k⟩

theorem leaseEvent_of_leased {lockTimeout : Option ℚ} {token : String} {stored : TaskRecord}
    (hop : d.op = .takeTask queue leaseToken lockTimeout) (hreply : d.reply = .leased token id (some stored)) :
    d.leaseEvent (queue, id) =
      some (.taken ⟨⟨leaseToken, d.env.now + lockTimeout.getD 0⟩, stored.generation, stored.attempt⟩) := by
  unfold Call.leaseEvent
  rw [hop, hreply]
  exact if_pos rfl

/-- An acknowledged success is the verdict on the generation that was leased. -/
theorem run_succeeded (h : engine.Run calls e) (hfresh : FreshTokens calls) (hd : d ∈ calls)
    (htaken : d.leaseEvent (queue, id) = some (.taken grant)) (hc : c ∈ calls) {result : String}
    (hop : c.op = .writeSuccess queue grant.token id result) (hreply : c.reply = .nil) :
    (e.store.view (queue, id)).verdicts grant.generation = [.success result] := by
  obtain ⟨m, s, r, hs, heffect, hrunning, hgeneration, _, hlog⟩ :=
    run_acknowledged h hfresh hd htaken hc (by rw [hop]; rfl) hreply
  rw [hop] at heffect
  have hmem : Verdict.success result ∈ (e.store.view (queue, id)).verdicts grant.generation := by
    cases heffect with
    | succeeded _ hends =>
      refine List.mem_filterMap.mpr ⟨r.stamp id (.completed result r.onSuccessPolicy),
        hlog.subset ((hends.log_grows hs hrunning.record).subset ?_), ?_⟩
      · exact List.mem_append_right _ (List.mem_map_of_mem List.mem_cons_self)
      · simp [Event.verdict, TaskRecord.stamp, hgeneration]
    | refused _ _ hfault => exact hfault.elim
    | answered _ _ hfence => cases hfence
    | scheduled _ _ hop' => rcases hop' with ⟨_, _, _, heq⟩ | ⟨_, _, _, _, heq⟩ <;> cases heq
  have hlength := run_verdicts_length h (queue, id) grant.generation
  obtain ⟨w, hw⟩ := List.length_eq_one_iff.mp (le_antisymm hlength (List.length_pos_of_mem hmem))
  rw [hw, List.mem_singleton] at hmem
  rw [hw, hmem]

/-- An acknowledged failure is an event of the attempt that was leased. -/
theorem run_failed (h : engine.Run calls e) (hfresh : FreshTokens calls) (hd : d ∈ calls)
    (htaken : d.leaseEvent (queue, id) = some (.taken grant)) (hc : c ∈ calls) {error : LuaValue} {retryAt : ℚ}
    (hop : c.op = .writeError queue grant.token id error (some retryAt)) (hreply : c.reply = .nil) :
    ∃ event ∈ (e.store.view (queue, id)).log, event.generation = grant.generation ∧ ∃ policy, event.body =
      .failed error policy .handler grant.attempt (!willRetry error (retryTime retryAt)) (retryTime retryAt) := by
  obtain ⟨m, s, r, hs, heffect, hrunning, hgeneration, hattempt, hlog⟩ :=
    run_acknowledged h hfresh hd htaken hc (by rw [hop]; rfl) hreply
  rw [hop] at heffect
  obtain ⟨r', a, b, t, hfails⟩ := heffect.failsInto hs
  obtain rfl := Option.some.inj (hrunning.record.symm.trans hfails.running.record)
  obtain ⟨rest, _, hevents⟩ := hfails.event
  refine ⟨r.stamp id (r.failureBody error (Cause.reported grant.token).kind (!willRetry error (retryTime retryAt))
    (retryTime retryAt)), hlog.subset ?_, hgeneration, r.onFailurePolicy, ?_⟩
  · rw [hevents]
    exact List.mem_append_right _ (List.mem_map_of_mem List.mem_cons_self)
  · rw [← hattempt]
    rfl

/-- A take answers with the token that it was given. -/
theorem leased_token {e' : Engine} (hstep : engine.step e d e') {lockTimeout : Option ℚ} {token : String}
    {stored : Option TaskRecord} (hop : d.op = .takeTask queue leaseToken lockTimeout)
    (hreply : d.reply = .leased token id stored) : token = leaseToken := by
  obtain ⟨hreplied, _⟩ := exec_replied hstep.2.2
  rw [hop, hreply] at hreplied
  simp only [Op.run, takeTask] at hreplied
  split at hreplied
  · cases hreplied
  · unfold takeSwept at hreplied
    split at hreplied
    · cases hreplied
    · split at hreplied
      · cases hreplied
      · exact (Reply.leased.inj hreplied).1.symm

end

/-! ### Attempt numbers -/

/-- A generation that has settled is over. -/
theorem TaskView.Book.over {g : ℕ} {v : TaskView} (h : v.Book g) (hsettled : v.terminalOutcomes g ≠ []) : v.Over g := by
  refine ⟨?_, fun r hr hg => ?_⟩
  · by_contra hlt
    exact hsettled (h.unallocated (not_le.mp hlt))
  · rw [h.outcome r hr hg] at hsettled
    exact Option.isSome_iff_ne_none.mpr fun hnone => hsettled (by simp [hnone])

/-- A generation was created, and its attempts have come to a number. -/
structure TaskView.Counted (g n : ℕ) (v : TaskView) : Prop where
  created : g ≤ v.counter
  attempt : ∀ r, v.record = some r → r.generation = g → n ≤ r.attempt

section

variable {env : Env} {id : String} {v v' : TaskView} {a : TaskAction} {r r' : TaskRecord} {g n : ℕ} {k : TaskKey}

/-- No action takes an attempt back. -/
theorem TaskAction.attempt_le_next (h : a.next env r = some r') : r.attempt ≤ r'.attempt := by
  cases a with
  | lease leaseToken lockTimeout =>
    obtain rfl := Option.some.inj h
    exact Nat.le_succ _
  | retry cause error retryAt =>
    obtain rfl := Option.some.inj h
    exact (TaskRecord.attempt_failed env r error (retryTime retryAt) cause.kind).ge
  | fail cause error retryAt held =>
    obtain rfl := TaskRecord.placed_eq_some h
    exact (TaskRecord.attempt_failed env r error (retryTime retryAt) cause.kind).ge
  | succeed leaseToken result held =>
    obtain rfl := TaskRecord.placed_eq_some h
    exact le_rfl
  | refile =>
    cases ho : r.outcome with
    | none =>
      rw [TaskAction.next, ho] at h
      obtain rfl := Option.some.inj h
      exact le_rfl
    | some outcome =>
      rw [TaskAction.next, ho] at h
      obtain rfl := TaskRecord.placed_eq_some h
      exact le_rfl
  | expireTerminal g =>
    obtain rfl := Option.some.inj h
    unfold TaskRecord.unindexed
    split_ifs <;> rfl
  | replace | expireTask | remove | forget => cases h
  | create | promote | renew | release | progress | dropDate | holdDate | expireResult | expireDeadLetter | revoke =>
    obtain rfl := Option.some.inj h
    exact le_rfl

theorem TaskStep.counted (hstep : TaskStep env id v a v') (hv : v.Consistent env.now) (h : v.Counted g n) :
    v'.Counted g n where
  created := h.created.trans hstep.counter_le
  attempt r' hr' hg := by
    rcases hstep.record_of_generation hv hr' with ⟨r, hr, hgeneration, _⟩ | ⟨_, hnew, _⟩
    · obtain ⟨next, history, hnext, rfl⟩ := hstep.record_next hv hr hr'
      have hle : r.attempt ≤ next.attempt := TaskAction.attempt_le_next hnext
      exact (h.attempt r hr (hgeneration.symm.trans hg)).trans hle
    · have hcreated := h.created
      omega

theorem EnginePath.counted {P : EngineAction → Prop} {b b' : Busy} {m s : Store} (hpath : EnginePath env P b m b' s)
    (hs : Sane env.now m) (h : (m.view k).Counted g n) : (s.view k).Counted g n := by
  refine hpath.preserves (I := fun _ s => (s.view k).Counted g n) hs h ?_
  intro b₁ s₁ act b₂ s₂ hs₁ hcounted hstep _
  rcases hstep.view k with ⟨_, hview⟩ | ⟨a, _, htask⟩
  · rwa [hview]
  · exact htask.counted (hs₁.views k) hcounted

theorem path_counted {calls calls' : List Call} {e e' : Engine} (h : engine.Run calls e) (h' : engine.Path e calls' e')
    (hcounted : (e.store.view k).Counted g n) : (e'.store.view k).Counted g n := by
  refine path_preserves h h' (I := fun _ e => (e.store.view k).Counted g n) hcounted ?_
  intro calls₁ e₁ c e₂ hrun _ hcounted hstep
  have hs : Sane c.env.now e₁.store := (run_sane hrun).mono (Nat.cast_le.mpr hstep.1)
  exact (exec_path hs hstep.2.2).counted hs hcounted

end

section

variable {calls : List Call} {e e' : Engine} {d : Call} {queue id leaseToken token : String} {lockTimeout : Option ℚ}
  {stored : TaskRecord}

/-- A lease is for the next attempt of a generation, and the record that it answers with says so. -/
theorem leased_counts (h : engine.Run calls e) (hstep : engine.step e d e')
    (hop : d.op = .takeTask queue leaseToken lockTimeout) (hreply : d.reply = .leased token id (some stored)) :
    (e'.store.view (queue, id)).Counted stored.generation stored.attempt ∧
      ∀ n, (e.store.view (queue, id)).Counted stored.generation n → n < stored.attempt := by
  have hs : Sane d.env.now e.store := (run_sane h).mono (Nat.cast_le.mpr hstep.1)
  have hswept := swept_path hs d.op
  have hm := hswept.sane hs
  have heffect := exec_effect hs hstep.2.2
  obtain ⟨env, op, reply⟩ := d
  subst hop hreply
  generalize hreply : Reply.leased token id (some stored) = reply at heffect
  generalize hstore : e'.store = s at heffect
  cases heffect with
  | refused _ _ hfault _ =>
    subst hreply
    exact hfault.elim
  | answered _ _ _ hquiet => exact absurd (hquiet.leased _ _ _ rfl) (by simp [← hreply])
  | scheduled _ _ hop _ _ => rcases hop with ⟨_, _, _, heq⟩ | ⟨_, _, _, _, heq⟩ <;> cases heq
  | @leased _ _ id' lockTimeout task _ _ htask hlease =>
    obtain ⟨rfl, rfl, rfl⟩ := Reply.leased.inj hreply
    obtain ⟨htaken, _⟩ := hlease.view_task
    obtain ⟨⟨r, hr, _⟩, _⟩ := htaken.1
    obtain ⟨next, history, hnext, hrecord⟩ := htaken.record_next (hm.views (queue, id)) hr htask.symm
    obtain rfl := Option.some.inj hnext
    obtain rfl := hrecord
    have hgeneration := ((hlease.sane hm).views (queue, id)).generation _ htask.symm
    refine ⟨⟨hgeneration.1.le, fun r' hr' _ => ?_⟩, fun n hn => ?_⟩
    · obtain rfl := Option.some.inj (htask.trans hr')
      exact le_rfl
    · exact Nat.lt_succ_of_le ((hswept.counted hs hn).attempt r hr rfl)

/-- The attempts of a generation are leased one after the other: a later lease of it is for a later attempt. -/
theorem run_leases_increase {before mid after : List Call} {c : Call} (h : engine.Run (before ++ c :: (mid ++ d :: after)) e)
    (hcop : c.op = .takeTask queue leaseToken lockTimeout) (hcreply : c.reply = .leased token id (some stored))
    {leaseToken' token' : String} {lockTimeout' : Option ℚ} {stored' : TaskRecord}
    (hdop : d.op = .takeTask queue leaseToken' lockTimeout') (hdreply : d.reply = .leased token' id (some stored'))
    (hgeneration : stored'.generation = stored.generation) : stored.attempt < stored'.attempt := by
  obtain ⟨e₁, e₂, e₃, e₄, hbefore, hstep, hmid, hstep'⟩ := h.between
  have hrun := hbefore.snoc hstep
  refine (leased_counts (hrun.extend hmid) hstep' hdop hdreply).2 _ ?_
  rw [hgeneration]
  exact path_counted hrun hmid (leased_counts hbefore hstep hcop hcreply).1

/-- No attempt of a generation is leased after its success was acknowledged, and none before it was a later one. -/
theorem run_success_last {calls : List Call} (h : engine.Run calls e) (hfresh : FreshTokens calls) {d' c : Call}
    (hd : d ∈ calls) {grant : Grant} (htaken : d.leaseEvent (queue, id) = some (.taken grant)) {result : String}
    (hcop : c.op = .writeSuccess queue grant.token id result) (hcreply : c.reply = .nil)
    (hdop : d'.op = .takeTask queue leaseToken lockTimeout) (hdreply : d'.reply = .leased token id (some stored))
    (hgeneration : stored.generation = grant.generation)
    (hordered : (∃ before mid after, calls = before ++ d' :: (mid ++ c :: after)) ∨
      ∃ before mid after, calls = before ++ c :: (mid ++ d' :: after)) : stored.attempt ≤ grant.attempt := by
  have hfence : c.op.fence = some ((queue, id), grant.token) := by
    rw [hcop]
    rfl
  rcases hordered with ⟨before, mid, after, rfl⟩ | ⟨before, mid, after, rfl⟩
  · obtain ⟨e₁, e₂, e₃, e₄, hbefore, hstep, hmid, hstep'⟩ := h.between
    have hrun := (hbefore.snoc hstep).extend hmid
    obtain ⟨_, r, hrunning, hrgeneration, hrattempt⟩ :=
      step_acknowledged hrun hstep' hfresh (List.IsPrefix.subset ⟨c :: after, by simp⟩) hd htaken hfence hcreply
    have hcounted := path_counted (hbefore.snoc hstep) hmid (leased_counts hbefore hstep hdop hdreply).1
    have hs : Sane c.env.now e₃.store := (run_sane hrun).mono (Nat.cast_le.mpr hstep'.1)
    have hle := ((swept_path hs c.op).counted hs hcounted).attempt r hrunning.record (hrgeneration.trans hgeneration.symm)
    exact hle.trans_eq hrattempt
  · obtain ⟨e₁, e₂, e₃, e₄, hbefore, hstep, hmid, hstep'⟩ := h.between
    obtain ⟨hmem, _⟩ := step_acknowledged hbefore hstep hfresh (List.subset_append_left _ _) hd htaken hfence hcreply
    have hrun := hbefore.snoc hstep
    have hsettled := run_succeeded hrun (hfresh.sublist (by simp)) (List.mem_append_left _ hmem) htaken
      (List.mem_append_right _ (List.mem_singleton_self c)) hcop hcreply
    have hover : (e₂.store.view (queue, id)).Over grant.generation := by
      refine (run_book hrun (queue, id) grant.generation).over fun hnone => ?_
      rw [TaskView.terminalOutcomes_eq, hsettled] at hnone
      cases hnone
    obtain ⟨r, hr, hne⟩ := path_not_taken hrun (hmid.snoc hstep') hover d'
      (List.mem_append_right _ (List.mem_singleton_self d')) _ _ _ _ hdop hdreply
    obtain rfl := Option.some.inj hr
    exact absurd hgeneration hne

end

/-! ### Rounds -/

section

variable {S E P : Type} {queue : WorkerQueue S E P} {round : Round S E P}
  {s : Parties Engine (Round S E P) Query Answer (Except ProcessError Bool)} {moves : List (Move (Round S E P) Observation)}
  {i : ℕ} {log : List (Query × Answer)}

/-- The outcome of a handler is on record for an attempt: a success as the verdict on its generation, and a failure as an
event of its generation and its attempt, with the time that the retry schedule gave, if it gave one. -/
def WorkerQueue.Recorded (queue : WorkerQueue S E P) (e : Engine) (attempt : AcquiredTask E) (failedAt : ℕ) :
    Except (HandlerFailure E) S → Prop
  | .ok success => ∃ encoded, queue.encodeSuccess success = some encoded ∧
      (e.store.view (queue.name, attempt.id)).verdicts attempt.stored.generation = [.success encoded]
  | .error (.failure failure) => ∃ encoded retryAt, queue.encodeFailure failure = some encoded ∧
      queue.toTaskQueue.fail attempt.toTaskAttempt failedAt failure =
        .wrote (.writeError queue.name attempt.leaseToken attempt.id (.string encoded) (some retryAt)) none ∧
      ∃ event ∈ (e.store.view (queue.name, attempt.id)).log, event.generation = attempt.stored.generation ∧
        ∃ policy, event.body = .failed (.string encoded) policy .handler attempt.stored.attempt (decide (retryAt < 0))
          (retryTime retryAt)
  | .error (.progress _) => False

theorem willRetry_string (value : String) (retryAt : ℚ) :
    (!willRetry (.string value) (retryTime retryAt)) = decide (retryAt < 0) := by
  unfold willRetry retryTime
  by_cases hneg : retryAt < 0 <;> simp [hneg, LuaValue.errorTag]

theorem acquire_eq_some {leaseToken id : String} {stored : TaskRecord} {attempt : AcquiredTask E}
    (h : queue.acquire leaseToken id stored = some attempt) :
    attempt.leaseToken = leaseToken ∧ attempt.id = id ∧ attempt.stored = stored := by
  unfold WorkerQueue.acquire at h
  split at h
  · obtain ⟨decoded, hdecoded, rfl⟩ := Option.map_eq_some_iff.mp h
    obtain ⟨htoken, hid, _⟩ := TaskQueue.decodeTask_eq_some hdecoded
    exact ⟨htoken, hid, rfl⟩
  · cases h

/-- What a round reported is on record, once the replies in its log are those to invocations of a run. -/
theorem Round.recorded {calls : List Call} {e : Engine} (hrun : engine.Run calls e) (hfresh : FreshTokens calls)
    (hlogged : ∀ op reply, (Query.call op, Answer.reply reply) ∈ log → ∃ c ∈ calls, c.op = op ∧ c.reply = reply)
    (h : (round.program queue).After log (.done (.ok true))) :
    ∃ id stored attempt result, round.Leased queue log round.leaseToken id stored ∧
      queue.acquire round.leaseToken id stored = some attempt ∧
      (∃ progress, (round.handler attempt).After progress (.done result)) ∧
      queue.Recorded e attempt round.failedAt result := by
  obtain ⟨token, id, stored, attempt, result, ⟨lockTimeout, hmem⟩, hattempt, hran, hreported⟩ := Round.processed h
  obtain ⟨d, hd, hdop, hdreply⟩ := hlogged _ _ hmem
  obtain rfl : token = round.leaseToken := by
    obtain ⟨_, _, _, _, _, _, hstep, _⟩ := hrun.of_mem hd
    exact leased_token hstep hdop hdreply
  obtain ⟨htoken, hid, hstored⟩ := acquire_eq_some hattempt
  have htaken := leaseEvent_of_leased hdop hdreply
  refine ⟨id, stored, attempt, result, ⟨lockTimeout, hmem⟩, hattempt, hran, ?_⟩
  cases result with
  | ok success =>
    obtain ⟨encoded, hencoded, hwritten⟩ := hreported
    obtain ⟨c, hc, hop, hreply⟩ := hlogged _ _ hwritten
    rw [htoken, hid] at hop
    refine ⟨encoded, hencoded, ?_⟩
    rw [hid, hstored]
    exact run_succeeded hrun hfresh hd htaken hc hop hreply
  | error failed =>
    cases failed with
    | progress error => exact hreported
    | failure failure =>
      obtain ⟨op, hfail, hwritten⟩ := hreported
      obtain ⟨encoded, retryAt, hencoded, rfl, _⟩ := TaskQueue.fail_eq_wrote hfail
      obtain ⟨c, hc, hop, hreply⟩ := hlogged _ _ hwritten
      rw [htoken, hid] at hop
      obtain ⟨event, hevent, hgeneration, policy, hbody⟩ := run_failed hrun hfresh hd htaken hc hop hreply
      refine ⟨encoded, retryAt, hencoded, hfail, event, ?_, ?_, policy, ?_⟩
      · rw [hid]
        exact hevent
      · rw [hstored]
        exact hgeneration
      · rw [hbody, willRetry_string, hstored]

/-- Rounds of a queue that leased one generation leased different attempts of it, and where one of them succeeded, it had
the last attempt. -/
theorem run_rounds_apart (h : (workers queue).Run moves s) (hfresh : FreshTokens (callsIn moves)) {j : ℕ} (hij : i ≠ j)
    {round' : Round S E P} {log' : List (Query × Answer)} {rest rest' : Process Query Answer (Except ProcessError Bool)}
    (hi : s.party i = some ⟨round, log, rest⟩) (hj : s.party j = some ⟨round', log', rest'⟩) {id token token' : String}
    {stored stored' : TaskRecord} (hleased : round.Leased queue log token id stored)
    (hleased' : round'.Leased queue log' token' id stored') (hgeneration : stored'.generation = stored.generation) :
    stored'.attempt ≠ stored.attempt ∧ ∀ encoded,
      (Query.call (.writeSuccess queue.name token id encoded), Answer.reply .nil) ∈ log → stored'.attempt < stored.attempt := by
  have hrun : engine.Run (callsIn moves) s.shared := observed_run (parties_run h)
  obtain ⟨lockTimeout, hmem⟩ := hleased
  obtain ⟨lockTimeout', hmem'⟩ := hleased'
  obtain ⟨d, hmove, hd, hdop, hdreply⟩ := logged_call h hi hmem
  obtain ⟨d', hmove', _, hdop', hdreply'⟩ := logged_call h hj hmem'
  have hne : stored'.attempt ≠ stored.attempt := by
    rcases callsIn_ordered hmove hmove' hij with ⟨before, mid, after, heq⟩ | ⟨before, mid, after, heq⟩
    · rw [heq] at hrun
      exact (run_leases_increase hrun hdop hdreply hdop' hdreply' hgeneration).ne'
    · rw [heq] at hrun
      exact (run_leases_increase hrun hdop' hdreply' hdop hdreply hgeneration.symm).ne
  refine ⟨hne, fun encoded hwritten => lt_of_le_of_ne ?_ hne⟩
  obtain ⟨c, hcmove, hc, hcop, hcreply⟩ := logged_call h hi hwritten
  obtain rfl : token = round.leaseToken := by
    obtain ⟨_, _, _, _, _, _, hstep, _⟩ := hrun.of_mem hd
    exact leased_token hstep hdop hdreply
  exact run_success_last hrun hfresh hd (leaseEvent_of_leased hdop hdreply) hcop hcreply hdop' hdreply' hgeneration
    (callsIn_ordered hmove' hcmove hij.symm)

/-- A task that its first round gave back was processed by a second one. -/
theorem run_rounds_apart_released : ∃ moves s round round' log log' rest rest' token token' id stored stored',
    (workers Mail.queue).Run moves s ∧ s.party 1 = some ⟨round, log, rest⟩ ∧ s.party 0 = some ⟨round', log', rest'⟩ ∧
    round.Leased Mail.queue log token id stored ∧ round'.Leased Mail.queue log' token' id stored' ∧
    stored'.attempt < stored.attempt := by
  obtain ⟨moves, s, h, hplayed⟩ := @playClients_run _ _ (Round.program Mail.queue)
    [Mail.offered, .launch 0 (Mail.round "first"), .call 0 (.at 2),
      .other (.at 3) (.call (.removeLock "q:mail" "first" "a")), .launch 1 (Mail.round "second"), .call 1 (.at 4),
      .call 1 (.at 5), .call 1 (.at 6), .call 1 (.at 7)]
    (fun moves s => decide ((callsIn moves).filterMap Call.takeToken).Nodup &&
      (s.party 1).any fun party => (party.log.findSome? (Mail.leaseOf party.start.leaseToken)).any fun lease =>
        (party.log.findSome? (Mail.successOf lease)).isSome &&
        (s.party 0).any fun party' => (party'.log.findSome? (Mail.leaseOf party'.start.leaseToken)).any fun lease' =>
          decide (lease'.2.1 = lease.2.1) && decide (lease'.2.2.generation = lease.2.2.generation)) (by decide +kernel)
  obtain ⟨hnodup, hparty⟩ := Bool.and_eq_true_iff.mp hplayed
  obtain ⟨⟨round, log, rest⟩, hi, hlease⟩ := (Option.any_eq_true _ _).mp hparty
  obtain ⟨⟨token, id, stored⟩, hfound, hlease⟩ := (Option.any_eq_true _ _).mp hlease
  obtain ⟨hsuccess, hparty'⟩ := Bool.and_eq_true_iff.mp hlease
  obtain ⟨encoded, hencoded⟩ := Option.isSome_iff_exists.mp hsuccess
  obtain ⟨⟨round', log', rest'⟩, hj, hlease'⟩ := (Option.any_eq_true _ _).mp hparty'
  obtain ⟨⟨token', id', stored'⟩, hfound', hlease'⟩ := (Option.any_eq_true _ _).mp hlease'
  obtain ⟨hid, hgeneration⟩ := Bool.and_eq_true_iff.mp hlease'
  obtain rfl : id' = id := of_decide_eq_true hid
  have hleased : round.Leased Mail.queue log token id' stored := Mail.leased_of_leaseOf hfound
  have hleased' : round'.Leased Mail.queue log' token' id' stored' := Mail.leased_of_leaseOf hfound'
  exact ⟨moves, s, round, round', log, log', rest, rest', token, token', id', stored, stored', h, hi, hj, hleased, hleased',
    (run_rounds_apart h (freshTokens_of_nodup (of_decide_eq_true hnodup)) (by decide) hi hj hleased hleased'
      (of_decide_eq_true hgeneration)).2 encoded (Mail.written_of_successOf hencoded)⟩

end

end EffectMQ
