import EffectMQ.Lifecycle.Exhaustion
import EffectMQ.Lifecycle.Lease

/-!
# Fencing by leases

The calls and replies of a run say who owns an attempt: the token of the latest take that returned the id, until
the deadline of that take or of its latest extension, unless a call has ended the attempt since. A call that
needs the lease takes effect for the owner only; for everybody else it fails, and leaves what its own sweep left.
-/

namespace EffectMQ

open Redis Transition

/-- A granted lease, and the attempt it is for. -/
structure Grant extends Lock where
  generation : ℕ
  attempt : ℕ

/-- What a call does to the lease of an id, as its reply shows it. -/
inductive LeaseEvent
  | taken (grant : Grant)
  | extended (expiresAt : ℚ)
  | ended

/-- A take that returned the id, an accepted extension, or a release, a settlement, a forced removal or a new
generation. -/
def Call.leaseEvent (k : TaskKey) (c : Call) : Option LeaseEvent :=
  match c.op, c.reply with
  | .takeTask queue leaseToken lockTimeout, .leased _ id task =>
    if (queue, id) = k then
      some (.taken ⟨⟨leaseToken, c.env.now + lockTimeout.getD 0⟩, (task.map TaskRecord.generation).getD 0,
        (task.map TaskRecord.attempt).getD 0⟩)
    else none
  | .extendLock queue _ id lockTimeout, .nil =>
    if (queue, id) = k then some (.extended (c.env.now + lockTimeout.getD 0)) else none
  | .removeLock queue _ id, .nil => if (queue, id) = k then some .ended else none
  | .writeSuccess queue _ id _, .nil => if (queue, id) = k then some .ended else none
  | .writeError queue _ id _ _, .nil => if (queue, id) = k then some .ended else none
  | .forceRemoveTask queue id, .nil => if (queue, id) = k then some .ended else none
  | .createTask a, .created _ _ => if (a.queue, a.id) = k then some .ended else none
  | _, _ => none

def Grant.next (grant : Option Grant) : Option LeaseEvent → Option Grant
  | none => grant
  | some (.taken grant') => some grant'
  | some (.extended expiresAt) => grant.map fun g => { g with expiresAt := expiresAt }
  | some .ended => none

/-- The lease that the calls of a run granted and did not end. -/
def granted (k : TaskKey) (calls : List Call) : Option Grant :=
  calls.foldl (fun grant c => Grant.next grant (c.leaseEvent k)) none

/-- A token owns an id at a clock value. -/
def Owns (k : TaskKey) (calls : List Call) (leaseToken : String) (now : ℚ) : Prop :=
  ∃ grant, granted k calls = some grant ∧ grant.token = leaseToken ∧ now ≤ grant.expiresAt

def Call.takeToken (c : Call) : Option String :=
  match c.op with
  | .takeTask _ leaseToken _ => some leaseToken
  | _ => none

/-- Every take brings a token of its own. -/
def FreshTokens (calls : List Call) : Prop :=
  calls.Pairwise fun c d => ∀ leaseToken, c.takeToken = some leaseToken → d.takeToken ≠ some leaseToken

/-- The script aborts at a history that can take no further entry. -/
def Aborts (env : Env) (op : Op) (s : Store) : Prop :=
  ∃ message s', exec env op s = .raised message s' ∧ s'.HistoryExhausted

/-- The call fails, and the store is what its own sweep left. -/
def Rejected (env : Env) (op : Op) (s : Store) : Prop :=
  (∃ reply, exec env op s = .replied reply (op.swept env s) ∧ reply.IsFault) ∨ Aborts env op s

def Accepted (env : Env) (op : Op) (s : Store) : Prop := (∃ s', exec env op s = .replied .nil s') ∨ Aborts env op s

theorem granted_snoc (k : TaskKey) (calls : List Call) (c : Call) :
    granted k (calls ++ [c]) = Grant.next (granted k calls) (c.leaseEvent k) := by
  simp [granted]

/-- The grant of a run is that of its latest take, extended but not ended since. -/
theorem granted_eq_some {k : TaskKey} {calls : List Call} {grant : Grant} (h : granted k calls = some grant) :
    ∃ before c after grant', calls = before ++ c :: after ∧ c.leaseEvent k = some (.taken grant') ∧
      grant'.token = grant.token ∧ grant'.generation = grant.generation ∧ grant'.attempt = grant.attempt ∧
      ∀ d ∈ after, d.leaseEvent k = none ∨ ∃ expiresAt, d.leaseEvent k = some (.extended expiresAt) := by
  induction calls using List.reverseRecOn generalizing grant with
  | nil => exact absurd h (by simp [granted])
  | append_singleton calls c ih =>
    rw [granted_snoc] at h
    have hkeep : ∀ {g : Grant}, granted k calls = some g → g.token = grant.token → g.generation = grant.generation →
        g.attempt = grant.attempt →
        (c.leaseEvent k = none ∨ ∃ expiresAt, c.leaseEvent k = some (.extended expiresAt)) →
        ∃ before d after grant', calls ++ [c] = before ++ d :: after ∧ d.leaseEvent k = some (.taken grant') ∧
          grant'.token = grant.token ∧ grant'.generation = grant.generation ∧ grant'.attempt = grant.attempt ∧
          ∀ d ∈ after, d.leaseEvent k = none ∨ ∃ expiresAt, d.leaseEvent k = some (.extended expiresAt) := by
      intro g hg htoken hgeneration hattempt hc
      obtain ⟨before, d, after, grant', rfl, hd, ht, hg', ha, hafter⟩ := ih hg
      refine ⟨before, d, after ++ [c], grant', by simp, hd, ht.trans htoken, hg'.trans hgeneration, ha.trans hattempt, ?_⟩
      intro d' hd'
      rcases List.mem_append.mp hd' with hd' | hd'
      · exact hafter d' hd'
      · exact List.mem_singleton.mp hd' ▸ hc
    cases hevent : c.leaseEvent k with
    | none =>
      rw [hevent] at h
      exact hkeep h rfl rfl rfl (Or.inl hevent)
    | some event =>
      rw [hevent] at h
      cases event with
      | taken grant' =>
        obtain rfl := Option.some.inj h
        exact ⟨calls, c, [], _, rfl, hevent, rfl, rfl, rfl, fun d hd => absurd hd List.not_mem_nil⟩
      | extended expiresAt =>
        obtain ⟨g, hg, rfl⟩ := Option.map_eq_some_iff.mp h
        exact hkeep hg rfl rfl rfl (Or.inr ⟨expiresAt, hevent⟩)
      | ended => exact absurd h (by simp [Grant.next])

/-! ### The grants and the store -/

/-- The grant that has not run out is the live lease, and its attempt is the stored one. -/
structure Tracked (now : ℚ) (grant : Option Grant) (v : TaskView) : Prop where
  lease : v.aliveLock now = (grant.map Grant.toLock).filter fun l => now ≤ l.expiresAt
  attempt : ∀ g, grant = some g → now ≤ g.expiresAt →
    ∃ r, v.record = some r ∧ r.generation = g.generation ∧ r.attempt = g.attempt

namespace Tracked

variable {env : Env} {k : TaskKey} {now : ℚ} {grant : Option Grant} {v v' : TaskView}

theorem mono {now' : ℚ} (h : Tracked now grant v) (hle : now ≤ now') : Tracked now' grant v where
  lease := by
    have hfilter : ∀ lock : Option Lock, (lock.filter fun l => now' ≤ l.expiresAt) =
        (lock.filter fun l => now ≤ l.expiresAt).filter fun l => now' ≤ l.expiresAt := by
      intro lock
      rw [Option.filter_filter]
      congr 1
      funext l
      rw [Bool.eq_iff_iff]
      simp only [decide_eq_true_eq, Bool.and_eq_true]
      exact ⟨fun h => ⟨hle.trans h, h⟩, And.right⟩
    have hlease := congrArg (Option.filter fun l : Lock => now' ≤ l.expiresAt) h.lease
    rw [← hfilter] at hlease
    rw [TaskView.aliveLock, hfilter, ← hlease]
    rfl
  attempt g hg halive := h.attempt g hg (hle.trans halive)

/-- Nothing is alive on either side. -/
theorem of_dead (hlock : v.aliveLock now = none) (hgrant : ∀ g, grant = some g → g.expiresAt < now) :
    Tracked now grant v where
  lease := by
    rw [hlock]
    cases hg : grant with
    | none => rfl
    | some g => simp [Option.filter, not_le.mpr (hgrant g hg)]
  attempt g hg halive := absurd halive (not_le.mpr (hgrant g hg))

theorem alive (h : Tracked now grant v) {g : Grant} (hg : grant = some g) (halive : now ≤ g.expiresAt) :
    v.aliveLock now = some g.toLock := by
  rw [h.lease, hg]
  simp [Option.filter, halive]

/-- A step that leaves the live lease keeps the grant's attempt. -/
theorem step {id : String} {a : TaskAction} (h : Tracked env.now grant v) (hv : v.Consistent env.now)
    (hstep : TaskStep env id v a v') (hlock : v'.aliveLock env.now = v.aliveLock env.now) :
    Tracked env.now grant v' where
  lease := hlock.trans h.lease
  attempt g hg halive := by
    have halive' := h.alive hg halive
    obtain ⟨r, hrunning⟩ := hv.running_of_aliveLock (by rw [halive']; simp)
    obtain ⟨r', hr', hgeneration, hattempt⟩ := hstep.keeps_attempt hrunning
      (by rw [TaskView.leaseholder_eq, halive']; simp) fun hnone => by
        rw [TaskView.aliveLock, hnone, halive'] at hlock
        exact absurd hlock (by simp)
    obtain ⟨r₀, hr₀, hgeneration₀, hattempt₀⟩ := h.attempt g hg halive
    obtain rfl := Option.some.inj (hrunning.record.symm.trans hr₀)
    exact ⟨r', hr', hgeneration.trans hgeneration₀, hattempt.trans hattempt₀⟩

/-- Steps of nobody who owns, takes or revokes the lease. -/
theorem path {P : EngineAction → Prop} {b b' : Busy} {s s' : Store} (h : Tracked env.now grant (s.view k))
    (hs : Sane env.now s) (hpath : EnginePath env P b s b' s')
    (hP : ∀ act, P act → ∀ a, act.on k = some a → a.LeavesLease) : Tracked env.now grant (s'.view k) := by
  refine hpath.preserves (I := fun _ s => Tracked env.now grant (s.view k)) hs h ?_
  intro b s act b' s' hs h hstep hact
  rcases hstep.view k with ⟨_, hview⟩ | ⟨a, hon, htask⟩
  · rwa [hview]
  · exact h.step (hs.views k) htask (htask.aliveLock (hs.views k) (hP act hact a hon))

end Tracked

section Actions

variable {k : TaskKey} {a : TaskAction} {act : EngineAction}

theorem EngineAction.IsSweep.leavesLease (h : act.IsSweep) (hon : act.on k = some a) : a.LeavesLease := by
  cases act with
  | task k' a' =>
    obtain rfl : a' = a := by
      simp only [EngineAction.on] at hon
      split at hon
      · exact Option.some.inj hon
      · exact absurd hon (by simp)
    cases a' with
    | retry cause | fail cause =>
      cases cause with
      | reported => exact absurd h (by simp [EngineAction.IsSweep])
      | stalled => trivial
    | promote | expireTask | dropDate | holdDate | expireResult | expireTerminal | expireDeadLetter => trivial
    | create | lease | renew | release | succeed | progress | refile | replace | remove | revoke | forget =>
      exact absurd h (by simp [EngineAction.IsSweep])
  | drop holder x refiled =>
    obtain rfl : a = .refile := @EngineAction.IsRelease.on (.drop holder x refiled) trivial _ _ hon
    trivial
  | start | pop | note | acquire | tick => exact absurd hon (by simp [EngineAction.on])
  | create | forget => exact absurd h (by simp [EngineAction.IsSweep])

theorem EngineAction.IsRelease.leavesLease (h : act.IsRelease) (hon : act.on k = some a) : a.LeavesLease :=
  h.isSweep.leavesLease hon

end Actions

/-! ### What an invocation does to the grants -/

section Effects

variable {env : Env} {k : TaskKey} {grant : Option Grant} {m s : Store} {op : Op} {reply : Reply}

theorem leaseEvent_of_fault (h : reply.IsFault) : Call.leaseEvent k ⟨env, op, reply⟩ = none := by
  unfold Call.leaseEvent
  dsimp only
  split <;> first | rfl | exact absurd h (by simp [Reply.IsFault])

/-- Whoever loses the lease of a task leaves none. -/
theorem Tracked.of_unlocked (h : (s.view k).lock = none) : Tracked env.now none (s.view k) :=
  .of_dead (TaskView.aliveLock_eq_none_iff.mpr fun l hl => absurd (h.symm.trans hl) (by simp)) fun g hg =>
    absurd hg (by simp)

theorem Tracked.path_release {b b' : Busy} {s' : Store} (h : Tracked env.now grant (s.view k)) (hs : Sane env.now s)
    (hpath : EnginePath env EngineAction.IsRelease b s b' s') : Tracked env.now grant (s'.view k) :=
  h.path hs hpath fun _ hact _ hon => hact.leavesLease hon

/-- The end of an attempt takes its lease, and leaves the leases of other tasks. -/
theorem Ends.tracked {k' : TaskKey} {a : TaskAction} (h : Ends env k' a m s) (hs : Sane env.now m)
    (hlock : a.lock env (m.view k') = none) (ht : Tracked env.now grant (m.view k)) :
    Tracked env.now (if k' = k then none else grant) (s.view k) := by
  obtain ⟨t, hstep, hrelease⟩ := h
  obtain ⟨htask, hother⟩ := hstep.view_task
  have ht' : Tracked env.now (if k' = k then none else grant) (t.view k) := by
    split
    · next hk =>
      subst hk
      refine .of_unlocked ?_
      rw [htask.2, TaskAction.lock_apply, hlock]
    · next hk => rwa [hother k (Ne.symm hk)]
  exact ht'.path_release (hstep.sane hs) hrelease

theorem Tracked.leased {queue leaseToken id : String} {lockTimeout : ℚ}
    (hstep : EngineStep env none m (.task (queue, id) (.lease leaseToken lockTimeout)) none s)
    (hs : Sane env.now m) (ht : Tracked env.now grant (m.view k)) :
    Tracked env.now (if (queue, id) = k then
      some ⟨⟨leaseToken, env.now + lockTimeout⟩, ((s.task (queue, id)).map TaskRecord.generation).getD 0,
        ((s.task (queue, id)).map TaskRecord.attempt).getD 0⟩ else grant) (s.view k) := by
  obtain ⟨⟨⟨_, hpos⟩, hview⟩, hother⟩ := hstep.view_task
  split
  · next hk =>
    subst hk
    have halive : (s.view (queue, id)).aliveLock env.now = some ⟨leaseToken, env.now + lockTimeout⟩ := by
      have hle : env.now ≤ env.now + lockTimeout := le_add_of_nonneg_right (le_of_lt hpos)
      rw [TaskView.aliveLock, hview, TaskAction.lock_apply]
      simp [TaskAction.lock, Option.filter, hle]
    obtain ⟨r, hrunning⟩ := ((hstep.sane hs).views (queue, id)).running_of_aliveLock (by rw [halive]; simp)
    have hr : s.task (queue, id) = some r := hrunning.record
    refine ⟨?_, fun g hg _ => ?_⟩
    · rw [halive]
      simp [Option.filter, le_of_lt hpos]
    · obtain rfl := Option.some.inj hg
      exact ⟨r, hrunning.record, by simp [hr], by simp [hr]⟩
  · next hk => rwa [hother k (Ne.symm hk)]

theorem Tracked.renewed {queue leaseToken id : String} {lockTimeout : ℚ}
    (hstep : EngineStep env none m (.task (queue, id) (.renew leaseToken lockTimeout)) none s)
    (ht : Tracked env.now grant (m.view k)) :
    Tracked env.now (if (queue, id) = k then
      grant.map fun g => { g with expiresAt := env.now + lockTimeout } else grant) (s.view k) := by
  obtain ⟨htask, hother⟩ := hstep.view_task
  split
  · next hk =>
    subst hk
    obtain ⟨⟨r, hrunning⟩, howner, hpos⟩ := htask.1
    have hle : env.now ≤ env.now + lockTimeout := le_add_of_nonneg_right (le_of_lt hpos)
    obtain ⟨l, hl, htoken⟩ := Option.map_eq_some_iff.mp howner
    have hlease : (m.view (queue, id)).aliveLock env.now = some l := hl
    -- the owner's grant is alive
    obtain ⟨g, rfl, hg, halive⟩ : ∃ g, grant = some g ∧ g.toLock = l ∧ env.now ≤ g.expiresAt := by
      have heq := ht.lease
      rw [hlease] at heq
      obtain ⟨hmap, hcond⟩ := Option.filter_eq_some_iff.mp heq.symm
      obtain ⟨g, rfl, rfl⟩ := Option.map_eq_some_iff.mp hmap
      exact ⟨g, rfl, rfl, of_decide_eq_true hcond⟩
    have hlock : (s.view (queue, id)).lock = some ⟨leaseToken, env.now + lockTimeout⟩ := by
      rw [htask.2, TaskAction.lock_apply]
      rfl
    refine ⟨?_, fun g' hg' _ => ?_⟩
    · rw [TaskView.aliveLock, hlock, ← htoken, ← hg]
      simp [Option.filter, hle]
    · obtain rfl := Option.some.inj hg'
      obtain ⟨r₀, hr₀, hgeneration, hattempt⟩ := ht.attempt g rfl halive
      obtain ⟨r', hr', hgeneration', hattempt'⟩ := htask.keeps_attempt hrunning (by rw [howner]; simp) (by
        rw [hlock]
        simp)
      obtain rfl := Option.some.inj (hrunning.record.symm.trans hr₀)
      exact ⟨r', hr', hgeneration'.trans hgeneration, hattempt'.trans hattempt⟩
  · next hk => rwa [hother k (Ne.symm hk)]

/-- After a generation was created no earlier lease of the id is alive. -/
theorem Tracked.created {a : CreateArgs} {replacedTask : Option TaskRecord} {holder : Option TaskIdentity}
    (hstep : EngineStep env none m (.create a replacedTask holder) none s) (hs : Sane env.now m)
    (ht : Tracked env.now grant (m.view k)) :
    Tracked env.now (if (a.queue, a.id) = k then none else grant) (s.view k) := by
  rcases hstep.view k with ⟨hon, hview⟩ | ⟨a', hon, htask⟩
  · rw [hview]
    by_cases hk : (a.queue, a.id) = k
    · exact absurd hon (by simp [EngineAction.on, hk])
    · rwa [if_neg hk]
  · by_cases hk : (a.queue, a.id) = k
    · obtain rfl : TaskAction.create a replacedTask = a' := by simpa [EngineAction.on, hk] using hon
      rw [if_pos hk]
      have hdead := (hs.views k).aliveLock_of_record_none htask.1
      exact .of_dead ((htask.aliveLock (hs.views k) trivial).trans hdead) fun g hg => absurd hg (by simp)
    · exact absurd hon (by simp [EngineAction.on, hk])

theorem Tracked.leaves {act : EngineAction} {b b' : Busy} (hstep : EngineStep env b m act b' s)
    (hs : Sane env.now m) (ht : Tracked env.now grant (m.view k)) (ha : ∀ a, act.on k = some a → a.LeavesLease) :
    Tracked env.now grant (s.view k) :=
  ht.path hs (EnginePath.single hstep (rfl : act = act)) fun _ hact a hon => ha a (hact ▸ hon)

theorem leavesLease_of_replace {a : TaskAction} {k' : TaskKey}
    (hon : (EngineAction.task k' .replace).on k = some a) : a.LeavesLease := by
  obtain rfl := (EngineAction.on_task_eq hon).2
  trivial

theorem Offered.tracked {a : CreateArgs} (h : Offered env a m reply s) (hs : Sane env.now m)
    (ht : Tracked env.now grant (m.view k)) :
    Tracked env.now (Grant.next grant (Call.leaseEvent k ⟨env, .createTask a, reply⟩)) (s.view k) := by
  cases h with
  | refused | existing => exact ht
  | held hr hmode hstep cursor => exact ht.leaves hstep hs fun a hon => absurd hon (by simp [EngineAction.on])
  | created hr hstep cursor task =>
    have hcreated := Tracked.created hstep hs ht
    simp only [Call.leaseEvent]
    split <;> simp_all [Grant.next]
  | replaced hr hmode hdispose hstep cursor task =>
    have hdisposed := ht.leaves hdispose hs fun a hon => leavesLease_of_replace hon
    have hcreated := Tracked.created hstep (hdispose.sane hs) hdisposed
    simp only [Call.leaseEvent]
    split <;> simp_all [Grant.next]
  | disposed hr hoffer hmode hholder hlive hdispose hfull =>
    exact ht.leaves hdispose hs fun a hon => leavesLease_of_replace hon

/-- The removal of a task that nobody leases. -/
theorem removal_leavesLease {act : EngineAction} {k' : TaskKey} (h : act.IsRemoval k') {a : TaskAction}
    (hon : act.on k = some a) : a.LeavesLease := by
  rcases h with rfl | hact
  · obtain rfl := (EngineAction.on_task_eq hon).2
    trivial
  · exact hact.leavesLease hon

theorem forcedRemoval_leavesLease {act : EngineAction} {x : TaskIdentity} (h : act.IsForcedRemoval x) {a : TaskAction}
    (hon : act.on k = some a) : a.LeavesLease := by
  rcases h with rfl | hact
  · simp only [EngineAction.on] at hon
    split at hon
    · exact Option.some.inj hon ▸ trivial
    · exact absurd hon (by simp)
  · exact hact.leavesLease hon

theorem Tracked.forced {queue id : String} {t : Store} (hrevoke : EngineStep env none m (.task (queue, id) .revoke) none t)
    (hpath : EnginePath env (EngineAction.IsForcedRemoval (m.identity queue id)) none t none s)
    (hs : Sane env.now m) (ht : Tracked env.now grant (m.view k)) :
    Tracked env.now (if (queue, id) = k then none else grant) (s.view k) := by
  obtain ⟨htask, hother⟩ := hrevoke.view_task
  have hrevoked : Tracked env.now (if (queue, id) = k then none else grant) (t.view k) := by
    split
    · next hk =>
      subst hk
      refine .of_unlocked ?_
      rw [htask.2, TaskAction.lock_apply]
      rfl
    · next hk => rwa [hother k (Ne.symm hk)]
  exact hrevoked.path (hrevoke.sane hs) hpath fun _ hact _ hon => forcedRemoval_leavesLease hact hon

theorem Effect.tracked (h : Effect env m op reply s) (hs : Sane env.now m) (ht : Tracked env.now grant (m.view k)) :
    Tracked env.now (Grant.next grant (Call.leaseEvent k ⟨env, op, reply⟩)) (s.view k) := by
  cases h with
  | refused op reply hfault hlease =>
    rw [leaseEvent_of_fault hfault]
    exact ht
  | answered op reply hfence hquiet =>
    unfold Call.leaseEvent
    dsimp only
    split
    · exact absurd (hquiet.leased _ _ _ rfl) (by simp)
    · exact absurd hfence (by simp [Op.fence, Op.lease])
    · exact absurd hfence (by simp [Op.fence, Op.lease])
    · exact absurd hfence (by simp [Op.fence, Op.lease])
    · exact absurd hfence (by simp [Op.fence, Op.lease])
    · split
      · next hk =>
        subst hk
        exact .of_dead ((hs.views _).aliveLock_of_record_none (hquiet.removed _ _ rfl)) fun g hg =>
          absurd hg (by simp [Grant.next])
      · exact ht
    · exact absurd rfl (hquiet.created _)
    · exact ht
  | offered hvalid h => exact h.tracked hs ht
  | leased hhead htask hstep =>
    subst htask
    have hleased := Tracked.leased hstep hs ht
    simp only [Call.leaseEvent, Option.getD_some]
    split <;> simp_all [Grant.next]
  | succeeded howner hends =>
    have hended := hends.tracked hs rfl ht
    simp only [Call.leaseEvent]
    split <;> simp_all [Grant.next]
  | failed howner ha hends =>
    have hended := hends.tracked hs (by rcases ha with rfl | ⟨held, rfl⟩ <;> rfl) ht
    simp only [Call.leaseEvent]
    split <;> simp_all [Grant.next]
  | renewed hstep =>
    have hrenewed := Tracked.renewed hstep ht
    simp only [Call.leaseEvent, Option.getD_some]
    split <;> simp_all [Grant.next]
  | released hstep =>
    have hended := Ends.tracked (a := .release _) ⟨_, hstep, .refl⟩ hs rfl ht
    simp only [Call.leaseEvent]
    split <;> simp_all [Grant.next]
  | progressed hgeneration hstep =>
    refine ht.leaves hstep hs fun a hon => ?_
    obtain rfl := (EngineAction.on_task_eq hon).2
    trivial
  | removed hidle hheld hpath => exact ht.path hs hpath fun _ hact _ hon => removal_leavesLease hact hon
  | forced hrevoke hpath =>
    have hforced := Tracked.forced hrevoke hpath hs ht
    simp only [Call.leaseEvent]
    split <;> simp_all [Grant.next]
  | scheduled op reply hop hreply hstep =>
    have hevent : Call.leaseEvent k ⟨env, op, reply⟩ = none := by
      rcases hop with ⟨queue, name, next, rfl⟩ | ⟨queue, name, current, next, rfl⟩ <;> rfl
    rw [hevent]
    exact ht.leaves hstep hs fun a hon => absurd hon (by simp [EngineAction.on])

theorem Tracked.swept (ht : Tracked env.now grant (m.view k)) (hs : Sane env.now m) (op : Op) :
    Tracked env.now grant ((op.swept env m).view k) :=
  ht.path hs (swept_path hs op) fun _ hact _ hon => hact.leavesLease hon

end Effects

/-- The calls of a run grant the leases that are alive in its last state. -/
theorem run_tracked {calls : List Call} {e : Engine} (h : engine.Run calls e) (k : TaskKey) :
    Tracked e.clock (granted k calls) (e.store.view k) := by
  refine h.induction (P := fun calls e => Tracked e.clock (granted k calls) (e.store.view k)) ?_ ?_
  · rintro _ rfl
    exact .of_dead rfl fun g hg => absurd hg (by simp [granted])
  · intro calls e c e' hrun ht ⟨hclock, hclock', hexec⟩
    have hle : (e.clock : ℚ) ≤ c.env.now := Nat.cast_le.mpr hclock
    have hs : Sane c.env.now e.store := (run_sane hrun).mono hle
    rw [granted_snoc, hclock']
    exact (exec_effect hs hexec).tracked ((swept_path hs c.op).sane hs) ((ht.mono hle).swept hs c.op)

/-- Ownership, as the calls tell it, is the live lease of the store. -/
theorem owns_iff {calls : List Call} {e : Engine} (h : engine.Run calls e) {env : Env} (hclock : e.clock ≤ env.clock)
    (k : TaskKey) (leaseToken : String) (op : Op) :
    Owns k calls leaseToken env.now ↔ ((op.swept env e.store).view k).leaseholder env = some leaseToken := by
  have hle : (e.clock : ℚ) ≤ env.now := Nat.cast_le.mpr hclock
  have ht := ((run_tracked h k).mono hle).swept ((run_sane h).mono hle) op
  rw [TaskView.leaseholder_eq, ht.lease]
  constructor
  · rintro ⟨g, hg, rfl, halive⟩
    simp [hg, Option.filter, halive]
  · intro howner
    obtain ⟨l, hl, rfl⟩ := Option.map_eq_some_iff.mp howner
    obtain ⟨hmap, halive⟩ := Option.filter_eq_some_iff.mp hl
    obtain ⟨g, hg, rfl⟩ := Option.map_eq_some_iff.mp hmap
    exact ⟨g, hg, rfl, of_decide_eq_true halive⟩

/-! ### Acceptance and rejection -/

section

variable {env : Env} {k : TaskKey} {m s : Store} {op : Op} {reply : Reply} {leaseToken : String}

theorem Effect.rejected (h : Effect env m op reply s) (hop : op.fence = some (k, leaseToken))
    (hnot : (m.view k).leaseholder env ≠ some leaseToken) : s = m ∧ reply.IsFault := by
  have hforeign : ∀ {k' : TaskKey} {leaseToken' : String}, some (k', leaseToken') = some (k, leaseToken) →
      (m.view k').leaseholder env ≠ some leaseToken' := by
    intro k' leaseToken' heq
    obtain ⟨rfl, rfl⟩ := Prod.mk.inj (Option.some.inj heq)
    exact hnot
  cases h with
  | refused op reply hfault hlease => exact ⟨rfl, hfault⟩
  | answered op reply hfence hquiet => exact absurd (hfence.symm.trans hop) (by simp)
  | succeeded howner hends => exact absurd howner (hforeign hop)
  | failed howner ha hends => exact absurd howner (hforeign hop)
  | renewed hstep => exact absurd hstep.view_task.1.1.2.1 (hforeign hop)
  | released hstep => exact absurd hstep.view_task.1.1.2 (hforeign hop)
  | progressed hgeneration hstep => exact absurd hstep.view_task.1.1.2 (hforeign hop)
  | offered | leased | removed | forced => exact absurd hop (by simp [Op.fence, Op.lease])
  | scheduled op reply hop' hreply hstep =>
    rcases hop' with ⟨queue, name, next, rfl⟩ | ⟨queue, name, current, next, rfl⟩ <;>
      exact absurd hop (by simp [Op.fence, Op.lease])

theorem Effect.accepted (h : Effect env m op reply s) (hop : op.lease = some (k, leaseToken)) (hadmitted : op.Admitted)
    (howner : (m.view k).leaseholder env = some leaseToken) : reply = .nil := by
  cases h with
  | refused op reply hfault hlease => exact absurd howner (hlease k leaseToken hop hadmitted)
  | answered op reply hfence hquiet => cases op <;> simp_all [Op.fence, Op.lease]
  | succeeded | failed | renewed | released => rfl
  | offered | leased | progressed | removed | forced => exact absurd hop (by simp [Op.lease])
  | scheduled op reply hop' hreply hstep =>
    rcases hop' with ⟨queue, name, next, rfl⟩ | ⟨queue, name, current, next, rfl⟩ <;>
      exact absurd hop (by simp [Op.lease])

end

section

variable {calls : List Call} {e : Engine} (h : engine.Run calls e) {env : Env} (hclock : e.clock ≤ env.clock)

include h hclock

theorem rejected_of_not_owns {op : Op} {k : TaskKey} {leaseToken : String} (hop : op.fence = some (k, leaseToken))
    (hnot : ¬ Owns k calls leaseToken env.now) : Rejected env op e.store := by
  have hs : Sane env.now e.store := (run_sane h).mono (Nat.cast_le.mpr hclock)
  rw [owns_iff h hclock k leaseToken op] at hnot
  rcases exec_sound env op (run_historySound h) with ⟨reply, s', hexec, _⟩ | haborts
  · obtain ⟨rfl, hfault⟩ := (exec_effect hs hexec).rejected hop hnot
    exact Or.inl ⟨reply, hexec, hfault⟩
  · exact Or.inr haborts

theorem accepted_of_owns {op : Op} {k : TaskKey} {leaseToken : String} (hop : op.lease = some (k, leaseToken))
    (hadmitted : op.Admitted) (howns : Owns k calls leaseToken env.now) : Accepted env op e.store := by
  have hs : Sane env.now e.store := (run_sane h).mono (Nat.cast_le.mpr hclock)
  rw [owns_iff h hclock k leaseToken op] at howns
  rcases exec_sound env op (run_historySound h) with ⟨reply, s', hexec, _⟩ | haborts
  · obtain rfl := (exec_effect hs hexec).accepted hop hadmitted howns
    exact Or.inl ⟨s', hexec⟩
  · exact Or.inr haborts

/-- The owner's grant is for the stored generation and its current attempt. -/
theorem attempt_of_owns {k : TaskKey} {leaseToken : String} (howns : Owns k calls leaseToken env.now) :
    ∃ before c after grant r, calls = before ++ c :: after ∧ c.leaseEvent k = some (.taken grant) ∧
      grant.token = leaseToken ∧
      (∀ d ∈ after, d.leaseEvent k = none ∨ ∃ expiresAt, d.leaseEvent k = some (.extended expiresAt)) ∧
      (e.store.view k).Running r ∧ r.generation = grant.generation ∧ r.attempt = grant.attempt := by
  obtain ⟨grant, hgrant, rfl, halive⟩ := howns
  obtain ⟨before, c, after, grant', rfl, hc, htoken, hgeneration', hattempt', hafter⟩ := granted_eq_some hgrant
  have halive' : (e.clock : ℚ) ≤ grant.expiresAt := le_trans (Nat.cast_le.mpr hclock) halive
  have ht := run_tracked h k
  obtain ⟨r, hr, hgeneration, hattempt⟩ := ht.attempt grant hgrant halive'
  obtain ⟨r', hrunning⟩ := ((run_sane h).views k).running_of_aliveLock (by rw [ht.alive hgrant halive']; simp)
  obtain rfl := Option.some.inj (hrunning.record.symm.trans hr)
  exact ⟨before, c, after, grant', r', rfl, hc, htoken, hafter, hrunning, hgeneration.trans hgeneration'.symm,
    hattempt.trans hattempt'.symm⟩

end

theorem takeToken_of_taken {k : TaskKey} {c : Call} {grant : Grant} (h : c.leaseEvent k = some (.taken grant)) :
    c.takeToken = some grant.token := by
  unfold Call.leaseEvent at h
  split at h
  · next hop hreply =>
    split at h
    · simp only [Option.some.injEq, LeaseEvent.taken.injEq] at h
      rw [Call.takeToken, hop, ← h]
    · exact absurd h (by simp)
  all_goals exact absurd h (by simp)

/-- With tokens of their own, two takes with one token are the same take. -/
theorem FreshTokens.eq {calls : List Call} (hfresh : FreshTokens calls) {c d : Call} (hc : c ∈ calls) (hd : d ∈ calls)
    {leaseToken : String} (hctoken : c.takeToken = some leaseToken) (hdtoken : d.takeToken = some leaseToken) :
    c = d := by
  have hsymmetric : Std.Symm fun c d : Call => ∀ leaseToken, c.takeToken = some leaseToken →
      d.takeToken ≠ some leaseToken := ⟨fun c d h token hd hc => h token hc hd⟩
  by_contra hne
  exact hfresh.forall hc hd hne leaseToken hctoken hdtoken

theorem freshTokens_of_nodup {calls : List Call} (h : (calls.filterMap Call.takeToken).Nodup) : FreshTokens calls := by
  refine (List.pairwise_filterMap.mp h).imp fun hne leaseToken hc hd => ?_
  exact hne leaseToken hc leaseToken hd rfl

/-- A call that needs the lease is accepted from the owner, who runs the stored attempt, and rejected from everybody
else; with fresh tokens, the token of another attempt is never the owner's. -/
theorem run_fencing {calls : List Call} {e : Engine} (h : engine.Run calls e) {env : Env}
    (hclock : e.clock ≤ env.clock) {op : Op} {k : TaskKey} {leaseToken : String}
    (hop : op.fence = some (k, leaseToken)) :
    (¬ Owns k calls leaseToken env.now → Rejected env op e.store) ∧
      (Owns k calls leaseToken env.now → op.lease.isSome → op.Admitted → Accepted env op e.store) ∧
      (Owns k calls leaseToken env.now → ∃ before c after grant r, calls = before ++ c :: after ∧
        c.leaseEvent k = some (.taken grant) ∧ grant.token = leaseToken ∧
        (∀ d ∈ after, d.leaseEvent k = none ∨ ∃ expiresAt, d.leaseEvent k = some (.extended expiresAt)) ∧
        (e.store.view k).Running r ∧ r.generation = grant.generation ∧ r.attempt = grant.attempt) ∧
      (FreshTokens calls → ∀ c ∈ calls, ∀ grant, c.leaseEvent k = some (.taken grant) → grant.token = leaseToken →
        (∀ r, e.store.task k = some r → r.generation ≠ grant.generation ∨ r.attempt ≠ grant.attempt) →
        Rejected env op e.store) := by
  refine ⟨rejected_of_not_owns h hclock hop, fun howns hlease hadmitted => ?_, attempt_of_owns h hclock,
    fun hfresh c hc grant htaken htoken hother => rejected_of_not_owns h hclock hop fun howns => ?_⟩
  · obtain ⟨⟨k', leaseToken'⟩, hlease⟩ := Option.isSome_iff_exists.mp hlease
    have heq : some (k', leaseToken') = some (k, leaseToken) := by
      rw [← hop, ← hlease]
      cases op <;> first | rfl | exact absurd hlease (by simp [Op.lease])
    rw [heq] at hlease
    exact accepted_of_owns h hclock hlease hadmitted howns
  · obtain ⟨before, d, after, grant', r, rfl, hd, htoken', _, hrunning, hgeneration, hattempt⟩ :=
      attempt_of_owns h hclock howns
    have hmem : d ∈ before ++ d :: after := List.mem_append_right _ List.mem_cons_self
    obtain rfl := hfresh.eq hc hmem (takeToken_of_taken htaken)
      ((takeToken_of_taken hd).trans (congrArg some (htoken'.trans htoken.symm)))
    rw [htaken] at hd
    injection hd with hd
    injection hd with hgrant
    subst hgrant
    rcases hother r hrunning.record with hne | hne
    · exact hne hgeneration
    · exact hne hattempt

/-- After a task was leased a second time, the first token fails and the second one succeeds. -/
theorem run_fencing_released : ∃ calls e, engine.Run calls e ∧
    (¬ Owns ("mail", "a") calls "first" 4 ∧ Rejected (.at 4) (.writeSuccess "mail" "first" "a" "sent") e.store) ∧
    Owns ("mail", "a") calls "second" 4 ∧ Accepted (.at 4) (.writeSuccess "mail" "second" "a" "sent") e.store := by
  obtain ⟨calls, e, h, hplayed⟩ := @play_run
    [(.at 1, .createTask (.default "mail" "a")), (.at 2, .takeTask "mail" "first" (some 30000)),
      (.at 2, .removeLock "mail" "first" "a"), (.at 3, .takeTask "mail" "second" (some 30000))]
    (fun calls e => decide (e.clock = 3 ∧
      (granted ("mail", "a") calls).map (fun g => (g.token, g.expiresAt)) = some ("second", 30003)))
    (by decide +kernel)
  obtain ⟨hclock, hgranted⟩ := of_decide_eq_true hplayed
  obtain ⟨g, hg, heq⟩ := Option.map_eq_some_iff.mp hgranted
  obtain ⟨htoken, hexpires⟩ := Prod.mk.inj heq
  have hle : e.clock ≤ (Env.at 4).clock := by rw [hclock]; decide
  have hstale : ¬ Owns ("mail", "a") calls "first" (Env.at 4).now := by
    rintro ⟨g', hg', htoken', _⟩
    obtain rfl := Option.some.inj (hg.symm.trans hg')
    exact absurd (htoken.symm.trans htoken') (by decide)
  have howns : Owns ("mail", "a") calls "second" (Env.at 4).now := by
    refine ⟨g, hg, htoken, ?_⟩
    rw [hexpires]
    decide +kernel
  exact ⟨calls, e, h, ⟨hstale, (run_fencing h hle rfl).1 hstale⟩, howns,
    (run_fencing h hle rfl).2.1 howns rfl trivial⟩

theorem Filling.locked {n : ℕ} {s : Store} {r : TaskRecord} (h : Filling n s r) :
    isLockedBy (.at 2) s "queue" "a" "token" = true := by
  have howns := h.owns
  unfold ownsProgress at howns
  exact (of_decide_eq_true howns).1

/-- A release that finds the history full aborts. -/
theorem Filling.release_aborts {n : ℕ} {s : Store} {r : TaskRecord} {message : String} (h : Filling n s r)
    (hfault : historyFault s "queue" "a" = some message) :
    ∃ s', exec (.at 2) (.removeLock "queue" "token" "a") s = .raised message s' := by
  have hlocked := h.locked
  have hchecked : (assertHistory "queue" "a" ((World.begin (.at 2) s).modify (unlockTask "queue" "a"))).raised =
      some ⟨message, unlockTask "queue" "a" s⟩ := assertHistory_of_fault hfault rfl
  have hraised : ((Op.removeLock "queue" "token" "a").run (.at 2) (World.begin (.at 2) s)).2.raised =
      some ⟨message, unlockTask "queue" "a" s⟩ := by
    simp only [Op.run, removeLock]
    rw [if_neg (by simpa [World.begin] using hlocked)]
    exact raised_moveToList hchecked _ _ _ _
  exact ⟨unlockTask "queue" "a" s, by rw [exec_eq, hraised]; rfl⟩

/-- The only take of a filling. -/
theorem takeTokens_filling {calls : List Call} {n : ℕ} (h : calls.map Call.op = filling n) :
    calls.filterMap Call.takeToken = ["token"] := by
  have hops : calls.filterMap Call.takeToken =
      (calls.map Call.op).filterMap fun op => Call.takeToken ⟨.at 0, op, .nil⟩ := by
    rw [List.filterMap_map]
    rfl
  have happends : (List.replicate n (Op.appendProgress "queue" "a" 1 "queue" "token" "")).filterMap
      (fun op => Call.takeToken ⟨.at 0, op, .nil⟩) = [] := List.filterMap_replicate_of_none rfl
  rw [hops, h, filling, List.filterMap_append, happends]
  rfl

/-- The owner of a task with a full history cannot release it. -/
theorem owner_aborts_when_full : ∃ calls e, engine.Run calls e ∧ FreshTokens calls ∧ e.clock = 2 ∧
    Owns ("queue", "a") calls "token" 2 ∧
    ∃ s', exec (.at 2) (.removeLock "queue" "token" "a") e.store = .raised "CORRUPT_HISTORY invalid sequence" s' := by
  obtain ⟨calls, e, r, hrun, hops, hclock, hfilling, hfault⟩ := filled_run
  have htokens := takeTokens_filling hops
  refine ⟨calls, e, hrun, freshTokens_of_nodup (by simp [htokens]), hclock, ?_, hfilling.release_aborts hfault⟩
  have hle : e.clock ≤ (Env.at 2).clock := hclock.le
  exact (owns_iff hrun hle ("queue", "a") "token" (.removeLock "queue" "token" "a")).mpr
    (of_decide_eq_true hfilling.locked)

end EffectMQ
