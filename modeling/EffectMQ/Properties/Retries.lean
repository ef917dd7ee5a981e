import EffectMQ.Lifecycle.Balance
import EffectMQ.Properties.Fencing
import EffectMQ.Properties.Settlement
import EffectMQ.TaskQueue.Fail

/-!
# Attempts and retries

The counters of a record account for every attempt that was started. The retry cap is enforced by the client on
a snapshot: the lease makes that snapshot current when the failure is accepted, so a task fails at most once
more often than its cap, and settles with that failure.
-/

namespace EffectMQ

open Redis Transition

/-! ### Releases -/

/-- Whether a call voluntarily releases an attempt of a generation. -/
def Call.releases (k : TaskKey) (g : ℕ) (s : Store) (c : Call) : Bool :=
  match c.op with
  | .removeLock queue _ id => (queue, id) = k ∧ c.reply = .nil ∧ s.generation k.1 k.2 = g
  | _ => false

/-- The voluntary releases of a generation among calls, executed from a store. -/
def releasesFrom (k : TaskKey) (g : ℕ) : Store → List Call → ℕ
  | _, [] => 0
  | s, c :: calls => (c.releases k g s).toNat + releasesFrom k g (exec c.env c.op s).store calls

/-- The voluntary releases of a generation in a run. -/
def releases (k : TaskKey) (g : ℕ) (calls : List Call) : ℕ := releasesFrom k g Store.empty calls

theorem releasesFrom_append {e e' : Engine} {calls : List Call} (h : engine.Path e calls e') (k : TaskKey) (g : ℕ)
    (rest : List Call) :
    releasesFrom k g e.store (calls ++ rest) = releasesFrom k g e.store calls + releasesFrom k g e'.store rest := by
  induction h generalizing rest with
  | nil => simp [releasesFrom]
  | snoc _ hstep ih =>
    rw [List.append_assoc, ih, ih, List.singleton_append]
    simp only [releasesFrom, hstep.2.2, Result.store]
    omega

theorem releases_append {e : Engine} {calls : List Call} (h : engine.Run calls e) (k : TaskKey) (g : ℕ)
    (rest : List Call) : releases k g (calls ++ rest) = releases k g calls + releasesFrom k g e.store rest := by
  obtain ⟨_, rfl, hpath⟩ := h
  exact releasesFrom_append hpath k g rest

theorem releases_snoc {e : Engine} {calls : List Call} (h : engine.Run calls e) (k : TaskKey) (g : ℕ) (c : Call) :
    releases k g (calls ++ [c]) = releases k g calls + (c.releases k g e.store).toNat :=
  releases_append h k g [c]

section

variable {env : Env} {m s : Store} {op : Op} {act : EngineAction} {reply : Reply} {released : TaskKey → ℕ → ℕ}

theorem EngineAction.releases_eq_zero {k : TaskKey} (h : ∀ token, act ≠ .task k (.release token)) :
    act.releases k = 0 := by
  cases hon : act.on k with
  | none => rw [EngineAction.releases, hon]; rfl
  | some a =>
    rw [EngineAction.releases, hon]
    rcases EngineAction.on_cases hon with rfl | ⟨_, _, _, _, _, rfl⟩ | ⟨_, _, _, rfl⟩ | ⟨_, _, _, _, rfl⟩
    · cases a with
      | release token => exact absurd rfl (h token)
      | _ => rfl
    all_goals rfl

/-- Only a release releases. -/
theorem Op.Allows.of_release {k : TaskKey} {token : String} (h : op.Allows env s (.task k (.release token))) :
    op = .removeLock k.1 token k.2 := by
  rcases h with hsweep | hdoes
  · exact absurd hsweep (by simp [EngineAction.IsSweep])
  · cases op with
    | removeLock queue token' id =>
      injection hdoes with hkey ha
      injection ha with htoken
      rw [hkey, htoken]
    | _ =>
      simp [Op.Does, TaskAction.IsFailure, EngineAction.IsRelease, EngineAction.IsRemoval,
        EngineAction.IsForcedRemoval] at hdoes

/-- A call keeps the accounts, its own release included. -/
theorem exec_balanced (hs : Sane env.now s) {s' : Store} (h : exec env op s = .replied reply s')
    (hbalanced : s.Balanced released) :
    s'.Balanced fun k g => released k g + (Call.releases k g s ⟨env, op, reply⟩).toNat := by
  by_cases hop : ∃ queue token id, op = .removeLock queue token id
  · obtain ⟨queue, token, id, rfl⟩ := hop
    have heffect := exec_effect hs h
    cases heffect with
    | refused op reply hfault =>
      have hreply : reply ≠ .nil := fun heq => absurd hfault (by simp [heq, Reply.IsFault])
      simp only [Call.releases, hreply, false_and, and_false, decide_false, Bool.toNat_false, Nat.add_zero]
      exact hbalanced
    | answered op reply hfence => exact absurd hfence (by simp [Op.fence, Op.lease])
    | released hstep =>
      have hbalanced' := hstep.balanced hs hbalanced
      have heq : (fun k g => released k g + if s.generation k.1 k.2 = g then
          (EngineAction.task (queue, id) (.release token)).releases k else 0) =
          fun k g => released k g + (Call.releases k g s ⟨env, .removeLock queue token id, .nil⟩).toNat := by
        funext k g
        by_cases hk : (queue, id) = k <;> by_cases hg : s.generation k.1 k.2 = g <;>
          simp [EngineAction.releases, EngineAction.on, Call.releases, TaskAction.releases, hk, hg]
      rwa [← heq]
    | scheduled op reply hop => rcases hop with ⟨_, _, _, hop⟩ | ⟨_, _, _, _, hop⟩ <;> exact absurd hop (by simp)
  · have hnone : ∀ k g, (Call.releases k g s ⟨env, op, reply⟩).toNat = 0 := by
      intro k g
      cases op with
      | removeLock queue token id => exact absurd ⟨queue, token, id, rfl⟩ hop
      | _ => rfl
    simp only [hnone, Nat.add_zero]
    refine (exec_path hs h).balanced hs (fun act hact k => ?_) hbalanced
    exact EngineAction.releases_eq_zero fun token heq => hop ⟨_, _, _, (heq ▸ hact).of_release⟩

end

/-- Every state of a run is balanced with the releases of its calls. -/
theorem run_balanced {calls : List Call} {e : Engine} (h : engine.Run calls e) :
    e.store.Balanced fun k g => releases k g calls := by
  refine h.induction (P := fun calls e => e.store.Balanced fun k g => releases k g calls) ?_ ?_
  · rintro _ rfl
    exact balanced_empty
  · intro calls e c e' hrun hbalanced ⟨hclock, _, hexec⟩
    have hs : Sane c.env.now e.store := (run_sane hrun).mono (Nat.cast_le.mpr hclock)
    have hbalanced' := exec_balanced hs hexec hbalanced
    simp only [releases_snoc hrun]
    exact hbalanced'

/-! ### The snapshot of the owner -/

/-- Two open records of a generation with the same attempt have seen the same failures. -/
theorem TaskRecord.Advances.counts_eq {r r' : TaskRecord} {n n' : ℕ} (h : r.Advances r')
    (hattempt : r'.attempt = r.attempt) (hbalanced : r.Balanced n) (hbalanced' : r'.Balanced n') (hn : n ≤ n')
    (hopen : r.Open) (hopen' : r'.Open) :
    r'.handlerFailureCount = r.handlerFailureCount ∧ r'.stalledAttemptCount = r.stalledAttemptCount := by
  have h₁ := hbalanced.attempt_of_open hopen
  have h₂ := hbalanced'.attempt_of_open hopen'
  have h₃ := h.handlerFailureCount
  have h₄ := h.stalledAttemptCount
  omega

/-- A call whose reply handed an attempt to a worker. -/
def Call.Took (k : TaskKey) (leaseToken : String) (r : TaskRecord) (c : Call) : Prop :=
  (∃ lockTimeout, c.op = .takeTask k.1 leaseToken lockTimeout) ∧ c.reply = .leased leaseToken k.2 (some r)

theorem Call.Took.taken {k : TaskKey} {leaseToken : String} {r : TaskRecord} {c : Call} (h : c.Took k leaseToken r) :
    c.takeToken = some leaseToken ∧ ∃ expiresAt, c.leaseEvent k =
      some (.taken ⟨⟨leaseToken, expiresAt⟩, r.generation, r.attempt⟩) := by
  obtain ⟨⟨lockTimeout, hop⟩, hreply⟩ := h
  refine ⟨by simp [Call.takeToken, hop], c.env.now + lockTimeout.getD 0, ?_⟩
  simp [Call.leaseEvent, hop, hreply]

/-- The record that a take returned is the stored one, and it runs. -/
theorem Call.Took.running {k : TaskKey} {leaseToken : String} {r : TaskRecord} {c : Call} (h : c.Took k leaseToken r)
    {e e' : Engine} (hs : Sane e.clock e.store) (hstep : engine.step e c e') : (e'.store.view k).Running r := by
  obtain ⟨hclock, _, hexec⟩ := hstep
  have hs' : Sane c.env.now e.store := hs.mono (Nat.cast_le.mpr hclock)
  have heffect := exec_effect hs' hexec
  have hswept := (swept_path hs' c.op).sane hs'
  generalize c.op.swept c.env e.store = m at heffect hswept
  obtain ⟨⟨lockTimeout, hop⟩, hreply⟩ := h
  rw [hop, hreply] at heffect
  obtain ⟨r', heq, hrunning⟩ := heffect.running_of_leased hswept
  obtain rfl := Option.some.inj heq
  exact hrunning

/-- The snapshot that came with the lease is current, as far as failures go, in whatever store a call of the owner
finds after its sweep. -/
theorem snapshot_current {calls : List Call} {e : Engine} (h : engine.Run calls e) (hfresh : FreshTokens calls)
    {env : Env} (hclock : e.clock ≤ env.clock) (op : Op) {k : TaskKey} {leaseToken : String}
    (howns : Owns k calls leaseToken env.now) {d : Call} (hd : d ∈ calls) {r₀ : TaskRecord}
    (htook : d.Took k leaseToken r₀) :
    ∃ r, ((op.swept env e.store).view k).Running r ∧ r₀.Advances r ∧
      r.handlerFailureCount = r₀.handlerFailureCount ∧ r.stalledAttemptCount = r₀.stalledAttemptCount := by
  have hs : Sane env.now e.store := (run_sane h).mono (Nat.cast_le.mpr hclock)
  have hsweep := swept_path hs op
  obtain ⟨grant, hgrant, rfl, halive⟩ := howns
  have htracked := ((run_tracked h k).mono (Nat.cast_le.mpr hclock)).swept hs op
  obtain ⟨r, hr, hgeneration, hattempt⟩ := htracked.attempt grant hgrant halive
  obtain ⟨r', hrunning⟩ := ((hsweep.sane hs).views k).running_of_aliveLock (by
    rw [htracked.alive hgrant halive]
    simp)
  obtain rfl : r = r' := Option.some.inj (hr.symm.trans hrunning.record)
  refine ⟨r, hrunning, ?_⟩
  -- the grant was given by the one take with this token
  obtain ⟨before, c, after, grant', rfl, hc, htoken, hgeneration', hattempt', _⟩ := granted_eq_some hgrant
  obtain ⟨hdtoken, expiresAt, hdevent⟩ := htook.taken
  have hctoken := takeToken_of_taken hc
  rw [htoken] at hctoken
  obtain rfl : c = d := hfresh.eq (List.mem_append_right _ List.mem_cons_self) hd hctoken hdtoken
  rw [hdevent, Option.some.injEq, LeaseEvent.taken.injEq] at hc
  have hgeneration₀ : r.generation = r₀.generation := by rw [hgeneration, ← hgeneration', ← hc]
  have hattempt₀ : r.attempt = r₀.attempt := by rw [hattempt, ← hattempt', ← hc]
  -- from the store that the take left to the sweep of the call
  rw [← List.singleton_append, ← List.append_assoc] at h
  obtain ⟨e₁, hrun₁, hpath⟩ := h.split
  obtain ⟨e₀, hrun₀, hpath₀⟩ := hrun₁.split
  obtain ⟨t, ht, hstep⟩ := System.Path.of_snoc (l := []) hpath₀
  rw [System.Path.eq_of_nil ht] at hstep
  have hrunning₀ := htook.running (run_sane hrun₀) hstep
  have hr₀ : e₁.store.task k = some r₀ := hrunning₀.record
  have hcounted : r₀.generation ≤ e₁.store.generations k := (((run_sane hrun₁).views k).generation r₀ hr₀).1.le
  have hadvances₁ := path_advances hrun₁ hpath (x := ⟨k.1, k.2, r₀.generation⟩) hcounted
  obtain ⟨r₂, hr₂, hadvances₂⟩ := (hsweep.advances hs hadvances₁.1).2 r
    (current_eq_some_iff.mpr ⟨hrunning.record, hgeneration₀⟩)
  obtain ⟨r₁, hr₁, hadvances₁⟩ := hadvances₁.2 r₂ hr₂
  obtain rfl : r₀ = r₁ := Option.some.inj (hr₀.symm.trans (current_eq_some_iff.mp hr₁).1)
  have hadvances := hadvances₁.trans hadvances₂
  have hbalanced₀ := (run_balanced hrun₁).record k r₀ hr₀
  have hbalanced := (hsweep.balanced hs (fun act hact k => EngineAction.releases_eq_zero fun token heq =>
    absurd hact (by simp [heq, EngineAction.IsSweep])) (run_balanced h)).record k r hrunning.record
  rw [hgeneration₀, releases_append hrun₁] at hbalanced
  exact ⟨hadvances, hadvances.counts_eq hattempt₀ hbalanced₀ hbalanced (Nat.le_add_right _ _)
    (TaskRecord.open_of_running hrunning₀)
    (TaskRecord.open_of_running hrunning)⟩

/-! ### The cap -/

/-- A record that is live has failed no more often than the cap, and a settled one at most once more. -/
def TaskRecord.Capped (cap : ℕ∞) (r : TaskRecord) : Prop :=
  (r.handlerFailureCount : ℕ∞) ≤ cap + 1 ∧ (r.outcome = none → (r.handlerFailureCount : ℕ∞) ≤ cap)

/-- The actions that count a reported failure. -/
def TaskAction.ReportsFailure (a : TaskAction) : Prop :=
  ∃ leaseToken error retryAt, a.IsFailure (.reported leaseToken) error retryAt

section

variable {env : Env} {id : String} {v v' : TaskView} {a : TaskAction} {r r' : TaskRecord} {cap : ℕ∞}

theorem TaskAction.next_handlerFailureCount (ha : ¬ a.ReportsFailure) (hnext : a.next env r = some r') :
    r'.handlerFailureCount = r.handlerFailureCount := by
  cases a with
  | retry cause error retryAt =>
    cases cause with
    | reported leaseToken => exact absurd ⟨leaseToken, error, retryAt, Or.inl rfl⟩ ha
    | stalled => exact Option.some.inj hnext ▸ rfl
  | fail cause error retryAt held =>
    cases cause with
    | reported leaseToken => exact absurd ⟨leaseToken, error, retryAt, Or.inr ⟨held, rfl⟩⟩ ha
    | stalled => exact TaskRecord.placed_eq_some hnext ▸ rfl
  | succeed => exact TaskRecord.placed_eq_some hnext ▸ rfl
  | refile =>
    cases ho : r.outcome with
    | none =>
      simp only [TaskAction.next, ho, Option.elim_none] at hnext
      exact Option.some.inj hnext ▸ rfl
    | some outcome =>
      simp only [TaskAction.next, ho, Option.elim_some] at hnext
      exact TaskRecord.placed_eq_some hnext ▸ rfl
  | expireTerminal g =>
    obtain rfl := Option.some.inj hnext
    unfold TaskRecord.unindexed
    split
    · split <;> rfl
    · rfl
  | replace | expireTask | remove | forget => exact absurd hnext (by simp [TaskAction.next])
  | create | promote | lease | renew | release | progress | dropDate | holdDate | expireResult | expireDeadLetter
  | revoke => exact Option.some.inj hnext ▸ rfl

theorem TaskRecord.Capped.next (h : r.Capped cap) (ha : ¬ a.ReportsFailure) (hnext : a.next env r = some r') :
    r'.Capped cap := by
  have hcount := TaskAction.next_handlerFailureCount ha hnext
  refine ⟨by rw [hcount]; exact h.1, fun hnone => ?_⟩
  rw [TaskAction.next_outcome hnext] at hnone
  rw [hcount]
  exact h.2 (Option.or_eq_none_iff.mp (Option.orElse_eq_or.symm.trans hnone)).2

/-- A reported failure counts once, and goes beyond the cap only where it settles. -/
theorem TaskRecord.Capped.reported (h : r.Capped cap) (ho : r.outcome = none) {leaseToken : String}
    {error : LuaValue} {retryAt : ℚ} (ha : a.IsFailure (.reported leaseToken) error retryAt)
    (hsettles : cap ≤ r.handlerFailureCount → a.settles = some .failure) (hnext : a.next env r = some r') :
    r'.Capped cap ∧ r'.handlerFailureCount = r.handlerFailureCount + 1 := by
  have hle := h.2 ho
  have hcount : r'.handlerFailureCount = r.handlerFailureCount + 1 := by
    rcases ha with rfl | ⟨held, rfl⟩
    · exact Option.some.inj hnext ▸ rfl
    · exact TaskRecord.placed_eq_some hnext ▸ rfl
  refine ⟨⟨?_, fun hnone => ?_⟩, hcount⟩
  · rw [hcount, Nat.cast_succ]
    exact add_le_add_left hle 1
  · rw [hcount, Nat.cast_succ]
    refine Order.add_one_le_of_lt (lt_of_not_ge fun hcap => ?_)
    rw [TaskAction.next_outcome hnext, hsettles hcap] at hnone
    exact absurd hnone (by simp)

end

/-- The stored record of an id is capped by what its own offer and the definition say. -/
def Store.Capped (k : TaskKey) (cap : ℤ → ℕ∞) (s : Store) : Prop :=
  ∀ r, s.task k = some r → r.Capped (cap r.maxRetries)

section

variable {env : Env} {b b' : Busy} {s s' : Store} {act : EngineAction} {k : TaskKey} {cap : ℤ → ℕ∞}

theorem EngineStep.capped (hstep : EngineStep env b s act b' s') (hs : Sane env.now s) (h : s.Capped k cap)
    (hact : ∀ a, act.on k = some a → ¬ a.ReportsFailure) : s'.Capped k cap := by
  intro r' hr'
  rcases hstep.record_cases hs (x := ⟨k.1, k.2, r'.generation⟩) (current_eq_some_iff.mpr ⟨hr', rfl⟩) with
    ⟨hr, _⟩ | ⟨r, a, next, history, hr, hon, _, hnext, rfl⟩ | ⟨_, _, _, _, _, _, _, heq⟩
  · exact h r' (current_eq_some_iff.mp hr).1
  · have hcapped := (h r (current_eq_some_iff.mp hr).1).next (hact a hon) hnext
    rw [← (TaskAction.next_advances hnext).maxRetries] at hcapped
    exact hcapped
  · have hcount : r'.handlerFailureCount = 0 := by rw [heq]; rfl
    rw [TaskRecord.Capped, hcount]
    exact ⟨zero_le, fun _ => zero_le⟩

theorem EnginePath.capped {P : EngineAction → Prop} (hpath : EnginePath env P b s b' s') (hs : Sane env.now s)
    (hP : ∀ act, P act → ∀ a, act.on k = some a → ¬ a.ReportsFailure) (h : s.Capped k cap) : s'.Capped k cap :=
  hpath.preserves (I := fun _ s => s.Capped k cap) hs h fun _ _ _ _ _ hs h hstep hact =>
    hstep.capped hs h (hP _ hact)

theorem EngineAction.IsSweep.not_reportsFailure (h : act.IsSweep) {a : TaskAction} (hon : act.on k = some a) :
    ¬ a.ReportsFailure := by
  rintro ⟨leaseToken, error, retryAt, ha⟩
  rcases EngineAction.on_cases hon with rfl | ⟨_, _, _, _, _, rfl⟩ | ⟨_, _, _, rfl⟩ | ⟨_, _, _, _, rfl⟩
  · rcases ha with rfl | ⟨held, rfl⟩ <;> simp [EngineAction.IsSweep] at h
  all_goals simp [TaskAction.IsFailure] at ha

/-- Only a failure report counts a failure, and it counts its own. -/
theorem Op.Allows.of_reported {op : Op} (h : op.Allows env s act) {a : TaskAction} (hon : act.on k = some a)
    {leaseToken : String} {error : LuaValue} {retryAt : ℚ} (ha : a.IsFailure (.reported leaseToken) error retryAt) :
    op = .writeError k.1 leaseToken k.2 error (some retryAt) := by
  have hreports : a.ReportsFailure := ⟨leaseToken, error, retryAt, ha⟩
  rcases h with hsweep | hdoes
  · exact absurd hreports (hsweep.not_reportsFailure hon)
  · have hrelease : ¬ act.IsRelease := fun hrelease => absurd hreports (hrelease.isSweep.not_reportsFailure hon)
    rcases EngineAction.on_cases hon with rfl | ⟨_, _, _, _, _, rfl⟩ | ⟨_, _, _, rfl⟩ | ⟨_, _, _, _, rfl⟩
    · cases op with
      | writeError queue leaseToken' id error' retryAt' =>
        rcases hdoes with ⟨t, a', rfl, ha', heq⟩ | hact
        · obtain ⟨rfl, rfl⟩ := EngineAction.task.inj heq
          obtain ⟨rfl, rfl, rfl⟩ : leaseToken = leaseToken' ∧ error = error' ∧ retryAt = t := by
            rcases ha with rfl | ⟨held, rfl⟩ <;> rcases ha' with ha' | ⟨held', ha'⟩ <;> simp_all
          rfl
        · exact absurd hact hrelease
      | _ =>
        rcases ha with rfl | ⟨held, rfl⟩ <;>
          simp [Op.Does, EngineAction.IsRelease, EngineAction.IsRemoval, EngineAction.IsForcedRemoval] at hdoes
    all_goals simp [TaskAction.IsFailure] at ha

end

/-! ### Failures reported by `fail` -/

/-- An accepted failure report of an id. -/
def Call.Fails (k : TaskKey) (c : Call) : Prop :=
  c.reply = .nil ∧ ∃ leaseToken error retryAt, c.op = .writeError k.1 leaseToken k.2 error retryAt

/-- A call that is what `fail` makes of an attempt that one of the calls before it took. -/
def TaskQueue.Reports {E : Type} (queue : TaskQueue E) (k : TaskKey) (calls : List Call) (c : Call) : Prop :=
  ∃ d ∈ calls, ∃ leaseToken r attempt failedAt failure retryPolicyError, d.Took k leaseToken r ∧
    queue.decodeTask leaseToken k.2 r = some attempt ∧
    queue.fail attempt failedAt failure = .wrote c.op retryPolicyError

/-- The terminal failure that uses up a cap. -/
structure SettlesAt (k : TaskKey) (g : ℕ) (cap : ℕ∞) (s : Store) : Prop where
  outcome : (s.view k).terminalOutcomes g = [.failure]
  record : ∀ r, s.current ⟨k.1, k.2, g⟩ = some r →
    r.outcome = some .failure ∧ (r.handlerFailureCount : ℕ∞) = cap + 1

theorem Effect.ends_of_failed {env : Env} {m s : Store} {k : TaskKey} {leaseToken : String} {error : LuaValue}
    {retryAt : Option ℚ} (h : Effect env m (.writeError k.1 leaseToken k.2 error retryAt) .nil s) :
    (m.view k).leaseholder env = some leaseToken ∧
      ∃ t a, retryAt = some t ∧ a.IsFailure (.reported leaseToken) error t ∧ Ends env k a m s := by
  cases h with
  | refused op reply hfault => exact absurd hfault (by simp [Reply.IsFault])
  | answered op reply hfence => exact absurd hfence (by simp [Op.fence, Op.lease])
  | failed howner ha hends => exact ⟨howner, _, _, rfl, ha, hends⟩
  | scheduled op reply hop => rcases hop with ⟨_, _, _, hop⟩ | ⟨_, _, _, _, hop⟩ <;> exact absurd hop (by simp)

/-- Once a generation has settled, steps that settle nothing else leave its terminal event. -/
theorem EnginePath.terminalOutcomes {env : Env} {P : EngineAction → Prop} {b b' : Busy} {s s' : Store} {k : TaskKey}
    {g : ℕ} (hpath : EnginePath env P b s b' s') (hs : Sane env.now s) (hbook : (s.view k).Book g)
    (hsettled : (s.view k).terminalOutcomes g ≠ []) :
    (s'.view k).Book g ∧ (s'.view k).terminalOutcomes g = (s.view k).terminalOutcomes g := by
  refine hpath.preserves (I := fun _ s' => (s'.view k).Book g ∧
    (s'.view k).terminalOutcomes g = (s.view k).terminalOutcomes g) hs ⟨hbook, rfl⟩ ?_
  intro b₁ s₁ act b₂ s₂ hs₁ ⟨hbook₁, heq⟩ hstep _
  refine ⟨hstep.book hs₁ hbook₁, ?_⟩
  rcases hstep.view k with ⟨_, hview⟩ | ⟨a, _, htask⟩
  · rw [hview, heq]
  · rw [(htask.final (hs₁.views k) hbook₁).events (by rwa [heq]), heq]

/-- What the settlement of a running record leaves of its generation. -/
theorem Ends.terminalOutcomes {env : Env} {m s : Store} {k : TaskKey} {a : TaskAction} {r : TaskRecord}
    {outcome : Outcome} (h : Ends env k a m s) (hm : Sane env.now m) (hbook : (m.view k).Book r.generation)
    (hrunning : (m.view k).Running r) (hsettles : a.settles = some outcome) :
    (s.view k).terminalOutcomes r.generation = [outcome] ∧
      ∀ r', s.current ⟨k.1, k.2, r.generation⟩ = some r' → r'.outcome = some outcome := by
  obtain ⟨t, hstep, hrelease⟩ := h
  have htask := hstep.view_task.1
  have houtcomes : (t.view k).terminalOutcomes r.generation = [outcome] := by
    rw [htask.terminalOutcomes (hm.views k) hrunning.record, hbook.outcome r hrunning.record rfl, hrunning.outcome,
      hsettles, if_pos rfl]
    rfl
  obtain ⟨hbook', houtcomes'⟩ := hrelease.terminalOutcomes (hstep.sane hm) (hstep.book hm hbook) (by simp [houtcomes])
  rw [houtcomes] at houtcomes'
  refine ⟨houtcomes', fun r' hr' => ?_⟩
  obtain ⟨hrecord', hgeneration'⟩ := current_eq_some_iff.mp hr'
  have hlist := (hbook'.outcome r' hrecord' hgeneration').symm.trans houtcomes'
  simpa [Option.toList_eq_singleton_iff] using hlist

/-- A reported failure that settles at the cap keeps the cap, and uses it up only where it settles. -/
theorem Ends.capped {env : Env} {m s : Store} {k : TaskKey} {a : TaskAction} {cap : ℤ → ℕ∞} {r : TaskRecord}
    {leaseToken : String} {error : LuaValue} {retryAt : ℚ} (h : Ends env k a m s) (hm : Sane env.now m)
    (hbook : (m.view k).Book r.generation) (hcapped : m.Capped k cap) (hrunning : (m.view k).Running r)
    (ha : a.IsFailure (.reported leaseToken) error retryAt)
    (hsettles : cap r.maxRetries ≤ r.handlerFailureCount → a.settles = some .failure) :
    s.Capped k cap ∧ ((r.handlerFailureCount : ℕ∞) = cap r.maxRetries →
      SettlesAt k r.generation (cap r.maxRetries) s) := by
  have hends := h
  obtain ⟨t, hstep, hrelease⟩ := h
  have ht := hstep.sane hm
  have htask := hstep.view_task.1
  have hreported : ∀ r', t.task k = some r' → r.Advances r' ∧ r'.Capped (cap r'.maxRetries) ∧
      r'.handlerFailureCount = r.handlerFailureCount + 1 := by
    intro r' hr'
    obtain ⟨next, history, hnext, rfl⟩ := htask.record_next (hm.views k) hrunning.record hr'
    have hadvances := TaskAction.next_advances hnext
    obtain ⟨hnextCapped, hcount⟩ := (hcapped r hrunning.record).reported hrunning.outcome ha hsettles hnext
    rw [← hadvances.maxRetries] at hnextCapped
    exact ⟨hadvances.withHistory history, hnextCapped, hcount⟩
  have hend : s.Capped k cap := hrelease.capped ht (fun act hact a hon => hact.isSweep.not_reportsFailure hon)
    fun r' hr' => (hreported r' hr').2.1
  refine ⟨hend, fun hfull => ?_⟩
  obtain ⟨houtcomes, houtcome⟩ := hends.terminalOutcomes hm hbook hrunning (hsettles hfull.ge)
  refine ⟨houtcomes, fun r' hr' => ?_⟩
  have hrecord' := (current_eq_some_iff.mp hr').1
  have hcounted : r.generation ≤ t.generations k := by
    rw [((hm.views k).generation r hrunning.record).1]
    exact hstep.counter_le k
  obtain ⟨r₁, hr₁, hadvances₁⟩ := (hrelease.advances ht (x := ⟨k.1, k.2, r.generation⟩) hcounted).2 r' hr'
  obtain ⟨hadvances, _, hcount⟩ := hreported r₁ (current_eq_some_iff.mp hr₁).1
  refine ⟨houtcome r' hr', le_antisymm ?_ ?_⟩
  · have hle := (hend r' hrecord').1
    rwa [hadvances₁.maxRetries, hadvances.maxRetries] at hle
  · rw [← hfull, ← Nat.cast_one, ← Nat.cast_add, ← hcount]
    exact Nat.cast_le.mpr hadvances₁.handlerFailureCount

section

variable {E : Type} {queue : TaskQueue E} {calls : List Call} {e e' : Engine} {c : Call} {k : TaskKey}

/-- An accepted report of `fail` is the failure of the attempt that it was made for, whose lease is still alive. -/
theorem ends_of_reported (h : engine.Run calls e) (hstep : engine.step e c e') (hfails : c.Fails k) {leaseToken : String}
    {r₀ : TaskRecord} {attempt : TaskAttempt E} {failedAt : ℕ} {failure : E} {retryPolicyError : Option String}
    (hdecode : queue.decodeTask leaseToken k.2 r₀ = some attempt)
    (hfail : queue.fail attempt failedAt failure = .wrote c.op retryPolicyError) :
    ∃ encodedFailure retryAt a, queue.encodeFailure failure = some encodedFailure ∧
      c.op = .writeError k.1 leaseToken k.2 (.string encodedFailure) (some retryAt) ∧
      (queue.canRetry attempt failure = none → retryAt = -1) ∧ Owns k calls leaseToken c.env.now ∧
      a.IsFailure (.reported leaseToken) (.string encodedFailure) retryAt ∧
      Ends c.env k a (c.op.swept c.env e.store) e'.store := by
  obtain ⟨hclock, _, hexec⟩ := hstep
  have hs : Sane c.env.now e.store := (run_sane h).mono (Nat.cast_le.mpr hclock)
  have heffect := exec_effect hs hexec
  obtain ⟨hattemptToken, _, _, _⟩ := TaskQueue.decodeTask_eq_some hdecode
  obtain ⟨encodedFailure, retryAt, hencode, hop, hcannot⟩ := TaskQueue.fail_eq_wrote hfail
  obtain ⟨hreply, leaseToken', error, retryAt', hop'⟩ := hfails
  obtain ⟨hname, rfl, hid, rfl, rfl⟩ : queue.name = k.1 ∧ leaseToken = leaseToken' ∧ attempt.id = k.2 ∧
      LuaValue.string encodedFailure = error ∧ some retryAt = retryAt' := by
    rw [hop, hattemptToken] at hop'
    simpa using hop'
  rw [hreply, hop'] at heffect
  obtain ⟨howner, t, a, ht, ha, hends⟩ := heffect.ends_of_failed
  obtain rfl := Option.some.inj ht
  rw [← hop'] at howner hends
  exact ⟨encodedFailure, retryAt, a, hencode, hop', hcannot, (owns_iff h hclock k leaseToken c.op).mpr howner, ha, hends⟩

/-- What an accepted report of `fail` does: the cap still held before it, holds after it, and the failure that
uses it up settles the task. -/
theorem capped_of_reports (h : engine.Run calls e) (hfresh : FreshTokens calls) (hstep : engine.step e c e')
    (hfails : c.Fails k) (hreports : queue.Reports k calls c) (hcapped : e.store.Capped k queue.cap) :
    e'.store.Capped k queue.cap ∧ ∃ r, e.store.task k = some r ∧ r.outcome = none ∧
      ((r.handlerFailureCount : ℕ∞) = queue.cap r.maxRetries →
        SettlesAt k r.generation (queue.cap r.maxRetries) e'.store) := by
  have hclock := hstep.1
  have hs : Sane c.env.now e.store := (run_sane h).mono (Nat.cast_le.mpr hclock)
  obtain ⟨d, hd, leaseToken, r₀, attempt, failedAt, failure, retryPolicyError, htook, hdecode, hfail⟩ := hreports
  obtain ⟨_, _, hmaxRetries, hcount₀⟩ := TaskQueue.decodeTask_eq_some hdecode
  obtain ⟨encodedFailure, retryAt, a, _, hop, hcannot, howns, ha, hends⟩ :=
    ends_of_reported h hstep hfails hdecode hfail
  have hsweep := swept_path hs c.op
  have hm := hsweep.sane hs
  have hsnapshot := fun op => snapshot_current h hfresh hclock op howns hd htook
  have hswept : (c.op.swept c.env e.store).Capped k queue.cap :=
    hsweep.capped hs (fun act hact a hon => hact.not_reportsFailure hon) hcapped
  have hbook : ((c.op.swept c.env e.store).view k).Book r₀.generation :=
    hsweep.preserves (I := fun _ s => (s.view k).Book r₀.generation) hs (run_book h k r₀.generation)
      fun _ _ _ _ _ hs hbook hstep _ => hstep.book hs hbook
  obtain ⟨r, hrunning, hadvances, hcount, _⟩ := hsnapshot c.op
  obtain ⟨r₁, hrunning₁, hadvances₁, hcount₁, _⟩ := hsnapshot (.removeLock "" "" "")
  have hsettles : queue.cap r.maxRetries ≤ r.handlerFailureCount → a.settles = some .failure := by
    intro hle
    rw [hadvances.maxRetries, ← hmaxRetries, hcount, ← hcount₀] at hle
    rcases ha with rfl | ⟨held, rfl⟩
    · obtain ⟨_, haction, _⟩ := hends
      have hretry := haction.view_task.1.1.2.2
      simp [hcannot (TaskQueue.canRetry_of_cap hle failure), retryTime, willRetry] at hretry
    · rfl
  rw [← hadvances.sameOffer.generation] at hbook
  obtain ⟨hcapped', hsettled⟩ := hends.capped hm hbook hswept hrunning ha hsettles
  refine ⟨hcapped', r₁, hrunning₁.record, hrunning₁.outcome, ?_⟩
  rw [hcount₁, ← hcount, hadvances₁.maxRetries, ← hadvances.maxRetries, hadvances₁.sameOffer.generation,
    ← hadvances.sameOffer.generation]
  exact hsettled

/-- Every accepted failure of an id in a run is what `fail` makes of an attempt taken before. -/
def TaskQueue.ReportsAll (queue : TaskQueue E) (k : TaskKey) (calls : List Call) : Prop :=
  ∀ before c after, calls = before ++ c :: after → c.Fails k → queue.Reports k before c

theorem TaskQueue.reportsAll_of_not_fails (h : ∀ c ∈ calls, ¬ c.Fails k) : queue.ReportsAll k calls := by
  intro before c after heq hfails
  exact absurd hfails (h c (by rw [heq]; simp))

theorem TaskQueue.reportsAll_snoc (calls : List Call) :
    queue.ReportsAll k (calls ++ [c]) ↔ queue.ReportsAll k calls ∧ (c.Fails k → queue.Reports k calls c) := by
  refine ⟨fun h => ⟨fun before d after heq => h before d (after ++ [c]) (by rw [heq]; simp), h calls c [] rfl⟩, ?_⟩
  rintro ⟨hcalls, hlast⟩ before d after heq hfails
  rcases List.eq_nil_or_concat after with rfl | ⟨after, d', rfl⟩
  · obtain ⟨rfl, hd⟩ := List.append_inj' heq rfl
    obtain rfl := List.singleton_inj.mp hd
    exact hlast hfails
  · rw [List.concat_eq_append, ← List.cons_append, ← List.append_assoc] at heq
    exact hcalls before d after (List.append_inj' heq rfl).1 hfails

theorem Effect.eq_of_not_nil {env : Env} {m s : Store} {leaseToken : String} {error : LuaValue} {retryAt : Option ℚ}
    {queue id : String} {reply : Reply} (h : Effect env m (.writeError queue leaseToken id error retryAt) reply s)
    (hreply : reply ≠ .nil) : s = m := by
  cases h with
  | refused => rfl
  | answered => rfl
  | failed => exact absurd rfl hreply
  | scheduled op reply hop => rcases hop with ⟨_, _, _, hop⟩ | ⟨_, _, _, _, hop⟩ <;> exact absurd hop (by simp)

theorem run_capped (h : engine.Run calls e) (hfresh : FreshTokens calls) (hreports : queue.ReportsAll k calls) :
    e.store.Capped k queue.cap := by
  revert hfresh hreports
  refine h.induction
    (P := fun calls e => FreshTokens calls → queue.ReportsAll k calls → e.store.Capped k queue.cap) ?_ ?_
  · rintro _ rfl _ _ r hr
    exact absurd hr (by simp [Store.empty])
  · intro calls e c e' hrun ih hstep hfresh hreports
    obtain ⟨hbefore, hlast⟩ := (TaskQueue.reportsAll_snoc calls).mp hreports
    have hcapped := ih (List.pairwise_append.mp hfresh).1 hbefore
    by_cases hfails : c.Fails k
    · exact (capped_of_reports hrun (List.pairwise_append.mp hfresh).1 hstep hfails
        (hlast hfails) hcapped).1
    · obtain ⟨hclock, _, hexec⟩ := hstep
      have hs : Sane c.env.now e.store := (run_sane hrun).mono (Nat.cast_le.mpr hclock)
      by_cases hop : ∃ leaseToken error retryAt, c.op = .writeError k.1 leaseToken k.2 error retryAt
      · -- a report that was not accepted leaves what its sweep left
        have hreply : c.reply ≠ .nil := fun hnil => hfails ⟨hnil, hop⟩
        have heffect := exec_effect hs hexec
        have hswept : (c.op.swept c.env e.store).Capped k queue.cap :=
          (swept_path hs c.op).capped hs (fun act hact a hon => hact.not_reportsFailure hon) hcapped
        obtain ⟨leaseToken, error, retryAt, hop⟩ := hop
        generalize c.op.swept c.env e.store = m at heffect hswept
        rw [hop] at heffect
        rwa [heffect.eq_of_not_nil hreply]
      · exact (exec_path hs hexec).capped hs
          (fun act hact a hon ha => hop ⟨_, _, _, hact.of_reported hon ha.choose_spec.choose_spec.choose_spec⟩) hcapped

end

/-- The attempts of every stored generation are accounted for, and it stalled beyond its limit only if it failed. If
the failures of an id are all reported through `fail`, each from the snapshot of an attempt taken with a token of
its own, no generation fails more often than its cap and once more, and that failure settles it. -/
theorem run_attemptAccounting {calls : List Call} {e : Engine} (h : engine.Run calls e) :
    (∀ k r, e.store.task k = some r →
      r.attempt = r.handlerFailureCount + r.stalledAttemptCount + releases k r.generation calls +
        (if ((e.store.lists k.1).active.score k.2).isSome ∨ r.outcome = some .success then 1 else 0) ∧
      r.stalledAttemptCount ≤ r.maxStalledCount + 1 ∧
      (r.stalledAttemptCount = r.maxStalledCount + 1 → r.outcome = some .failure)) ∧
    ∀ {E : Type} (queue : TaskQueue E) (k : TaskKey), FreshTokens calls → queue.ReportsAll k calls →
      (∀ r, e.store.task k = some r → (r.handlerFailureCount : ℕ∞) ≤ queue.cap r.maxRetries + 1) ∧
      ∀ c e', engine.step e c e' → c.Fails k → queue.Reports k calls c →
        ∃ r, e.store.task k = some r ∧ (r.handlerFailureCount : ℕ∞) ≤ queue.cap r.maxRetries ∧
          ((r.handlerFailureCount : ℕ∞) = queue.cap r.maxRetries →
            SettlesAt k r.generation (queue.cap r.maxRetries) e'.store) := by
  refine ⟨fun k r hr => ?_, fun queue k hfresh hreports => ⟨fun r hr => ?_, fun c e' hstep hfails hreported => ?_⟩⟩
  · have hbalanced := (run_balanced h).record k r hr
    have hactive : ((e.store.lists k.1).active.score k.2).isSome ↔ r.place = some .active := by
      have hlisted := (((run_sane h).views k).listed.score .active)
      rw [TaskView.place_of_record hr] at hlisted
      exact hlisted.trans (by simp)
    refine ⟨?_, hbalanced.stalled, hbalanced.exhausted⟩
    rw [hbalanced.attempt]
    exact congrArg _ (if_congr (by rw [TaskRecord.Open, hactive]) rfl rfl)
  · exact (run_capped h hfresh hreports r hr).1
  · have hcapped := run_capped h hfresh hreports
    obtain ⟨_, r, hr, ho, hsettles⟩ := capped_of_reports h hfresh hstep hfails hreported hcapped
    exact ⟨r, hr, (hcapped r hr).2 ho, hsettles⟩

/-- A queue of string failures, without retries. -/
def TaskQueue.plain (name : String) : TaskQueue String where
  name := name
  schemaId := name
  maxRetries := 0
  retrySchedule := none
  errorTag _ := none
  encodeFailure := some
  decodeFailure error := match error with
    | .string s => some s
    | _ => none

/-- The calls are an offer and the lease of the record that is stored. -/
def showsLeased (calls : List Call) (e : Engine) : Bool :=
  match calls with
  | [c, d] => decide (c.op = .createTask (.default "mail" "a") ∧ d.op = .takeTask "mail" "token" (some 30000) ∧
      d.reply = .leased "token" "a" (e.store.task ("mail", "a")))
  | _ => false

/-- The first failure of a task that allows no retries settles it. -/
theorem run_attemptAccounting_settled : ∃ calls e c e', engine.Run calls e ∧ engine.step e c e' ∧
    c.Fails ("mail", "a") ∧ ((TaskQueue.plain "mail").Reports ("mail", "a") calls c) ∧
    SettlesAt ("mail", "a") 1 0 e'.store := by
  obtain ⟨calls, e, h, hplayed⟩ := @play_run
    [(.at 1, .createTask (.default "mail" "a")), (.at 2, .takeTask "mail" "token" (some 30000))]
    (fun calls e => decide (e.clock = 2) && showsLeased calls e &&
      ((e.store.task ("mail", "a")).any fun r => decide (r.generation = 1 ∧ r.protocolVersion = 1 ∧
          r.schemaId = "mail" ∧ r.errors = [] ∧ r.maxRetries = -1 ∧ r.handlerFailureCount = 0)) &&
      (exec (.at 3) (.writeError "mail" "token" "a" (.string "lost") (some (-1))) e.store).shows
        fun reply _ => decide (reply = .nil))
    (by decide +kernel)
  simp only [Bool.and_eq_true, decide_eq_true_eq] at hplayed
  obtain ⟨⟨⟨hclock, hcalls⟩, hrecord⟩, hshows⟩ := hplayed
  obtain ⟨r, hr, hrecord⟩ := (Option.any_eq_true _ _).mp hrecord
  obtain ⟨hgeneration, hprotocol, hschema, herrors, hretries, hcount⟩ := of_decide_eq_true hrecord
  obtain ⟨reply, s', hexec, hreply⟩ := Result.replied_of_shows hshows
  obtain rfl := of_decide_eq_true hreply
  unfold showsLeased at hcalls
  split at hcalls
  case h_2 => exact absurd hcalls (by simp)
  case h_1 c d =>
    obtain ⟨hc, hd, hleased⟩ := of_decide_eq_true hcalls
    rw [hr] at hleased
    have hstep : engine.step e ⟨.at 3, .writeError "mail" "token" "a" (.string "lost") (some (-1)), .nil⟩ ⟨3, s'⟩ :=
      ⟨by rw [hclock]; decide, rfl, hexec⟩
    have hfails : Call.Fails ("mail", "a") ⟨.at 3, .writeError "mail" "token" "a" (.string "lost") (some (-1)), .nil⟩ :=
      ⟨rfl, "token", .string "lost", some (-1), rfl⟩
    have hreports : (TaskQueue.plain "mail").Reports ("mail", "a") [c, d]
        ⟨.at 3, .writeError "mail" "token" "a" (.string "lost") (some (-1)), .nil⟩ := by
      refine ⟨d, by simp, "token", r, ⟨"token", "a", r.createdAt, r.delay, r.maxRetries, r.handlerFailureCount, []⟩, 3,
        "lost", none, ⟨⟨_, hd⟩, hleased⟩, ?_, ?_⟩
      · simp [TaskQueue.decodeTask, hprotocol, hschema, herrors, TaskQueue.plain]
      · simp [TaskQueue.fail, TaskQueue.plain, TaskQueue.canRetry, TaskQueue.writeError, maxSafeInteger]
    have hfresh : FreshTokens [c, d] := by
      simp [FreshTokens, Call.takeToken, hc]
    have hall : (TaskQueue.plain "mail").ReportsAll ("mail", "a") [c, d] :=
      TaskQueue.reportsAll_of_not_fails (by simp [Call.Fails, hc, hd])
    obtain ⟨r', hr', _, hsettles⟩ :=
      ((run_attemptAccounting h).2 (TaskQueue.plain "mail") ("mail", "a") hfresh hall).2 _ _ hstep hfails hreports
    obtain rfl := Option.some.inj (hr.symm.trans hr')
    have hcap : (TaskQueue.plain "mail").cap r.maxRetries = 0 := by
      rw [hretries]
      rfl
    rw [hcount, hcap, hgeneration] at hsettles
    exact ⟨[c, d], e, _, _, h, hstep, hfails, hreports, hsettles rfl⟩

end EffectMQ
