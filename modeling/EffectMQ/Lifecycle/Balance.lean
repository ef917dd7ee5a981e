import EffectMQ.Lifecycle.Advance

/-!
# The accounts of a record

Every attempt that was started is still running, was released, failed, stalled or succeeded; a record keeps the
count. A stall beyond the limit settles the task at once.
-/

namespace EffectMQ

open Redis Transition

/-- Whether the last attempt has not been accounted for as a failure, a stall or a release. -/
def TaskRecord.Open (r : TaskRecord) : Prop := r.place = some .active ∨ r.outcome = some .success

instance (r : TaskRecord) : Decidable r.Open := inferInstanceAs (Decidable (_ ∨ _))

/-- The accounts of a record whose attempts were released so often. -/
structure TaskRecord.Balanced (released : ℕ) (r : TaskRecord) : Prop where
  attempt : r.attempt = r.handlerFailureCount + r.stalledAttemptCount + released + if r.Open then 1 else 0
  stalled : r.stalledAttemptCount ≤ r.maxStalledCount + 1
  exhausted : r.stalledAttemptCount = r.maxStalledCount + 1 → r.outcome = some .failure

namespace TaskRecord

variable {r : TaskRecord} {n : ℕ}

theorem Balanced.attempt_of_open (h : r.Balanced n) (hopen : r.Open) :
    r.attempt = r.handlerFailureCount + r.stalledAttemptCount + n + 1 := by
  rw [h.attempt, if_pos hopen]

theorem Balanced.attempt_of_closed (h : r.Balanced n) (hclosed : ¬ r.Open) :
    r.attempt = r.handlerFailureCount + r.stalledAttemptCount + n := by
  rw [h.attempt, if_neg hclosed, Nat.add_zero]

theorem attempt_eq_of_open (hopen : r.Open)
    (hattempt : r.attempt = r.handlerFailureCount + r.stalledAttemptCount + n + 1) :
    r.attempt = r.handlerFailureCount + r.stalledAttemptCount + n + if r.Open then 1 else 0 := by
  rw [if_pos hopen, hattempt]

theorem attempt_eq_of_closed (hclosed : ¬ r.Open)
    (hattempt : r.attempt = r.handlerFailureCount + r.stalledAttemptCount + n) :
    r.attempt = r.handlerFailureCount + r.stalledAttemptCount + n + if r.Open then 1 else 0 := by
  rw [if_neg hclosed, hattempt, Nat.add_zero]

end TaskRecord

/-- How often an action releases an attempt. -/
def TaskAction.releases : TaskAction → ℕ
  | .release _ => 1
  | _ => 0

namespace TaskRecord

variable {env : Env} {r : TaskRecord} {n : ℕ}

theorem Placed.not_open_of_settled (h : r.Placed) {outcome : Outcome} (ho : r.outcome = some outcome) :
    r.place ≠ some .active := by
  intro hplace
  rcases h.settled outcome ho with hnone | hlist
  · exact absurd (hplace.symm.trans hnone) (by simp)
  · rw [hplace] at hlist
    cases hpolicy : r.policy outcome <;> simp [hpolicy, CompletionPolicy.list] at hlist

theorem open_of_running {v : TaskView} (h : v.Running r) : r.Open := Or.inl h.place

/-- A record that moved without ending an attempt. -/
theorem Balanced.of_eq {r' : TaskRecord} (h : r.Balanced n) (hattempt : r'.attempt = r.attempt)
    (hhandler : r'.handlerFailureCount = r.handlerFailureCount)
    (hstalls : r'.stalledAttemptCount = r.stalledAttemptCount) (hlimit : r'.maxStalledCount = r.maxStalledCount)
    (houtcome : r'.outcome = r.outcome) (hopen : r'.Open ↔ r.Open) : r'.Balanced n where
  attempt := by simp only [hattempt, hhandler, hstalls, hopen, h.attempt]
  stalled := by rw [hstalls, hlimit]; exact h.stalled
  exhausted hlast := houtcome.trans (h.exhausted (by rw [← hstalls, hlast, hlimit]))

theorem Balanced.withHistory (h : r.Balanced n) (history : HistoryFields) : (r.withHistory history).Balanced n :=
  h.of_eq rfl rfl rfl rfl rfl Iff.rfl

/-- A running record has not stalled beyond its limit. -/
theorem Balanced.stalled_le {v : TaskView} (h : r.Balanced n) (hrunning : v.Running r) :
    r.stalledAttemptCount ≤ r.maxStalledCount := by
  have hne : r.stalledAttemptCount ≠ r.maxStalledCount + 1 := fun hlast =>
    absurd (hrunning.outcome.symm.trans (h.exhausted hlast)) (by simp)
  have hle := h.stalled
  omega

/-- A failure closes the running attempt. A stall may use up the limit only where the task settles. -/
theorem Balanced.failed (env : Env) {r' : TaskRecord} (h : r.Balanced n) (hopen : r.Open) (error : LuaValue) (retryAt : Option ℚ)
    (cause : Cause) (hrunning : r.stalledAttemptCount ≤ r.maxStalledCount)
    (hattempt : r'.attempt = (r.failed env error retryAt cause.kind).attempt)
    (hhandler : r'.handlerFailureCount = (r.failed env error retryAt cause.kind).handlerFailureCount)
    (hstalls : r'.stalledAttemptCount = (r.failed env error retryAt cause.kind).stalledAttemptCount)
    (hlimit : r'.maxStalledCount = r.maxStalledCount) (hclosed : ¬ r'.Open)
    (hlast : cause = .stalled → r.maxStalledCount < r.stalledAttemptCount + 1 → r'.outcome = some .failure) :
    r'.Balanced n := by
  have hbalance := h.attempt_of_open hopen
  cases cause with
  | reported leaseToken =>
    simp only [TaskRecord.failed, Cause.kind, reduceCtorEq, ↓reduceIte] at hattempt hhandler hstalls
    exact ⟨TaskRecord.attempt_eq_of_closed hclosed (by omega), by omega, fun hlast => absurd hlast (by omega)⟩
  | stalled =>
    simp only [TaskRecord.failed, Cause.kind, ↓reduceIte] at hattempt hhandler hstalls
    exact ⟨TaskRecord.attempt_eq_of_closed hclosed (by omega), by omega, fun hfull => hlast rfl (by omega)⟩

theorem balanced_newRecord (env : Env) (a : CreateArgs) (g : ℕ) (l : TaskList) (hl : l ≠ .active)
    (history : HistoryFields) : (((newRecord env a g).listed (some l)).withHistory history).Balanced 0 where
  attempt := attempt_eq_of_closed (by simp [Open, place, listed, withHistory, newRecord, hl]) rfl
  stalled := Nat.zero_le _
  exhausted hlast := absurd hlast (Nat.succ_ne_zero _).symm

end TaskRecord

section

variable {env : Env} {id : String} {v v' : TaskView} {a : TaskAction} {r r' : TaskRecord} {n : ℕ}

theorem retryList_ne_active (env : Env) (retryAt : ℚ) : TaskRecord.retryList env retryAt ≠ .active := by
  unfold TaskRecord.retryList
  split <;> simp

theorem policyList_ne_active (policy : CompletionPolicy) : policy.list ≠ some .active := by
  cases policy <;> simp [CompletionPolicy.list]

/-- A stall that runs again has not used up its limit. -/
theorem stalled_le_of_retry {error : LuaValue} {retryAt : ℚ} (h : v.record = some r)
    (hauthorized : Cause.stalled.Authorized env v error retryAt) (hretry : willRetry error (retryTime retryAt) = true) :
    r.stalledAttemptCount + 1 ≤ r.maxStalledCount := by
  obtain ⟨_, rfl, rfl⟩ := hauthorized
  by_contra hlt
  have htime : v.stallTime = -1 := by
    simp only [TaskView.stallTime, h, Option.map_some, Option.getD_some]
    exact if_pos (not_le.mp hlt)
  simp [htime, willRetry, retryTime] at hretry

theorem TaskRecord.open_listed (r : TaskRecord) (list : Option TaskList) :
    (r.listed list).Open ↔ list = some .active ∨ r.outcome = some .success := Iff.rfl

/-- A record with an outcome moves between terminal places. -/
theorem TaskRecord.Balanced.refiled (hbalanced : r.Balanced n) (hplaced : r.Placed) {outcome : Outcome}
    (ho : r.outcome = some outcome) {list : Option TaskList} (hlist : list ≠ some .active) :
    (r.listed list).Balanced n := by
  refine hbalanced.of_eq rfl rfl rfl rfl rfl ?_
  rw [TaskRecord.open_listed, TaskRecord.Open]
  simp [hlist, hplaced.not_open_of_settled ho]

/-- A record that waits, now or from now on, has no attempt open. -/
theorem TaskRecord.not_open_of_outcome {l : TaskList} (hplace : r.place = some l) (hl : l ≠ .active)
    (ho : r.outcome = none) : ¬ r.Open := by
  simp [TaskRecord.Open, hplace, hl, ho]

/-- Every step of a task keeps its accounts. -/
theorem TaskStep.balanced (hstep : TaskStep env id v a v') (hv : v.Consistent env.now) (h : v.record = some r)
    (hbalanced : r.Balanced n) (hnext : a.next env r = some r') : r'.Balanced (n + a.releases) := by
  have henabled := hstep.1
  have hplaced := hv.placed r h
  cases a with
  | promote =>
    obtain ⟨⟨r₀, hr₀, hplace⟩, _⟩ := henabled
    obtain rfl := Option.some.inj (h.symm.trans hr₀)
    obtain rfl := Option.some.inj hnext
    have ho := hplaced.outcome_eq_none (Or.inr (Or.inl hplace))
    refine hbalanced.of_eq rfl rfl rfl rfl rfl ?_
    simp [TaskRecord.open_listed, TaskRecord.not_open_of_outcome hplace (by decide) ho, ho]
  | lease leaseToken lockTimeout =>
    obtain ⟨⟨r₀, hr₀, hplace⟩, _⟩ := henabled
    obtain rfl := Option.some.inj (h.symm.trans hr₀)
    obtain rfl := Option.some.inj hnext
    have ho := hplaced.outcome_eq_none (Or.inl hplace)
    refine ⟨TaskRecord.attempt_eq_of_open (Or.inl rfl) ?_, hbalanced.stalled, hbalanced.exhausted⟩
    exact congrArg Nat.succ (hbalanced.attempt_of_closed (TaskRecord.not_open_of_outcome hplace (by decide) ho))
  | renew leaseToken lockTimeout =>
    obtain ⟨⟨r₀, hrunning⟩, _⟩ := henabled
    obtain rfl := Option.some.inj (h.symm.trans hrunning.record)
    obtain rfl := Option.some.inj hnext
    refine hbalanced.of_eq rfl rfl rfl rfl rfl ?_
    simp [TaskRecord.open_listed, TaskRecord.open_of_running hrunning]
  | release leaseToken =>
    obtain ⟨⟨r₀, hrunning⟩, _⟩ := henabled
    obtain rfl := Option.some.inj (h.symm.trans hrunning.record)
    obtain rfl := Option.some.inj hnext
    have hclosed : ¬ (r.listed (some .wait)).Open := by simp [TaskRecord.open_listed, hrunning.outcome]
    exact ⟨TaskRecord.attempt_eq_of_closed hclosed (hbalanced.attempt_of_open (TaskRecord.open_of_running hrunning)),
      hbalanced.stalled, hbalanced.exhausted⟩
  | retry cause error retryAt =>
    have hlimit := (TaskAction.next_advances hnext).maxStalledCount
    obtain ⟨⟨r₀, hrunning⟩, hauthorized, hretry⟩ := henabled
    obtain rfl := Option.some.inj (h.symm.trans hrunning.record)
    obtain rfl := Option.some.inj hnext
    refine hbalanced.failed env (TaskRecord.open_of_running hrunning) error (retryTime retryAt) cause
      (hbalanced.stalled_le hrunning) rfl rfl rfl hlimit ?_ ?_
    · simp [TaskRecord.open_listed, retryList_ne_active, hrunning.outcome]
    · rintro rfl hlast
      exact absurd (stalled_le_of_retry h hauthorized hretry) (by omega)
  | fail cause error retryAt held =>
    have hlimit := (TaskAction.next_advances hnext).maxStalledCount
    obtain ⟨⟨r₀, hrunning⟩, _⟩ := henabled
    obtain rfl := Option.some.inj (h.symm.trans hrunning.record)
    obtain rfl := TaskRecord.placed_eq_some hnext
    refine hbalanced.failed env (TaskRecord.open_of_running hrunning) error (retryTime retryAt) cause
      (hbalanced.stalled_le hrunning) rfl rfl rfl hlimit ?_ fun _ _ => rfl
    simp [TaskRecord.open_listed, policyList_ne_active, TaskRecord.exhausted]
  | succeed leaseToken result held =>
    obtain ⟨⟨r₀, hrunning⟩, _⟩ := henabled
    obtain rfl := Option.some.inj (h.symm.trans hrunning.record)
    obtain rfl := TaskRecord.placed_eq_some hnext
    have hle := hbalanced.stalled_le hrunning
    exact ⟨TaskRecord.attempt_eq_of_open (Or.inr rfl) (hbalanced.attempt_of_open (TaskRecord.open_of_running hrunning)),
      hbalanced.stalled, fun hlast => absurd hlast (Nat.ne_of_lt (Nat.lt_succ_of_le hle))⟩
  | refile =>
    obtain ⟨r₀, hsettled⟩ := henabled
    obtain rfl := Option.some.inj (h.symm.trans hsettled.record)
    obtain ⟨outcome, ho⟩ := Option.isSome_iff_exists.mp hsettled.outcome
    simp only [TaskAction.next, ho, Option.elim_some] at hnext
    obtain rfl := TaskRecord.placed_eq_some hnext
    exact hbalanced.refiled hplaced ho (policyList_ne_active _)
  | expireTerminal g =>
    obtain rfl := Option.some.inj hnext
    unfold TaskRecord.unindexed
    split
    · split
      · next hindexed =>
        cases ho : r.outcome with
        | none =>
          rcases hplaced.runnable ho with hplace | hplace | hplace <;> simp [hplace] at hindexed
        | some outcome => exact hbalanced.refiled hplaced ho (by simp)
      · exact hbalanced
    · exact hbalanced
  | replace | expireTask | remove | forget => exact absurd hnext (by simp [TaskAction.next])
  | create | progress | dropDate | holdDate | expireResult | expireDeadLetter | revoke =>
    obtain rfl := Option.some.inj hnext
    exact hbalanced

end

/-! ### The accounts of a store -/

/-- How often an engine action releases an attempt of an id. -/
def EngineAction.releases (k : TaskKey) (act : EngineAction) : ℕ := ((act.on k).map TaskAction.releases).getD 0

/-- Every stored record is balanced, and no unallocated generation was ever released. -/
structure Store.Balanced (released : TaskKey → ℕ → ℕ) (s : Store) : Prop where
  record : ∀ k r, s.task k = some r → r.Balanced (released k r.generation)
  fresh : ∀ k g, s.generations k < g → released k g = 0

theorem balanced_empty : Store.empty.Balanced fun _ _ => 0 where
  record k r hr := absurd hr (by simp [Store.empty])
  fresh _ _ _ := rfl

section

variable {env : Env} {b b' : Busy} {s s' : Store} {act : EngineAction} {released : TaskKey → ℕ → ℕ}

theorem Store.generation_of_current {x : TaskIdentity} {r : TaskRecord} (h : s.current x = some r) :
    s.generation x.queue x.id = x.generation := by
  obtain ⟨hr, hgeneration⟩ := current_eq_some_iff.mp h
  simp [Store.generation, hr, hgeneration]

theorem Sane.generation_le_generations {now : ℚ} (hs : Sane now s) (k : TaskKey) :
    s.generation k.1 k.2 ≤ s.generations k := by
  unfold Store.generation
  cases hr : s.task (k.1, k.2) with
  | none => exact Nat.zero_le _
  | some r => exact ((hs.views k).generation r hr).1.le

theorem EngineStep.balanced (hstep : EngineStep env b s act b' s') (hs : Sane env.now s) (h : s.Balanced released) :
    s'.Balanced fun k g => released k g + if s.generation k.1 k.2 = g then act.releases k else 0 where
  record k r' hr' := by
    rcases hstep.record_cases hs (x := ⟨k.1, k.2, r'.generation⟩) (current_eq_some_iff.mpr ⟨hr', rfl⟩) with
      ⟨hr, hon⟩ | ⟨r, a, next, history, hr, hon, htask, hnext, heq⟩ |
      ⟨args, replacedTask, holder, history, rfl, hx, hnone, heq⟩
    · have hreleases : act.releases k = 0 := by rw [EngineAction.releases, hon]; rfl
      rw [hreleases, ite_self, Nat.add_zero]
      exact h.record k r' (current_eq_some_iff.mp hr).1
    · have hreleases : act.releases k = a.releases := by rw [EngineAction.releases, hon]; rfl
      rw [if_pos (Store.generation_of_current hr), hreleases]
      obtain ⟨hrecord, hgeneration⟩ := current_eq_some_iff.mp hr
      have hbalanced := h.record k r hrecord
      rw [hgeneration] at hbalanced
      have hbalanced' := (htask.balanced (hs.views k) hrecord hbalanced hnext).withHistory history
      rwa [← heq] at hbalanced'
    · have hreleases : (EngineAction.create args replacedTask holder).releases k = 0 := by
        unfold EngineAction.releases
        dsimp only [EngineAction.on]
        split <;> rfl
      have hkey : (args.queue, args.id) = k := by
        injection hx with hqueue hid _
        rw [← hqueue, ← hid]
      have hfresh : released k r'.generation = 0 := by
        refine h.fresh k _ ?_
        injection hx with _ _ hgeneration
        rw [hgeneration, ← hkey]
        exact Nat.lt_succ_self _
      rw [hreleases, ite_self, hfresh]
      rw [heq]
      refine TaskRecord.balanced_newRecord env args _ _ ?_ history
      unfold TaskAction.firstList
      split <;> simp
  fresh k g hlt := by
    have hlt' := (hstep.counter_le k).trans_lt hlt
    have hne := ((hs.generation_le_generations k).trans_lt hlt').ne
    rw [h.fresh k g hlt', if_neg hne]

/-- Steps that release nothing. -/
theorem EnginePath.balanced {P : EngineAction → Prop} (hpath : EnginePath env P b s b' s') (hs : Sane env.now s)
    (hP : ∀ act, P act → ∀ k, act.releases k = 0) (h : s.Balanced released) : s'.Balanced released := by
  refine hpath.preserves (I := fun _ s => s.Balanced released) hs h ?_
  intro b s act b' s' hs h hstep hact
  have h' := hstep.balanced hs h
  simp only [hP act hact, ite_self, Nat.add_zero] at h'
  exact h'

end

end EffectMQ
