import EffectMQ.Lifecycle.Events
import EffectMQ.Lifecycle.Exhaustion
import EffectMQ.Lifecycle.Serving
import EffectMQ.Transition.Rotation

/-!
# Maintenance drains, and no category starves

The rotation of the syncers over a run. At a fixed clock the maintenance of a queue, and nothing else, takes its backlog
down to nothing, and every due entry goes by its own rule. Whatever else happens, the seven next sweeps of a queue serve
every category that has a due entry before each of them.
-/

namespace EffectMQ

open Redis Transition

/-- The queue that an operation sweeps, when its arguments pass the first checks. -/
def Op.sweeps : Op → Option String
  | .createTask a => if createFault a = none then some a.queue else none
  | .takeTask queue _ lockTimeout => if isPositiveSafeInteger lockTimeout = true then some queue else none
  | .writeSuccess queue _ _ _ => some queue
  | .writeError queue _ _ _ retryAt => if isRetryTime retryAt = true then some queue else none
  | .removeTask queue _ => some queue
  | .forceRemoveTask queue _ => some queue
  | .maintain queue => some queue
  | .listTasks queue _ _ _ => some queue
  | _ => none

/-- A call that sweeps a queue. -/
def Call.Sweeps (queue : String) (c : Call) : Bool := c.op.sweeps = some queue

/-- A call of maintenance at a clock value, whatever its batch size. -/
def Call.Maintains (queue : String) (u : ℕ) (c : Call) : Prop := c.op = .maintain queue ∧ c.env.clock = u

/-- On a path of calls, one of the sweeps of a queue handles an entry. -/
def HandledDuring (queue : String) (e : Engine) (calls : List Call) (e' : Engine) (m : Member) : Prop :=
  ∃ before c after e₁ e₂, calls = before ++ c :: after ∧ engine.Path e before e₁ ∧ engine.step e₁ c e₂ ∧
    engine.Path e₂ after e' ∧ c.op.sweeps = some queue ∧
    m.HandledIn c.env queue EngineAction.IsSweep e₁.store (c.op.swept c.env e₁.store)

section

variable {env : Env} {queue : String} {op : Op} {reply : Reply} {s s' : Store} {calls later : List Call} {e e' : Engine}
  {c : Call} {m : Member} {u : ℕ}

theorem Op.swept_eq (env : Env) (s : Store) (op : Op) :
    op.swept env s = op.sweeps.elim s fun queue => sweep env queue s := by
  cases op with
  | createTask | takeTask | writeError =>
    simp only [Op.swept, Op.sweeps]
    split <;> rfl
  | writeSuccess | extendLock | removeLock | appendProgress | readHistory | removeTask | forceRemoveTask | maintain
  | listTasks | getTask | getGeneration | getResult | eventCursors | setSchedule | consumeSchedule => rfl

/-! ### The cursor -/

theorem EngineStep.maintenanceCursor {b b' : Busy} {act : EngineAction} (hstep : EngineStep env b s act b' s')
    (hact : act ≠ .tick) : s'.maintenanceCursor = s.maintenanceCursor := by
  cases hstep with
  | task henabled hadmissible hlocal hline => exact hlocal.maintenanceCursor
  | create hfresh hlocal => exact hlocal.maintenanceCursor
  | createHeld hfresh hholder hroom hlocal => exact hlocal.maintenanceCursor
  | forget henabled hnoted hlocal => exact hlocal.maintenanceCursor
  | dropRefiled hcurrent hsettled hheld hlocal => exact hlocal.maintenanceCursor
  | start | pop | dropKept | note | acquire => rfl
  | tick => exact absurd rfl hact

theorem UpkeepPath.maintenanceCursor {b b' : Busy} (h : UpkeepPath env queue b s b' s') :
    s'.maintenanceCursor = s.maintenanceCursor := by
  induction h with
  | refl => rfl
  | tail _ hstep hact ih =>
    refine (hstep.maintenanceCursor ?_).trans ih
    rintro rfl
    rcases hact with (⟨_, _, heq, _⟩ | hunwinds) | ⟨_, heq⟩ | ⟨_, heq, _⟩
    · exact absurd heq (by simp)
    · exact hunwinds
    · exact absurd heq (by simp)
    · exact absurd heq (by simp)

/-- After its sweep an invocation leaves the cursors alone. -/
theorem exec_cursor (hs : Sane env.now s) (h : exec env op s = .replied reply s') :
    s'.maintenanceCursor = (op.swept env s).maintenanceCursor := by
  have hpath := (exec_effect hs h).path
  by_cases htick : op.Does (op.swept env s) .tick
  · obtain ⟨_, hstore⟩ := exec_replied h
    cases op with
    | setSchedule queue name next =>
      rw [← hstore]
      rfl
    | consumeSchedule queue name current next =>
      rw [← hstore]
      simp only [Op.run, consumeSchedule, Op.swept]
      split
      · rfl
      · split
        · rfl
        · split <;> rfl
    | createTask a => simp [Op.Does] at htick
    | takeTask | writeSuccess | writeError | extendLock | removeLock | appendProgress | removeTask | forceRemoveTask =>
      simp [Op.Does, EngineAction.IsRelease, EngineAction.IsRemoval, EngineAction.IsForcedRemoval] at htick
    | readHistory | maintain | listTasks | getTask | getGeneration | getResult | eventCursors => exact htick.elim
  · refine hpath.preserves (I := fun _ t => t.maintenanceCursor = (op.swept env s).maintenanceCursor)
      ((swept_path hs op).sane hs) rfl fun _ _ _ _ _ _ hcursor hstep hact => ?_
    exact (hstep.maintenanceCursor fun heq => htick (heq ▸ hact)).trans hcursor

/-- Each sweep of a queue moves its cursor to the next place, and nothing else moves it. -/
theorem step_cursor (hs : Sane e.clock e.store) (hstep : engine.step e c e') (queue : String) :
    e'.store.maintenanceCursor queue % syncers.length =
      (e.store.maintenanceCursor queue + if c.Sweeps queue then 1 else 0) % syncers.length := by
  obtain ⟨hclock, _, hexec⟩ := hstep
  have hs' : Sane c.env.now e.store := hs.mono (Nat.cast_le.mpr hclock)
  rw [exec_cursor hs' hexec, Op.swept_eq, Call.Sweeps]
  cases hsweeps : c.op.sweeps with
  | none => simp
  | some queue' =>
    obtain ⟨t, hpath, hsweep, _⟩ := sweep_upkeep hs' queue'
    rw [Option.elim_some, hsweep]
    by_cases hqueue : queue = queue'
    · subst hqueue
      simp
    · have hne : queue' ≠ queue := fun h => hqueue h.symm
      simp only [Function.update_of_ne hqueue, hpath.maintenanceCursor, Option.some.injEq, hne, decide_false,
        Bool.false_eq_true, ↓reduceIte, Nat.add_zero]

/-! ### Between two invocations -/

/-- Only a forced removal revokes a lease. -/
theorem Op.Allows.revokes {k : TaskKey} {act : EngineAction} (hact : op.Allows env s act) (hon : act.on k = some .revoke) :
    op = .forceRemoveTask k.1 k.2 := by
  rcases hact with hsweep | hdoes
  · exact absurd hon (hsweep.not_revoke k)
  · rcases EngineAction.on_cases hon with rfl | ⟨_, _, _, rfl, heq⟩ | ⟨_, rfl, heq⟩ | ⟨_, _, rfl, _, heq⟩
    · cases op <;> simp_all [Op.Does, EngineAction.IsRelease, EngineAction.IsRemoval,
        EngineAction.IsForcedRemoval, TaskAction.IsFailure]
    all_goals exact absurd heq (by simp)

/-- A forced removal leaves no record. -/
theorem task_of_forceRemoveTask {id : String} (h : exec env (.forceRemoveTask queue id) s = .replied reply s') :
    s'.task (queue, id) = none := by
  obtain ⟨_, rfl⟩ := exec_replied h
  simp only [Op.run, forceRemoveTask]
  split
  · assumption
  · simp only [deleteTask, World.modify, Store.task_dropRecord, Function.update_self]

theorem exec_upkept (hs : Sane env.now s) (h : exec env op s = .replied reply s') (hu : s.Upkept) : s'.Upkept where
  timed := (exec_path hs h).timed hs hu.timed
  leased k := by
    by_cases hforced : op = .forceRemoveTask k.1 k.2
    · -- the id is in no list, so that nothing is left to say about a lock
      subst hforced
      have hs' := (exec_path hs h).sane hs
      have hnone : s'.task k = none := task_of_forceRemoveTask h
      intro t ht
      obtain ⟨hplace, _⟩ := ((hs'.views k).listed.score .active).mp (Option.isSome_iff_exists.mpr ⟨t, ht⟩)
      exact absurd hplace (by simp [TaskView.place, Store.view, hnone])
    · exact (exec_path hs h).leased hs (hu.leased k) fun act hact hon => hforced (hact.revokes hon)

theorem run_upkept (h : engine.Run calls e) : e.store.Upkept := by
  refine (h.invariant (I := fun e => Sane e.clock e.store ∧ e.store.Upkept) ?_ fun e c e' ⟨hs, hu⟩ hstep => ?_).2
  · rintro _ rfl
    exact ⟨sane_empty _, timed_empty, fun _ _ ht => absurd ht (by simp [Store.empty, Store.view, QueueLists.score])⟩
  · exact ⟨engine_step_sane hs hstep, exec_upkept (hs.mono (Nat.cast_le.mpr hstep.1)) hstep.2.2 hu⟩

/-! ### The sweeps of a path -/

theorem exec_maintain (h : exec env (.maintain queue) s = .replied reply s') : s' = sweep env queue s :=
  (exec_replied h).2.symm

/-- What an upkeep path handles is handled in the sweep. -/
theorem Member.Served.handledIn {t : Store} {cursor : String → ℕ} (h : m.Served env queue s t)
    (hsweep : sweep env queue s = { t with maintenanceCursor := cursor }) :
    m.HandledIn env queue EngineAction.IsSweep s (sweep env queue s) := by
  obtain ⟨b₁, s₁, act, b₂, s₂, hbefore, hstep, hact, hafter, hdue, hhandled⟩ := h
  refine ⟨b₁, s₁, act, b₂, s₂, hbefore.path, hstep, hact.isSweep, ?_, hdue, hhandled⟩
  rw [hsweep]
  exact hafter.path.tail (.tick cursor t.schedule) trivial

/-- What was due before a sweep and is not after it has been handled. -/
theorem sweep_serves (hs : Sane env.now s) (hu : s.Upkept) (hdue : m.Due env.now queue s)
    (hgone : ¬ m.Due env.now queue (sweep env queue s)) :
    m.HandledIn env queue EngineAction.IsSweep s (sweep env queue s) ∧
      (sweep env queue s).backlog env.now queue none < s.backlog env.now queue none := by
  obtain ⟨t, hpath, hsweep, _⟩ := sweep_upkeep hs queue
  have hserved : m.Served env queue s t := hpath.handled hs hu hdue (by rwa [hsweep] at hgone)
  refine ⟨hserved.handledIn hsweep, ?_⟩
  rw [hsweep]
  exact hserved.backlog_lt hs hu

theorem sweep_backlog_le (hs : Sane env.now s) (hu : s.Upkept) :
    (sweep env queue s).backlog env.now queue none ≤ s.backlog env.now queue none := by
  obtain ⟨t, hpath, hsweep, _⟩ := sweep_upkeep hs queue
  rw [hsweep]
  exact hpath.backlog_le hs hu

/-- The category whose turn it is has an entry handled, if it has one that is due. -/
theorem sweep_turn (hs : Sane env.now s) (hu : s.Upkept) (hdue : m.Due env.now queue s)
    (hturn : m.category = s.maintenanceCursor queue % syncers.length) :
    (∃ m' : Member, m'.category = m.category ∧ m'.HandledIn env queue EngineAction.IsSweep s (sweep env queue s)) ∧
      (sweep env queue s).backlog env.now queue none < s.backlog env.now queue none := by
  obtain ⟨t, hpath, hsweep, hserves⟩ := sweep_upkeep hs queue
  obtain ⟨m', hcategory, hserved⟩ := hserves m hdue hturn hu
  refine ⟨⟨m', hcategory, hserved.handledIn hsweep⟩, ?_⟩
  rw [hsweep]
  exact hserved.backlog_lt hs hu

/-- The due entries that a maintenance path takes away are handled on it. -/
theorem maintained (h : engine.Run calls e) (h' : engine.Path e later e') (hlater : ∀ c ∈ later, c.Maintains queue u)
    (hdue : m.Due u queue e.store) (hgone : ¬ m.Due u queue e'.store) : HandledDuring queue e later e' m := by
  induction h' with
  | nil => exact absurd hdue hgone
  | @snoc before e₁ e₂ c hpath hstep ih =>
    have hc : c.Maintains queue u := hlater c (List.mem_append_right _ (List.mem_singleton_self c))
    have hrun := h.extend hpath
    by_cases hstill : m.Due u queue e₁.store
    · have hs : Sane c.env.now e₁.store := (run_sane hrun).mono (Nat.cast_le.mpr hstep.1)
      have hnow : c.env.now = u := congrArg Nat.cast hc.2
      have hswept : e₂.store = sweep c.env queue e₁.store := exec_maintain (hc.1 ▸ hstep.2.2)
      have hserved := sweep_serves hs (run_upkept hrun) (hnow ▸ hstill) (by rwa [← hswept, hnow])
      refine ⟨before, c, [], e₁, e₂, by simp, hpath, hstep, .nil, by rw [hc.1]; rfl, ?_⟩
      rw [hc.1]
      exact hserved.1
    · obtain ⟨before', c', after, e₃, e₄, hl, hbefore, hhandles, hafter, hrest⟩ :=
        ih (fun d hd => hlater d (List.mem_append_left _ hd)) hstill
      exact ⟨before', c', after ++ [c], e₃, e₄, by simp [hl], hbefore, hhandles, hafter.snoc hstep, hrest⟩

theorem Member.category_lt (m : Member) : m.category < syncers.length := by
  cases m <;> exact of_decide_eq_true rfl

/-- There is a due entry where there is a backlog, and only there. -/
theorem due_iff_backlog (hs : s.Homed) (ht : s.Timed) {now : ℚ} :
    0 < s.backlog now queue none ↔ ∃ m : Member, m.Due now queue s := by
  have hmem : ∀ m, m ∈ s.pending now queue none ↔ m.Due now queue s := fun m => (mem_pending hs ht).trans (by simp)
  unfold Store.backlog
  rw [Finset.sum_pos_iff]
  exact ⟨fun ⟨m, hm, _⟩ => ⟨m, (hmem m).mp hm⟩, fun ⟨m, hdue⟩ => ⟨m, (hmem m).mpr hdue, m.weight_pos⟩⟩

/-- As many rounds of maintenance as the backlog leave nothing due. -/
theorem drained (h : engine.Run calls e) (h' : engine.Path e later e') (hlater : ∀ c ∈ later, c.Maintains queue u)
    (henough : syncers.length * e.store.backlog u queue none ≤ later.length) : e'.store.backlog u queue none = 0 := by
  have hsane : ∀ {e₁ e₂ : Engine} {c : Call}, (∃ calls, engine.Run calls e₁) → c.Maintains queue u →
      engine.step e₁ c e₂ → Sane c.env.now e₁.store ∧ e₁.store.Upkept ∧ c.env.now = u ∧
        e₂.store = sweep c.env queue e₁.store := fun ⟨_, hrun⟩ hc hstep =>
    ⟨(run_sane hrun).mono (Nat.cast_le.mpr hstep.1), run_upkept hrun, congrArg Nat.cast hc.2,
      exec_maintain (hc.1 ▸ hstep.2.2)⟩
  refine h'.drains (n := syncers.length) (p := fun e => e.store.maintenanceCursor queue)
    (Q := fun c => c.Sweeps queue) (R := fun c => c.Maintains queue u) (I := fun e => ∃ calls, engine.Run calls e)
    (fun e => e.store.backlog u queue none) (fun category e => ∃ m : Member, m.category = category ∧ m.Due u queue e.store)
    ⟨calls, h⟩ (fun _ _ _ ⟨calls, hrun⟩ hstep => ⟨_, hrun.snoc hstep⟩) hlater ?_ ?_ ?_ ?_ ?_ ?_ henough
  · intro c hc
    simp [Call.Sweeps, hc.1, Op.sweeps]
  · exact fun _ _ _ ⟨_, hrun⟩ hstep => step_cursor (run_sane hrun) hstep queue
  · intro e₁ c e₂ hrun hc hstep
    obtain ⟨hs, hu, hnow, hswept⟩ := hsane hrun hc hstep
    simp only [hswept, ← hnow]
    exact sweep_backlog_le hs hu
  · intro e₁ ⟨_, hrun⟩ hpos
    obtain ⟨m, hdue⟩ := (due_iff_backlog (run_sane hrun).homed (run_timed hrun)).mp hpos
    exact ⟨m.category, m.category_lt, m, rfl, hdue⟩
  · intro e₁ c e₂ hrun hc hstep ⟨m, hturn, hdue⟩
    obtain ⟨hs, hu, hnow, hswept⟩ := hsane hrun hc hstep
    simp only [hswept, ← hnow] at hdue ⊢
    exact (sweep_turn hs hu hdue hturn).2
  · intro e₁ c e₂ category hrun hc hstep heq ⟨m, hcategory, hdue⟩
    obtain ⟨hs, hu, hnow, hswept⟩ := hsane hrun hc hstep
    simp only [hswept, ← hnow] at hdue heq ⊢
    refine ⟨m, hcategory, ?_⟩
    by_contra hgone
    exact absurd heq (sweep_serves hs hu hdue hgone).2.ne

theorem sweeps_of_call (h : c.Sweeps queue = true) : c.op.sweeps = some queue := of_decide_eq_true h

/-- The sweep at the turn of a category handles one of its entries, when one is due before it. -/
theorem sweep_handles (h : engine.Run calls e) (hstep : engine.step e c e') (hsweeps : c.Sweeps queue = true)
    (hdue : m.Due c.env.now queue e.store)
    (hturn : m.category = e.store.maintenanceCursor queue % syncers.length) :
    ∃ m' : Member, m'.category = m.category ∧
      m'.HandledIn c.env queue EngineAction.IsSweep e.store (c.op.swept c.env e.store) := by
  have hs : Sane c.env.now e.store := (run_sane h).mono (Nat.cast_le.mpr hstep.1)
  rw [Op.swept_eq, sweeps_of_call hsweeps]
  exact (sweep_turn hs (run_upkept h) hdue hturn).1

end

/-- At a fixed clock the maintenance calls of a queue, whatever their batch sizes, leave nothing due when there are enough
of them, each further one replies unless a history is exhausted, and what was due at some point and no longer is was
handled by its own rule. Whatever else runs under whatever clock, seven consecutive sweeps of a queue handle an entry of
every category that has a due entry before each of them. -/
theorem run_upkeep {calls : List Call} {e : Engine} (h : engine.Run calls e) (queue : String) :
    (∀ u : ℕ, ∃ enough : ℕ, ∀ later e', engine.Path e later e' → (∀ c ∈ later, c.Maintains queue u) →
      (∀ env : Env, (∃ reply s', exec env (.maintain queue) e'.store = .replied reply s') ∨
        ∃ message s', exec env (.maintain queue) e'.store = .raised message s' ∧ s'.HistoryExhausted) ∧
      (enough ≤ later.length → ∀ m : Member, ¬ m.Due u queue e'.store) ∧
      ∀ before after e₁ m, later = before ++ after → engine.Path e before e₁ → engine.Path e₁ after e' →
        m.Due u queue e₁.store → ¬ m.Due u queue e'.store → HandledDuring queue e₁ after e' m) ∧
    ∀ later e', engine.Path e later e' → later.countP (Call.Sweeps queue) = syncers.length → ∀ category,
      (∀ before c after e₁, later = before ++ c :: after → c.Sweeps queue = true → engine.Path e before e₁ →
        ∃ m : Member, m.category = category ∧ m.Due c.env.now queue e₁.store) →
      ∃ m : Member, m.category = category ∧ HandledDuring queue e later e' m := by
  refine ⟨fun u => ⟨syncers.length * e.store.backlog u queue none, fun later e' hpath hlater => ⟨?_, ?_, ?_⟩⟩, ?_⟩
  · intro env
    rcases exec_sound env (.maintain queue) (run_historySound (h.extend hpath)) with ⟨reply, s', hexec, _⟩ | hraised
    · exact Or.inl ⟨reply, s', hexec⟩
    · exact Or.inr hraised
  · intro henough m hdue
    have hpos := (due_iff_backlog (run_sane (h.extend hpath)).homed (run_timed (h.extend hpath))).mpr ⟨m, hdue⟩
    exact absurd (drained h hpath hlater henough) hpos.ne'
  · rintro before after e₁ m rfl hbefore hafter hdue hgone
    exact maintained (h.extend hbefore) hafter (fun c hc => hlater c (List.mem_append_right _ hc)) hdue hgone
  · intro later e' hpath hcount category hdue
    obtain ⟨_, first, _, e₁, _, hl, hfirst, _, hreached, _, _⟩ := hpath.nth (Q := Call.Sweeps queue) (j := 0) (by
      rw [hcount]
      decide)
    obtain ⟨m₀, rfl, _⟩ := hdue _ _ _ _ hl hfirst hreached
    obtain ⟨before, c, after, e₁, e₂, hl, hsweeps, hbefore, hstep, hafter, hturn⟩ := hpath.turn_reached
      (p := fun e => e.store.maintenanceCursor queue) (I := fun e => ∃ calls, engine.Run calls e) ⟨calls, h⟩
      (fun _ _ _ ⟨_, hrun⟩ hstep => ⟨_, hrun.snoc hstep⟩)
      (fun _ _ _ ⟨_, hrun⟩ hstep => step_cursor (run_sane hrun) hstep queue) hcount.ge m₀.category_lt
    obtain ⟨m, hcategory, hdue'⟩ := hdue _ _ _ _ hl hsweeps hbefore
    obtain ⟨m', hcategory', hhandled⟩ :=
      sweep_handles (h.extend hbefore) hstep hsweeps hdue' (hcategory.trans hturn.symm)
    exact ⟨m', hcategory'.trans hcategory, before, c, after, e₁, e₂, hl, hbefore, hstep, hafter, sweeps_of_call hsweeps,
      hhandled⟩

/-! ### At an exhausted history -/

section

variable {env : Env} {queue : String} {w : World}

theorem rangeByScore_of_entries {α : Type} [DecidableEq α] [MemberOrder α] {z : SortedSet α} (h : z.entries = []) (hi : ℚ)
    (limit : ℤ) : z.rangeByScore hi limit = [] := by
  simp [SortedSet.rangeByScore, SortedSet.due, h, SortedSet.limited]

theorem dueExpiryMembers_of_entries {index : SortedSet TaskIdentity} (h : index.entries = []) :
    dueExpiryMembers env index w = [] := by
  unfold dueExpiryMembers
  split
  · rfl
  · exact rangeByScore_of_entries h _ _

/-- A sweep that begins after the leases and finds nothing due but one lease ends with the failure of its attempt. -/
theorem sweep_of_onlyLeased {s : Store} (h : OnlyLeased s) (hclock : 102 < env.clock) :
    (syncAll env "queue" (World.begin env s)).raised =
      (failStalled env "queue" ((World.begin env s).spend 1) "a").raised := by
  obtain ⟨_, hactive, hscheduled, hcontinuations, htasks, hresults, hterminal, hdeadLetters, hcursor⟩ := h
  generalize hw : World.begin env s = w
  have hstore : w.store = s := hw ▸ rfl
  have hremaining : ¬ w.remaining ≤ 0 := by
    rw [← hw]
    exact not_le.mpr (Int.natCast_pos.mpr env.batch_pos)
  have hspend : w.spend 0 = w := by simp [World.spend]
  have hdelayed : syncDelayed env "queue" w = w := by
    simp [syncDelayed, hstore, rangeByScore_of_entries hscheduled, hspend]
  have hreleases : syncRetentionContinuations env "queue" w = w := by
    simp [syncRetentionContinuations, hstore, SortedSet.range, SortedSet.members, hcontinuations]
  have htask : syncTaskExpiry env "queue" w = w := by
    simp [syncTaskExpiry, hstore, dueExpiryMembers_of_entries htasks, hspend]
  have hresult : syncResultExpiry env "queue" w = w := by
    simp [syncResultExpiry, hstore, dueExpiryMembers_of_entries hresults, hspend]
  have hindex : syncTerminalExpiry env "queue" w = w := by
    simp [syncTerminalExpiry, hstore, dueExpiryMembers_of_entries hterminal, hspend]
  have hdead : syncDeadLetterExpiry env "queue" w = w := by
    simp [syncDeadLetterExpiry, hstore, dueExpiryMembers_of_entries hdeadLetters, hspend]
  have hleases : getExpiredActiveList env "queue" w = ["a"] := by
    have hdue : (s.lists "queue").active.due env.now = ["a"] := by
      have hle : (102 : ℚ) ≤ env.now := by
        rw [Env.now]
        exact_mod_cast hclock.le
      simp [SortedSet.due, hactive, hle]
    have htake : 1 ≤ w.remaining.toNat := by omega
    have hnat : ¬ w.remaining < 0 := by omega
    rw [getExpiredActiveList, if_neg hremaining, hstore, SortedSet.rangeByScore, hdue, SortedSet.limited, if_neg hnat]
    exact List.take_of_length_le htake
  have hturn : ∀ offset, syncTurn env "queue" 2 w offset =
      (syncers[(2 + offset) % syncers.length]?.elim w fun sync => sync env "queue" w) := fun offset => by
    rw [syncTurn, if_neg hremaining]
    split <;> simp_all
  have hrange : List.range syncers.length = [0, 1, 2, 3, 4, 5, 6] := rfl
  unfold syncAll
  rw [hstore, hcursor, hrange]
  simp only [List.foldl_cons, List.foldl_nil]
  rw [hturn 0, show syncers[(2 + 0) % syncers.length]? = some syncRetentionContinuations from rfl, Option.elim_some,
    hreleases, hturn 1, show syncers[(2 + 1) % syncers.length]? = some syncTaskExpiry from rfl, Option.elim_some, htask,
    hturn 2, show syncers[(2 + 2) % syncers.length]? = some syncResultExpiry from rfl, Option.elim_some, hresult,
    hturn 3, show syncers[(2 + 3) % syncers.length]? = some syncTerminalExpiry from rfl, Option.elim_some, hindex,
    hturn 4, show syncers[(2 + 4) % syncers.length]? = some syncDeadLetterExpiry from rfl, Option.elim_some, hdead,
    hturn 5, show syncers[(2 + 5) % syncers.length]? = some syncDelayed from rfl, Option.elim_some, hdelayed,
    hturn 6, show syncers[(2 + 6) % syncers.length]? = some syncLocks from rfl, Option.elim_some, syncLocks, hleases]
  rfl

/-- The stall of a lease on a full history aborts every sweep, and leaves all as it was. -/
theorem Filling.maintain_aborts {n : ℕ} {s : Store} {r : TaskRecord} {message : String} (h : Filling n s r)
    (hfault : historyFault s "queue" "a" = some message) (hclock : 102 < env.clock) :
    exec env (.maintain "queue") s = .raised message s := by
  have hlock : isLocked env s "queue" "a" = false := by
    have hgone : ¬ env.now ≤ 102 := by
      rw [Env.now]
      exact not_le.mpr (by exact_mod_cast hclock)
    simp [isLocked, getLockId, h.leased.1, Option.filter, hgone]
  have hrecord := (current_eq_some_iff.mp h.current).1
  have hfails : failStalled env "queue" ((World.begin env s).spend 1) "a" =
      failTask env "queue" "a" (stalledError env.clock) 0 .stall ((World.begin env s).spend 1) := by
    have hstore : ((World.begin env s).spend 1).store = s := rfl
    rw [failStalled, hstore, hlock, show s.task ("queue", "a") = some r from hrecord]
    simp [h.stalls]
  have hraised : (syncAll env "queue" (World.begin env s)).raised = some ⟨message, s⟩ := by
    rw [sweep_of_onlyLeased h.leased hclock, hfails]
    exact failTask_of_fault hfault rfl _ (by simp [stalledError, LuaValue.errorTag, stalledTag, canceledTag])
  rw [exec_eq]
  have hrun : ((Op.maintain "queue").run env (World.begin env s)).2.raised = some ⟨message, s⟩ := hraised
  rw [hrun]
  rfl

end

/-- A lease that runs out on a full history stays due: every maintenance call aborts before it changes anything. -/
theorem full_stays_stalled : ∃ calls e, engine.Run calls e ∧ (Member.lock "a").Due 200 "queue" e.store ∧
    ∀ env : Env, env.clock = 200 →
      exec env (.maintain "queue") e.store = .raised "CORRUPT_HISTORY invalid sequence" e.store := by
  obtain ⟨calls, e, r, hrun, _, _, hfilling, hfault⟩ := filled_run
  refine ⟨calls, e, hrun, ⟨⟨102, ?_, by norm_num⟩, fun l hl => ?_⟩, fun env hclock =>
    hfilling.maintain_aborts hfault (by omega)⟩
  · exact SortedSet.mem_entries_iff.mp (by rw [hfilling.leased.2.1]; exact List.mem_singleton_self _)
  · obtain rfl := Option.some.inj (hfilling.leased.1.symm.trans hl)
    norm_num

/-- A delayed task that is promoted when its time has come. -/
theorem run_upkeep_promoted : ∃ calls e c e', engine.Run calls e ∧ engine.step e c e' ∧
    (Member.delayed "a").Due 6 "mail" e.store ∧ HandledDuring "mail" e [c] e' (.delayed "a") := by
  obtain ⟨calls, e, reply, s, h, hstep, hplayed⟩ := @play_step
    [(.at 1, .createTask { CreateArgs.default "mail" "a" with delay := some 5 })] (.at 6) (.maintain "mail")
    (fun _ e _ s => decide ((e.store.lists "mail").scheduled.score "a" = some 6 ∧
      (s.lists "mail").scheduled.score "a" = none)) (by decide +kernel)
  obtain ⟨hbefore, hafter⟩ := of_decide_eq_true hplayed
  have hdue : (Member.delayed "a").Due 6 "mail" e.store := ⟨6, hbefore, le_rfl⟩
  have hgone : ¬ (Member.delayed "a").Due 6 "mail" s := fun ⟨t, ht, _⟩ => absurd (hafter.symm.trans ht) (by simp)
  refine ⟨calls, e, _, _, h, hstep, hdue, ?_⟩
  obtain ⟨enough, hdrains⟩ := (run_upkeep h "mail").1 6
  have hpath := System.Path.single hstep
  refine (hdrains _ _ hpath fun c hc => ?_).2.2 [] _ e _ rfl .nil hpath hdue hgone
  rw [List.mem_singleton.mp hc]
  exact ⟨rfl, rfl⟩

end EffectMQ
