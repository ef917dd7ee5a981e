import EffectMQ.Properties.FailureRouting
import EffectMQ.Properties.Settlement
import EffectMQ.Lifecycle.Timely
import EffectMQ.Lifecycle.Turns

/-!
# The order of the runs

Tasks run in the order in which they came to wait, and never before their time. The trail of a run lists the stores that
its steps have passed through, so that it tells for how long each id has been waiting.
-/

namespace EffectMQ

open Redis Transition

/-- The stores that some steps pass through, in front of the ones that came before; the newest comes first. -/
inductive StepTrail (env : Env) (P : EngineAction → Prop) (b : Busy) (past : List Store) : Busy → List Store → Prop
  | refl : StepTrail env P b past b past
  | tail {b' b'' : Busy} {s s' : Store} {older : List Store} {act : EngineAction}
      (h : StepTrail env P b past b' (s :: older)) (hstep : EngineStep env b' s act b'' s') (hact : P act) :
      StepTrail env P b past b'' (s' :: s :: older)

/-- The stores that a run has passed through: those of the sweep of an invocation, then those of its effect. -/
inductive Trail : List Call → Engine → List Store → Prop
  | start : Trail [] Engine.start [Store.empty]
  | call {calls : List Call} {e e' : Engine} {c : Call} {past swept after : List Store} (h : Trail calls e past)
      (hstep : engine.step e c e') (hsweep : StepTrail c.env EngineAction.IsSweep none past none
        (c.op.swept c.env e.store :: swept))
      (heffect : StepTrail c.env (c.op.Does (c.op.swept c.env e.store)) none (c.op.swept c.env e.store :: swept) none
        (e'.store :: after)) : Trail (calls ++ [c]) e' (e'.store :: after)

/-- For how many of the stores of a trail an id has been in line without a break. -/
def waited (queue id : String) (trail : List Store) : ℕ := tenure id (trail.map fun s => s.line queue)

/-- What a state of a run promises of a queue. -/
structure RunsInOrder (calls : List Call) (e : Engine) (queue : String) : Prop where
  /-- The run has a trail, and so has every sweep that may come next. -/
  traced : ∃ past, Trail calls e past
  swept : ∀ (env : Env) (op : Op) (past : List Store), e.clock ≤ env.clock → Trail calls e past →
    ∃ older, StepTrail env EngineAction.IsSweep none past none (op.swept env e.store :: older)
  /-- What is leased has waited longer than all that wait with it. -/
  longest : ∀ (env : Env) (leaseToken token id : String) (lockTimeout : Option ℚ) (task : Option TaskRecord) (e' : Engine)
    (past older : List Store), engine.step e ⟨env, .takeTask queue leaseToken lockTimeout, .leased token id task⟩ e' →
    Trail calls e past → StepTrail env EngineAction.IsSweep none past none
      ((Op.takeTask queue leaseToken lockTimeout).swept env e.store :: older) →
    id ∈ ((Op.takeTask queue leaseToken lockTimeout).swept env e.store).line queue ∧
      ∀ other ∈ ((Op.takeTask queue leaseToken lockTimeout).swept env e.store).line queue, other ≠ id →
        waited queue other ((Op.takeTask queue leaseToken lockTimeout).swept env e.store :: older) <
          waited queue id ((Op.takeTask queue leaseToken lockTimeout).swept env e.store :: older)
  /-- Nothing is leased only when nobody waits. -/
  served : ∀ (env : Env) (leaseToken : String) (lockTimeout : Option ℚ) (e' : Engine),
    engine.step e ⟨env, .takeTask queue leaseToken lockTimeout, .nil⟩ e' →
    ((Op.takeTask queue leaseToken lockTimeout).swept env e.store).line queue = []
  /-- Those who wait keep their order, behind them come the newcomers; only an id that is leased or removed leaves. -/
  kept : ∀ c e', engine.step e c e' → e.store.line queue <+: e'.store.line queue ∨
    ∃ id, c.op.Serves queue id c.reply ∧ (e.store.line queue).filter (fun x => x ≠ id) <+: e'.store.line queue
  /-- A generation is not leased before the double nearest to the end of its delay, so before no whole millisecond up to
  that end. -/
  delayed : ∀ (c₁ c₂ : Call) (calls' : List Call) (e₁ e₂ e₃ : Engine) (a : CreateArgs) (cursor : StreamId)
    (created leased : TaskRecord) (leaseToken token : String) (lockTimeout : Option ℚ), engine.step e c₁ e₁ →
    c₁.op = .createTask a → c₁.reply = .created cursor created → engine.Path e₁ calls' e₂ → engine.step e₂ c₂ e₃ →
    c₂.op = .takeTask a.queue leaseToken lockTimeout → c₂.reply = .leased token a.id (some leased) →
    leased.generation = e₁.store.generations (a.queue, a.id) →
    (0 < a.delay.getD 0 → double (c₁.env.now + a.delay.getD 0) ≤ c₂.env.now) ∧
      ∀ n : ℕ, n < 2 ^ 53 → (n : ℚ) ≤ c₁.env.now + a.delay.getD 0 → (n : ℚ) ≤ c₂.env.now
  /-- A failed attempt is not followed by another one before its retry time. -/
  retried : ∀ (c₁ c₂ : Call) (calls' : List Call) (e₁ e₂ e₃ : Engine) (id leaseToken token token' : String)
    (error : LuaValue) (retryAt : ℚ) (leased : TaskRecord) (lockTimeout : Option ℚ), engine.step e c₁ e₁ →
    c₁.op = .writeError queue leaseToken id error (some retryAt) → c₁.reply = .nil → engine.Path e₁ calls' e₂ →
    engine.step e₂ c₂ e₃ → c₂.op = .takeTask queue token lockTimeout → c₂.reply = .leased token' id (some leased) →
    leased.generation = (c₁.op.swept c₁.env e.store).generation queue id → retryAt ≤ c₂.env.now
  /-- The delayed tasks that a sweep finds due come to wait in the order of their times, ties in the order of the ids. -/
  promoted : ∀ (env : Env) (x y : String) (dueX dueY : ℚ), e.clock ≤ env.clock →
    (e.store.lists queue).scheduled.score x = some dueX → (e.store.lists queue).scheduled.score y = some dueY →
    Before (x, dueX) (y, dueY) → x ∈ (sweep env queue e.store).line queue → y ∈ (sweep env queue e.store).line queue →
    [x, y].Sublist ((sweep env queue e.store).line queue)

variable {env : Env} {calls : List Call} {e e' : Engine} {queue id : String}

/-! ### Trails -/

theorem StepTrail.of_path {P : EngineAction → Prop} {b b' : Busy} {s s' : Store} (h : EnginePath env P b s b' s')
    (rest : List Store) : ∃ older, StepTrail env P b (s :: rest) b' (s' :: older) := by
  induction h with
  | refl => exact ⟨rest, .refl⟩
  | tail _ hstep hact ih =>
    obtain ⟨older, htrail⟩ := ih
    exact ⟨_, htrail.tail hstep hact⟩

/-- Along a trail a line has a history. -/
theorem StepTrail.lines {P : EngineAction → Prop} {b b' : Busy} {past past' : List Store}
    (h : StepTrail env P b past b' past') (hs : ∀ s ∈ past.head?, Sane env.now s)
    (hlines : LineHistory (past.map fun s => s.line queue)) :
    (∀ s ∈ past'.head?, Sane env.now s) ∧ LineHistory (past'.map fun s => s.line queue) := by
  induction h with
  | refl => exact ⟨hs, hlines⟩
  | @tail b' b'' s s' older act _ hstep _ ih =>
    have hsane : Sane env.now s := ih.1 s rfl
    refine ⟨fun t ht => ?_, ih.2.step (hstep.lineStep hsane queue)⟩
    obtain rfl := Option.some.inj ht
    exact hstep.sane hsane

structure Trail.Traces (calls : List Call) (e : Engine) (past : List Store) (queue : String) : Prop where
  run : engine.Run calls e
  head : past.head? = some e.store
  lines : LineHistory (past.map fun s => s.line queue)

theorem Trail.traces {past : List Store} (h : Trail calls e past) (queue : String) :
    Trail.Traces calls e past queue := by
  induction h with
  | start => exact ⟨.nil rfl, rfl, .start⟩
  | call htrail hstep hsweep heffect ih =>
    have hsane : ∀ s ∈ List.head? _, Sane _ s := fun s hs => by
      obtain rfl := Option.some.inj (ih.head.symm.trans hs)
      exact (run_sane ih.run).mono (Nat.cast_le.mpr hstep.1)
    have hswept := hsweep.lines hsane ih.lines
    exact ⟨ih.run.snoc hstep, rfl, (heffect.lines hswept.1 hswept.2).2⟩

theorem trail_sweep {past : List Store} (h : Trail calls e past) (hclock : e.clock ≤ env.clock) (op : Op) :
    ∃ older, StepTrail env EngineAction.IsSweep none past none (op.swept env e.store :: older) := by
  have htraces := h.traces ""
  obtain ⟨rest, rfl⟩ := List.head?_eq_some_iff.mp htraces.head
  exact StepTrail.of_path (swept_path ((run_sane htraces.run).mono (Nat.cast_le.mpr hclock)) op) rest

theorem run_trail (h : engine.Run calls e) : ∃ past, Trail calls e past := by
  refine h.induction (P := fun calls e => ∃ past, Trail calls e past) ?_ ?_
  · rintro _ rfl
    exact ⟨_, .start⟩
  · rintro calls e c e' hrun ⟨past, htrail⟩ hstep
    have hs : Sane c.env.now e.store := (run_sane hrun).mono (Nat.cast_le.mpr hstep.1)
    obtain ⟨older, hsweep⟩ := trail_sweep htrail hstep.1 c.op
    obtain ⟨after, heffect⟩ := StepTrail.of_path (exec_effect hs hstep.2.2).path older
    exact ⟨_, htrail.call hstep hsweep heffect⟩

/-! ### Leases -/

/-- What a lease replies with was at the front of the line, and past its times. -/
theorem leased_spec (h : engine.Run calls e) {leaseToken token : String} {lockTimeout : Option ℚ}
    {task : Option TaskRecord}
    (hstep : engine.step e ⟨env, .takeTask queue leaseToken lockTimeout, .leased token id task⟩ e') :
    (((Op.takeTask queue leaseToken lockTimeout).swept env e.store).line queue).head? = some id ∧
      ∃ r r', ((Op.takeTask queue leaseToken lockTimeout).swept env e.store).task (queue, id) = some r ∧
        task = some r' ∧ r'.generation = r.generation ∧
        ∀ t, (((Op.takeTask queue leaseToken lockTimeout).swept env e.store).view (queue, id)).NotBefore r t → t ≤ env.now := by
  have hs : Sane env.now e.store := (run_sane h).mono (Nat.cast_le.mpr hstep.1)
  have hpath := swept_path hs (.takeTask queue leaseToken lockTimeout)
  have hm := hpath.sane hs
  have htimely := hpath.preserves (I := fun _ s => (s.view (queue, id)).Timely env.now) hs
    ((run_timely h (queue, id)).mono (Nat.cast_le.mpr hstep.1)) fun _ _ _ _ _ hs htimely hstep _ =>
      hstep.timely hs htimely
  have heffect := exec_effect hs hstep.2.2
  generalize hreply : Reply.leased token id task = reply at heffect
  generalize (Op.takeTask queue leaseToken lockTimeout).swept env e.store = m at heffect hm htimely ⊢
  generalize e'.store = s' at heffect
  cases heffect with
  | refused op _ hfault _ =>
    subst hreply
    exact absurd hfault not_false
  | answered op _ hfence hquiet => exact absurd (hquiet.leased _ _ _ rfl) (by simp [← hreply])
  | scheduled op _ hop _ _ => rcases hop with ⟨_, _, _, heq⟩ | ⟨_, _, _, _, heq⟩ <;> exact absurd heq (by simp)
  | @leased _ _ id' lockTimeout task' _ hhead htask hlease =>
    obtain ⟨rfl, rfl, rfl⟩ := Reply.leased.inj hreply
    have htaken := hlease.view_task.1
    obtain ⟨⟨r, hr, hplace⟩, _⟩ := htaken.1
    obtain ⟨history, hrecord⟩ := (htaken.accounted (hm.views (queue, id)) hr).record
    exact ⟨hhead, r, _, hr, htask.trans hrecord, rfl, fun t ht => htimely.passed r t hr ht (Or.inl hplace)⟩

/-- A time that bounds a generation at some state bounds every later lease of it. -/
theorem leased_after (h : engine.Run calls e) {calls' : List Call} {e₂ e₃ : Engine} (h' : engine.Path e calls' e₂)
    {c : Call} {leaseToken token : String} {lockTimeout : Option ℚ} {leased : TaskRecord} (hstep : engine.step e₂ c e₃)
    (hop : c.op = .takeTask queue leaseToken lockTimeout) (hreply : c.reply = .leased token id (some leased)) {t : ℚ}
    (ht : e.store.NotBefore ⟨queue, id, leased.generation⟩ t) : t ≤ c.env.now := by
  obtain ⟨cenv, op, reply⟩ := c
  subst hop hreply
  obtain ⟨_, r, r', hr, htask, hgeneration, hpassed⟩ := leased_spec (h.extend h') hstep
  obtain rfl := Option.some.inj htask
  have hs : Sane cenv.now e₂.store := (run_sane (h.extend h')).mono (Nat.cast_le.mpr hstep.1)
  have hbound := (swept_path hs (.takeTask queue leaseToken lockTimeout)).notBefore hs (path_notBefore h h' ht)
  exact hpassed t (hbound.2 r (current_eq_some_iff.mpr ⟨hr, hgeneration.symm⟩))

/-- The end of the delay of an offer. -/
def CreateArgs.readyAt (env : Env) (a : CreateArgs) : ℚ := (newRecord env a 0).readyAt

/-- A created generation is bounded by the end of its delay. -/
theorem Effect.created_notBefore {m s : Store} (hs : Sane env.now m) {a : CreateArgs} {cursor : StreamId}
    {task : TaskRecord} (h : Effect env m (.createTask a) (.created cursor task) s) :
    s.NotBefore ⟨a.queue, a.id, s.generations (a.queue, a.id)⟩ (a.readyAt env) := by
  have hcreate : ∀ {t : Store} {replacedTask : Option TaskRecord} {holder : Option TaskIdentity}, Sane env.now t →
      EngineStep env none t (.create a replacedTask holder) none s →
      s.NotBefore ⟨a.queue, a.id, s.generations (a.queue, a.id)⟩ (a.readyAt env) := by
    intro t replacedTask holder ht hstep
    rcases hstep.view (a.queue, a.id) with ⟨hon, _⟩ | ⟨act, hon, htask⟩
    · exact absurd hon (by simp [EngineAction.on])
    · obtain rfl : TaskAction.create a replacedTask = act := by simpa [EngineAction.on] using hon
      obtain ⟨⟨history, hrecord⟩, _, _⟩ := htask.created
      refine ⟨le_refl _, fun r hr => Or.inl ?_⟩
      obtain rfl := Option.some.inj ((current_eq_some_iff.mp hr).1.symm.trans hrecord)
      rfl
  generalize hreply : Reply.created cursor task = reply at h
  cases h with
  | refused op _ hfault _ =>
    subst hreply
    exact absurd hfault not_false
  | answered op _ _ hquiet => exact absurd rfl (hquiet.created a)
  | scheduled op _ hop _ _ => rcases hop with ⟨_, _, _, heq⟩ | ⟨_, _, _, _, heq⟩ <;> exact absurd heq (by simp)
  | offered hvalid hoffered =>
    cases hoffered with
    | refused | existing | held | disposed => exact absurd hreply (by simp)
    | created _ hstep => exact hcreate hs hstep
    | replaced _ _ hdispose hstep => exact hcreate (hdispose.sane hs) hstep

/-- No whole millisecond of the delay is lost. -/
theorem CreateArgs.le_readyAt {a : CreateArgs} {n : ℕ} (hn : n < 2 ^ 53) (hle : (n : ℚ) ≤ env.now + a.delay.getD 0) :
    (n : ℚ) ≤ a.readyAt env := by
  unfold CreateArgs.readyAt TaskRecord.readyAt
  split
  · exact natCast_le_double hn hle
  · next hdelay =>
    have hnone : a.delay.getD 0 ≤ 0 := not_lt.mp hdelay
    exact hle.trans (add_le_of_nonpos_right hnone)

/-- A reported generation is bounded by its retry time, or it is over. -/
theorem Effect.failed_notBefore {m s : Store} (hs : Sane env.now m) {leaseToken : String} {error : LuaValue} {retryAt : ℚ}
    (h : Effect env m (.writeError queue leaseToken id error (some retryAt)) .nil s) :
    (s.view (queue, id)).Over (m.generation queue id) ∨ retryAt < 0 ∨
      s.NotBefore ⟨queue, id, m.generation queue id⟩ retryAt := by
  obtain ⟨r, a, b, t, hfails⟩ := h.failsInto hs
  have hgeneration : m.generation queue id = r.generation :=
    congrArg TaskIdentity.generation (identity_of_record hfails.running.record)
  rw [hgeneration]
  have hcounted : r.generation ≤ s.generations (queue, id) :=
    (h.path.advances hs (x := ⟨queue, id, r.generation⟩) ((hs.views (queue, id)).generation r hfails.running.record).1.le).1
  by_cases hwill : willRetry error (retryTime retryAt) = true
  · refine Or.inr ?_
    by_cases hneg : retryAt < 0
    · exact Or.inl hneg
    · refine Or.inr ⟨hcounted, fun r' hr' => Or.inr ?_⟩
      obtain ⟨rest, _, hlog⟩ := hfails.event
      refine ⟨r.stamp id (r.failureBody error (Cause.reported leaseToken).kind (!willRetry error (retryTime retryAt))
        (retryTime retryAt)), ?_, (current_eq_some_iff.mp hr').2.symm, ?_⟩
      · rw [TaskIdentity.key, hlog]
        simp
      · refine ⟨error, r.onFailurePolicy, (Cause.reported leaseToken).kind, r.attempt, ?_⟩
        change r.failureBody error (Cause.reported leaseToken).kind (!willRetry error (retryTime retryAt))
          (retryTime retryAt) = _
        rw [hwill, retryTime, if_neg hneg]
        rfl
  · refine Or.inl ⟨hcounted, fun r' hr' _ => ?_⟩
    rw [(hfails.record hr').2.1, hfails.settles, if_neg hwill]
    rfl

/-- In every run and for every queue, tasks run in the order in which they came to wait, and never early. -/
theorem run_inOrder (h : engine.Run calls e) (queue : String) : RunsInOrder calls e queue where
  traced := run_trail h
  swept env op past hclock htrail := trail_sweep htrail hclock op
  longest env leaseToken token id lockTimeout task e' past older hstep htrail hsweep := by
    obtain ⟨hhead, _⟩ := leased_spec h hstep
    have htraces := htrail.traces queue
    have hlines := (hsweep.lines (fun s hs => by
      obtain rfl := Option.some.inj (htraces.head.symm.trans hs)
      exact (run_sane h).mono (Nat.cast_le.mpr hstep.1)) htraces.lines).2
    exact ⟨List.mem_of_head? hhead, fun other hmem hne => hlines.front hhead hmem hne⟩
  served env leaseToken lockTimeout e' hstep := by
    have hs : Sane env.now e.store := (run_sane h).mono (Nat.cast_le.mpr hstep.1)
    obtain ⟨hreply, _⟩ := exec_replied hstep.2.2
    simp only [Op.run, takeTask] at hreply
    by_cases hvalid : isPositiveSafeInteger lockTimeout = true
    · obtain ⟨ttl, rfl, hpos⟩ := isPositiveSafeInteger_pos hvalid
      rw [if_neg (by simp [hvalid]), Option.getD_some] at hreply
      rw [Op.swept, if_pos hvalid]
      rcases takeSwept_spec ((sweep_path hs queue).sane hs : Sane env.now (syncAll env queue (World.begin env e.store)).store)
        leaseToken hpos with ⟨hempty, _⟩ | ⟨id, task, _, hleased, _⟩
      · exact hempty
      · exact absurd (hreply.symm.trans hleased) (by simp)
    · rw [if_pos (Bool.eq_false_of_not_eq_true hvalid)] at hreply
      exact absurd hreply (by simp)
  kept c e' hstep := exec_line ((run_sane h).mono (Nat.cast_le.mpr hstep.1)) hstep.2.2 queue
  delayed c₁ c₂ calls' e₁ e₂ e₃ a cursor created leased leaseToken token lockTimeout hstep₁ hop₁ hreply₁ hpath hstep₂ hop₂
      hreply₂ hgeneration := by
    have hs : Sane c₁.env.now e.store := (run_sane h).mono (Nat.cast_le.mpr hstep₁.1)
    have heffect := exec_effect hs hstep₁.2.2
    have hm := (swept_path hs c₁.op).sane hs
    rw [hop₁, hreply₁] at heffect
    rw [hop₁] at hm
    have hbound := heffect.created_notBefore hm
    rw [← hgeneration] at hbound
    have hready := leased_after (h.snoc hstep₁) hpath hstep₂ hop₂ hreply₂ hbound
    refine ⟨fun hdelay => ?_, fun n hn hle => (CreateArgs.le_readyAt hn hle).trans hready⟩
    rwa [CreateArgs.readyAt, TaskRecord.readyAt, if_pos (show 0 < (newRecord c₁.env a 0).delay from hdelay)] at hready
  retried c₁ c₂ calls' e₁ e₂ e₃ id leaseToken token token' error retryAt leased lockTimeout hstep₁ hop₁ hreply₁ hpath hstep₂
      hop₂ hreply₂ hgeneration := by
    have hs : Sane c₁.env.now e.store := (run_sane h).mono (Nat.cast_le.mpr hstep₁.1)
    have heffect := exec_effect hs hstep₁.2.2
    have hm := (swept_path hs c₁.op).sane hs
    rw [hop₁, hreply₁] at heffect
    rw [hop₁] at hm hgeneration
    rcases heffect.failed_notBefore hm with hover | hneg | hbound
    · obtain ⟨r, hr, hne⟩ := path_not_taken (h.snoc hstep₁) (hpath.snoc hstep₂) hover c₂
        (List.mem_append_right _ (List.mem_singleton_self c₂)) token lockTimeout token' _ hop₂ hreply₂
      obtain rfl := Option.some.inj hr
      exact absurd hgeneration hne
    · exact hneg.le.trans (Nat.cast_nonneg _)
    · rw [← hgeneration] at hbound
      exact leased_after (h.snoc hstep₁) hpath hstep₂ hop₂ hreply₂ hbound
  promoted env x y dueX dueY hclock hx hy hbefore hx' hy' :=
    sweep_promotes ((run_sane h).mono (Nat.cast_le.mpr hclock)) hx hy hbefore hx' hy'

/-- The record that a lease replies with. -/
def Reply.leasedRecord : Reply → Option TaskRecord
  | .leased _ _ r => r
  | _ => none

/-- The sum of the clock and a delay with a fraction of a millisecond is rounded down: the task is leased before its delay
is over. -/
theorem fraction_leased_early : ∃ calls e e' reply task, engine.Run calls e ∧
    engine.step e ⟨.at 1700000000002, .takeTask "mail" "token" (some 1000), reply⟩ e' ∧ reply.leasedRecord = some task ∧
    task.createdAt = 1700000000001 ∧ task.delay = 1 + 1 / 16384 ∧ (1700000000002 : ℚ) < task.createdAt + task.delay := by
  obtain ⟨calls, e, reply, s, hrun, hstep, hreply⟩ := @play_step
    [(.at 1700000000001, .createTask { CreateArgs.default "mail" "a" with delay := some (1 + 1 / 16384) })]
    (.at 1700000000002) (.takeTask "mail" "token" (some 1000))
    (fun _ _ reply _ => decide (reply.leasedRecord.map (fun task => (task.createdAt, task.delay)) =
      some (1700000000001, 1 + 1 / 16384))) (by decide +kernel)
  obtain ⟨task, hleased, hpair⟩ := Option.map_eq_some_iff.mp (of_decide_eq_true hreply)
  obtain ⟨hcreated, hdelay⟩ := Prod.mk.inj hpair
  refine ⟨calls, e, _, reply, task, hrun, hstep, hleased, hcreated, hdelay, ?_⟩
  rw [hcreated, hdelay]
  norm_num

/-- The order of a run in which the first of two delayed tasks was leased. -/
theorem run_inOrder_delayed : ∃ calls e, engine.Run calls e ∧ e.store.line "mail" = ["b"] ∧ RunsInOrder calls e "mail" := by
  obtain ⟨calls, e, h, hplayed⟩ := @play_run
    [(.at 1, .createTask { CreateArgs.default "mail" "b" with delay := some 20 }),
      (.at 2, .createTask { CreateArgs.default "mail" "a" with delay := some 10 }),
      (.at 30, .takeTask "mail" "token" (some 1000))]
    (fun _ e => e.store.line "mail" = ["b"]) (by decide +kernel)
  exact ⟨calls, e, h, of_decide_eq_true hplayed, run_inOrder h "mail"⟩

end EffectMQ
