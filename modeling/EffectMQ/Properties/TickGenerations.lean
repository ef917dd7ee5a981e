import EffectMQ.Properties.Generations
import EffectMQ.Properties.RetriedOffer
import EffectMQ.Scheduler.Scenario

/-!
# One generation for each tick

The offer of a tick finds an earlier one by its record alone, and the cursor moves later, in a step of its own. As long as
no record of a tick goes while the tick can still be offered, each tick creates one generation; the default policies dispose
of the record as soon as the task settles, and then a run that read the cursor before creates the task again.
-/

namespace EffectMQ

open Redis Transition

/-- An invocation disposes of a generation by itself, on the way to its reply. -/
def Disposal (e : Engine) (c : Call) (e' : Engine) (x : TaskIdentity) : Prop :=
  ∃ b s act b' s', e.Performs c.env c.op b s act b' s' ∧
    EnginePath c.env (c.op.Allows c.env e.store) b' s' none e'.store ∧ SelfDisposal c.env x s act

section

variable {calls : List Call} {e e' : Engine} {c : Call} {x : TaskIdentity} {b : Busy} {s : Store}

/-- A record is there at every moment of an invocation that neither disposes of it nor is asked to. -/
theorem current_within (hrun : engine.Run calls e) (hstep : engine.step e c e') (hop : ¬ c.op.Disposes x.queue x.id)
    (hforce : c.op ≠ .forceRemoveTask x.queue x.id) (hquiet : ¬ Disposal e c e' x) (hcurrent : (e.store.current x).isSome)
    (hpath : EnginePath c.env (c.op.Allows c.env e.store) none e.store b s)
    (hrest : EnginePath c.env (c.op.Allows c.env e.store) b s none e'.store) : (s.current x).isSome := by
  refine hpath.preserves_between (I := fun _ s => (s.current x).isSome) hcurrent ?_
  intro b₁ s₁ act b₂ s₂ hpath₁ hsome hstep₁ hact hrest₁
  have hperforms : e.Performs c.env c.op b₁ s₁ act b₂ s₂ := ⟨hstep.1, hpath₁, hstep₁, hact⟩
  obtain ⟨r, hr⟩ := Option.isSome_iff_exists.mp hsome
  cases hgone : s₂.current x with
  | some r' => rfl
  | none =>
    rcases hstep₁.disposal_of_lost (hperforms.sane hrun) hr hgone with hdisposal | rfl | ⟨a, hon, ha⟩
    · exact absurd ⟨b₁, s₁, act, b₂, s₂, hperforms, hrest₁.trans hrest, hdisposal⟩ hquiet
    · exact absurd hact.of_forget.1 hforce
    · refine absurd ?_ hop
      rcases hact.of_discard hon ha with ⟨_, hremove⟩ | ⟨_, args, hcreate, hkey, hmode⟩
      · exact Or.inl hremove
      · exact Or.inr ⟨args, hcreate, (Prod.mk.inj hkey).1, (Prod.mk.inj hkey).2, hmode⟩

/-- A generation that an invocation disposes of is not there when it replies. -/
theorem Disposal.lost (hrun : engine.Run calls e) (h : Disposal e c e' x) : e'.store.current x = none := by
  obtain ⟨b, s, act, b', s', hperforms, hrest, hdisposal⟩ := h
  have hs := hperforms.sane hrun
  obtain ⟨r, hr⟩ := Option.isSome_iff_exists.mp hdisposal.current
  have hgiven : x.generation ≤ s'.generations x.key := (hs.generation_le hr).le.trans (hperforms.step.counter_le x.key)
  have hsince := hrest.since (hperforms.step.sane hs) hgiven
  by_contra hne
  have hsome := hsince.existed (Option.isSome_iff_ne_none.mpr hne)
  rw [hdisposal.lost hperforms.step hs] at hsome
  exact absurd hsome (by simp)

/-- A generation that was given before an invocation disposes of it was stored before. -/
theorem Disposal.stored (hrun : engine.Run calls e) (h : Disposal e c e' x)
    (hgiven : x.generation ≤ e.store.generations x.key) : (e.store.current x).isSome := by
  obtain ⟨b, s, act, b', s', hperforms, _, hdisposal⟩ := h
  have hs : Sane c.env.now e.store := (run_sane hrun).mono (Nat.cast_le.mpr hperforms.clock)
  exact (hperforms.path.since hs hgiven).existed hdisposal.current

/-- A generation that an invocation disposes of has been given when it replies. -/
theorem Disposal.given (hrun : engine.Run calls e) (h : Disposal e c e' x) : x.generation ≤ e'.store.generations x.key := by
  obtain ⟨b, s, act, b', s', hperforms, hrest, hdisposal⟩ := h
  obtain ⟨r, hr⟩ := Option.isSome_iff_exists.mp hdisposal.current
  exact ((hperforms.sane hrun).generation_le hr).le.trans
    ((hperforms.step.counter_le x.key).trans (hrest.counter_le x.key))

theorem Disposal.positive (hrun : engine.Run calls e) (h : Disposal e c e' x) : 0 < x.generation := by
  obtain ⟨b, s, act, b', s', hperforms, _, hdisposal⟩ := h
  obtain ⟨r, hr⟩ := Option.isSome_iff_exists.mp hdisposal.current
  obtain ⟨hrecord, hgeneration⟩ := current_eq_some_iff.mp hr
  obtain ⟨hcounter, hpositive⟩ := ((hperforms.sane hrun).views x.key).generation r hrecord
  rw [← hgeneration, hcounter]
  exact hpositive

theorem creates_eq_some {k : TaskKey} {g : ℕ} (h : c.creates k = some g) :
    ∃ a cursor task, c.op = .createTask a ∧ (a.queue, a.id) = k ∧ c.reply = .created cursor task ∧ task.generation = g := by
  unfold Call.creates at h
  split at h
  · next a cursor task hop hreply =>
    obtain ⟨hkey, hg⟩ := Option.ite_none_right_eq_some.mp h
    exact ⟨a, cursor, task, hop, hkey, hreply, Option.some.inj hg⟩
  · exact absurd h (by simp)

/-- The invocation that creates the next generation of an id leaves it stored. -/
theorem current_of_creates (hrun : engine.Run calls e) (hstep : engine.step e c e') {k : TaskKey} {g : ℕ}
    (h : c.creates k = some g) : (e'.store.current ⟨k.1, k.2, e.store.generations k + 1⟩).isSome := by
  obtain ⟨a, cursor, task, hop, rfl, hreply, _⟩ := creates_eq_some h
  obtain ⟨hnext, -, hbegins⟩ := created_begins hrun hstep hop hreply
  obtain ⟨r, hr, _⟩ := hbegins.record
  rw [hnext] at hr
  rw [hr]
  rfl

/-- An offer that returns an existing task creates one only where its sweep left no record. -/
theorem created_fresh (hrun : engine.Run calls e) (hstep : engine.step e c e') {a : CreateArgs}
    (hop : c.op = .createTask a) (hmode : a.onDuplicate = .returnExisting) {cursor : StreamId} {task : TaskRecord}
    (hreply : c.reply = .created cursor task) : (c.op.swept c.env e.store).task (a.queue, a.id) = none := by
  have hs : Sane c.env.now e.store := (run_sane hrun).mono (Nat.cast_le.mpr hstep.1)
  have heffect := exec_effect hs hstep.2.2
  generalize c.op.swept c.env e.store = m at heffect
  generalize e'.store = s at heffect
  rw [hop, hreply] at heffect
  cases heffect with
  | refused _ _ hfault => exact hfault.elim
  | answered _ _ _ hquiet => exact absurd rfl (hquiet.created a)
  | scheduled _ _ hop => exact absurd hop (by simp)
  | offered hvalid h =>
    cases h with
    | created hr => exact hr
    | replaced _ hmode' => exact absurd (hmode.symm.trans hmode') (by simp)

end

namespace Scheduler

variable {P : Type} (client : Client) (config : SchedulerConfig P)

/-- The task of a tick. -/
def tickKey (t : ℤ) : TaskKey := (client.withPrefix config.queue, tickId config.name t)

/-- The identity of a generation of a tick's task. -/
def tickTask (t : ℤ) (generation : ℕ) : TaskIdentity := ⟨(tickKey client config t).1, (tickKey client config t).2, generation⟩

/-- The operations of workers, of producers of other tasks and of maintenance. -/
def LeavesTicks (c : Call) : Prop :=
  match c.op with
  | .createTask a => ∀ t, (a.queue, a.id) ≠ tickKey client config t
  | .removeTask _ _ | .forceRemoveTask _ _ => False
  | op => op.namesSchedule (scheduleKey client config) = false

/-- Runs of a schedule, beside workers, other producers and maintenance. -/
def tickRuns : System (SchedulerParties Engine) (Move (Option ℤ × ℤ) Call) :=
  schedulers client config engine (LeavesTicks client config)

/-- The generation numbers that were created for a tick. -/
def tickCreations (t : ℤ) (moves : List (Move (Option ℤ × ℤ) Call)) : List ℕ :=
  (moves.filterMap Move.action).filterMap (Call.creates (tickKey client config t))

/-- A run that has read the cursor and has a tick still to offer. -/
def HasAhead (t : ℤ) (party : SchedulerParty) : Prop :=
  party.log ≠ [] ∧ ∃ firstDue op, tickRequest client config firstDue t = some op ∧ party.rest.MayAsk op

/-- A tick can still be offered: the cursor has not passed it, or a run has it ahead. -/
def MayOffer (s : SchedulerParties Engine) (t : ℤ) : Prop :=
  (∀ f, s.shared.store.schedule (scheduleKey client config) = some f → f ≤ t) ∨
    ∃ i party, s.party i = some party ∧ HasAhead client config t party

/-- A move disposes of no record of a tick that can still be offered. -/
def Undisposed (s : SchedulerParties Engine) (move : Move (Option ℤ × ℤ) Call) (s' : SchedulerParties Engine) : Prop :=
  ∀ c, move.action = some c → ∀ t, MayOffer client config s t → ∀ generation,
    ¬ Disposal s.shared c s'.shared (tickTask client config t generation)

variable {client config} {tick : ℤ → Prop} {s s' : SchedulerParties Engine} {move : Move (Option ℤ × ℤ) Call}
  {moves : List (Move (Option ℤ × ℤ) Call)} {t : ℤ} {op : Op}

theorem tickRequest_spec {firstDue : ℤ} (h : tickRequest client config firstDue t = some op) :
    ∃ a, op = .createTask a ∧ (a.queue, a.id) = tickKey client config t ∧ a.onDuplicate = .returnExisting := by
  obtain ⟨encoded, _, rfl⟩ := Option.map_eq_some_iff.mp h
  exact ⟨_, rfl, rfl, rfl⟩

theorem tickKey_injective : Function.Injective (tickKey client config) := fun _ _ h =>
  tickId_injective config.name (Prod.mk.inj h).2

/-- One request offers one tick. -/
theorem tickRequest_inj {firstDue firstDue' t' : ℤ} (h : tickRequest client config firstDue t = some op)
    (h' : tickRequest client config firstDue' t' = some op) : t = t' := by
  obtain ⟨a, rfl, hkey, _⟩ := tickRequest_spec h
  obtain ⟨a', heq, hkey', _⟩ := tickRequest_spec h'
  obtain rfl := Op.createTask.inj heq
  exact tickKey_injective (hkey.symm.trans hkey')

theorem leavesTicks_schedule {c : Call} (h : LeavesTicks client config c) :
    c.op.namesSchedule (scheduleKey client config) = false := by
  unfold LeavesTicks at h
  split at h
  · next heq =>
    rw [heq]
    rfl
  · exact h.elim
  · exact h.elim
  · exact h

theorem tickRuns_step (hrun : (tickRuns client config).Run moves s) (hstep : (tickRuns client config).step s move s') :
    (s'.shared.store.schedule (scheduleKey client config) = s.shared.store.schedule (scheduleKey client config) ∧
        consumed move = none) ∨
      (s.shared.store.schedule (scheduleKey client config) = none ∧ consumed move = none ∧
        ∃ o, s'.shared.store.schedule (scheduleKey client config) =
          some (config.startAt.getD (config.cron.next o))) ∨
      ∃ i c party firstDue, move = .call i c ∧ s.party i = some party ∧ Advances client config party c firstDue ∧
        s.shared.store.schedule (scheduleKey client config) = some firstDue ∧
        s'.shared.store.schedule (scheduleKey client config) = some (config.cron.next (observedAt party.start)) :=
  @cursor_step P Engine client config engine Engine.store _ s s' move moves (fun h => h.2.2)
    (fun _ h => leavesTicks_schedule h) hrun hstep

/-- A cursor that has passed a tick has passed it for good. -/
theorem cursor_le (hrun : (tickRuns client config).Run moves s) (hstep : (tickRuns client config).step s move s')
    (h : ∀ f, s'.shared.store.schedule (scheduleKey client config) = some f → f ≤ t) :
    ∀ f, s.shared.store.schedule (scheduleKey client config) = some f → f ≤ t := by
  intro f hf
  obtain ⟨hsame, _⟩ | ⟨hnone, _⟩ | ⟨i, c, party, firstDue, _, _, hadvances, hcursor, hset⟩ := tickRuns_step hrun hstep
  · exact h f (hsame.trans hf)
  · exact absurd (hnone.symm.trans hf) (by simp)
  · obtain rfl := Option.some.inj (hcursor.symm.trans hf)
    exact hadvances.later.le.trans (h _ hset)

/-- The tick that a run is about to offer is ahead of it, from when it read the cursor. -/
theorem firstDue_le (hcron : config.cron.Walks tick) {start : Option ℤ × ℤ} {l : List (Op × Reply)}
    {rest : Process Op Reply (Except SchedulerFailure ℤ)} {firstDue firstDue' : ℤ}
    (hafter : (materializeDue client config start.1 start.2).After
      ((readRequest client config (observedAt start), .schedule firstDue) :: l) rest)
    (hrequest : tickRequest client config firstDue' t = some op) (hask : rest.MayAsk op) : firstDue ≤ t := by
  obtain ⟨l', next, hnext⟩ := hask
  obtain ⟨-, hasks⟩ := materializeDue_asks (hafter.append hnext)
  obtain ⟨hnil, -⟩ | ⟨_, offers, hlog, hdue, hrest⟩ := materializeAt_asks hasks
  · exact absurd hnil (by simp)
  · obtain ⟨hreply, -⟩ := List.cons.inj hlog
    obtain rfl := Reply.schedule.inj (Prod.mk.inj hreply).2
    obtain ⟨a, rfl, _, _⟩ := tickRequest_spec hrequest
    obtain ⟨offered, t', rest', hselect, _, htick⟩ | ⟨_, hmove⟩ := hrest
    · obtain rfl := tickRequest_inj hrequest htick
      have hmem : t ∈ selectTicks config.cron config.missed firstDue (observedAt start) := by
        rw [observedAt, hselect]
        simp
      exact (mem_selectTicks hcron hdue hmem).1
    · exact absurd hmove (by simp [moveRequest])

/-- A run that has read the cursor has nothing ahead of it that the cursor had passed. -/
theorem mayOffer_of_call (hcron : config.cron.Walks tick) (hrun : (tickRuns client config).Run moves s) {i : ℕ} {c : Call}
    {start : Option ℤ × ℤ} {log : List (Op × Reply)} {next : Reply → Process Op Reply (Except SchedulerFailure ℤ)}
    (hcall : engine.step s.shared c s'.shared) (hi : s.party i = some ⟨start, log, .ask c.op next⟩)
    (h : HasAhead client config t ⟨start, log ++ [(c.op, c.reply)], next c.reply⟩) : MayOffer client config s t := by
  obtain ⟨-, firstDue, op, hrequest, hask⟩ := h
  have hafter := party_after hrun hi
  by_cases hlog : log = []
  · -- the run has just read the cursor
    subst hlog
    refine Or.inl fun f hf => ?_
    obtain ⟨-, hasks⟩ := materializeDue_asks hafter
    obtain ⟨-, hop⟩ | ⟨_, _, hlog, _⟩ := materializeAt_asks hasks
    · have hexec := hcall.2.2
      rw [hop] at hexec
      have hreply : c.reply = .schedule f := by
        rw [(exec_setSchedule hexec).1]
        exact congrArg _ (congrArg (fun cursor : Option ℤ => cursor.getD _) hf)
      have hafter' := hafter.snoc c.reply
      rw [hop, hreply, List.nil_append] at hafter'
      rw [hreply] at hask
      exact firstDue_le hcron hafter' hrequest hask
    · exact absurd hlog (by simp)
  · exact Or.inr ⟨i, _, hi, hlog, firstDue, op, hrequest, hask.of_after (Process.After.nil.snoc c.reply)⟩

/-- A tick that cannot be offered any more stays so. -/
theorem mayOffer_of_step (hcron : config.cron.Walks tick) (hrun : (tickRuns client config).Run moves s)
    (hstep : (tickRuns client config).step s move s') (h : MayOffer client config s' t) : MayOffer client config s t := by
  rcases h with hcursor | ⟨i, party, hi, hahead⟩
  · exact Or.inl (cursor_le hrun hstep hcursor)
  · have hupdate : ∀ {j : ℕ} {next : Option SchedulerParty}, s'.party = Function.update s.party j next →
        (∀ party, next = some party → HasAhead client config t party → MayOffer client config s t) →
        MayOffer client config s t := by
      intro j next heq hnext
      rw [heq] at hi
      by_cases hj : i = j
      · subst hj
        rw [Function.update_self] at hi
        exact hnext party hi hahead
      · rw [Function.update_of_ne hj] at hi
        exact Or.inr ⟨i, party, hi, hahead⟩
    cases move with
    | launch j start =>
      refine hupdate hstep.2.2 fun party heq hahead => ?_
      obtain rfl := Option.some.inj heq
      exact absurd rfl hahead.1
    | call j c =>
      obtain ⟨hcall, start, log, next, hj, heq⟩ := hstep
      refine hupdate heq fun party heq hahead => ?_
      obtain rfl := Option.some.inj heq
      exact mayOffer_of_call hcron hrun hcall hj hahead
    | stop j => exact hupdate hstep.2 fun party heq => absurd heq (by simp)
    | other c =>
      rw [hstep.2.2] at hi
      exact Or.inr ⟨i, party, hi, hahead⟩

/-- What an invocation of such a run can do to the task of a tick. -/
structure TouchesTick (client : Client) (config : SchedulerConfig P) (s : SchedulerParties Engine) (op : Op) (t : ℤ) :
    Prop where
  keeps : ¬ op.Disposes (tickKey client config t).1 (tickKey client config t).2
  unforced : op ≠ .forceRemoveTask (tickKey client config t).1 (tickKey client config t).2
  offers : ∀ a, op = .createTask a → (a.queue, a.id) = tickKey client config t →
    a.onDuplicate = .returnExisting ∧ MayOffer client config s t

theorem touchesTick_of_leaves {c : Call} (h : LeavesTicks client config c) (t : ℤ) :
    TouchesTick client config s c.op t := by
  unfold LeavesTicks at h
  refine ⟨?_, ?_, ?_⟩
  · rintro (hremove | ⟨a, hop, hqueue, hid, _⟩)
    · rw [hremove] at h
      exact h
    · rw [hop] at h
      exact h t (Prod.ext hqueue hid)
  · intro hforce
    rw [hforce] at h
    exact h
  · intro a hop hkey
    rw [hop] at h
    exact absurd hkey (h t)

theorem touchesTick_of_call (hrun : (tickRuns client config).Run moves s) {i : ℕ} {start : Option ℤ × ℤ}
    {log : List (Op × Reply)} {next : Reply → Process Op Reply (Except SchedulerFailure ℤ)}
    (hi : s.party i = some ⟨start, log, .ask op next⟩) (t : ℤ) : TouchesTick client config s op t := by
  have hschedule : ∀ {op : Op}, (∀ a, op ≠ .createTask a) → (∀ queue id, op ≠ .removeTask queue id) →
      (∀ queue id, op ≠ .forceRemoveTask queue id) → TouchesTick client config s op t := by
    intro op hcreate hremove hforce
    refine ⟨?_, hforce _ _, fun a hop => absurd hop (hcreate a)⟩
    rintro (heq | ⟨a, heq, _⟩)
    · exact hremove _ _ heq
    · exact hcreate a heq
  obtain ⟨-, hasks⟩ := materializeDue_asks (party_after hrun hi)
  obtain ⟨-, hread⟩ | ⟨firstDue, offers, hlog, -, ⟨_, t', _, -, -, htick⟩ | ⟨-, hmove⟩⟩ := materializeAt_asks hasks
  · rw [hread]
    exact hschedule (by simp [readRequest]) (by simp [readRequest]) (by simp [readRequest])
  · obtain ⟨a, rfl, hkey, hmode⟩ := tickRequest_spec htick
    refine ⟨?_, by simp, ?_⟩
    · rintro (heq | ⟨a', heq, _, _, hmode'⟩)
      · exact absurd heq (by simp)
      · obtain rfl := Op.createTask.inj heq
        exact absurd (hmode.symm.trans hmode') (by simp)
    · intro a' heq hkey'
      obtain rfl := Op.createTask.inj heq
      obtain rfl := tickKey_injective (hkey.symm.trans hkey')
      refine ⟨hmode, Or.inr ⟨i, _, hi, ?_, firstDue, _, htick, [], next, .nil⟩⟩
      exact hlog.trans_ne (List.cons_ne_nil _ _)
  · rw [hmove]
    exact hschedule (by simp [moveRequest]) (by simp [moveRequest]) (by simp [moveRequest])

/-- An invocation of such a run is a step of the engine. -/
theorem tickRuns_action (hrun : (tickRuns client config).Run moves s) (hstep : (tickRuns client config).step s move s')
    {c : Call} (hc : move.action = some c) :
    engine.step s.shared c s'.shared ∧ ∀ t, TouchesTick client config s c.op t := by
  cases move with
  | launch | stop => exact absurd hc (by simp [Move.action])
  | call i c' =>
    obtain rfl := Option.some.inj hc
    obtain ⟨hcall, start, log, next, hi, -⟩ := hstep
    exact ⟨hcall, touchesTick_of_call hrun hi⟩
  | other c' =>
    obtain rfl := Option.some.inj hc
    exact ⟨hstep.2.1, touchesTick_of_leaves hstep.1⟩

/-- Each tick has no generation yet; or it has one, which is stored for as long as the tick can be offered. -/
def OfferedOnce (client : Client) (config : SchedulerConfig P) (s : SchedulerParties Engine) : Prop :=
  ∀ t, s.shared.store.generations (tickKey client config t) = 0 ∨
    s.shared.store.generations (tickKey client config t) = 1 ∧
      ((s.shared.store.current (tickTask client config t 1)).isSome ∨ ¬ MayOffer client config s t)

theorem offeredOnce_of_step (hcron : config.cron.Walks tick) (hrun : (tickRuns client config).Run moves s)
    (hstep : (tickRuns client config).step s move s') (hquiet : Undisposed client config s move s')
    (h : OfferedOnce client config s) : OfferedOnce client config s' := by
  intro t
  have hpassed : ¬ MayOffer client config s t → ¬ MayOffer client config s' t :=
    fun hnot hmay => hnot (mayOffer_of_step hcron hrun hstep hmay)
  cases hc : move.action with
  | none =>
    have hsame : s'.shared = s.shared := by
      cases move with
      | launch => exact hstep.2.1
      | stop => exact hstep.1
      | call | other => exact absurd hc (by simp [Move.action])
    rw [hsame]
    exact (h t).imp_right fun ⟨hone, hstored⟩ => ⟨hone, hstored.imp_right hpassed⟩
  | some c =>
    have hengine := parties_run hrun
    obtain ⟨hcall, htouches⟩ := tickRuns_action hrun hstep hc
    have htouch := htouches t
    have hs : Sane c.env.now s.shared.store := (run_sane hengine).mono (Nat.cast_le.mpr hcall.1)
    obtain ⟨hcounter, _⟩ := step_creates hengine hcall (tickKey client config t)
    rcases h t with hzero | ⟨hone, hstored⟩
    · -- the first generation, if this invocation creates it
      cases hcreates : c.creates (tickKey client config t) with
      | none =>
        rw [hcreates, hzero] at hcounter
        exact Or.inl hcounter
      | some g =>
        rw [hcreates, hzero] at hcounter
        have hstored := current_of_creates hengine hcall hcreates
        rw [hzero] at hstored
        exact Or.inr ⟨hcounter, Or.inl hstored⟩
    · -- the record of the one generation is found as long as the tick can be offered
      have hmoment : MayOffer client config s t → ∀ {b : Busy} {m : Store},
          EnginePath c.env (c.op.Allows c.env s.shared.store) none s.shared.store b m →
          EnginePath c.env (c.op.Allows c.env s.shared.store) b m none s'.shared.store →
          (m.current (tickTask client config t 1)).isSome := by
        intro hmay b m hpath hrest
        refine current_within hengine hcall htouch.keeps htouch.unforced (hquiet c hc t hmay 1) ?_ hpath hrest
        exact hstored.resolve_right (not_not.mpr hmay)
      have hnone : c.creates (tickKey client config t) = none := by
        by_contra hcreates
        obtain ⟨g, hcreates⟩ := Option.ne_none_iff_exists'.mp hcreates
        obtain ⟨a, cursor, task, hop, hkey, hreply, _⟩ := creates_eq_some hcreates
        obtain ⟨hmode, hmay⟩ := htouch.offers a hop hkey
        have hfresh := created_fresh hengine hcall hop hmode hreply
        have hsome := hmoment hmay ((swept_path hs c.op).mono fun _ hact => Or.inl hact)
          ((exec_effect hs hcall.2.2).path.mono fun _ hact => Or.inr hact)
        obtain ⟨r, hr⟩ := Option.isSome_iff_exists.mp hsome
        rw [hkey] at hfresh
        exact absurd ((current_eq_some_iff.mp hr).1.symm.trans hfresh) (by simp)
      rw [hnone, hone] at hcounter
      refine Or.inr ⟨hcounter, ?_⟩
      by_cases hmay : MayOffer client config s t
      · exact Or.inl (hmoment hmay (exec_path hs hcall.2.2) .refl)
      · exact Or.inr (hpassed hmay)

/-- In a run that disposes of no record of a tick before the tick is past, each tick creates one generation. -/
theorem tick_generation_once (hcron : config.cron.Walks tick) (hrun : (tickRuns client config).Run moves s)
    (hquiet : ∀ before move after s₁ s₂, moves = before ++ move :: after → (tickRuns client config).Run before s₁ →
      (tickRuns client config).step s₁ move s₂ → Undisposed client config s₁ move s₂) (t : ℤ) :
    (tickCreations client config t moves).length ≤ 1 := by
  have honce : OfferedOnce client config s := by
    refine hrun.induction (P := fun moves s => (∀ before move after s₁ s₂, moves = before ++ move :: after →
      (tickRuns client config).Run before s₁ → (tickRuns client config).step s₁ move s₂ →
      Undisposed client config s₁ move s₂) → OfferedOnce client config s) ?_ ?_ hquiet
    · rintro s ⟨hinit, _⟩ _ t
      have hstart : s.shared = Engine.start := hinit
      rw [hstart]
      exact Or.inl rfl
    · intro l s move s' hrun ih hstep hquiet
      refine offeredOnce_of_step hcron hrun hstep (hquiet l move [] s s' rfl hrun hstep) (ih ?_)
      intro before move' after s₁ s₂ heq
      refine hquiet before move' (after ++ [move]) s₁ s₂ ?_
      rw [heq, List.append_assoc, List.cons_append]
  have hcounter : s.shared.store.generations (tickKey client config t) ≤ 1 := by
    rcases honce t with hzero | ⟨hone, _⟩ <;> omega
  rw [tickCreations, run_creates (parties_run hrun), List.length_range']
  exact hcounter

/-! ### The default policies -/

/-- A schedule that was set at the first minute, and two runs that both read the cursor when that minute is due. -/
def readTwice : List (Turn (Option ℤ × ℤ) Env Op) :=
  [.launch 0 (some 0, 0), .call 0 (.at 0), .launch 1 (some 70000, 0), .call 1 (.at 70000), .launch 2 (none, 70000),
    .call 2 (.at 70000)]

/-- The first run offers the tick, a worker completes the task, and the other run offers the tick again. -/
def completedBetween : List (Turn (Option ℤ × ℤ) Env Op) :=
  readTwice ++ [.call 1 (.at 70000), .other (.at 70001) (.takeTask "q:reports" "token" (some 30000)),
    .other (.at 70002) (.writeSuccess "q:reports" "token" "report/1970-01-01T00:01:00.000Z" "done"), .call 2 (.at 70003)]

def isWorker (c : Call) : Bool :=
  match c.op with
  | .takeTask _ _ _ | .writeSuccess _ _ _ _ => true
  | _ => false

theorem leavesTicks_of_isWorker {client : Client} {config : SchedulerConfig P} (c : Call) (h : isWorker c = true) :
    LeavesTicks client config c := by
  obtain ⟨env, op, reply⟩ := c
  cases op <;> first | rfl | exact absurd h (by simp [isWorker])

theorem readTwice_run {turns : List (Turn (Option ℤ × ℤ) Env Op)}
    {p : List (Move (Option ℤ × ℤ) Call) → SchedulerParties Engine → Bool}
    (h : (playSchedulers perform (report .skip) isWorker ⟨Engine.start, fun _ => none⟩ turns).any
      (fun last => p last.1 last.2) = true) :
    ∃ moves s, (tickRuns reportClient (report .skip)).Run moves s ∧ p moves s = true := by
  obtain ⟨⟨moves, s⟩, hplay, hp⟩ := (Option.any_eq_true _ _).mp h
  exact ⟨moves, s, ⟨⟨Engine.start, fun _ => none⟩, ⟨rfl, fun _ => rfl⟩,
    playSchedulers_path (fun h => ⟨perform_step h, perform_op h⟩) leavesTicks_of_isWorker hplay⟩, hp⟩

/-- Under the default policies the second run creates the tick's task again. -/
theorem tick_created_twice : ¬ ∀ (P : Type) (client : Client) (config : SchedulerConfig P) (tick : ℤ → Prop),
    config.cron.Walks tick → ∀ moves s, (tickRuns client config).Run moves s → ∀ t,
      (tickCreations client config t moves).length ≤ 1 := by
  intro hclaim
  obtain ⟨moves, s, hrun, htwice⟩ := @readTwice_run completedBetween
    (fun moves _ => decide (tickCreations reportClient (report .skip) 60000 moves = [1, 2])) (by decide +kernel)
  have hle := hclaim Tick reportClient (report .skip) _ everyMinute_walks moves s hrun 60000
  rw [of_decide_eq_true htwice] at hle
  exact absurd hle (by decide)

/-- A move that makes no invocation, an invocation about the schedule, or one before which nothing was created. -/
def quietMove (before : List (Move (Option ℤ × ℤ) Call)) (move : Move (Option ℤ × ℤ) Call) : Bool :=
  match move.action with
  | none => true
  | some c =>
    match c.op with
    | .setSchedule _ _ _ | .consumeSchedule _ _ _ _ => true
    | _ => (before.filterMap Move.action).all fun c => !c.reply.isCreated

theorem undisposed_of_quietMove (hrun : (tickRuns client config).Run moves s)
    (hstep : (tickRuns client config).step s move s') (hquiet : quietMove moves move = true) :
    Undisposed client config s move s' := by
  intro c hc t _ g hdisposal
  have hengine := parties_run hrun
  obtain ⟨hcall, _⟩ := tickRuns_action hrun hstep hc
  have hlost := hdisposal.lost hengine
  have hgiven := hdisposal.given hengine
  obtain ⟨hcounter, _⟩ := step_creates hengine hcall (tickKey client config t)
  have hschedule : s'.shared.store.task = s.shared.store.task → c.creates (tickKey client config t) = none → False := by
    intro htask hnone
    rw [hnone] at hcounter
    have hstored := hdisposal.stored hengine (hgiven.trans_eq hcounter)
    rw [Store.current, ← htask] at hstored
    rw [Store.current] at hlost
    rw [hlost] at hstored
    exact absurd hstored (by simp)
  have hcreation : (∀ d ∈ moves.filterMap Move.action, d.reply.isCreated = false) → False := by
    intro hnothing
    have hzero : s.shared.store.generations (tickKey client config t) = 0 := by
      have hnone : (moves.filterMap Move.action).filterMap (Call.creates (tickKey client config t)) = [] := by
        refine List.filterMap_eq_nil_iff.mpr fun d hd => ?_
        by_contra hne
        obtain ⟨g, hg⟩ := Option.ne_none_iff_exists'.mp hne
        obtain ⟨_, _, _, _, _, hreply, _⟩ := creates_eq_some hg
        exact absurd (hnothing d hd) (by simp [hreply, Reply.isCreated])
      rw [run_creates hengine] at hnone
      simpa using congrArg List.length hnone
    have hpositive := hdisposal.positive hengine
    cases hcreates : c.creates (tickKey client config t) with
    | none =>
      rw [hcreates, hzero] at hcounter
      have hle : g ≤ 0 := hgiven.trans_eq hcounter
      exact absurd hpositive (not_lt.mpr hle)
    | some n =>
      rw [hcreates, hzero] at hcounter
      have hle : g ≤ 1 := hgiven.trans_eq hcounter
      have hone : g = 1 := le_antisymm hle hpositive
      have hstored := current_of_creates hengine hcall hcreates
      rw [hzero, Nat.zero_add, ← hone] at hstored
      exact absurd (hstored.symm.trans (congrArg _ hlost)) (by simp)
  unfold quietMove at hquiet
  rw [hc] at hquiet
  dsimp only at hquiet
  split at hquiet
  · next hop =>
    have hexec := hcall.2.2
    rw [hop] at hexec
    exact hschedule (exec_setSchedule_task hexec) (by simp [Call.creates, hop])
  · next hop =>
    have hexec := hcall.2.2
    rw [hop] at hexec
    exact hschedule (exec_consumeSchedule_task hexec) (by simp [Call.creates, hop])
  · exact hcreation fun d hd => by simpa using List.all_eq_true.mp hquiet d hd

/-- Whether every move of a list is quiet. -/
def quietMoves (moves : List (Move (Option ℤ × ℤ) Call)) : Bool :=
  (List.range moves.length).all fun n => moves[n]?.all (quietMove (moves.take n))

theorem quietMove_of_quietMoves {before after : List (Move (Option ℤ × ℤ) Call)} (h : quietMoves moves = true)
    (heq : moves = before ++ move :: after) : quietMove before move = true := by
  subst heq
  have hat := List.all_eq_true.mp h before.length (by simp)
  simpa using hat

/-- One run offers the tick and moves the cursor, although another one has read it too. -/
theorem tick_generation_once_raced : ∃ moves s, (tickRuns reportClient (report .skip)).Run moves s ∧
    tickCreations reportClient (report .skip) 60000 moves = [1] ∧
    (tickCreations reportClient (report .skip) 60000 moves).length ≤ 1 := by
  obtain ⟨moves, s, hrun, hshows⟩ := @readTwice_run (readTwice ++ [.call 1 (.at 70000), .call 1 (.at 70000)])
    (fun moves _ => decide (tickCreations reportClient (report .skip) 60000 moves = [1]) && quietMoves moves)
    (by decide +kernel)
  obtain ⟨honce, hquiet⟩ := Bool.and_eq_true_iff.mp hshows
  exact ⟨moves, s, hrun, of_decide_eq_true honce, tick_generation_once everyMinute_walks hrun
    (fun before move after s₁ s₂ heq hrun hstep =>
      undisposed_of_quietMove hrun hstep (quietMove_of_quietMoves hquiet heq)) 60000⟩

end Scheduler

end EffectMQ
