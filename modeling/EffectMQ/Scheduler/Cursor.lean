import EffectMQ.Proof.Schedules
import EffectMQ.Lifecycle.Run
import EffectMQ.Scheduler.Selection

/-!
# Schedulers beside each other

Any number of runs of one schedule share a store with whatever else goes on there, as long as nobody else touches the
cursor. A step leaves the cursor alone, sets it for the first time, or moves it from where the run that takes the step read
it to the tick after the time that this run observed.
-/

namespace EffectMQ

open Redis Transition

/-- An operation on the cursor of a schedule. -/
def Op.namesSchedule (key : String × String) : Op → Bool
  | .setSchedule queue name _ | .consumeSchedule queue name _ _ => (queue, name) = key
  | _ => false

theorem exec_other_schedule {env : Env} {op : Op} {reply : Reply} {s s' : Store} {key : String × String}
    (hop : op.namesSchedule key = false) (h : exec env op s = .replied reply s') : s'.schedule key = s.schedule key := by
  cases op with
  | setSchedule queue name next =>
    have hkey : key ≠ (queue, name) := fun heq => of_decide_eq_false hop heq.symm
    rw [(exec_setSchedule h).2, Function.update_of_ne hkey]
  | consumeSchedule queue name current next =>
    have hkey : key ≠ (queue, name) := fun heq => of_decide_eq_false hop heq.symm
    obtain ⟨_, _, _, _, heq⟩ | ⟨_, rfl⟩ := exec_consumeSchedule h
    · rw [heq, Function.update_of_ne hkey]
    · rfl
  | _ =>
    refine congrFun (exec_schedule ?_ h) key
    trivial

/-- The observed time of a run: the time it was given, or else its clock. -/
def observedAt (start : Option ℤ × ℤ) : ℤ := start.1.getD start.2

abbrev SchedulerParty := Party (Option ℤ × ℤ) Op Reply (Except SchedulerFailure ℤ)

abbrev SchedulerParties (σ : Type) := Parties σ (Option ℤ × ℤ) Op Reply (Except SchedulerFailure ℤ)

/-- The cursor value that an invocation consumes. -/
def Call.consumed (c : Call) : Option ℤ :=
  match c.op, c.reply with
  | .consumeSchedule _ _ toConsume _, .consumed true _ => some toConsume
  | _, _ => none

/-- The cursor value that a move of a run consumes. -/
def consumed : Move (Option ℤ × ℤ) Call → Option ℤ
  | .call _ c => c.consumed
  | _ => none

namespace Scheduler

variable {P σ : Type} (client : Client) (config : SchedulerConfig P)

/-- The schedule of a configuration. -/
def scheduleKey : String × String := (client.keyPrefix, config.name)

/-- Runs of `materializeDue` over a shared engine. -/
def schedulers (M : System σ Call) (outside : Call → Prop) :
    System (SchedulerParties σ) (Move (Option ℤ × ℤ) Call) :=
  parties M Call.op Call.reply (fun start => materializeDue client config start.1 start.2) outside

/-- A run that moves the cursor from where it read it: what it has asked and offered before, and its last request. -/
structure Advances (party : SchedulerParty) (c : Call) (firstDue : ℤ) : Prop where
  valid : validateConfig config = none
  due : firstDue ≤ observedAt party.start
  later : firstDue < config.cron.next (observedAt party.start)
  op : c.op = moveRequest client config firstDue (observedAt party.start)
  reply : c.reply = .consumed true (some (config.cron.next (observedAt party.start)))
  log : ∃ offers, party.log = (readRequest client config (observedAt party.start), .schedule firstDue) :: offers ∧
    AllOffered client config firstDue (selectTicks config.cron config.missed firstDue (observedAt party.start)) offers

variable {client config} {M : System σ Call} {store : σ → Store} {outside : Call → Prop}
  {s s' : SchedulerParties σ} {move : Move (Option ℤ × ℤ) Call} {moves : List (Move (Option ℤ × ℤ) Call)}

theorem tickRequest_createTask {firstDue scheduledAt : ℤ} {op : Op}
    (h : tickRequest client config firstDue scheduledAt = some op) : ∃ a, op = .createTask a := by
  obtain ⟨encoded, _, rfl⟩ := Option.map_eq_some_iff.mp h
  exact ⟨_, rfl⟩

theorem Advances.consumed_eq {party : SchedulerParty} {c : Call} {firstDue : ℤ} {i : ℕ}
    (h : Advances client config party c firstDue) : consumed (.call i c) = some firstDue := by
  change c.consumed = some firstDue
  rw [Call.consumed, h.op, h.reply]
  rfl

theorem cursor_step (hM : ∀ {e c e'}, M.step e c e' → exec c.env c.op (store e) = .replied c.reply (store e'))
    (houtside : ∀ c, outside c → c.op.namesSchedule (scheduleKey client config) = false)
    (hrun : (schedulers client config M outside).Run moves s)
    (hstep : (schedulers client config M outside).step s move s') :
    ((store s'.shared).schedule (scheduleKey client config) = (store s.shared).schedule (scheduleKey client config) ∧
        consumed move = none) ∨
      ((store s.shared).schedule (scheduleKey client config) = none ∧ consumed move = none ∧
        ∃ o, (store s'.shared).schedule (scheduleKey client config) =
          some (config.startAt.getD (config.cron.next o))) ∨
      ∃ i c party firstDue, move = .call i c ∧ s.party i = some party ∧ Advances client config party c firstDue ∧
        (store s.shared).schedule (scheduleKey client config) = some firstDue ∧
        (store s'.shared).schedule (scheduleKey client config) =
          some (config.cron.next (observedAt party.start)) := by
  cases move with
  | launch i start =>
    rw [hstep.2.1]
    exact Or.inl ⟨rfl, rfl⟩
  | stop i =>
    rw [hstep.1]
    exact Or.inl ⟨rfl, rfl⟩
  | other c => exact Or.inl ⟨exec_other_schedule (houtside c hstep.1) (hM hstep.2.1), rfl⟩
  | call i c =>
    obtain ⟨hcall, start, log, next, hi, -⟩ := hstep
    have hexec := hM hcall
    obtain ⟨hvalid, hafter⟩ := materializeDue_asks (party_after hrun hi)
    obtain ⟨-, hop⟩ | ⟨firstDue, offers, hlog, hdue, hrest⟩ := materializeAt_asks hafter
    · -- the run reads the cursor, which sets it where it was never set
      have hnone : c.consumed = none := by
        rw [Call.consumed, hop]
        rfl
      rw [hop] at hexec
      obtain ⟨_, hset⟩ := exec_setSchedule hexec
      have hset := congrFun hset (scheduleKey client config)
      rw [scheduleKey, Function.update_self] at hset
      cases hcursor : (store s.shared).schedule (scheduleKey client config) with
      | none => exact Or.inr (Or.inl ⟨rfl, hnone, _, hset.trans (by rw [← scheduleKey, hcursor, Option.getD_none])⟩)
      | some cursor => exact Or.inl ⟨hset.trans (by rw [← scheduleKey, hcursor, Option.getD_some]), hnone⟩
    · obtain ⟨offered, t, rest, -, -, htick⟩ | ⟨hoffers, hop⟩ := hrest
      · obtain ⟨a, ha⟩ := tickRequest_createTask htick
        have hnone : c.consumed = none := by rw [Call.consumed, ha]
        refine Or.inl ⟨exec_other_schedule ?_ hexec, hnone⟩
        rw [ha]
        rfl
      · rw [hop] at hexec
        obtain ⟨hreply, hcursor, _, hlt, hset⟩ | ⟨hreply, hsame⟩ := exec_consumeSchedule hexec
        · refine Or.inr (Or.inr ⟨i, c, _, firstDue, rfl, hi,
            ⟨hvalid, hdue, hlt, hop, hreply, offers, hlog, hoffers⟩, hcursor, ?_⟩)
          rw [hset]
          exact Function.update_self _ _ _
        · refine Or.inl ⟨by rw [hsame], ?_⟩
          change c.consumed = none
          rw [Call.consumed, hop, hreply]
          rfl

end Scheduler

end EffectMQ
