import EffectMQ.TaskQueue.Offer
import EffectMQ.Text.IsoDate

/-!
# Materializing due ticks

A scheduler observes a time, reads the cursor of its schedule, offers a task for each tick that its policy selects between
the two, and only then moves the cursor. The cron rule is two functions on times; a time counts milliseconds.
-/

namespace EffectMQ

open Redis Transition

/-- A cron rule: the next time after a time, and the last one before it. -/
structure Cron where
  next : ℤ → ℤ
  prev : ℤ → ℤ

/-- The rule walks over a set of ticks. -/
structure Cron.Walks (cron : Cron) (tick : ℤ → Prop) : Prop where
  next t : IsLeast {u | tick u ∧ t < u} (cron.next t)
  prev t : IsGreatest {u | tick u ∧ u < t} (cron.prev t)

structure Tick where
  scheduleName : String
  scheduledAt : ℤ
  missedFrom : ℤ
  missedTo : ℤ

inductive MissedTickPolicy
  | skip
  | coalesce
  | backfill (maxBackfill : Option ℚ)
deriving DecidableEq, Repr

structure SchedulerConfig (P : Type) where
  name : String
  cron : Cron
  queue : String
  task : TaskDefinition P
  payload : Tick → P
  missed : MissedTickPolicy
  startAt : Option ℤ
  /-- The task options; those of an identity and of a duplicate are overwritten. -/
  taskOptions : TaskOptions

/-- How a scheduler fails. -/
inductive SchedulerFailure
  | definition (fault : Fault)
  | offer (error : OfferError)
  | engine (reply : Reply)

def tickId (name : String) (scheduledAt : ℤ) : String := name ++ "/" ++ IsoDate.toISOString scheduledAt

theorem tickId_injective (name : String) : Function.Injective (tickId name) := by
  intro t t' h
  unfold tickId at h
  exact IsoDate.toISOString_injective (String.append_right_inj _ |>.mp h)

/-- The loop of `recentBackfill`: the newest tick first. -/
def backfillFrom (cron : Cron) (firstMissed : ℤ) : ℕ → ℤ → List ℤ
  | 0, _ => []
  | maximum + 1, cursor =>
    let tick := cron.prev cursor
    if tick < firstMissed then [] else tick :: backfillFrom cron firstMissed maximum tick

def recentBackfill (cron : Cron) (firstMissed now : ℤ) (maximum : ℕ) : List ℤ :=
  (backfillFrom cron firstMissed maximum (cron.next now)).reverse

/-- The ticks that are offered when the cursor is due. -/
def selectTicks (cron : Cron) (missed : MissedTickPolicy) (firstDue observedAt : ℤ) : List ℤ :=
  let following := cron.next firstDue
  let hasMissedBacklog := following ≤ observedAt
  let nextFuture := cron.next observedAt
  if ¬ hasMissedBacklog then [firstDue]
  else
    match missed with
    | .skip => []
    | .coalesce => [cron.prev nextFuture]
    | .backfill maxBackfill => recentBackfill cron firstDue observedAt (natural maxBackfill)

namespace Scheduler

variable {P : Type} (client : Client) (config : SchedulerConfig P)

def validateConfig : Option Fault :=
  match config.missed with
  | .backfill maxBackfill =>
    if isPositiveSafeInteger maxBackfill then none else some ⟨"maxBackfill", "a positive safe integer"⟩
  | _ => none

/-- The tick of a task. -/
def tickOf (firstDue scheduledAt : ℤ) : Tick where
  scheduleName := config.name
  scheduledAt := scheduledAt
  missedFrom := if config.missed = .coalesce then firstDue else scheduledAt
  missedTo := scheduledAt

/-- The options of the offer of a tick. -/
def tickOptions (scheduledAt : ℤ) : TaskOptions :=
  { config.taskOptions with taskId := some (tickId config.name scheduledAt), onDuplicate := some .returnExisting }

def offerTick (firstDue scheduledAt : ℤ) : Process Op Reply (Except SchedulerFailure Unit) :=
  (TaskQueue.offer config.task (tickOptions config scheduledAt) client config.queue
    (config.payload (tickOf config firstDue scheduledAt))).mapResult fun
      | .ok _ => .ok ()
      | .error error => .error (.offer error)

/-- The offers, one after the other; the first one that fails ends the run. -/
def offerTicks (firstDue : ℤ) : List ℤ → Process Op Reply (Except SchedulerFailure Unit)
  | [] => .done (.ok ())
  | scheduledAt :: ticks => (offerTick client config firstDue scheduledAt).andThen fun _ => offerTicks firstDue ticks

def setSchedule (next : ℤ) : Process Op Reply (Except SchedulerFailure ℤ) :=
  .ask (.setSchedule client.keyPrefix config.name next) fun
    | .schedule next => .done (.ok next)
    | reply => .done (.error (.engine reply))

def consumeSchedule (toConsume next : ℤ) : Process Op Reply (Except SchedulerFailure (Bool × Option ℤ)) :=
  .ask (.consumeSchedule client.keyPrefix config.name toConsume next) fun
    | .consumed consumed next => .done (.ok (consumed, next))
    | reply => .done (.error (.engine reply))

/-- What `materializeDue` does once it has observed a time. -/
def materializeAt (observedAt : ℤ) : Process Op Reply (Except SchedulerFailure ℤ) :=
  (setSchedule client config (config.startAt.getD (config.cron.next observedAt))).andThen fun firstDue =>
    if observedAt < firstDue then .done (.ok firstDue)
    else
      let nextFuture := config.cron.next observedAt
      (offerTicks client config firstDue (selectTicks config.cron config.missed firstDue observedAt)).andThen fun _ =>
        (consumeSchedule client config firstDue nextFuture).andThen fun consumed =>
          .done (.ok (consumed.2.getD nextFuture))

def materializeDue (now : Option ℤ) (currentTimeMillis : ℤ) : Process Op Reply (Except SchedulerFailure ℤ) :=
  match validateConfig config <|> TaskInvariant.validate config.task with
  | some fault => .done (.error (.definition fault))
  | none => materializeAt client config (now.getD currentTimeMillis)

/-! ### Where a run is -/

/-- The request that offers a tick. -/
def tickRequest (firstDue scheduledAt : ℤ) : Option Op :=
  TaskQueue.request config.task (tickOptions config scheduledAt) client config.queue
    (config.payload (tickOf config firstDue scheduledAt))

/-- The requests that read and move the cursor. -/
def readRequest (observedAt : ℤ) : Op :=
  .setSchedule client.keyPrefix config.name (config.startAt.getD (config.cron.next observedAt))

def moveRequest (firstDue observedAt : ℤ) : Op :=
  .consumeSchedule client.keyPrefix config.name firstDue (config.cron.next observedAt)

/-- Ticks that were offered with these requests, each of them with success. -/
def AllOffered (firstDue : ℤ) (ticks : List ℤ) (l : List (Op × Reply)) : Prop :=
  List.Forall₂ (fun t x => tickRequest client config firstDue t = some x.1 ∧ x.2.IsOffered) ticks l

variable {client config} {firstDue observedAt scheduledAt : ℤ} {ticks : List ℤ} {l : List (Op × Reply)} {op : Op}

theorem offerTick_asks {next : Reply → Process Op Reply (Except SchedulerFailure Unit)}
    (h : (offerTick client config firstDue scheduledAt).After l (.ask op next)) :
    l = [] ∧ tickRequest client config firstDue scheduledAt = some op := by
  obtain ⟨p₀, h₀, heq⟩ := h.mapResult_inv
  cases p₀ with
  | done => exact absurd heq (by simp [Process.mapResult])
  | ask op' next' =>
    obtain ⟨rfl, -⟩ := Process.ask.inj heq
    exact TaskQueue.offer_asks h₀

theorem offerTick_ok (h : (offerTick client config firstDue scheduledAt).After l (.done (.ok ()))) :
    ∃ x, l = [x] ∧ tickRequest client config firstDue scheduledAt = some x.1 ∧ x.2.IsOffered := by
  obtain ⟨p₀, h₀, heq⟩ := h.mapResult_inv
  cases p₀ with
  | ask => exact absurd heq (by simp [Process.mapResult])
  | done result =>
    cases result with
    | error => exact absurd heq (by simp [Process.mapResult])
    | ok outcome =>
      obtain ⟨op, reply, rfl, hop, hreply⟩ := TaskQueue.offer_ok h₀
      exact ⟨(op, reply), rfl, hop, hreply⟩

theorem offerTicks_ok (h : (offerTicks client config firstDue ticks).After l (.done (.ok ()))) :
    AllOffered client config firstDue ticks l := by
  induction ticks generalizing l with
  | nil =>
    obtain ⟨rfl, -⟩ := h.done_inv
    exact .nil
  | cons t ticks ih =>
    obtain ⟨q, next, -, heq⟩ | ⟨e, -, heq⟩ | ⟨l₁, l₂, ⟨⟩, rfl, h₁, h₂⟩ := h.andThen_inv
    · exact absurd heq (by simp [Process.andThen])
    · exact absurd heq (by simp)
    · obtain ⟨x, rfl, hx⟩ := offerTick_ok h₁
      exact .cons hx (ih h₂)

/-- While its ticks are being offered, a run has offered the first of them. -/
theorem offerTicks_asks {next : Reply → Process Op Reply (Except SchedulerFailure Unit)}
    (h : (offerTicks client config firstDue ticks).After l (.ask op next)) :
    ∃ offered t rest, ticks = offered ++ t :: rest ∧ AllOffered client config firstDue offered l ∧
      tickRequest client config firstDue t = some op := by
  induction ticks generalizing l with
  | nil => exact absurd h.done_inv.2 (by simp)
  | cons t ticks ih =>
    obtain ⟨next', h'⟩ | ⟨l₁, l₂, ⟨⟩, rfl, h₁, h₂⟩ := h.andThen_ask
    · obtain ⟨rfl, hop⟩ := offerTick_asks h'
      exact ⟨[], t, ticks, rfl, .nil, hop⟩
    · obtain ⟨x, rfl, hx⟩ := offerTick_ok h₁
      obtain ⟨offered, t', rest, rfl, hoffered, hop⟩ := ih h₂
      exact ⟨t :: offered, t', rest, rfl, .cons hx hoffered, hop⟩

/-- A request of a run reads the cursor; or offers a selected tick after those before it; or moves the cursor after all
of them. -/
theorem materializeAt_asks {next : Reply → Process Op Reply (Except SchedulerFailure ℤ)}
    (h : (materializeAt client config observedAt).After l (.ask op next)) :
    (l = [] ∧ op = readRequest client config observedAt) ∨
      ∃ firstDue offers, l = (readRequest client config observedAt, .schedule firstDue) :: offers ∧
        firstDue ≤ observedAt ∧
        ((∃ offered t rest, selectTicks config.cron config.missed firstDue observedAt = offered ++ t :: rest ∧
            AllOffered client config firstDue offered offers ∧ tickRequest client config firstDue t = some op) ∨
          (AllOffered client config firstDue (selectTicks config.cron config.missed firstDue observedAt) offers ∧
            op = moveRequest client config firstDue observedAt)) := by
  obtain ⟨next', hread⟩ | ⟨l₁, l₂, firstDue, rfl, hread, hrest⟩ := h.andThen_ask
  · obtain ⟨hl, hask⟩ | ⟨reply, l', -, hdone⟩ := hread.ask_inv
    · exact Or.inl ⟨hl, (Process.ask.inj hask).1⟩
    · cases reply <;> exact absurd hdone.done_inv.2 (by simp)
  · obtain ⟨-, hask⟩ | ⟨reply, l', rfl, hdone⟩ := hread.ask_inv
    · exact absurd hask (by simp)
    · have hreply : l' = [] ∧ reply = .schedule firstDue := by
        cases reply with
        | schedule =>
          obtain ⟨hl', hok⟩ := hdone.done_inv
          obtain rfl := Except.ok.inj (Process.done.inj hok)
          exact ⟨hl', rfl⟩
        | _ => exact absurd hdone.done_inv.2 (by simp)
      obtain ⟨rfl, rfl⟩ := hreply
      split at hrest
      · exact absurd hrest.done_inv.2 (by simp)
      · next hdue =>
        refine Or.inr ⟨firstDue, l₂, rfl, not_lt.mp hdue, ?_⟩
        obtain ⟨next', hoffer⟩ | ⟨offers, l₃, ⟨⟩, rfl, hoffers, hmove⟩ := hrest.andThen_ask
        · exact Or.inl (offerTicks_asks hoffer)
        · refine Or.inr ?_
          obtain ⟨next', hconsume⟩ | ⟨l₄, l₅, consumed, -, -, hdone⟩ := hmove.andThen_ask
          · obtain ⟨rfl, hask⟩ | ⟨reply, l', -, hdone⟩ := hconsume.ask_inv
            · rw [List.append_nil]
              exact ⟨offerTicks_ok hoffers, (Process.ask.inj hask).1⟩
            · cases reply <;> exact absurd hdone.done_inv.2 (by simp)
          · exact absurd hdone.done_inv.2 (by simp)

/-- A run that asks anything has a valid configuration and is at work on its observation. -/
theorem materializeDue_asks {now : Option ℤ} {currentTimeMillis : ℤ}
    {next : Reply → Process Op Reply (Except SchedulerFailure ℤ)}
    (h : (materializeDue client config now currentTimeMillis).After l (.ask op next)) :
    validateConfig config = none ∧
      (materializeAt client config (now.getD currentTimeMillis)).After l (.ask op next) := by
  unfold materializeDue at h
  split at h
  · exact absurd h.done_inv.2 (by simp)
  · next hnone =>
    refine ⟨?_, h⟩
    cases hconfig : validateConfig config with
    | none => rfl
    | some fault => exact absurd hnone (by simp [hconfig])

end Scheduler

end EffectMQ
