import EffectMQ.Lifecycle.Scenario
import EffectMQ.Scheduler.Cursor

/-!
# Executed schedules

A cron rule that is due every minute, a schedule of it, and its runs as lists of turns.
-/

namespace EffectMQ

open Redis Transition

namespace Scheduler

def everyMinute : Cron where
  next t := (t / 60000 + 1) * 60000
  prev t := (t - 1) / 60000 * 60000

theorem everyMinute_walks : everyMinute.Walks fun t => 60000 ∣ t where
  next t := by
    refine ⟨⟨Dvd.intro_left _ rfl, ?_⟩, ?_⟩
    · dsimp only [everyMinute]
      omega
    · rintro u ⟨⟨k, rfl⟩, hlt⟩
      dsimp only [everyMinute]
      omega
  prev t := by
    refine ⟨⟨Dvd.intro_left _ rfl, ?_⟩, ?_⟩
    · dsimp only [everyMinute]
      omega
    · rintro u ⟨⟨k, rfl⟩, hlt⟩
      dsimp only [everyMinute]
      omega

/-- The engine of a client. -/
def reportClient : Client := ⟨"q", none⟩

/-- A schedule with the default task options, whose tasks carry their tick. -/
def report (missed : MissedTickPolicy) : SchedulerConfig Tick where
  name := "report"
  cron := everyMinute
  queue := "reports"
  task :=
    { name := "report"
      schemaId := "report"
      maxRetries := some (some 5)
      storageLimits := defaultStorageLimits
      retention := defaultRetentionPolicy
      progress := false
      idempotencyKey := fun tick => tickId "report" tick.scheduledAt
      encodePayload := fun tick => some (IsoDate.toISOString tick.scheduledAt)
      decodes := fun _ => true }
  payload := id
  missed := missed
  startAt := none
  taskOptions := .none

/-- The runs of a schedule beside each other, turn by turn. -/
def playSchedulers {σ : Type} (perform : σ → Env → Op → Option (Call × σ)) (config : SchedulerConfig Tick)
    (allowed : Call → Bool) (s : SchedulerParties σ)
    (turns : List (Turn (Option ℤ × ℤ) Env Op)) : Option (List (Move (Option ℤ × ℤ) Call) × SchedulerParties σ) :=
  s.play perform Call.reply (fun start => materializeDue reportClient config start.1 start.2) allowed turns

theorem playSchedulers_path {σ : Type} {M : System σ Call} {perform : σ → Env → Op → Option (Call × σ)}
    {config : SchedulerConfig Tick} {outside : Call → Prop} {allowed : Call → Bool} {s s' : SchedulerParties σ}
    {turns : List (Turn (Option ℤ × ℤ) Env Op)} {moves : List (Move (Option ℤ × ℤ) Call)}
    (hperform : ∀ {s env op c s'}, perform s env op = some (c, s') → M.step s c s' ∧ c.op = op)
    (hallowed : ∀ c, allowed c = true → outside c)
    (h : playSchedulers perform config allowed s turns = some (moves, s')) :
    (schedulers reportClient config M outside).Path s moves s' :=
  play_turns hperform hallowed h

end Scheduler

end EffectMQ
