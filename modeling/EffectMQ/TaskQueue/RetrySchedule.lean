import EffectMQ.TaskQueue.Fail

/-!
# Building a retry schedule and replaying it

The options of a task's retry policy become one schedule of the Effect library: the given schedule inside, then a filter
for each of `while`, `until` and `times`. The library is a parameter. What is assumed of it is how its steppers answer a
list of failures.
-/

namespace EffectMQ

/-- A number of milliseconds, if it is finite. The time of a date that is not valid is not. -/
abbrev Millis := Option ℚ

/-- A failure as the replay sees it: its time and its value. -/
abbrev Failure (I : Type) := Millis × I

/-- What `Schedule.toStep` gives: a state that is stepped with the time and the value of each failure. -/
structure Stepper (I : Type) where
  State : Type
  initial : State
  step : State → Millis → I → Except StepFailure (State × Delay)

namespace Stepper

variable {I : Type} (m : Stepper I)

/-- The answer to the last failure of a list. A stepper that is done or that failed is not stepped again. -/
def answerFrom (σ : m.State) (last : Delay) : List (Failure I) → Except StepFailure Delay
  | [] => .ok last
  | (timestamp, error) :: errors =>
    match m.step σ timestamp error with
    | .error failure => .error failure
    | .ok (_, .done) => .ok .done
    | .ok (σ, delay) => answerFrom σ delay errors

def answer (errors : List (Failure I)) : Except StepFailure Delay := m.answerFrom m.initial (.span 0) errors

/-- A time and a delay, if they make a finite and safe number. -/
def runTime (timestamp : Millis) : Delay → Option ℚ
  | .span delay => timestamp.bind fun t => if (maxSafeInteger : ℚ) < |t + delay| then none else some (t + delay)
  | _ => none

/-- The loop of `nextRunAt` over the failures that are left. -/
def runFrom (σ : m.State) (time : Millis) : List (Failure I) → Except StepFailure (Option Millis)
  | [] => .ok (some time)
  | (timestamp, error) :: errors =>
    match m.step σ timestamp error with
    | .error failure => .error failure
    | .ok (_, .done) => .ok none
    | .ok (σ, delay) =>
      match runTime timestamp delay with
      | none => .ok none
      | some time => runFrom σ (some time) errors

/-- When a task runs again that failed so often, `none` standing for `undefined`. -/
def nextRunAt (createdAt : Millis) (errors : List (Failure I)) : Except StepFailure (Option Millis) :=
  m.runFrom m.initial createdAt errors

end Stepper

/-- The part of the Effect library's `Schedule` that retry schedules are built and stepped with. A predicate sees the input
and the number of the attempt. -/
structure ScheduleLibrary (I : Type) where
  Schedule : Type 1
  forever : Schedule
  passthrough : Schedule → Schedule
  while_ : Schedule → (I → ℕ → Except StepFailure Bool) → Schedule
  toStep : Schedule → Stepper I

/-- The options of a retry policy. A cap on the attempts is a number or infinite. -/
structure RetryOptions {I : Type} (lib : ScheduleLibrary I) where
  schedule : Option lib.Schedule
  while_ : Option (I → Except StepFailure Bool)
  until_ : Option (I → Except StepFailure Bool)
  times : Option (WithTop ℚ)

variable {I : Type} {lib : ScheduleLibrary I}

def buildFromOptions (options : RetryOptions lib) : lib.Schedule :=
  let schedule := lib.passthrough (options.schedule.getD lib.forever)
  let schedule := match options.while_ with
    | none => schedule
    | some whileFn => lib.while_ schedule fun input _ => whileFn input
  let schedule := match options.until_ with
    | none => schedule
    | some untilFn => lib.while_ schedule fun input _ => (untilFn input).map fun value => !value
  match options.times with
  | none => schedule
  | some times => lib.while_ schedule fun _ attempt => .ok (decide (((attempt : ℚ) : WithTop ℚ) ≤ times))

/-- The answer of a schedule that a predicate filters. The predicate is asked when the schedule goes on. -/
def filtered (answer : Except StepFailure Delay) (check : Except StepFailure Bool) : Except StepFailure Delay :=
  match answer with
  | .error failure => .error failure
  | .ok .done => .ok .done
  | .ok delay =>
    match check with
    | .error failure => .error failure
    | .ok true => .ok delay
    | .ok false => .ok .done

/-- An answer that the next failure is stepped after. -/
def GoesOn (answer : Except StepFailure Delay) : Prop := ∃ delay, answer = .ok delay ∧ delay ≠ .done

/-- How the library answers: a schedule that passes its input through answers as the schedule inside, and a filtered schedule
feeds each failure to the schedule inside and then asks its predicate, under attempt numbers from one on. -/
structure ScheduleLibrary.Lawful (lib : ScheduleLibrary I) : Prop where
  passthrough : ∀ schedule errors,
    (lib.toStep (lib.passthrough schedule)).answer errors = (lib.toStep schedule).answer errors
  while_ : ∀ schedule predicate errors timestamp error,
    GoesOn ((lib.toStep (lib.while_ schedule predicate)).answer errors) →
      (lib.toStep (lib.while_ schedule predicate)).answer (errors ++ [(timestamp, error)]) =
        filtered ((lib.toStep schedule).answer (errors ++ [(timestamp, error)])) (predicate error (errors.length + 1))

/-! ### Steppers as a library -/

namespace Stepper

/-- Goes on without a delay, whatever the failure. -/
def forever (I : Type) : Stepper I where
  State := Unit
  initial := ()
  step _ _ _ := .ok ((), .span 0)

/-- Asks a predicate after each step that goes on, with the number of the attempt. -/
def while_ (m : Stepper I) (predicate : I → ℕ → Except StepFailure Bool) : Stepper I where
  State := m.State × ℕ
  initial := (m.initial, 0)
  step state timestamp error :=
    match m.step state.1 timestamp error with
    | .error cause => .error cause
    | .ok (σ, .done) => .ok ((σ, state.2), .done)
    | .ok (σ, delay) =>
      match predicate error (state.2 + 1) with
      | .error cause => .error cause
      | .ok true => .ok ((σ, state.2 + 1), delay)
      | .ok false => .ok ((σ, state.2 + 1), .done)

def library (I : Type) : ScheduleLibrary I where
  Schedule := Stepper I
  forever := forever I
  passthrough := id
  while_ := while_
  toStep := id

theorem answerFrom_while (m : Stepper I) (predicate : I → ℕ → Except StepFailure Bool) (σ : m.State) (n : ℕ) (last : Delay)
    (errors : List (Failure I)) (timestamp : Millis) (error : I)
    (hgoes : GoesOn ((m.while_ predicate).answerFrom (σ, n) last errors)) :
    (m.while_ predicate).answerFrom (σ, n) last (errors ++ [(timestamp, error)]) =
      filtered (m.answerFrom σ last (errors ++ [(timestamp, error)])) (predicate error (n + errors.length + 1)) := by
  induction errors generalizing σ n last with
  | nil =>
    simp only [List.nil_append, answerFrom, while_, List.length_nil, Nat.add_zero]
    cases hstep : m.step σ timestamp error with
    | error cause => rfl
    | ok next =>
      obtain ⟨σ', delay⟩ := next
      cases hcheck : predicate error (n + 1) with
      | error cause => cases delay <;> rfl
      | ok value => cases delay <;> cases value <;> rfl
  | cons x errors ih =>
    obtain ⟨timestamp', error'⟩ := x
    simp only [List.cons_append, answerFrom, while_, List.length_cons] at hgoes ⊢
    cases hstep : m.step σ timestamp' error' with
    | error cause => simp [hstep, GoesOn] at hgoes
    | ok next =>
      obtain ⟨σ', delay⟩ := next
      simp only [hstep] at hgoes ⊢
      cases hcheck : predicate error' (n + 1) with
      | error cause => cases delay <;> simp [hcheck, GoesOn] at hgoes
      | ok value =>
        simp only [hcheck] at hgoes ⊢
        cases delay with
        | done => simp [GoesOn] at hgoes
        | span delay =>
          cases value with
          | false => simp [GoesOn] at hgoes
          | true =>
            have hcount : n + (errors.length + 1) + 1 = n + 1 + errors.length + 1 := by omega
            rw [hcount]
            exact ih σ' (n + 1) _ hgoes
        | forever =>
          cases value with
          | false => simp [GoesOn] at hgoes
          | true =>
            have hcount : n + (errors.length + 1) + 1 = n + 1 + errors.length + 1 := by omega
            rw [hcount]
            exact ih σ' (n + 1) _ hgoes

theorem library_lawful : (library I).Lawful where
  passthrough _ _ := rfl
  while_ schedule predicate errors timestamp error hgoes := by
    have h := answerFrom_while schedule predicate schedule.initial 0 (.span 0) errors timestamp error hgoes
    rw [Nat.zero_add] at h
    exact h

/-- The retry schedule that reporting a failure replays, whose times are natural numbers. -/
def toRetrySchedule (m : Stepper I) : RetrySchedule I where
  State := m.State
  initial := m.initial
  step σ timestamp error := m.step σ (some (timestamp : ℚ)) error

theorem runFrom_toRetrySchedule (m : Stepper I) (σ : m.State) (time : ℚ) (errors : List (ℕ × I)) :
    m.runFrom σ (some time) (errors.map fun e => (some (e.1 : ℚ), e.2)) =
      (m.toRetrySchedule.runFrom σ time errors).map fun result => result.map some := by
  induction errors generalizing σ time with
  | nil => rfl
  | cons e errors ih =>
    obtain ⟨timestamp, error⟩ := e
    simp only [List.map_cons, runFrom, RetrySchedule.runFrom, toRetrySchedule]
    cases hstep : m.step σ (some (timestamp : ℚ)) error with
    | error cause => rfl
    | ok next =>
      obtain ⟨σ', delay⟩ := next
      cases delay with
      | done => rfl
      | forever => rfl
      | span delay =>
        have hpos : (0 : ℚ) ≤ timestamp + delay := by positivity
        simp only [runTime, Option.bind_some, abs_of_nonneg hpos]
        by_cases hsafe : (maxSafeInteger : ℚ) < timestamp + delay
        · rw [if_pos hsafe, if_pos hsafe]
          rfl
        · rw [if_neg hsafe, if_neg hsafe]
          exact ih σ' _

/-- The replay inside `fail` is the replay of the built schedule. -/
theorem nextRunAt_toRetrySchedule (m : Stepper I) (createdAt : ℚ) (errors : List (ℕ × I)) :
    m.nextRunAt (some createdAt) (errors.map fun e => (some (e.1 : ℚ), e.2)) =
      (m.toRetrySchedule.nextRunAt createdAt errors).map fun result => result.map some :=
  m.runFrom_toRetrySchedule m.initial createdAt errors

end Stepper

end EffectMQ
