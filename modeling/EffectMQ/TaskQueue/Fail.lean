import EffectMQ.TaskEngine.Operations

/-!
# Reporting a failed attempt

The client decides whether a failed attempt runs again, from the snapshot of the task that came with its lease:
the retry cap, the tag of the failure, and the retry schedule replayed over the handler failures recorded so
far. The script only gets a retry time or the terminal sentinel.
-/

namespace EffectMQ

/-- What a step of a retry schedule answers. -/
inductive Delay
  | done
  | span (millis : ℚ≥0)
  | forever

/-- How a step of a retry schedule can fail to answer. -/
inductive StepFailure
  | interrupted
  | cause (message : String)
deriving DecidableEq, Repr

/-- A retry schedule: its state is stepped with the time and the value of each failure. -/
structure RetrySchedule (E : Type) where
  State : Type
  initial : State
  step : State → ℕ → E → Except StepFailure (State × Delay)

namespace RetrySchedule

variable {E : Type} (schedule : RetrySchedule E)

/-- The loop of `nextRunAt` over the failures that are left. -/
def runFrom (state : schedule.State) (time : ℚ) : List (ℕ × E) → Except StepFailure (Option ℚ)
  | [] => .ok (some time)
  | (timestamp, error) :: errors =>
    match schedule.step state timestamp error with
    | .error failure => .error failure
    | .ok (_, .done) => .ok none
    | .ok (_, .forever) => .ok none
    | .ok (state, .span delay) =>
      if (maxSafeInteger : ℚ) < timestamp + delay then .ok none else runFrom state (timestamp + delay) errors

/-- When a schedule runs a task again that failed so often. -/
def nextRunAt (createdAt : ℚ) (errors : List (ℕ × E)) : Except StepFailure (Option ℚ) :=
  schedule.runFrom schedule.initial createdAt errors

end RetrySchedule

/-- The tags of the failures that the engine itself records. -/
def builtInErrorTags : List String := [stalledTag, canceledTag]

/-- What `fail` reads of a queue and its task definition. A definition's cap is a natural number or infinite. -/
structure TaskQueue (E : Type) where
  name : String
  schemaId : String
  maxRetries : ℕ∞
  retrySchedule : Option (RetrySchedule E)
  errorTag : E → Option String
  encodeFailure : E → Option String
  decodeFailure : LuaValue → Option E

/-- What `fail` reads of an acquired task. -/
structure TaskAttempt (E : Type) where
  leaseToken : String
  id : String
  createdAt : ℕ
  delay : ℚ
  maxRetries : ℤ
  handlerFailureCount : ℕ
  errors : List (ℕ × E)

/-- What reporting a failure comes to. -/
inductive FailStep
  | unencodable
  | interrupted
  | invalidInput
  | wrote (op : Op) (retryPolicyError : Option String)

namespace TaskQueue

variable {E : Type} (queue : TaskQueue E)

def hasBuiltInErrorTag (error : E) : Bool := (queue.errorTag error).any fun tag => tag ∈ builtInErrorTags

/-- The attempt that a taken record decodes to. -/
def decodeTask (leaseToken id : String) (r : TaskRecord) : Option (TaskAttempt E) :=
  if r.protocolVersion = 1 ∧ r.schemaId = queue.schemaId then
    (r.errors.mapM fun entry => (queue.decodeFailure entry.error).map fun error => (entry.timestamp, error)).map
      fun errors => ⟨leaseToken, id, r.createdAt, r.delay, r.maxRetries, r.handlerFailureCount, errors⟩
  else none

/-- The cap of an offer, `-1` standing for the definition's. -/
def cap (maxRetries : ℤ) : ℕ∞ := if maxRetries ≠ -1 then (maxRetries.toNat : ℕ∞) else queue.maxRetries

/-- The engine's `writeError`, without a retry time or with one. -/
def writeError (attempt : TaskAttempt E) (encodedFailure : String) (retryAt : Option ℚ)
    (retryPolicyError : Option String) : FailStep :=
  let retryAtMillis := retryAt.getD (-1)
  if (maxSafeInteger : ℚ) < |retryAtMillis| ∨ retryAtMillis < -1 then .invalidInput
  else
    .wrote (.writeError queue.name attempt.leaseToken attempt.id (.string encodedFailure) (some retryAtMillis))
      retryPolicyError

/-- Whether a failure may be retried at all, with the schedule that decides. -/
def canRetry (attempt : TaskAttempt E) (failure : E) : Option (RetrySchedule E) :=
  queue.retrySchedule.filter fun _ =>
    decide ((attempt.handlerFailureCount : ℕ∞) < queue.cap attempt.maxRetries) && !queue.hasBuiltInErrorTag failure

def fail (attempt : TaskAttempt E) (failedAt : ℕ) (failure : E) : FailStep :=
  match queue.encodeFailure failure with
  | none => .unencodable
  | some encodedFailure =>
    let handlerErrors := attempt.errors.filter fun e => !queue.hasBuiltInErrorTag e.2
    match queue.canRetry attempt failure with
    | none => queue.writeError attempt encodedFailure none none
    | some schedule =>
      if handlerErrors.length < attempt.handlerFailureCount then
        queue.writeError attempt encodedFailure none
          (some "Retry schedule history was truncated before it could be replayed safely")
      else
        match schedule.nextRunAt (attempt.createdAt + attempt.delay) (handlerErrors ++ [(failedAt, failure)]) with
        | .error .interrupted => .interrupted
        | .error (.cause message) => queue.writeError attempt encodedFailure none (some message)
        | .ok retryAt => queue.writeError attempt encodedFailure retryAt none

/-- The entries of an error list, decoded. -/
def decodeErrors (errors : List ErrorEntry) : Option (List (ℕ × E)) :=
  errors.mapM fun entry => (queue.decodeFailure entry.error).map fun error => (entry.timestamp, error)

/-- The failures of the handler among those that the attempt knows of. -/
def handlerErrors (attempt : TaskAttempt E) : List (ℕ × E) :=
  attempt.errors.filter fun e => !queue.hasBuiltInErrorTag e.2

/-- The message of the policy error where `fail` finds that failures are missing. -/
def truncatedHistory : String := "Retry schedule history was truncated before it could be replayed safely"

/-- The failures that `fail` feeds to the retry schedule, where it asks the schedule. -/
def replayed (attempt : TaskAttempt E) (failedAt : ℕ) (failure : E) : Option (List (ℕ × E)) :=
  if (queue.canRetry attempt failure).isSome ∧ attempt.handlerFailureCount ≤ (queue.handlerErrors attempt).length then
    some (queue.handlerErrors attempt ++ [(failedAt, failure)])
  else none

variable {queue}

/-- `fail` asks its schedule about the replayed failures, and otherwise writes a terminal failure. -/
theorem fail_eq (attempt : TaskAttempt E) (failedAt : ℕ) (failure : E) :
    queue.fail attempt failedAt failure = match queue.encodeFailure failure with
      | none => .unencodable
      | some encodedFailure =>
        match queue.canRetry attempt failure, queue.replayed attempt failedAt failure with
        | none, _ => queue.writeError attempt encodedFailure none none
        | some _, none => queue.writeError attempt encodedFailure none (some truncatedHistory)
        | some schedule, some errors =>
          match schedule.nextRunAt (attempt.createdAt + attempt.delay) errors with
          | .error .interrupted => .interrupted
          | .error (.cause message) => queue.writeError attempt encodedFailure none (some message)
          | .ok retryAt => queue.writeError attempt encodedFailure retryAt none := by
  unfold fail replayed
  cases queue.encodeFailure failure with
  | none => rfl
  | some encodedFailure =>
    cases queue.canRetry attempt failure with
    | none => rfl
    | some schedule =>
      by_cases hcount : attempt.handlerFailureCount ≤ (queue.handlerErrors attempt).length
      · have hcount' := not_lt.mpr hcount
        unfold handlerErrors at hcount hcount'
        simp [handlerErrors, hcount, hcount']
      · have hcount' := not_le.mp hcount
        unfold handlerErrors at hcount hcount'
        simp [handlerErrors, hcount, hcount', truncatedHistory]

theorem writeError_eq_wrote {attempt : TaskAttempt E} {encodedFailure : String} {retryAt : Option ℚ}
    {retryPolicyError fault : Option String} {op : Op}
    (h : queue.writeError attempt encodedFailure retryAt retryPolicyError = .wrote op fault) :
    op = .writeError queue.name attempt.leaseToken attempt.id (.string encodedFailure) (some (retryAt.getD (-1))) ∧
      fault = retryPolicyError := by
  unfold writeError at h
  dsimp only at h
  split at h
  · exact absurd h (by simp)
  · obtain ⟨hop, hfault⟩ := FailStep.wrote.inj h
    exact ⟨hop.symm, hfault.symm⟩

/-- An attempt at its cap may not be retried. -/
theorem canRetry_of_cap {attempt : TaskAttempt E} (h : queue.cap attempt.maxRetries ≤ attempt.handlerFailureCount)
    (failure : E) : queue.canRetry attempt failure = none := by
  simp [canRetry, not_lt.mpr h]

/-- A failure with a tag of the engine may not be retried. -/
theorem canRetry_of_builtIn (attempt : TaskAttempt E) {failure : E} (h : queue.hasBuiltInErrorTag failure = true) :
    queue.canRetry attempt failure = none := by
  simp [canRetry, h]

/-- A report is a call of `writeError` for the attempt, and a failure that may not be retried is never given a retry
time. -/
theorem fail_eq_wrote {attempt : TaskAttempt E} {failedAt : ℕ} {failure : E} {op : Op} {fault : Option String}
    (h : queue.fail attempt failedAt failure = .wrote op fault) :
    ∃ encodedFailure retryAt, queue.encodeFailure failure = some encodedFailure ∧
      op = .writeError queue.name attempt.leaseToken attempt.id (.string encodedFailure) (some retryAt) ∧
      (queue.canRetry attempt failure = none → retryAt = -1) := by
  unfold fail at h
  split at h
  · exact absurd h (by simp)
  · next encodedFailure hencode =>
    split at h
    · exact ⟨encodedFailure, -1, hencode, (writeError_eq_wrote h).1, fun _ => rfl⟩
    · next schedule hretry =>
      dsimp only at h
      split at h
      · exact ⟨encodedFailure, -1, hencode, (writeError_eq_wrote h).1, fun _ => rfl⟩
      · split at h
        · exact absurd h (by simp)
        · exact ⟨encodedFailure, -1, hencode, (writeError_eq_wrote h).1, fun _ => rfl⟩
        · exact ⟨encodedFailure, _, hencode, (writeError_eq_wrote h).1,
            fun hnone => absurd (hretry.symm.trans hnone) (by simp)⟩

theorem decodeTask_eq_some {leaseToken id : String} {r : TaskRecord} {attempt : TaskAttempt E}
    (h : queue.decodeTask leaseToken id r = some attempt) :
    attempt.leaseToken = leaseToken ∧ attempt.id = id ∧ attempt.maxRetries = r.maxRetries ∧
      attempt.handlerFailureCount = r.handlerFailureCount := by
  unfold decodeTask at h
  split at h
  · obtain ⟨errors, _, rfl⟩ := Option.map_eq_some_iff.mp h
    exact ⟨rfl, rfl, rfl, rfl⟩
  · exact absurd h (by simp)

theorem decodeErrors_of_decodeTask {leaseToken id : String} {r : TaskRecord} {attempt : TaskAttempt E}
    (h : queue.decodeTask leaseToken id r = some attempt) : queue.decodeErrors r.errors = some attempt.errors := by
  unfold decodeTask at h
  split at h
  · obtain ⟨errors, herrors, rfl⟩ := Option.map_eq_some_iff.mp h
    exact herrors
  · exact absurd h (by simp)

theorem decodeErrors_cons_eq_some {entry : ErrorEntry} {entries : List ErrorEntry} {errors : List (ℕ × E)}
    (h : queue.decodeErrors (entry :: entries) = some errors) :
    ∃ error rest, queue.decodeFailure entry.error = some error ∧ queue.decodeErrors entries = some rest ∧
      errors = (entry.timestamp, error) :: rest := by
  unfold decodeErrors at h ⊢
  rw [List.mapM_cons] at h
  obtain ⟨first, hfirst, h⟩ := Option.bind_eq_some_iff.mp h
  obtain ⟨rest, hrest, h⟩ := Option.bind_eq_some_iff.mp h
  obtain ⟨error, herror, rfl⟩ := Option.map_eq_some_iff.mp hfirst
  exact ⟨error, rest, herror, hrest, (Option.some.inj h).symm⟩

theorem decodeErrors_cons {entry : ErrorEntry} {entries : List ErrorEntry} {error : E} {rest : List (ℕ × E)}
    (hentry : queue.decodeFailure entry.error = some error) (hrest : queue.decodeErrors entries = some rest) :
    queue.decodeErrors (entry :: entries) = some ((entry.timestamp, error) :: rest) := by
  unfold decodeErrors at hrest ⊢
  rw [List.mapM_cons, hentry, hrest]
  rfl

theorem length_decodeErrors {entries : List ErrorEntry} {errors : List (ℕ × E)}
    (h : queue.decodeErrors entries = some errors) : errors.length = entries.length := by
  induction entries generalizing errors with
  | nil =>
    obtain rfl := Option.some.inj h
    rfl
  | cons entry entries ih =>
    obtain ⟨error, rest, _, hrest, rfl⟩ := decodeErrors_cons_eq_some h
    rw [List.length_cons, List.length_cons, ih hrest]

end TaskQueue

end EffectMQ
