import EffectMQ.TaskQueue.Connection
import EffectMQ.TaskQueue.Fail
import EffectMQ.TaskQueue.Offer
import EffectMQ.Transition.Supervise

/-!
# Processing an attempt

A worker takes a task, runs its handler beside a heartbeat that renews the lease, and reports what the handler came to. The
handler is a process of its own: all that it asks of its context is to write progress.
-/

namespace EffectMQ

open Redis Transition

/-! ### Options -/

/-- A duration as it is given: one that `toMillis` refuses, one without an end, or a number of milliseconds. -/
inductive DurationInput
  | refused
  | infinite
  | millis (value : ℚ)

/-- A number that is not finite is `none`. -/
structure ProcessingOptions where
  lockTimeout : Option DurationInput
  lockRefresh : Option DurationInput
  heartbeatRetryDelay : Option DurationInput
  heartbeatRetryCount : Option (Option ℚ)

structure ResolvedProcessingOptions where
  lockTimeout : ℚ
  lockRefresh : ℚ
  heartbeatRetryDelay : ℚ
  heartbeatRetryCount : ℕ

namespace TaskQueue

def processingDuration (field : String) (input : DurationInput) (requireWholeMilliseconds : Bool) : Except Fault ℚ :=
  match input with
  | .refused => .error ⟨field, "a valid duration greater than zero"⟩
  | .infinite => .error ⟨field, constraint⟩
  | .millis value =>
    if 0 < value ∧ (requireWholeMilliseconds = false ∨ isSafeInteger 1 (some value)) then .ok value
    else .error ⟨field, constraint⟩
where
  constraint :=
    if requireWholeMilliseconds then "a positive safe-integer number of milliseconds"
    else "a finite duration greater than zero"

def resolveProcessingOptions (options : ProcessingOptions) : Except Fault ResolvedProcessingOptions := do
  let lockTimeout ← processingDuration "lockTimeout" (options.lockTimeout.getD (.millis 30000)) true
  let lockRefresh ← processingDuration "lockRefresh" (options.lockRefresh.getD (.millis 10000)) true
  if lockTimeout ≤ lockRefresh then throw ⟨"lockRefresh", "a duration shorter than lockTimeout"⟩
  let heartbeatRetryDelay ←
    processingDuration "heartbeatRetryDelay" (options.heartbeatRetryDelay.getD (.millis 250)) false
  let configuredRetryCount := options.heartbeatRetryCount.getD (some 3)
  if isSafeInteger 0 configuredRetryCount = false then
    throw ⟨"heartbeatRetryCount", "a non-negative safe integer"⟩
  let safetyWindow := lockTimeout - lockRefresh
  return ⟨lockTimeout, lockRefresh, heartbeatRetryDelay,
    min (natural configuredRetryCount) ⌊safetyWindow / heartbeatRetryDelay⌋₊⟩

end TaskQueue

/-! ### The handler -/

/-- Why progress was not written. -/
inductive ProgressCause
  | historyDisabled
  | historyUnavailable
  | schemaIdentityMismatch (encountered : String)
  | unsupportedProtocolVersion (encountered : ℕ)
  | historyCursor
  | encoding
  | leaseLost
  | engine (answer : Answer)

inductive ProgressReason
  | writeFailed
  | indeterminateWrite

/-- The write may have been carried out where the connection failed, or where the reply makes no sense. -/
def ProgressCause.reason : ProgressCause → ProgressReason
  | .engine (.reply (.error _)) => .writeFailed
  | .engine _ => .indeterminateWrite
  | _ => .writeFailed

structure ProgressWriteError where
  queue : String
  taskId : String
  generation : ℕ
  cause : ProgressCause
  reason : ProgressReason

/-- How a handler fails: with a failure of its own, or with that of a progress write. -/
inductive HandlerFailure (E : Type)
  | failure (failure : E)
  | progress (error : ProgressWriteError)

/-- A task as a handler gets it: the attempt, and the record that it was decoded from. -/
structure AcquiredTask (E : Type) extends TaskAttempt E where
  stored : TaskRecord

/-- What a worker uses of a queue definition. A definition without a progress schema has no encoder for it. -/
structure WorkerQueue (S E P : Type) extends TaskQueue E where
  decodes : TaskRecord → Bool
  encodeSuccess : S → Option String
  encodeProgress : Option (P → Option String)

/-- What a handler asks for are progress writes, and it gets the id of the entry. -/
abbrev TaskHandler (S E P : Type) :=
  AcquiredTask E → Process P (Except ProgressWriteError StreamId) (Except (HandlerFailure E) S)

/-- How processing an attempt fails. -/
inductive ProcessError
  | configuration (fault : Fault)
  | decoding
  | leaseLost
  | progressWrite (error : ProgressWriteError)
  | encoding
  | interrupted
  | invalidInput
  | retryPolicy (message : String)
  | engine (answer : Answer)

namespace WorkerQueue

variable {S E P : Type} (queue : WorkerQueue S E P)

def isLeaseLost (answer : Answer) : Bool :=
  match answer with
  | .reply (.error message) => message = "LEASE_LOST"
  | _ => false

/-- What the client makes of the answer to an owned operation. -/
def fenced (answer : Answer) : Except ProcessError Unit :=
  match answer with
  | .reply .nil => .ok ()
  | answer => .error (if isLeaseLost answer then .leaseLost else .engine answer)

def acquire (leaseToken id : String) (stored : TaskRecord) : Option (AcquiredTask E) :=
  if queue.decodes stored then (queue.decodeTask leaseToken id stored).map fun attempt => ⟨attempt, stored⟩ else none

/-- The request of a progress write, or why there is none. -/
def progressRequest (attempt : AcquiredTask E) (value : P) : Except ProgressCause Op :=
  match queue.encodeProgress with
  | none => .error .historyDisabled
  | some encode =>
    if attempt.stored.history.enabled = false then .error .historyDisabled
    else
      match encode value with
      | none => .error .encoding
      | some data => .ok (.appendProgress queue.name attempt.id attempt.stored.generation queue.schemaId
          attempt.leaseToken data)

/-- What the client makes of the answer to a progress write. -/
def progressAnswer (answer : Answer) : Except ProgressCause StreamId :=
  match answer with
  | .reply (.appended id) => .ok id
  | .reply .unavailable => .error .historyUnavailable
  | .reply .disabled => .error .historyDisabled
  | .reply (.schema encountered) => .error (.schemaIdentityMismatch encountered)
  | .reply (.version encountered) => .error (.unsupportedProtocolVersion encountered)
  | .reply (.expired _ _) | .reply .invalid => .error .historyCursor
  | answer => .error (if isLeaseLost answer then .leaseLost else .engine answer)

def progressWriteError (attempt : AcquiredTask E) (cause : ProgressCause) : ProgressWriteError :=
  ⟨queue.name, attempt.id, attempt.stored.generation, cause, cause.reason⟩

/-- The handler with its context: its progress writes are requests under the lease. -/
def handlerResult (attempt : AcquiredTask E) (handler : TaskHandler S E P) :
    Process Query Answer (Except (HandlerFailure E) S) :=
  (handler attempt).translate
    (fun value =>
      match queue.progressRequest attempt value with
      | .error cause => .inl (.error (queue.progressWriteError attempt cause))
      | .ok op => .inr (.call op))
    fun answer => (progressAnswer answer).mapError (queue.progressWriteError attempt)

/-- A renewal, with the retries that are left to it. -/
def renewed (heartbeatRetryCount retries : ℕ) (answer : Answer) : Except ProcessError ℕ :=
  match fenced answer with
  | .ok _ => .ok heartbeatRetryCount
  | .error .leaseLost => .error .leaseLost
  | .error error => if retries = 0 then .error error else .ok (retries - 1)

def extendLock (attempt : AcquiredTask E) (lockTimeout : ℚ) : Query :=
  .call (.extendLock queue.name attempt.leaseToken attempt.id (some lockTimeout))

def succeed (attempt : AcquiredTask E) (success : S) : Process Query Answer (Except ProcessError Unit) :=
  match queue.encodeSuccess success with
  | none => .done (.error .encoding)
  | some encoded =>
    .ask (.call (.writeSuccess queue.name attempt.leaseToken attempt.id encoded)) fun answer => .done (fenced answer)

/-- The report of a failure, made at a time of the client's clock. -/
def fail (attempt : AcquiredTask E) (failedAt : ℕ) (failure : E) : Process Query Answer (Except ProcessError Unit) :=
  match queue.toTaskQueue.fail attempt.toTaskAttempt failedAt failure with
  | .unencodable => .done (.error .encoding)
  | .interrupted => .done (.error .interrupted)
  | .invalidInput => .done (.error .invalidInput)
  | .wrote op retryPolicyError => .ask (.call op) fun answer =>
    .done <|
      match retryPolicyError with
      | none => fenced answer
      | some message => (fenced answer).bind fun _ => .error (.retryPolicy message)

/-- The handler beside the heartbeat: the schedule says how they take turns. -/
def processAttempt (attempt : AcquiredTask E) (handler : TaskHandler S E P) (options : ResolvedProcessingOptions)
    (schedule : List Bool) (failedAt : ℕ) : Process Query Answer (Except ProcessError String) :=
  (Process.supervised (fun _ => queue.extendLock attempt options.lockTimeout) (renewed options.heartbeatRetryCount)
      (queue.handlerResult attempt handler) options.heartbeatRetryCount schedule).andThen fun result =>
    (match result with
      | .ok success => queue.succeed attempt success
      | .error (.progress error) => .done (.error (.progressWrite error))
      | .error (.failure failure) => queue.fail attempt failedAt failure).mapResult
      fun reported => reported.map fun _ => attempt.id

/-- One round of a worker: whether there was a task to process. -/
def completeOne (handler : TaskHandler S E P) (options : ProcessingOptions) (leaseToken : String) (schedule : List Bool)
    (failedAt : ℕ) : Process Query Answer (Except ProcessError Bool) :=
  match TaskQueue.resolveProcessingOptions options with
  | .error fault => .done (.error (.configuration fault))
  | .ok resolved =>
    .ask (.call (.takeTask queue.name leaseToken (some resolved.lockTimeout))) fun
      | .reply .nil => .done (.ok false)
      | .reply (.leased token id (some stored)) =>
        match queue.acquire token id stored with
        | none => .done (.error .decoding)
        | some attempt =>
          (queue.processAttempt attempt handler resolved schedule failedAt).mapResult fun processed =>
            processed.map fun _ => true
      | answer => .done (.error (.engine answer))

end WorkerQueue

/-- A round of a worker: what it is run with, and how it takes turns with its heartbeat. -/
structure Round (S E P : Type) where
  handler : TaskHandler S E P
  options : ProcessingOptions
  leaseToken : String
  schedule : List Bool
  failedAt : ℕ

section

variable {S E P : Type} (queue : WorkerQueue S E P)

def Round.program (round : Round S E P) : Process Query Answer (Except ProcessError Bool) :=
  queue.completeOne round.handler round.options round.leaseToken round.schedule round.failedAt

/-- The workers of a queue beside each other and beside every other call. -/
def workers : System (Parties Engine (Round S E P) Query Answer (Except ProcessError Bool)) (Move (Round S E P) Observation) :=
  parties observed Observation.request Observation.answer (Round.program queue) fun _ => True

end

/-! ### What a round leaves in its log -/

namespace WorkerQueue

variable {S E P : Type} {queue : WorkerQueue S E P} {attempt : AcquiredTask E} {answer : Answer} {log : List (Query × Answer)}

/-- The outcome of a handler was reported, and the report was acknowledged. -/
def Reported (queue : WorkerQueue S E P) (attempt : AcquiredTask E) (failedAt : ℕ) (log : List (Query × Answer)) :
    Except (HandlerFailure E) S → Prop
  | .ok success => ∃ encoded, queue.encodeSuccess success = some encoded ∧
      (Query.call (.writeSuccess queue.name attempt.leaseToken attempt.id encoded), Answer.reply .nil) ∈ log
  | .error (.failure failure) => ∃ op,
      queue.toTaskQueue.fail attempt.toTaskAttempt failedAt failure = .wrote op none ∧
      (Query.call op, Answer.reply .nil) ∈ log
  | .error (.progress _) => False

theorem Reported.mono {failedAt : ℕ} {result : Except (HandlerFailure E) S} {log' : List (Query × Answer)}
    (h : queue.Reported attempt failedAt log result) (hle : log ⊆ log') : queue.Reported attempt failedAt log' result := by
  cases result with
  | ok success =>
    obtain ⟨encoded, hencoded, hmem⟩ := h
    exact ⟨encoded, hencoded, hle hmem⟩
  | error failed =>
    cases failed with
    | progress error => exact h
    | failure failure =>
      obtain ⟨op, hop, hmem⟩ := h
      exact ⟨op, hop, hle hmem⟩

theorem fenced_eq_ok (h : fenced answer = .ok ()) : answer = .reply .nil := by
  unfold fenced at h
  split at h
  · rfl
  · cases h

theorem succeed_done {success : S} (h : (queue.succeed attempt success).After log (.done (.ok ()))) :
    ∃ encoded, queue.encodeSuccess success = some encoded ∧
      (Query.call (.writeSuccess queue.name attempt.leaseToken attempt.id encoded), Answer.reply .nil) ∈ log := by
  unfold succeed at h
  split at h
  · obtain ⟨_, heq⟩ := h.done_inv
    cases heq
  · next encoded hencoded =>
    obtain ⟨_, heq⟩ | ⟨answer, l, rfl, hrest⟩ := h.ask_inv
    · cases heq
    · obtain ⟨rfl, heq⟩ := hrest.done_inv
      obtain rfl := fenced_eq_ok (Process.done.inj heq).symm
      exact ⟨encoded, hencoded, List.mem_cons_self⟩

theorem fail_done {failedAt : ℕ} {failure : E} (h : (queue.fail attempt failedAt failure).After log (.done (.ok ()))) :
    ∃ op, queue.toTaskQueue.fail attempt.toTaskAttempt failedAt failure = .wrote op none ∧
      (Query.call op, Answer.reply .nil) ∈ log := by
  unfold fail at h
  split at h
  · obtain ⟨_, heq⟩ := h.done_inv
    cases heq
  · obtain ⟨_, heq⟩ := h.done_inv
    cases heq
  · obtain ⟨_, heq⟩ := h.done_inv
    cases heq
  · next op retryPolicyError hfail =>
    obtain ⟨_, heq⟩ | ⟨answer, l, rfl, hrest⟩ := h.ask_inv
    · cases heq
    · obtain ⟨rfl, heq⟩ := hrest.done_inv
      cases retryPolicyError with
      | none =>
        obtain rfl := fenced_eq_ok (Process.done.inj heq).symm
        exact ⟨op, hfail, List.mem_cons_self⟩
      | some message =>
        have hresult := (Process.done.inj heq).symm
        cases hfenced : fenced answer <;> simp [hfenced, Except.bind] at hresult

/-- An attempt is processed when its handler came to an outcome that was reported and acknowledged. -/
theorem processAttempt_done {handler : TaskHandler S E P} {options : ResolvedProcessingOptions} {schedule : List Bool}
    {failedAt : ℕ} {id : String}
    (h : (queue.processAttempt attempt handler options schedule failedAt).After log (.done (.ok id))) :
    ∃ result, (∃ progress, (handler attempt).After progress (.done result)) ∧
      queue.Reported attempt failedAt log result := by
  obtain ⟨_, _, _, heq⟩ | ⟨_, _, heq⟩ | ⟨l₁, l₂, result, rfl, hhandler, hreport⟩ := h.andThen_inv
  · cases heq
  · cases heq
  · obtain ⟨l₀, _, hran⟩ := hhandler.of_supervised
    obtain ⟨progress, hprogress⟩ := hran.of_translate
    refine ⟨result, ⟨progress, hprogress⟩, ?_⟩
    obtain ⟨p₀, hreport, heq⟩ := hreport.mapResult_inv
    cases p₀ with
    | ask => cases heq
    | done reported =>
      obtain rfl : reported = .ok () := by
        cases reported with
        | ok => rfl
        | error => cases heq
      refine Reported.mono ?_ (List.subset_append_right l₁ l₂)
      cases result with
      | ok success => exact succeed_done hreport
      | error failed =>
        cases failed with
        | failure failure => exact fail_done hreport
        | progress error =>
          obtain ⟨_, heq⟩ := hreport.done_inv
          cases heq

end WorkerQueue

section

variable {S E P : Type} {queue : WorkerQueue S E P} {round : Round S E P} {log : List (Query × Answer)}

/-- A round leased a task. -/
def Round.Leased (queue : WorkerQueue S E P) (round : Round S E P) (log : List (Query × Answer)) (token id : String)
    (stored : TaskRecord) : Prop :=
  ∃ lockTimeout, (Query.call (.takeTask queue.name round.leaseToken (some lockTimeout)),
    Answer.reply (.leased token id (some stored))) ∈ log

/-- A round that processed a task leased it, and reported what its handler made of it. -/
theorem Round.processed (h : (round.program queue).After log (.done (.ok true))) :
    ∃ token id stored attempt result, round.Leased queue log token id stored ∧
      queue.acquire token id stored = some attempt ∧
      (∃ progress, (round.handler attempt).After progress (.done result)) ∧
      queue.Reported attempt round.failedAt log result := by
  unfold Round.program WorkerQueue.completeOne at h
  split at h
  · obtain ⟨_, heq⟩ := h.done_inv
    cases heq
  · next resolved _ =>
    obtain ⟨_, heq⟩ | ⟨answer, l, rfl, hrest⟩ := h.ask_inv
    · cases heq
    · split at hrest
      · obtain ⟨_, heq⟩ := hrest.done_inv
        cases heq
      · next token id stored =>
        split at hrest
        · obtain ⟨_, heq⟩ := hrest.done_inv
          cases heq
        · next attempt hattempt =>
          obtain ⟨p₀, hprocessed, heq⟩ := hrest.mapResult_inv
          cases p₀ with
          | ask => cases heq
          | done processed =>
            cases processed with
            | error => cases heq
            | ok id' =>
              obtain ⟨result, hran, hreported⟩ := WorkerQueue.processAttempt_done hprocessed
              exact ⟨token, id, stored, attempt, result, ⟨_, List.mem_cons_self⟩, hattempt, hran,
                hreported.mono (List.subset_cons_self _ _)⟩
      · obtain ⟨_, heq⟩ := hrest.done_inv
        cases heq

end

end EffectMQ
