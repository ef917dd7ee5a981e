import EffectMQ.TaskEngine.Lists

/-!
# Leases, retention holds and settlement

The lease key of a task, the two sets of a retention relationship, and the three ways an attempt ends: it
succeeds, it fails, it stalls. A settled task writes its terminal result, dates its expiry, goes where its
policy says and releases the holds it owns, as many as the maintenance budget still allows.
-/

namespace EffectMQ

open Redis

def setTask (env : Env) (queue id : String) (f : TaskRecord → TaskRecord) (s : Store) : Store :=
  s.modifyTask queue id fun r => f { r with updatedAt := env.clock }

/-- Keep the newest `maxErrorEntries` entries. -/
def appendError (maxErrorEntries : ℕ) (errors : List ErrorEntry) (e : ErrorEntry) : List ErrorEntry :=
  if maxErrorEntries = 0 then [] else errors.drop (errors.length + 1 - maxErrorEntries) ++ [e]

def appendTaskError (env : Env) (queue id : String) (error : LuaValue) (retryAt : Option ℚ) (s : Store) : Store :=
  setTask env queue id (fun r =>
    { r with errors := appendError r.maxErrorEntries r.errors ⟨error, env.clock, retryAt⟩ }) s

/-- `GET` of the lease key: it is gone once the clock has passed its expiry. -/
def getLockId (env : Env) (s : Store) (queue id : String) : Option String :=
  ((s.lock (queue, id)).filter fun l => env.now ≤ l.expiresAt).map Lock.token

def isLocked (env : Env) (s : Store) (queue id : String) : Bool := (getLockId env s queue id).isSome

def isLockedBy (env : Env) (s : Store) (queue id leaseToken : String) : Bool :=
  getLockId env s queue id = some leaseToken

def unlockTask (queue id : String) (s : Store) : Store :=
  { s with lock := Function.update s.lock (queue, id) none }

/-- The sum of the clock and the timeout is a double in the script: it is kept exact here, as it is up to `2 ^ 53`. -/
def lockTask (env : Env) (queue id leaseToken : String) (lockTimeout : ℚ) (w : World) : World :=
  let w := assertHistory queue id w
  let attempt := ((w.store.task (queue, id)).map TaskRecord.attempt).getD 0 + 1
  let w := moveToList env queue id (some .active) (env.now + lockTimeout) false (some attempt) w
  w.modify fun s =>
    let s := s.modifyTask queue id fun r => { r with attempt := r.attempt + 1 }
    { s with lock := Function.update s.lock (queue, id) (some ⟨leaseToken, env.now + lockTimeout⟩) }

/-! ### Terminal results and retention -/

/-- The failure that the result of a failed task carries. -/
def terminalFailureOf (r : TaskRecord) (terminalFailure : LuaValue) : Option LuaValue :=
  if terminalFailure = .nil then
    (r.errors.getLast?.map ErrorEntry.error).filter fun e => e ≠ .nil ∧ e ≠ .boolean false
  else some terminalFailure

/-- Its expiry dates are kept exact like those of the record. -/
def persistTerminalResult (env : Env) (queue id : String) (terminalFailure : LuaValue) (s : Store) : Store :=
  match s.task (queue, id) with
  | none => s
  | some r =>
    let x : TaskIdentity := ⟨queue, id, r.generation⟩
    let outcome := r.outcome.getD .failure
    let old := s.result x
    let result : TerminalResult :=
      { protocolVersion := r.protocolVersion
        schemaId := r.schemaId
        generation := r.generation
        outcome := outcome
        settledAt := env.clock
        success := if outcome = .success then r.success else old.bind TerminalResult.success
        failure := if outcome = .success then old.bind TerminalResult.failure
          else terminalFailureOf r terminalFailure <|> old.bind TerminalResult.failure }
    let e := s.expiry queue
    let e := if outcome = .success then e else
      { e with
        deadLetters := e.deadLetters.add x env.now
        deadLetterExpiry := e.deadLetterExpiry.add x (env.now + r.deadLetterRetentionMs) }
    { s.setExpiry queue { e with results := e.results.add x (env.now + r.resultRetentionMs) } with
      result := Function.update s.result x (some result) }

/-- The sums of the clock and the retention times are doubles in the script: they are kept exact here, as they are up to
`2 ^ 53`. -/
def scheduleTerminalRetention (env : Env) (queue id : String) (s : Store) : Store :=
  match s.task (queue, id) with
  | none => s
  | some r =>
    let x : TaskIdentity := ⟨queue, id, r.generation⟩
    let e := s.expiry queue
    let e := { e with tasks := e.tasks.add x (env.now + r.taskRecordRetentionMs) }
    let policy := r.policy (r.outcome.getD .failure)
    s.setExpiry queue
      (if policy = .markAsSuccess ∨ policy = .markAsFailure then
        { e with terminal := e.terminal.add x (env.now + r.terminalIndexRetentionMs) }
      else e)

def validateLiveHolder (s : Store) (holder : TaskIdentity) : Option String :=
  match s.task (holder.queue, holder.id) with
  | none => some "retention holder not found"
  | some r =>
    if r.generation ≠ holder.generation then some "retention holder generation does not match"
    else if r.outcome.isSome then some "retention holder is settled"
    else none

/-- Hold a generation for a live holder. Replaying a hold changes nothing, even at a limit. -/
def acquireRetentionHold (holder retained : TaskIdentity) (s : Store) : Except String Store :=
  if holder ∈ s.retainedBy retained then .ok s
  else
    let holderLimit := ((s.task (holder.queue, holder.id)).map TaskRecord.maxRelationships).getD 1000
    let retainedLimit := ((s.task (retained.queue, retained.id)).map TaskRecord.maxRelationships).getD 1000
    if holderLimit ≤ (s.retains holder).card then
      .error ("STORAGE_RELATIONSHIP_LIMIT holder " ++ luaNumber holderLimit)
    else if retainedLimit ≤ (s.retainedBy retained).card then
      .error ("STORAGE_RELATIONSHIP_LIMIT retained " ++ luaNumber retainedLimit)
    else
      .ok { s with
        retainedBy := Function.update s.retainedBy retained (insert holder (s.retainedBy retained))
        retains := Function.update s.retains holder (insert retained (s.retains holder)) }

/-- The list a completion policy selects. -/
def CompletionPolicy.list : CompletionPolicy → Option TaskList
  | .markAsSuccess => some .success
  | .markAsFailure => some .failed
  | _ => none

def applyCompletionPolicy (env : Env) (queue id : String) (w : World) : World :=
  match w.store.task (queue, id) with
  | none => w
  | some r =>
    match r.outcome with
    | none => w
    | some outcome =>
      let policy := r.policy outcome
      let w := moveToList env queue id policy.list 0 false none w
      if policy = .delete ∧ w.store.hasRetentionHolds ⟨queue, id, r.generation⟩ = false then
        deleteTask env queue id true w
      else w

/-- One popped member of a holder's set: drop the other half, and dispose of what nobody holds any more. -/
def releaseHold (env : Env) (holder : TaskIdentity) (w : World) (retained : TaskIdentity) : World :=
  let w := w.modify fun s =>
    { s with retainedBy := Function.update s.retainedBy retained ((s.retainedBy retained).erase holder) }
  match w.store.current retained with
  | none => w
  | some r =>
    if r.outcome.isSome ∧ w.store.hasRetentionHolds retained = false then
      applyCompletionPolicy env retained.queue retained.id w
    else w

/-- A holder with members left stays in its queue's continuation index. -/
def noteContinuation (env : Env) (holder : TaskIdentity) (s : Store) : Store :=
  let continuation := s.continuations holder.queue
  let continuation :=
    if 0 < (s.retains holder).card then continuation.add holder env.now else continuation.remove holder
  { s with continuations := Function.update s.continuations holder.queue continuation }

def releaseOwnedHolds (env : Env) (holder : TaskIdentity) (w : World) : World :=
  let retainedMembers :=
    if 0 < w.remaining then env.spop.pop holder (w.store.retains holder) w.remaining.toNat else []
  let w := w.modify fun s =>
    { s with retains := Function.update s.retains holder (s.retains holder \ retainedMembers.toFinset) }
  let w := w.spend retainedMembers.length
  (retainedMembers.foldl (releaseHold env holder) w).modify (noteContinuation env holder)

/-! ### The end of an attempt -/

def settleTask (env : Env) (queue id : String) (terminalFailure : LuaValue) (w : World) : World :=
  let x := w.store.identity queue id
  let w := w.modify fun s => scheduleTerminalRetention env queue id (persistTerminalResult env queue id terminalFailure s)
  releaseOwnedHolds env x (applyCompletionPolicy env queue id w)

/-- Count the failure of an attempt that lost its lease key. -/
def countFailure (queue id : String) (failureKind : FailureKind) (s : Store) : Store :=
  (unlockTask queue id s).modifyTask queue id fun r =>
    if failureKind = .stall then { r with stalledAttemptCount := r.stalledAttemptCount + 1 }
    else { r with handlerFailureCount := r.handlerFailureCount + 1 }

/-- Whether a failure leaves the task runnable. -/
def willRetry (error : LuaValue) (retryAt : Option ℚ) : Bool :=
  error.errorTag ≠ some canceledTag ∧ retryAt.isSome

/-- The event of a failed attempt. -/
def failedEvent (s : Store) (queue id : String) (error : LuaValue) (retryAt : Option ℚ) (failureKind : FailureKind) :
    EventBody :=
  .failed error (((s.task (queue, id)).map TaskRecord.onFailurePolicy).getD .delete) failureKind
    (((s.task (queue, id)).map TaskRecord.attempt).getD 0) (!willRetry error retryAt) retryAt

/-- `-1`, or any other negative time, stands for no retry. -/
def retryTime (retryAt : ℚ) : Option ℚ := if retryAt < 0 then none else some retryAt

/-- The failure of an attempt up to its event. -/
def recordFailure (env : Env) (queue id : String) (error : LuaValue) (retryAt : Option ℚ) (failureKind : FailureKind)
    (w : World) : World :=
  let w := assertHistory queue id w
  let w := w.modify fun s => appendTaskError env queue id error retryAt (countFailure queue id failureKind s)
  publishEvent env queue id (failedEvent w.store queue id error retryAt failureKind)
    (some (if error.errorTag = some canceledTag then .canceled else failureKind)) none w

def failTask (env : Env) (queue id : String) (error : LuaValue) (retryAt : ℚ) (failureKind : FailureKind)
    (w : World) : World :=
  let w := recordFailure env queue id error (retryTime retryAt) failureKind w
  if willRetry error (retryTime retryAt) then
    if env.now < retryAt then moveToList env queue id (some .scheduled) retryAt false none w
    else moveToList env queue id (some .wait) 0 false none w
  else
    settleTask env queue id error (w.modify (setTask env queue id fun r => { r with outcome := some .failure }))

end EffectMQ
