import EffectMQ.Proof.Expiry

/-!
# The life of one task id

What can happen to the view of one id, as a machine of its own: an action is enabled or not, and determines the
next view. The machine knows nothing of other tasks, of lists to search or of maintenance budgets; whether a
generation is held is part of the action. Every invocation of the engine takes each view along a path of it.
-/

namespace EffectMQ

open Redis

/-- Why an attempt ended without a success. -/
inductive Cause
  | reported (leaseToken : String)
  | stalled
deriving DecidableEq, Repr

def Cause.kind : Cause → FailureKind
  | .reported _ => .handler
  | .stalled => .stall

inductive TaskAction
  | create (a : CreateArgs) (replacedTask : Option TaskRecord)
  | promote
  | lease (leaseToken : String) (lockTimeout : ℚ)
  | renew (leaseToken : String) (lockTimeout : ℚ)
  | release (leaseToken : String)
  | retry (cause : Cause) (error : LuaValue) (retryAt : ℚ)
  | fail (cause : Cause) (error : LuaValue) (retryAt : ℚ) (held : Bool)
  | succeed (leaseToken result : String) (held : Bool)
  | progress (leaseToken data : String)
  | refile
  | replace
  | expireTask
  | dropDate (g : ℕ)
  | holdDate (g : ℕ)
  | expireResult (g : ℕ) (held : Bool)
  | expireTerminal (g : ℕ)
  | expireDeadLetter (g : ℕ)
  | remove
  | revoke
  | forget (g : ℕ)

namespace TaskView

variable (env : Env) (id : String)

/-- The token of the lease that has not run out. -/
def leaseholder (v : TaskView) : Option String := (v.lock.filter fun l => env.now ≤ l.expiresAt).map Lock.token

/-- The attempt runs: its record is in the active list and has no outcome. -/
structure Running (v : TaskView) (r : TaskRecord) : Prop where
  record : v.record = some r
  place : r.place = some .active
  outcome : r.outcome = none

structure Settled (v : TaskView) (r : TaskRecord) : Prop where
  record : v.record = some r
  outcome : r.outcome.isSome

/-- A date that has come. -/
def Due (date : Option ℚ) : Prop := ∃ t, date = some t ∧ t ≤ env.now

end TaskView

/-- When a stalled attempt runs again: at once, or never beyond its stall limit. -/
def TaskView.stallTime (v : TaskView) : ℚ :=
  if (v.record.map TaskRecord.maxStalledCount).getD 1 < (v.record.map TaskRecord.stalledAttemptCount).getD 0 + 1
  then -1 else 0

/-- A report needs the lease, a stall needs the lease to be gone. -/
def Cause.Authorized (env : Env) (v : TaskView) (error : LuaValue) (retryAt : ℚ) : Cause → Prop
  | .reported leaseToken => v.leaseholder env = some leaseToken
  | .stalled => v.leaseholder env = none ∧ error = stalledError env.clock ∧ retryAt = v.stallTime

namespace TaskAction

variable (env : Env) (id : String)

def Enabled (v : TaskView) : TaskAction → Prop
  | .create _ _ => v.record = none
  | .promote => (∃ r, v.record = some r ∧ r.place = some .scheduled) ∧ TaskView.Due env (v.score .scheduled)
  | .lease _ lockTimeout => (∃ r, v.record = some r ∧ r.place = some .wait) ∧ 0 < lockTimeout
  | .renew leaseToken lockTimeout => (∃ r, v.Running r) ∧ v.leaseholder env = some leaseToken ∧ 0 < lockTimeout
  | .release leaseToken => (∃ r, v.Running r) ∧ v.leaseholder env = some leaseToken
  | .retry cause error retryAt =>
    (∃ r, v.Running r) ∧ cause.Authorized env v error retryAt ∧ willRetry error (retryTime retryAt) = true
  | .fail cause error retryAt _ =>
    (∃ r, v.Running r) ∧ cause.Authorized env v error retryAt ∧ willRetry error (retryTime retryAt) = false
  | .succeed leaseToken _ _ => (∃ r, v.Running r) ∧ v.leaseholder env = some leaseToken
  | .progress leaseToken _ => (∃ r, v.Running r) ∧ v.leaseholder env = some leaseToken
  | .refile => ∃ r, v.Settled r
  | .replace => ∃ r, v.Settled r
  | .expireTask => ∃ r, v.Settled r ∧ TaskView.Due env (v.dates r.generation).task
  | .dropDate g =>
    (∀ r, v.record = some r → r.generation = g → r.outcome = none) ∧ TaskView.Due env (v.dates g).task
  | .holdDate g => (∃ r, v.Settled r ∧ r.generation = g) ∧ TaskView.Due env (v.dates g).task
  | .expireResult g _ => TaskView.Due env (v.dates g).result
  | .expireTerminal g => TaskView.Due env (v.dates g).terminal
  | .expireDeadLetter g => TaskView.Due env (v.dates g).deadLetterExpiry
  | .remove => v.leaseholder env = none
  | .revoke => True
  | .forget g => (∀ r, v.record = some r → r.generation = g) ∧ v.leaseholder env = none

/-- The failure of a running attempt, up to where the task goes. -/
def failed (cause : Cause) (error : LuaValue) (retryAt : ℚ) (v : TaskView) : TaskView :=
  v.recordFailure env id error (retryTime retryAt) cause.kind

def apply (v : TaskView) : TaskAction → TaskView
  | .create a replacedTask => (v.create env a).announce env id a replacedTask
  | .promote => v.move env id (some .wait) 0 none
  | .lease leaseToken lockTimeout => v.lease env id leaseToken lockTimeout
  | .renew leaseToken lockTimeout => v.renew env id leaseToken lockTimeout
  | .release _ => v.unlock.move env id (some .wait) 0 none
  | .retry cause error retryAt =>
    if env.now < retryAt then (failed env id cause error retryAt v).move env id (some .scheduled) retryAt none
    else (failed env id cause error retryAt v).move env id (some .wait) 0 none
  | .fail cause error retryAt held =>
    ((failed env id cause error retryAt v).set env fun r => { r with outcome := some .failure }).settle env id error held
  | .succeed _ result held => (v.succeed env id result).settle env id .nil held
  | .progress _ data => v.push env id (.progress data) none
  | .refile => v.applyPolicy env id false
  | .replace => (v.delete env id).unlock
  | .expireTask => v.delete env id
  | .dropDate g => v.setDates g fun d => { d with task := none }
  | .holdDate g => v.setDates g fun d => { d with task := some (env.now + 1000) }
  | .expireResult g held => TaskView.expireResult env held g v
  | .expireTerminal g => v.expireTerminal g
  | .expireDeadLetter g => v.setDates g fun d => { d with deadLetter := none, deadLetterExpiry := none }
  | .remove => v.delete env id
  | .revoke => v.unlock
  | .forget g => (v.erase g).delete env id

end TaskAction

/-- A step of the task machine. -/
def TaskStep (env : Env) (id : String) (v : TaskView) (a : TaskAction) (v' : TaskView) : Prop :=
  a.Enabled env v ∧ v' = a.apply env id v

/-! ### Records and logs after the composite operations -/

/-- A failure's own fields. -/
def TaskRecord.failed (env : Env) (r : TaskRecord) (error : LuaValue) (retryAt : Option ℚ) (kind : FailureKind) :
    TaskRecord :=
  let r := if kind = .stall then { r with stalledAttemptCount := r.stalledAttemptCount + 1 }
    else { r with handlerFailureCount := r.handlerFailureCount + 1 }
  { r with
    updatedAt := env.clock
    errors := appendError r.maxErrorEntries r.errors ⟨error, env.clock, retryAt⟩ }

namespace TaskRecord

variable (env : Env) (r : TaskRecord) (error : LuaValue) (retryAt : Option ℚ) (kind : FailureKind)

@[simp] theorem generation_failed : (r.failed env error retryAt kind).generation = r.generation := by
  unfold failed
  split <;> rfl

@[simp] theorem currentList_failed : (r.failed env error retryAt kind).currentList = r.currentList := by
  unfold failed
  split <;> rfl

@[simp] theorem outcome_failed : (r.failed env error retryAt kind).outcome = r.outcome := by
  unfold failed
  split <;> rfl

end TaskRecord

namespace TaskView

variable (env : Env) {id : String} {v : TaskView} {r : TaskRecord}

theorem event_of_record (h : v.record = some r) (body : EventBody) :
    v.event id body = ⟨id, r.generation, r.protocolVersion, r.schemaId, body⟩ := by
  simp [event, h]

/-- The record before its failure is published. -/
theorem record_appendTaskError (h : v.record = some r) (error : LuaValue) (retryAt : Option ℚ) (kind : FailureKind) :
    ((v.countFailure kind).appendTaskError env error retryAt).record = some (r.failed env error retryAt kind) := by
  unfold countFailure appendTaskError set modify TaskRecord.failed
  split <;> simp [unlock, h]

theorem record_recordFailure (id : String) (h : v.record = some r) (error : LuaValue) (retryAt : Option ℚ) (kind : FailureKind) :
    ∃ history, (v.recordFailure env id error retryAt kind).record =
      some { r.failed env error retryAt kind with history := history } :=
  record_publish env id _ _ none (record_appendTaskError env h error retryAt kind)

theorem record_persist (terminalFailure : LuaValue) : (v.persist env terminalFailure).record = v.record := by
  unfold persist
  split <;> rfl

theorem record_retention : (v.retention env).record = v.record := by
  unfold retention
  split <;> rfl

/-- The completion policy of a settled record: it goes, or it is placed. -/
theorem applyPolicy_of_settled {outcome : Outcome} (h : v.record = some r) (ho : r.outcome = some outcome)
    (held : Bool) :
    v.applyPolicy env id held =
      if r.policy outcome = .delete ∧ held = false then (v.move env id none 0 none).delete env id
      else v.move env id (r.policy outcome).list 0 none := by
  unfold applyPolicy
  simp only [h, ho]
  split
  · next hdelete =>
    rw [hdelete.1]
    rfl
  · rfl

@[simp] theorem lock_applyPolicy (held : Bool) : (v.applyPolicy env id held).lock = v.lock := by
  unfold applyPolicy
  split
  · rfl
  · split
    · rfl
    · dsimp only
      split
      · simp [delete, drop]
      · simp

theorem record_delete : (v.delete env id).record = none := rfl

end TaskView

end EffectMQ
