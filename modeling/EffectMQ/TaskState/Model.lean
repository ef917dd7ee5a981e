import EffectMQ.TaskEngine.Record
import EffectMQ.Transition.System

/-!
# The reference model of a queue

The small model that the state tests run beside the engine: a task is in one execution state, with the token of its lease,
its two failure counts and its holders. Every operation either gives the next model or names what is wrong.
-/

namespace EffectMQ

open Transition

structure ModelTask (K H : Type) where
  id : K
  generation : ℕ
  state : ExecutionState
  leaseToken : Option String
  handlerFailureCount : ℕ
  stalledAttemptCount : ℕ
  retainedBy : Finset H

structure TaskStateModel (K H : Type) where
  tasks : K → Option (ModelTask K H)

inductive ModelError
  | taskNotFound | taskAlreadyExists | taskNotRunnable | leaseLost | taskNotSettled | taskRetained
deriving DecidableEq, Repr

abbrev ModelResult (α : Type) := Except ModelError α

inductive ModelOp (K H : Type)
  | offer (id : K) (generation : Option ℕ) (delayed : Bool)
  | acquire (id : K) (leaseToken : String)
  | renew (id : K) (leaseToken : String)
  | fail (id : K) (leaseToken : String) (retry : Bool)
  | succeed (id : K) (leaseToken : String)
  | expire (id : K) (maxStalledCount : ℕ)
  | retain (id : K) (holder : H)
  | release (id : K) (holder : H)
  | remove (id : K)
deriving DecidableEq, Repr

namespace TaskStateModel

variable {K H : Type} [DecidableEq K] [DecidableEq H]

def make : TaskStateModel K H := ⟨fun _ => none⟩

def replace (model : TaskStateModel K H) (task : ModelTask K H) : TaskStateModel K H :=
  ⟨Function.update model.tasks task.id (some task)⟩

def find (model : TaskStateModel K H) (id : K) : ModelResult (ModelTask K H) :=
  match model.tasks id with
  | none => .error .taskNotFound
  | some task => .ok task

def offer (model : TaskStateModel K H) (id : K) (generation : Option ℕ) (delayed : Bool) : ModelResult (TaskStateModel K H) :=
  if (model.tasks id).isSome then .error .taskAlreadyExists
  else .ok (model.replace
    { id := id
      generation := generation.getD 1
      state := if delayed then .delayed else .waiting
      leaseToken := none
      handlerFailureCount := 0
      stalledAttemptCount := 0
      retainedBy := ∅ })

def acquire (model : TaskStateModel K H) (id : K) (leaseToken : String) : ModelResult (TaskStateModel K H) :=
  (model.find id).bind fun found =>
    if found.state ≠ .waiting ∧ found.state ≠ .retryScheduled then .error .taskNotRunnable
    else .ok (model.replace { found with state := .leased, leaseToken := some leaseToken })

def currentLease (model : TaskStateModel K H) (id : K) (leaseToken : String) : ModelResult (ModelTask K H) :=
  (model.find id).bind fun found =>
    if found.state = .leased ∧ found.leaseToken = some leaseToken then .ok found else .error .leaseLost

def renew (model : TaskStateModel K H) (id : K) (leaseToken : String) : ModelResult (TaskStateModel K H) :=
  (model.currentLease id leaseToken).map fun _ => model

def fail (model : TaskStateModel K H) (id : K) (leaseToken : String) (retry : Bool) : ModelResult (TaskStateModel K H) :=
  (model.currentLease id leaseToken).map fun found => model.replace
    { found with
      state := if retry then .retryScheduled else .failed
      leaseToken := none
      handlerFailureCount := found.handlerFailureCount + 1 }

def succeed (model : TaskStateModel K H) (id : K) (leaseToken : String) : ModelResult (TaskStateModel K H) :=
  (model.currentLease id leaseToken).map fun found => model.replace { found with state := .succeeded, leaseToken := none }

def expire (model : TaskStateModel K H) (id : K) (maxStalledCount : ℕ) : ModelResult (TaskStateModel K H) :=
  (model.find id).bind fun found =>
    if found.state ≠ .leased then .error .taskNotRunnable
    else
      let stalledAttemptCount := found.stalledAttemptCount + 1
      .ok (model.replace
        { found with
          state := if maxStalledCount < stalledAttemptCount then .failed else .waiting
          leaseToken := none
          stalledAttemptCount := stalledAttemptCount })

def retain (model : TaskStateModel K H) (id : K) (holder : H) : ModelResult (TaskStateModel K H) :=
  (model.find id).map fun found => model.replace { found with retainedBy := insert holder found.retainedBy }

def release (model : TaskStateModel K H) (id : K) (holder : H) : ModelResult (TaskStateModel K H) :=
  (model.find id).map fun found => model.replace { found with retainedBy := found.retainedBy.erase holder }

def remove (model : TaskStateModel K H) (id : K) : ModelResult (TaskStateModel K H) :=
  (model.find id).bind fun found =>
    if found.state ≠ .succeeded ∧ found.state ≠ .failed then .error .taskNotSettled
    else if found.retainedBy ≠ ∅ then .error .taskRetained
    else .ok ⟨Function.update model.tasks id none⟩

def apply (model : TaskStateModel K H) : ModelOp K H → ModelResult (TaskStateModel K H)
  | .offer id generation delayed => model.offer id generation delayed
  | .acquire id leaseToken => model.acquire id leaseToken
  | .renew id leaseToken => model.renew id leaseToken
  | .fail id leaseToken retry => model.fail id leaseToken retry
  | .succeed id leaseToken => model.succeed id leaseToken
  | .expire id maxStalledCount => model.expire id maxStalledCount
  | .retain id holder => model.retain id holder
  | .release id holder => model.release id holder
  | .remove id => model.remove id

/-- What `assertInvariants` checks of one entry. -/
structure SoundTask (id : K) (task : ModelTask K H) : Prop where
  key : task.id = id
  generation : 1 ≤ task.generation
  leased : task.state = .leased → task.leaseToken.isSome
  unleased : task.state ≠ .leased → task.leaseToken = none

/-- `assertInvariants` passes; counts are natural numbers here. -/
def Sound (model : TaskStateModel K H) : Prop := ∀ id task, model.tasks id = some task → SoundTask id task

end TaskStateModel

/-- The reference model as a transition system: an operation that fails is no step. -/
def reference (K H : Type) [DecidableEq K] [DecidableEq H] : System (TaskStateModel K H) (ModelOp K H) where
  initial model := model = .make
  step model op model' := model.apply op = .ok model'

end EffectMQ
