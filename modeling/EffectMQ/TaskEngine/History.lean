import EffectMQ.TaskEngine.Numbers
import EffectMQ.TaskEngine.Store

/-!
# Task history

One stream for each generation of a task that enabled it, with its counters in the task hash. Disabled tasks
write nothing.
-/

namespace EffectMQ

open Redis

/-- What `assertHistory` finds wrong with the history of a task. -/
def historyFault (s : Store) (queue id : String) : Option String :=
  match s.task (queue, id) with
  | none => none
  | some r =>
    if r.history.enabled = false then none
    else if maxSafeInteger ≤ r.history.sequence then some "CORRUPT_HISTORY invalid sequence"
    else if maxSafeInteger < r.history.maxEntries ∨ r.history.sequence < r.history.trimmed then
      some "CORRUPT_HISTORY invalid limits or trim metadata"
    else if (s.history ⟨queue, id, r.generation⟩).length ≠ r.history.sequence - r.history.trimmed then
      some "CORRUPT_HISTORY inconsistent stream length"
    else none

def assertHistory (queue id : String) (w : World) : World :=
  match historyFault w.store queue id with
  | some message => w.raise message
  | none => w

/-- The entry that `appendHistory` adds for a record. -/
def historyEntry (env : Env) (id : String) (r : TaskRecord) (data : HistoryData) (attempt : Option ℕ) :
    HistoryEntry where
  taskId := id
  generation := r.generation
  schemaId := r.schemaId
  attempt := attempt.getD r.attempt
  timestamp := env.clock
  sequence := r.history.sequence + 1
  data := data

/-- `XADD` to the stream of a record's generation, then the exact trim to its cap. -/
def pushHistory (env : Env) (queue id : String) (r : TaskRecord) (data : HistoryData) (attempt : Option ℕ)
    (s : Store) : Store :=
  let x : TaskIdentity := ⟨queue, id, r.generation⟩
  let sequence := r.history.sequence + 1
  let entries := s.history x ++
    [(StreamId.next env.clock (lastId (s.history x)), historyEntry env id r data attempt)]
  let limit := r.history.maxEntries
  if 0 < limit ∧ limit < entries.length then
    -- the cap never changes, so one append has at most one entry to evict
    let oldest := (entries.head?.map Prod.fst).getD StreamId.zero
    { s.modifyTask queue id fun r => { r with history :=
        { r.history with sequence := sequence, trimmed := sequence - limit, trimmedId := oldest } } with
      history := Function.update s.history x (entries.drop (entries.length - limit)) }
  else
    { s.modifyTask queue id fun r => { r with history := { r.history with sequence := sequence } } with
      history := Function.update s.history x entries }

def appendHistory (env : Env) (queue id : String) (data : HistoryData) (attempt : Option ℕ) (w : World) : World :=
  match w.store.task (queue, id) with
  | none => w
  | some r =>
    if r.history.enabled then (assertHistory queue id w).modify (pushHistory env queue id r data attempt) else w

/-- The history entry that an event leaves: its tag and its allowed fields, as they are read back from their `cjson`
text. -/
def lifecycleData (body : EventBody) (failureKind : Option FailureKind) : HistoryData :=
  match body with
  | .created _ _ => .created
  | .updated _ _ _ => .updated
  | .moved source target previousState newState _ _ _ => .moved source target previousState newState
  | .completed _ policy => .completed policy
  | .failed _ policy kind _ terminal retryAt => .failed policy (failureKind.getD kind) terminal (retryAt.map cjsonNumber)

def publishHistoryLifecycle (env : Env) (queue id : String) (body : EventBody) (failureKind : Option FailureKind)
    (attempt : Option ℕ) (w : World) : World :=
  appendHistory env queue id (lifecycleData body failureKind) attempt w

end EffectMQ
