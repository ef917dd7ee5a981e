import EffectMQ.TaskEngine.History

/-!
# Events and list membership

Publishing an event, and the one function that moves a task between lists. `moveToList` trusts the list the
record names; a record without the field, a stale name or debug mode makes it look through all of them.
-/

namespace EffectMQ

open Redis

/-- `XADD` to the queue's event stream with its two trims, under the identity of the stored record. -/
def appendEvent (env : Env) (queue id : String) (body : EventBody) (s : Store) : Store :=
  let r := s.task (queue, id)
  let event : Event :=
    { taskId := id
      generation := (r.map TaskRecord.generation).getD 0
      protocolVersion := (r.map TaskRecord.protocolVersion).getD 1
      schemaId := (r.map TaskRecord.schemaId).getD "unknown"
      body := body }
  let maxEventEntries := (r.map TaskRecord.maxEventEntries).getD 10000
  let cutoff := env.clock - (r.map TaskRecord.eventRetentionMs).getD 604800000
  let stream := ((s.events queue).append env.clock event).trimByLength (env.trimByLength queue) maxEventEntries
  { s with events := Function.update s.events queue (stream.trimById (env.trimById queue) cutoff) }

def publishEvent (env : Env) (queue id : String) (body : EventBody) (historyFailureKind : Option FailureKind)
    (historyAttempt : Option ℕ) (w : World) : World :=
  (publishHistoryLifecycle env queue id body historyFailureKind historyAttempt w).modify
    (appendEvent env queue id body)

/-- The id of the newest entry of the event stream. -/
def latestEventCursor (s : Store) (queue : String) : StreamId := lastId (s.events queue).retained

namespace QueueLists

/-- Take an id out of a list once; the number of entries that went. -/
def removeFrom (L : QueueLists) (id : String) : TaskList → ℕ × QueueLists
  | .wait => (if id ∈ L.wait then 1 else 0, { L with wait := L.wait.erase id })
  | .scheduled => (if (L.scheduled.score id).isSome then 1 else 0, { L with scheduled := L.scheduled.remove id })
  | .active => (if (L.active.score id).isSome then 1 else 0, { L with active := L.active.remove id })
  | .failed => (if (L.failed.score id).isSome then 1 else 0, { L with failed := L.failed.remove id })
  | .success => (if (L.success.score id).isSome then 1 else 0, { L with success := L.success.remove id })

/-- Take every occurrence of an id out of a list. -/
def removeEvery (L : QueueLists) (id : String) : TaskList → ℕ × QueueLists
  | .wait => (L.wait.count id, { L with wait := L.wait.filter fun x => x ≠ id })
  | l => L.removeFrom id l

/-- Put an id into a list, with a score where the list keeps one. -/
def addTo (L : QueueLists) (id : String) (score : ℚ) : TaskList → QueueLists
  | .wait => { L with wait := L.wait ++ [id] }
  | .scheduled => { L with scheduled := L.scheduled.add id score }
  | .active => { L with active := L.active.add id score }
  | .failed => { L with failed := L.failed.add id score }
  | .success => { L with success := L.success.add id score }

/-- The scan over all lists; the first one that held the id counts as its list. -/
def scan (L : QueueLists) (id : String) (currentList : Option TaskList) : Option TaskList × QueueLists :=
  [TaskList.scheduled, .active, .failed, .success, .wait].foldl (fun acc l =>
    let (removed, L) := acc.2.removeEvery id l
    (if 0 < removed then acc.1 <|> some l else acc.1, L)) (currentList, L)

end QueueLists

def removeFromCurrentLists (env : Env) (queue id : String) (s : Store) : Option TaskList × Store :=
  let L := s.lists queue
  let storedList := (s.task (queue, id)).bind TaskRecord.currentList
  let (storedRemoval, L') := match storedList.join with
    | some l => L.removeFrom id l
    | none => (0, L)
  if storedList = none ∨ storedList ≠ some none ∧ storedRemoval = 0 ∨ env.debugMode = true then
    let (currentList, L') := L'.scan id (if storedRemoval = 0 then none else storedList.join)
    (currentList, s.setLists queue L')
  else
    (storedList.join, s.setLists queue L')

/-- The execution state that a list, or no list, stands for. -/
def executionState (s : Store) (queue id : String) : Option TaskList → Option ExecutionState
  | some .wait => some .waiting
  | some .active => some .leased
  | some .success => some .succeeded
  | some .failed => some .failed
  | some .scheduled =>
    let handlerFailures := ((s.task (queue, id)).map TaskRecord.handlerFailureCount).getD 0
    let stalledAttempts := ((s.task (queue, id)).map TaskRecord.stalledAttemptCount).getD 0
    if 0 < handlerFailures + stalledAttempts then some .retryScheduled else some .delayed
  | none =>
    match (s.task (queue, id)).bind TaskRecord.outcome with
    | some .success => some .succeeded
    | some .failure => some .failed
    | none => none

/-- The score an id gets in a list: the terminal lists record the clock. -/
def entryScore (env : Env) (readyAt : ℚ) : TaskList → ℚ
  | .failed => env.now
  | .success => env.now
  | _ => readyAt

/-- The move event of a record. -/
def movedEvent (s : Store) (queue id : String) (source target : Option TaskList) : EventBody :=
  .moved source target (executionState s queue id source) (executionState s queue id target)
    (((s.task (queue, id)).map TaskRecord.attempt).getD 0)
    (((s.task (queue, id)).map TaskRecord.handlerFailureCount).getD 0)
    (((s.task (queue, id)).map TaskRecord.stalledAttemptCount).getD 0)

/-- The list changes of `moveToList`; the list the task was taken out of. -/
def relist (env : Env) (queue id : String) (list : Option TaskList) (readyAt : ℚ) (sourceKnownEmpty : Bool)
    (s : Store) : Option TaskList × Store :=
  let (currentList, s) := if sourceKnownEmpty then (none, s) else removeFromCurrentLists env queue id s
  let s := match list with
    | some l => s.setLists queue ((s.lists queue).addTo id (entryScore env readyAt l) l)
    | none => s
  (currentList, s.modifyTask queue id fun r => { r with currentList := some list })

def moveToList (env : Env) (queue id : String) (list : Option TaskList) (readyAt : ℚ) (sourceKnownEmpty : Bool)
    (historyAttempt : Option ℕ) (w : World) : World :=
  let w := assertHistory queue id w
  let (currentList, s) := relist env queue id list readyAt sourceKnownEmpty w.store
  let w := { w with store := s }
  if currentList = list then w
  else publishEvent env queue id (movedEvent s queue id currentList list) none historyAttempt w

/-- Drop a record together with its history, its expiry entries and its `created` entry. -/
def dropRecord (queue id : String) (generation : Option ℕ) (s : Store) : Store :=
  let s := match generation with
    | some g =>
      let x : TaskIdentity := ⟨queue, id, g⟩
      let e := s.expiry queue
      { s.setExpiry queue { e with tasks := e.tasks.remove x, terminal := e.terminal.remove x } with
        history := Function.update s.history x [] }
    | none => s
  { s with
    created := Function.update s.created queue ((s.created queue).remove id)
    task := Function.update s.task (queue, id) none }

def deleteTask (env : Env) (queue id : String) (sourceKnownEmpty : Bool) (w : World) : World :=
  let generation := (w.store.task (queue, id)).map TaskRecord.generation
  (moveToList env queue id none 0 sourceKnownEmpty none w).modify (dropRecord queue id generation)

end EffectMQ
