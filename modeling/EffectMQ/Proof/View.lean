import EffectMQ.Proof.Placement

/-!
# The view of a task

Everything the store keeps under one task id, whatever its generation: the record, the counter, the lists, the
lease, the results, the expiry dates, the histories and the published events. The store is a family of such
views, apart from the retention sets and the schedules, and most functions of the engine change the view of one
id only. `TaskView` has the same operations as the store, without the search through the lists.
-/

namespace EffectMQ

open Redis

/-- A queue and a task id. -/
abbrev TaskKey := String × String

/-- The scores of one generation in the expiry indexes. -/
@[ext] structure Dates where
  task : Option ℚ
  result : Option ℚ
  terminal : Option ℚ
  deadLetter : Option ℚ
  deadLetterExpiry : Option ℚ
deriving DecidableEq

def Dates.none : Dates := ⟨.none, .none, .none, .none, .none⟩

def ExpiryIndexes.dates (e : ExpiryIndexes) (x : TaskIdentity) : Dates :=
  ⟨e.tasks.score x, e.results.score x, e.terminal.score x, e.deadLetters.score x, e.deadLetterExpiry.score x⟩

@[ext] structure TaskView where
  record : Option TaskRecord
  counter : ℕ
  createdAt : Option ℚ
  waiting : ℕ
  score : TaskList → Option ℚ
  lock : Option Lock
  result : ℕ → Option TerminalResult
  dates : ℕ → Dates
  history : ℕ → List (StreamId × HistoryEntry)
  log : List Event

/-- The events that a queue ever published for an id. -/
def Store.log (s : Store) (queue id : String) : List Event :=
  ((s.events queue).published.map Prod.snd).filter fun e => e.taskId = id

def Store.view (s : Store) (k : TaskKey) : TaskView where
  record := s.task k
  counter := s.generations k
  createdAt := (s.created k.1).score k.2
  waiting := (s.lists k.1).wait.count k.2
  score := (s.lists k.1).score k.2
  lock := s.lock k
  result g := s.result ⟨k.1, k.2, g⟩
  dates g := (s.expiry k.1).dates ⟨k.1, k.2, g⟩
  history g := s.history ⟨k.1, k.2, g⟩
  log := s.log k.1 k.2

/-- The history fields of a record and the stream of its generation after an append. -/
def TaskRecord.pushed (env : Env) (id : String) (r : TaskRecord) (stream : List (StreamId × HistoryEntry))
    (data : HistoryData) (attempt : Option ℕ) : HistoryFields × List (StreamId × HistoryEntry) :=
  let sequence := r.history.sequence + 1
  let entries := stream ++ [(StreamId.next env.clock (lastId stream), historyEntry env id r data attempt)]
  let limit := r.history.maxEntries
  if r.history.enabled = false then (r.history, stream)
  else if 0 < limit ∧ limit < entries.length then
    ({ r.history with
        sequence := sequence
        trimmed := sequence - limit
        trimmedId := (entries.head?.map Prod.fst).getD StreamId.zero },
      entries.drop (entries.length - limit))
  else ({ r.history with sequence := sequence }, entries)

namespace TaskView

variable (env : Env) (id : String) (v : TaskView)

def modify (f : TaskRecord → TaskRecord) : TaskView := { v with record := v.record.map f }

/-- The list the record names. -/
def place : Option TaskList := v.record.bind TaskRecord.place

/-- The id is listed where the record says. -/
structure Listed : Prop where
  waiting : v.waiting = if v.place = some .wait then 1 else 0
  score : ∀ l, (v.score l).isSome ↔ v.place = some l ∧ l ≠ .wait

def push (data : HistoryData) (attempt : Option ℕ) : TaskView :=
  { v with
    record := v.record.map fun r => { r with history := (r.pushed env id (v.history r.generation) data attempt).1 }
    history := match v.record with
      | none => v.history
      | some r =>
        Function.update v.history r.generation (r.pushed env id (v.history r.generation) data attempt).2 }

/-- An event under the identity of the record. -/
def event (body : EventBody) : Event where
  taskId := id
  generation := (v.record.map TaskRecord.generation).getD 0
  protocolVersion := (v.record.map TaskRecord.protocolVersion).getD 1
  schemaId := (v.record.map TaskRecord.schemaId).getD "unknown"
  body := body

def publish (body : EventBody) (failureKind : Option FailureKind) (attempt : Option ℕ) : TaskView :=
  { v.push env id (lifecycleData body failureKind) attempt with log := v.log ++ [v.event id body] }

/-- The execution state that a list, or no list, stands for. -/
def state : Option TaskList → Option ExecutionState
  | some .wait => some .waiting
  | some .active => some .leased
  | some .success => some .succeeded
  | some .failed => some .failed
  | some .scheduled =>
    if 0 < (v.record.map TaskRecord.handlerFailureCount).getD 0 + (v.record.map TaskRecord.stalledAttemptCount).getD 0
    then some .retryScheduled else some .delayed
  | none =>
    match v.record.bind TaskRecord.outcome with
    | some .success => some .succeeded
    | some .failure => some .failed
    | none => none

def moved (source target : Option TaskList) : EventBody :=
  .moved source target (v.state source) (v.state target) ((v.record.map TaskRecord.attempt).getD 0)
    ((v.record.map TaskRecord.handlerFailureCount).getD 0) ((v.record.map TaskRecord.stalledAttemptCount).getD 0)

def relist (list : Option TaskList) (readyAt : ℚ) : TaskView :=
  { v with
    record := v.record.map fun r => { r with currentList := some list }
    waiting := if list = some .wait then 1 else 0
    score := fun l => if list = some l ∧ l ≠ .wait then some (entryScore env readyAt l) else none }

def move (list : Option TaskList) (readyAt : ℚ) (attempt : Option ℕ) : TaskView :=
  if v.place = list then v.relist env list readyAt
  else (v.relist env list readyAt).publish env id ((v.relist env list readyAt).moved v.place list) none attempt

/-- Change the dates of a generation. -/
def setDates (g : ℕ) (f : Dates → Dates) : TaskView := { v with dates := Function.update v.dates g (f (v.dates g)) }

/-- The record goes, with its history and the dates that speak of it. -/
def drop : TaskView :=
  { v with
    record := none
    createdAt := none
    dates := match v.record with
      | none => v.dates
      | some r => Function.update v.dates r.generation { v.dates r.generation with task := none, terminal := none }
    history := match v.record with
      | none => v.history
      | some r => Function.update v.history r.generation [] }

/-- `deleteTask`. -/
def delete : TaskView := (v.move env id none 0 none).drop

def unlock : TaskView := { v with lock := none }

/-- `lockTask`. -/
def lease (leaseToken : String) (lockTimeout : ℚ) : TaskView :=
  { (v.move env id (some .active) (env.now + lockTimeout)
        (some ((v.record.map TaskRecord.attempt).getD 0 + 1))).modify
      fun r => { r with attempt := r.attempt + 1 } with
    lock := some ⟨leaseToken, env.now + lockTimeout⟩ }

/-- `setTask`. -/
def set (f : TaskRecord → TaskRecord) : TaskView := v.modify fun r => f { r with updatedAt := env.clock }

/-- The result that `persistTerminalResult` writes over an older one. -/
def resultOf (r : TaskRecord) (old : Option TerminalResult) (terminalFailure : LuaValue) : TerminalResult :=
  let outcome := r.outcome.getD .failure
  { protocolVersion := r.protocolVersion
    schemaId := r.schemaId
    generation := r.generation
    outcome := outcome
    settledAt := env.clock
    success := if outcome = .success then r.success else old.bind TerminalResult.success
    failure := if outcome = .success then old.bind TerminalResult.failure
      else terminalFailureOf r terminalFailure <|> old.bind TerminalResult.failure }

def persist (terminalFailure : LuaValue) : TaskView :=
  match v.record with
  | none => v
  | some r =>
    { v.setDates r.generation fun d =>
        { d with
          result := some (env.now + r.resultRetentionMs)
          deadLetter := if r.outcome.getD .failure = .success then d.deadLetter else some env.now
          deadLetterExpiry := if r.outcome.getD .failure = .success then d.deadLetterExpiry
            else some (env.now + r.deadLetterRetentionMs) } with
      result := Function.update v.result r.generation (some (resultOf env r (v.result r.generation) terminalFailure)) }

/-- `scheduleTerminalRetention`. -/
def retention : TaskView :=
  match v.record with
  | none => v
  | some r =>
    v.setDates r.generation fun d =>
      { d with
        task := some (env.now + r.taskRecordRetentionMs)
        terminal :=
          if r.policy (r.outcome.getD .failure) = .markAsSuccess ∨ r.policy (r.outcome.getD .failure) = .markAsFailure
          then some (env.now + r.terminalIndexRetentionMs) else d.terminal }

/-- `applyCompletionPolicy`, for a generation that is held or not. -/
def applyPolicy (held : Bool) : TaskView :=
  match v.record with
  | none => v
  | some r =>
    match r.outcome with
    | none => v
    | some outcome =>
      let v := v.move env id (r.policy outcome).list 0 none
      if r.policy outcome = .delete ∧ held = false then v.delete env id else v

/-- `countFailure`. -/
def countFailure (failureKind : FailureKind) : TaskView :=
  v.unlock.modify fun r =>
    if failureKind = .stall then { r with stalledAttemptCount := r.stalledAttemptCount + 1 }
    else { r with handlerFailureCount := r.handlerFailureCount + 1 }

/-- `appendTaskError`. -/
def appendTaskError (error : LuaValue) (retryAt : Option ℚ) : TaskView :=
  v.set env fun r => { r with errors := appendError r.maxErrorEntries r.errors ⟨error, env.clock, retryAt⟩ }

/-- `failedEvent`. -/
def failedEvent (error : LuaValue) (retryAt : Option ℚ) (failureKind : FailureKind) : EventBody :=
  .failed error ((v.record.map TaskRecord.onFailurePolicy).getD .delete) failureKind
    ((v.record.map TaskRecord.attempt).getD 0) (!willRetry error retryAt) retryAt

/-- `recordFailure`. -/
def recordFailure (error : LuaValue) (retryAt : Option ℚ) (failureKind : FailureKind) : TaskView :=
  let v := (v.countFailure failureKind).appendTaskError env error retryAt
  v.publish env id (v.failedEvent error retryAt failureKind)
    (some (if error.errorTag = some canceledTag then .canceled else failureKind)) none

/-- `settleTask` up to the release of the holds. -/
def settle (terminalFailure : LuaValue) (held : Bool) : TaskView :=
  ((v.persist env terminalFailure).retention env).applyPolicy env id held

/-- The success of an attempt up to its settlement. -/
def succeed (result : String) : TaskView :=
  let v := v.unlock.set env fun r => { r with success := some result, outcome := some .success }
  v.publish env id (.completed result ((v.record.map TaskRecord.onSuccessPolicy).getD .delete)) none none

/-- `writeRecord`. -/
def create (a : CreateArgs) : TaskView :=
  { v with
    counter := v.counter + 1
    record := some (newRecord env a (v.counter + 1))
    createdAt := some env.now }

/-- The event of a creation. -/
def announcement (a : CreateArgs) (replacedTask : Option TaskRecord) : EventBody :=
  let newTask := v.record.getD (newRecord env a 0)
  let state := if 0 < a.delay.getD 0 then ExecutionState.delayed else .waiting
  match replacedTask with
  | some existingTask => EventBody.updated existingTask newTask state
  | none => .created newTask state

/-- `announce`. -/
def announce (a : CreateArgs) (replacedTask : Option TaskRecord) : TaskView :=
  let w := v.publish env id (v.announcement env a replacedTask) none none
  if 0 < a.delay.getD 0 then w.move env id (some .scheduled) (double (env.now + a.delay.getD 0)) none
  else w.move env id (some .wait) 0 none

/-- `renewLease`. -/
def renew (leaseToken : String) (lockTimeout : ℚ) : TaskView :=
  { v with lock := some ⟨leaseToken, env.now + lockTimeout⟩ }.move env id (some .active) (env.now + lockTimeout) none

/-- The record after its id left the terminal indexes. -/
def unindexed (r : TaskRecord) : TaskRecord :=
  if (v.score .success).isSome ∨ (v.score .failed).isSome then { r with currentList := some none } else r

def unindexTerminal : TaskView :=
  { v with
    score := fun l => if l = .success ∨ l = .failed then none else v.score l
    record := v.record.map v.unindexed }

def expireTerminal (g : ℕ) : TaskView :=
  (if v.record.any fun r => r.generation = g then v.unindexTerminal else v).setDates g fun d =>
    { d with terminal := none }

/-- `eraseGeneration`. -/
def erase (g : ℕ) : TaskView :=
  { v.setDates g fun _ => Dates.none with result := Function.update v.result g none }

/-! ### What each operation leaves -/

section

variable {v} {r : TaskRecord} (data : HistoryData) (body : EventBody) (failureKind : Option FailureKind)
  (attempt : Option ℕ) (list : Option TaskList) (readyAt : ℚ) (f : TaskRecord → TaskRecord)

theorem record_push (h : v.record = some r) :
    ∃ history, (v.push env id data attempt).record = some { r with history := history } :=
  ⟨(r.pushed env id (v.history r.generation) data attempt).1, by simp [push, h]⟩

theorem record_publish (h : v.record = some r) :
    ∃ history, (v.publish env id body failureKind attempt).record = some { r with history := history } :=
  record_push env id _ attempt h

theorem record_move (h : v.record = some r) :
    ∃ history, (v.move env id list readyAt attempt).record =
      some { r with currentList := some list, history := history } := by
  have hrelist : (v.relist env list readyAt).record = some { r with currentList := some list } := by
    simp [relist, h]
  unfold move
  split
  · exact ⟨r.history, hrelist⟩
  · exact record_publish env id _ none attempt hrelist

theorem record_publish_none (h : v.record = none) :
    (v.publish env id body failureKind attempt).record = none := by
  simp [publish, push, h]

theorem record_move_none (h : v.record = none) : (v.move env id list readyAt attempt).record = none := by
  unfold move
  split
  · simp [relist, h]
  · exact record_publish_none env id _ none attempt (by simp [relist, h])

@[simp] theorem place_publish : (v.publish env id body failureKind attempt).place = v.place := by
  cases h : v.record <;> simp [place, publish, push, h, TaskRecord.place]

@[simp] theorem place_relist_some (h : v.record = some r) : (v.relist env list readyAt).place = list := by
  simp [place, relist, h, TaskRecord.place]

theorem place_of_record (h : v.record = some r) : v.place = r.place := by
  simp [place, h]

theorem place_of_record_none (h : v.record = none) : v.place = none := by
  simp [place, h]

theorem place_move (h : v.record = some r) : (v.move env id list readyAt attempt).place = list := by
  obtain ⟨history, hrecord⟩ := record_move env id attempt list readyAt h
  simp [place, hrecord, TaskRecord.place]

@[simp] theorem counter_publish : (v.publish env id body failureKind attempt).counter = v.counter := rfl

@[simp] theorem createdAt_publish : (v.publish env id body failureKind attempt).createdAt = v.createdAt := rfl

@[simp] theorem waiting_publish : (v.publish env id body failureKind attempt).waiting = v.waiting := rfl

@[simp] theorem score_publish : (v.publish env id body failureKind attempt).score = v.score := rfl

@[simp] theorem lock_publish : (v.publish env id body failureKind attempt).lock = v.lock := rfl

@[simp] theorem result_publish : (v.publish env id body failureKind attempt).result = v.result := rfl

@[simp] theorem dates_publish : (v.publish env id body failureKind attempt).dates = v.dates := rfl

@[simp] theorem log_publish : (v.publish env id body failureKind attempt).log = v.log ++ [v.event id body] := rfl

@[simp] theorem counter_move : (v.move env id list readyAt attempt).counter = v.counter := by
  unfold move
  split <;> rfl

@[simp] theorem createdAt_move : (v.move env id list readyAt attempt).createdAt = v.createdAt := by
  unfold move
  split <;> rfl

@[simp] theorem waiting_move : (v.move env id list readyAt attempt).waiting = if list = some .wait then 1 else 0 := by
  unfold move
  split <;> rfl

@[simp] theorem score_move (l : TaskList) : (v.move env id list readyAt attempt).score l =
    if list = some l ∧ l ≠ .wait then some (entryScore env readyAt l) else none := by
  unfold move
  split <;> rfl

@[simp] theorem lock_move : (v.move env id list readyAt attempt).lock = v.lock := by
  unfold move
  split <;> rfl

@[simp] theorem result_move : (v.move env id list readyAt attempt).result = v.result := by
  unfold move
  split <;> rfl

@[simp] theorem dates_move : (v.move env id list readyAt attempt).dates = v.dates := by
  unfold move
  split <;> rfl

theorem event_relist (body : EventBody) : (v.relist env list readyAt).event id body = v.event id body := by
  cases h : v.record <;> simp [event, relist, h]

theorem log_move : (v.move env id list readyAt attempt).log =
    if v.place = list then v.log else v.log ++ [v.event id ((v.relist env list readyAt).moved v.place list)] := by
  unfold move
  split
  · rfl
  · rw [log_publish, event_relist]
    rfl

/-- A task is listed where its record says as soon as the three agree. -/
theorem Listed.congr {w : TaskView} (h : v.Listed) (hwaiting : w.waiting = v.waiting) (hscore : w.score = v.score)
    (hplace : w.place = v.place) : w.Listed :=
  ⟨by rw [hwaiting, hplace, h.waiting], fun l => by rw [hscore, hplace, h.score]⟩

theorem Listed.publish (h : v.Listed) : (v.publish env id body failureKind attempt).Listed :=
  h.congr rfl rfl (place_publish env id body failureKind attempt)

theorem Listed.modify (h : v.Listed) (hf : ∀ r, (f r).currentList = r.currentList) : (v.modify f).Listed := by
  refine h.congr rfl rfl ?_
  cases hr : v.record <;> simp [place, TaskView.modify, hr, TaskRecord.place, hf]

theorem listed_move (h : v.record = some r) : (v.move env id list readyAt attempt).Listed where
  waiting := by rw [waiting_move, place_move env id attempt list readyAt h]
  score l := by
    rw [score_move, place_move env id attempt list readyAt h]
    split <;> simp_all

theorem listed_delete : (v.delete env id).Listed :=
  ⟨by simp [delete, drop, place], fun l => by simp [delete, drop, place]⟩

end

end TaskView

end EffectMQ
