import EffectMQ.TaskEngine.Maintenance

/-!
# The registered operations

Each entry point as the script registers it: the arguments it checks before its sweep, the sweep, the checks
after it, and its effect. Numeric arguments arrive as `tonumber` leaves them, `none` standing for what is not a
finite number.
-/

namespace EffectMQ

open Redis

inductive DuplicateMode
  | returnExisting | newGeneration | unknown
deriving DecidableEq, Repr

/-- The arguments of `effectmq_createTask`. -/
structure CreateArgs where
  queue : String
  throwOnExists : Bool
  id : String
  name : String
  payload : String
  delay : Option ℚ
  maxRetries : Option ℚ
  onSuccessPolicy : CompletionPolicy
  onFailurePolicy : CompletionPolicy
  retentionHolder : Option TaskIdentity
  creator : Option String
  onDuplicate : DuplicateMode
  maxStalledCount : Option ℚ
  schemaId : Option String
  maxErrorEntries : Option ℚ
  maxRelationships : Option ℚ
  maxEventEntries : Option ℚ
  taskRecordRetentionMs : Option ℚ
  resultRetentionMs : Option ℚ
  terminalIndexRetentionMs : Option ℚ
  deadLetterRetentionMs : Option ℚ
  eventRetentionMs : Option ℚ
  historyEnabled : Bool
  maxHistoryEntries : Option ℚ
deriving DecidableEq, Repr

/-- What an operation replies. -/
inductive Reply
  | nil
  | error (message : String)
  | created (cursor : StreamId) (task : TaskRecord)
  | existing (cursor : StreamId) (task : TaskRecord)
  | leased (leaseToken id : String) (task : Option TaskRecord)
  | task (task : Option TaskRecord)
  | generation (n : ℕ)
  | result (result : Option TerminalResult)
  | snapshot (snapshot : Snapshot)
  | listing (next : Option ℕ) (items : List String)
  | eventCursors (first earliest latest : StreamId)
  | unavailable
  | schema (encountered : String)
  | version (encountered : ℕ)
  | disabled
  | invalid
  | expired (trimmed : ℕ) (boundary : StreamId)
  | appended (id : StreamId)
  | page (trimmed : ℕ) (boundary : StreamId) (sequence : ℕ) (position : StreamId)
      (entries : List (StreamId × HistoryEntry))
  | schedule (next : ℤ)
  | consumed (consumed : Bool) (next : Option ℤ)
deriving DecidableEq, Repr

/-- A safe integer that is at least `minimum`. -/
def isSafeInteger (minimum : ℤ) (value : Option ℚ) : Bool :=
  value.any fun v : ℚ => v.den = 1 ∧ minimum ≤ v.num ∧ v ≤ (maxSafeInteger : ℚ)

/-- `isPositiveSafeInteger`. -/
def isPositiveSafeInteger (value : Option ℚ) : Bool := isSafeInteger 1 value

/-- A checked integer argument. -/
def natural (value : Option ℚ) : ℕ := (value.getD 0).num.toNat

/-! ### Creation -/

def integerFields (a : CreateArgs) : List (String × Option ℚ × ℤ) :=
  [("maxRetries", a.maxRetries, -1), ("maxStalledCount", a.maxStalledCount, 0),
    ("maxErrorEntries", a.maxErrorEntries, 0), ("maxRelationships", a.maxRelationships, 0),
    ("maxEventEntries", a.maxEventEntries, 1), ("taskRecordRetentionMs", a.taskRecordRetentionMs, 0),
    ("resultRetentionMs", a.resultRetentionMs, 0), ("terminalIndexRetentionMs", a.terminalIndexRetentionMs, 0),
    ("deadLetterRetentionMs", a.deadLetterRetentionMs, 0), ("eventRetentionMs", a.eventRetentionMs, 0)]

/-- The first argument that `createTask` rejects. -/
def createFault (a : CreateArgs) : Option String :=
  if isSafeInteger 0 a.maxHistoryEntries = false then some "invalid maxHistoryEntries"
  else if (a.delay.any fun d : ℚ => 0 ≤ d ∧ d ≤ (maxSafeInteger : ℚ)) = false then some "invalid delay"
  else ((integerFields a).find? fun field => !isSafeInteger field.2.2 field.2.1).map fun field =>
    "invalid " ++ field.1

/-- The record that `createTask` writes. -/
def newRecord (env : Env) (a : CreateArgs) (generation : ℕ) : TaskRecord where
  generation := generation
  protocolVersion := 1
  schemaId := a.schemaId.getD a.name
  name := a.name
  createdAt := env.clock
  updatedAt := env.clock
  payload := a.payload
  delay := a.delay.getD 0
  maxRetries := (a.maxRetries.getD 0).num
  maxStalledCount := natural a.maxStalledCount
  maxErrorEntries := natural a.maxErrorEntries
  maxRelationships := natural a.maxRelationships
  maxEventEntries := natural a.maxEventEntries
  taskRecordRetentionMs := natural a.taskRecordRetentionMs
  resultRetentionMs := natural a.resultRetentionMs
  terminalIndexRetentionMs := natural a.terminalIndexRetentionMs
  deadLetterRetentionMs := natural a.deadLetterRetentionMs
  eventRetentionMs := natural a.eventRetentionMs
  attempt := 0
  handlerFailureCount := 0
  stalledAttemptCount := 0
  onSuccessPolicy := a.onSuccessPolicy
  onFailurePolicy := a.onFailurePolicy
  errors := []
  creator := a.creator
  success := none
  outcome := none
  currentList := none
  history :=
    if a.historyEnabled then ⟨true, natural a.maxHistoryEntries, 0, 0, StreamId.zero⟩
    else ⟨false, 0, 0, 0, StreamId.zero⟩

/-- Allocate the next generation and write its record. -/
def writeRecord (env : Env) (a : CreateArgs) (s : Store) : Store :=
  let generation := s.generations (a.queue, a.id) + 1
  { s with
    generations := Function.update s.generations (a.queue, a.id) generation
    task := Function.update s.task (a.queue, a.id) (some (newRecord env a generation))
    created := Function.update s.created a.queue ((s.created a.queue).add a.id env.now) }

/-- Give the last allocated generation back. -/
def unallocate (queue id : String) (s : Store) : Store :=
  { s with generations := Function.update s.generations (queue, id) (s.generations (queue, id) - 1) }

/-- Publish a written record and move it to its first list. -/
def announce (env : Env) (a : CreateArgs) (replacedTask : Option TaskRecord) (w : World) : Reply × World :=
  let delay := a.delay.getD 0
  let newTask := (w.store.task (a.queue, a.id)).getD (newRecord env a 0)
  let state := if 0 < delay then ExecutionState.delayed else .waiting
  let event := match replacedTask with
    | some existingTask => EventBody.updated existingTask newTask state
    | none => .created newTask state
  let w := publishEvent env a.queue a.id event none none w
  let w :=
    if 0 < delay then moveToList env a.queue a.id (some .scheduled) (double (env.now + delay)) true none w
    else moveToList env a.queue a.id (some .wait) 0 true none w
  (.created (latestEventCursor w.store a.queue) ((w.store.task (a.queue, a.id)).getD newTask), w)

/-- Create a generation; a hold that cannot be acquired takes the new record back. -/
def createGeneration (env : Env) (a : CreateArgs) (replacedTask : Option TaskRecord) (w : World) : Reply × World :=
  let w := w.modify (writeRecord env a)
  match a.retentionHolder with
  | none => announce env a replacedTask w
  | some holder =>
    match acquireRetentionHold holder (w.store.identity a.queue a.id) w.store with
    | .ok s => announce env a replacedTask { w with store := s }
    | .error retentionError =>
      (.error retentionError, (deleteTask env a.queue a.id false w).modify (unallocate a.queue a.id))

/-- The duplicate offer of a stored task. -/
def returnExisting (a : CreateArgs) (existingTask : TaskRecord) (w : World) : Reply × World :=
  match a.retentionHolder with
  | none => (.existing (latestEventCursor w.store a.queue) existingTask, w)
  | some holder =>
    match acquireRetentionHold holder (w.store.identity a.queue a.id) w.store with
    | .ok s => (.existing (latestEventCursor s a.queue) existingTask, { w with store := s })
    | .error retentionError => (.error retentionError, w)

/-- `createTask` after its sweep. -/
def offerSwept (env : Env) (a : CreateArgs) (w : World) : Reply × World :=
  let existingTask := w.store.task (a.queue, a.id)
  if a.historyEnabled = true ∧ (existingTask = none ∨ a.onDuplicate = .newGeneration) ∧
      w.store.history ⟨a.queue, a.id, w.store.generations (a.queue, a.id) + 1⟩ ≠ [] then
    (.error "CORRUPT_HISTORY unexpected generation stream", w)
  else match a.retentionHolder.bind (validateLiveHolder w.store) with
  | some holderError => (.error holderError, w)
  | none =>
    match existingTask with
    | none => createGeneration env a none w
    | some r =>
      if a.throwOnExists then (.error "task already exists", w)
      else match a.onDuplicate with
      | .returnExisting => returnExisting a r w
      | .unknown => (.error "invalid duplicate mode", w)
      | .newGeneration =>
        if r.outcome.isNone then (.error "cannot create a new generation for a non-terminal task", w)
        else if w.store.hasRetentionHolds (w.store.identity a.queue a.id) then
          (.error "cannot replace a retained task generation", w)
        else
          createGeneration env a (some r)
            ((deleteTask env a.queue a.id false w).modify (unlockTask a.queue a.id))

def createTask (env : Env) (a : CreateArgs) (w : World) : Reply × World :=
  match createFault a with
  | some message => (.error message, w)
  | none => offerSwept env a (syncAll env a.queue w)

/-! ### Attempts -/

def takeSwept (env : Env) (queue leaseToken : String) (lockTimeout : ℚ) (w : World) : Reply × World :=
  match (w.store.lists queue).wait.head? with
  | none => (.nil, w)
  | some taskId =>
    if isLocked env w.store queue taskId then
      (.error "Task is locked by another worker",
        moveToList env queue taskId (some .active) (env.now + lockTimeout) false none w)
    else
      let w := lockTask env queue taskId leaseToken lockTimeout w
      (.leased leaseToken taskId (w.store.task (queue, taskId)), w)

def takeTask (env : Env) (queue leaseToken : String) (lockTimeout : Option ℚ) (w : World) : Reply × World :=
  if isPositiveSafeInteger lockTimeout = false then (.error "invalid lockTimeout", w)
  else takeSwept env queue leaseToken (lockTimeout.getD 0) (syncAll env queue w)

/-- The effect of an owned success. -/
def completeTask (env : Env) (queue id result : String) (w : World) : World :=
  let w := (assertHistory queue id w).modify (unlockTask queue id)
  let w := w.modify (setTask env queue id fun r => { r with success := some result, outcome := some .success })
  let policy := ((w.store.task (queue, id)).map TaskRecord.onSuccessPolicy).getD .delete
  settleTask env queue id .nil (publishEvent env queue id (.completed result policy) none none w)

/-- The checks that the two acknowledgements share, after the sweep. -/
def acknowledge (env : Env) (queue leaseToken id : String) (effect : World → World) (w : World) : Reply × World :=
  if w.store.task (queue, id) = none then (.error "Task not found", w)
  else if isLockedBy env w.store queue id leaseToken = false then (.error "LEASE_LOST", w)
  else (.nil, effect w)

def writeSuccess (env : Env) (queue leaseToken id result : String) (w : World) : Reply × World :=
  acknowledge env queue leaseToken id (completeTask env queue id result) (syncAll env queue w)

def writeError (env : Env) (queue leaseToken id : String) (error : LuaValue) (retryAt : Option ℚ) (w : World) :
    Reply × World :=
  if (retryAt.any fun t : ℚ => -1 ≤ t ∧ t ≤ (maxSafeInteger : ℚ)) = false then (.error "invalid retryAt", w)
  else
    acknowledge env queue leaseToken id (failTask env queue id error (retryAt.getD (-1)) .handler)
      (syncAll env queue w)

/-- `PEXPIRE` of the lease key and the re-dating of the active entry, to the same exact sum as in `lockTask`. -/
def renewLease (env : Env) (queue id leaseToken : String) (lockTimeout : ℚ) (w : World) : World :=
  moveToList env queue id (some .active) (env.now + lockTimeout) false none
    (w.modify fun s =>
      { s with lock := Function.update s.lock (queue, id) (some ⟨leaseToken, env.now + lockTimeout⟩) })

def extendLock (env : Env) (queue leaseToken id : String) (lockTimeout : Option ℚ) (w : World) : Reply × World :=
  if isPositiveSafeInteger lockTimeout = false then (.error "invalid lockTimeout", w)
  else if isLockedBy env w.store queue id leaseToken = false then (.error "LEASE_LOST", w)
  else (.nil, renewLease env queue id leaseToken (lockTimeout.getD 0) w)

def removeLock (env : Env) (queue leaseToken id : String) (w : World) : Reply × World :=
  if isLockedBy env w.store queue id leaseToken = false then (.error "LEASE_LOST", w)
  else
    (.nil, moveToList env queue id (some .wait) 0 false none (w.modify (unlockTask queue id)))

/-! ### History -/

/-- Why an identity has no readable history. -/
def historyIdentity (s : Store) (queue id : String) (generation : ℕ) (schemaId : String) : Option Reply :=
  match s.task (queue, id) with
  | none => some .unavailable
  | some r =>
    if r.generation ≠ generation then some .unavailable
    else if r.schemaId ≠ schemaId then some (.schema r.schemaId)
    else if r.protocolVersion ≠ 1 then some (.version r.protocolVersion)
    else if r.history.enabled = false then some .disabled
    else none

/-- Whether a token still owns an attempt of a task that runs and has not passed its deadline. -/
def ownsProgress (env : Env) (s : Store) (queue id token : String) : Bool :=
  isLockedBy env s queue id token ∧ env.now < (((s.lists queue).active.score id).getD 0) ∧
    (s.task (queue, id)).bind TaskRecord.place = some .active ∧ (s.task (queue, id)).bind TaskRecord.outcome = none

def appendProgress (env : Env) (queue id : String) (generation : ℕ) (schemaId token data : String) (w : World) :
    Reply × World :=
  match historyIdentity w.store queue id generation schemaId with
  | some fault => (fault, w)
  | none =>
    let w := assertHistory queue id w
    if ownsProgress env w.store queue id token = false then (.error "LEASE_LOST", w)
    else
      let w := appendHistory env queue id (.progress data) none w
      (.appended (lastId (w.store.history ⟨queue, id, generation⟩)), w)

/-- The page after a position, one entry longer than asked for. -/
def historyPage (s : Store) (x : TaskIdentity) (h : HistoryFields) (sequence : Option ℕ) (position : Option StreamId)
    (limit : ℕ) : Reply :=
  let sequence := sequence.getD h.trimmed
  let position := position.getD h.trimmedId
  let entries := s.history x
  if h.sequence < sequence then .invalid
  else if sequence < h.trimmed then .expired h.trimmed h.trimmedId
  else if sequence = h.trimmed ∧ position ≠ h.trimmedId then .invalid
  else if sequence ≠ h.trimmed ∧ (entries.any fun e => e.1 = position ∧ e.2.sequence = sequence) = false then .invalid
  else .page h.trimmed h.trimmedId sequence position
    ((entries.filter fun e => StreamId.Lt position e.1).take (limit + 1))

def readHistory (queue id : String) (generation : ℕ) (schemaId : String) (sequence : Option ℕ)
    (position : Option StreamId) (count : Option ℚ) (w : World) : Reply × World :=
  match historyIdentity w.store queue id generation schemaId with
  | some fault => (fault, w)
  | none =>
    let w := assertHistory queue id w
    if isPositiveSafeInteger count = false ∨ (1000 : ℚ) < count.getD 0 then (.invalid, w)
    else match w.store.task (queue, id) with
      | none => (.unavailable, w)
      | some r => (historyPage w.store ⟨queue, id, generation⟩ r.history sequence position (natural count), w)

/-! ### Administration -/

def removeTask (env : Env) (queue id : String) (w : World) : Reply × World :=
  let w := syncAll env queue w
  if isLocked env w.store queue id then (.error "cannot remove a leased task", w)
  else if w.store.task (queue, id) = none then (.nil, w)
  else
    let x := w.store.identity queue id
    if w.store.hasRetentionHolds x then (.error "task has active retention holds", w)
    else (.nil, deleteTask env queue id false (releaseOwnedHolds env x w))

/-- Forget the result of a generation and its members in the expiry indexes. -/
def eraseGeneration (x : TaskIdentity) (s : Store) : Store :=
  let e := s.expiry x.queue
  { s.setExpiry x.queue ⟨e.tasks.remove x, e.results.remove x, e.terminal.remove x, e.deadLetters.remove x,
      e.deadLetterExpiry.remove x⟩ with
    retainedBy := Function.update s.retainedBy x ∅
    result := Function.update s.result x none }

def forceRemoveTask (env : Env) (queue id : String) (w : World) : Reply × World :=
  let w := syncAll env queue w
  if w.store.task (queue, id) = none then (.nil, w)
  else
    let x := w.store.identity queue id
    let w := releaseOwnedHolds env x (w.modify (unlockTask queue id))
    (.nil, deleteTask env queue id false (w.modify (eraseGeneration x)))

def maintain (env : Env) (queue : String) (w : World) : Reply × World :=
  let w := syncAll env queue w
  (.snapshot (maintenanceSnapshot env queue w), w)

def listItems (L : QueueLists) (offset limit : ℕ) : TaskList → List String
  | .wait => (L.wait.drop offset).take (limit + 1)
  | .scheduled => L.scheduled.range offset (offset + limit)
  | .active => L.active.range offset (offset + limit)
  | .failed => L.failed.range offset (offset + limit)
  | .success => L.success.range offset (offset + limit)

def listTasks (env : Env) (queue : String) (list : Option TaskList) (offset limit : ℕ) (w : World) : Reply × World :=
  let w := syncAll env queue w
  match list with
  | none => (.error "Invalid list", w)
  | some list =>
    let items := listItems (w.store.lists queue) offset limit list
    (.listing (if limit < items.length then some (offset + limit) else none) (items.take limit), w)

def eventCursors (s : Store) (queue : String) : Reply :=
  let stream := s.events queue
  .eventCursors ((stream.published.head?.map Prod.fst).getD StreamId.zero)
    ((stream.retained.head?.map Prod.fst).getD StreamId.zero) (lastId stream.retained)

/-! ### Schedules -/

def setSchedule (queue name : String) (next : ℤ) (s : Store) : Reply × Store :=
  let current := (s.schedule (queue, name)).getD next
  (.schedule current, { s with schedule := Function.update s.schedule (queue, name) (some current) })

def consumeSchedule (env : Env) (queue name : String) (currentToConsume nextToSet : ℤ) (s : Store) : Reply × Store :=
  match s.schedule (queue, name) with
  | none => (.consumed false none, s)
  | some currentSchedule =>
    if currentSchedule ≠ currentToConsume ∨ (env.clock : ℤ) < currentSchedule then
      (.consumed false (some currentSchedule), s)
    else if currentSchedule < nextToSet then
      (.consumed true (some nextToSet),
        { s with schedule := Function.update s.schedule (queue, name) (some nextToSet) })
    else (.consumed false (some currentSchedule), s)

/-! ### Dispatch -/

inductive Op
  | createTask (a : CreateArgs)
  | takeTask (queue leaseToken : String) (lockTimeout : Option ℚ)
  | writeSuccess (queue leaseToken id result : String)
  | writeError (queue leaseToken id : String) (error : LuaValue) (retryAt : Option ℚ)
  | extendLock (queue leaseToken id : String) (lockTimeout : Option ℚ)
  | removeLock (queue leaseToken id : String)
  | appendProgress (queue id : String) (generation : ℕ) (schemaId token data : String)
  | readHistory (queue id : String) (generation : ℕ) (schemaId : String) (sequence : Option ℕ)
      (position : Option StreamId) (count : Option ℚ)
  | removeTask (queue id : String)
  | forceRemoveTask (queue id : String)
  | maintain (queue : String)
  | listTasks (queue : String) (list : Option TaskList) (offset limit : ℕ)
  | getTask (queue id : String)
  | getGeneration (queue id : String)
  | getResult (x : TaskIdentity)
  | eventCursors (queue : String)
  | setSchedule (queue name : String) (next : ℤ)
  | consumeSchedule (queue name : String) (currentToConsume nextToSet : ℤ)
deriving DecidableEq, Repr

def Op.run (env : Env) (w : World) : Op → Reply × World
  | .createTask a => EffectMQ.createTask env a w
  | .takeTask queue leaseToken lockTimeout => EffectMQ.takeTask env queue leaseToken lockTimeout w
  | .writeSuccess queue leaseToken id result => EffectMQ.writeSuccess env queue leaseToken id result w
  | .writeError queue leaseToken id error retryAt => EffectMQ.writeError env queue leaseToken id error retryAt w
  | .extendLock queue leaseToken id lockTimeout => EffectMQ.extendLock env queue leaseToken id lockTimeout w
  | .removeLock queue leaseToken id => EffectMQ.removeLock env queue leaseToken id w
  | .appendProgress queue id generation schemaId token data =>
    EffectMQ.appendProgress env queue id generation schemaId token data w
  | .readHistory queue id generation schemaId sequence position count =>
    EffectMQ.readHistory queue id generation schemaId sequence position count w
  | .removeTask queue id => EffectMQ.removeTask env queue id w
  | .forceRemoveTask queue id => EffectMQ.forceRemoveTask env queue id w
  | .maintain queue => EffectMQ.maintain env queue w
  | .listTasks queue list offset limit => EffectMQ.listTasks env queue list offset limit w
  | .getTask queue id => (.task (w.store.task (queue, id)), w)
  | .getGeneration queue id => (.generation (w.store.generations (queue, id)), w)
  | .getResult x => (.result (w.store.result x), w)
  | .eventCursors queue => (EffectMQ.eventCursors w.store queue, w)
  | .setSchedule queue name next =>
    let (reply, s) := EffectMQ.setSchedule queue name next w.store
    (reply, { w with store := s })
  | .consumeSchedule queue name currentToConsume nextToSet =>
    let (reply, s) := EffectMQ.consumeSchedule env queue name currentToConsume nextToSet w.store
    (reply, { w with store := s })

/-- How an invocation ends. -/
inductive Result
  | replied (reply : Reply) (s : Store)
  | raised (message : String) (s : Store)

/-- One script invocation. -/
def exec (env : Env) (op : Op) (s : Store) : Result :=
  let (reply, w) := op.run env ⟨s, env.maintenanceBatchSize, none⟩
  match w.raised with
  | some e => .raised e.message e.store
  | none => .replied reply w.store

end EffectMQ
