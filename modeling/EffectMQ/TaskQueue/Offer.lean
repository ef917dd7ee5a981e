import EffectMQ.TaskEngine.Operations
import EffectMQ.Transition.Process

/-!
# Offering a task

The client checks a definition and the options of an offer, encodes the payload and makes one request. Its codecs and the
key of a payload are functions of the definition; a number that is not finite is `none`.
-/

namespace EffectMQ

open Redis Transition

structure StorageLimits where
  maxValueBytes : Option ℚ
  maxErrorEntries : Option ℚ
  maxRelationships : Option ℚ
  maxEventEntries : Option ℚ
  /-- No limit where the field is missing or `null`. -/
  maxHistoryEntries : Option (Option ℚ)

structure RetentionPolicy where
  taskRecordMs : Option ℚ
  resultMs : Option ℚ
  terminalIndexMs : Option ℚ
  deadLetterMs : Option ℚ
  eventMs : Option ℚ

def defaultStorageLimits : StorageLimits where
  maxValueBytes := some (1024 * 1024)
  maxErrorEntries := some 100
  maxRelationships := some 1000
  maxEventEntries := some 10000
  maxHistoryEntries := none

def defaultRetentionPolicy : RetentionPolicy where
  taskRecordMs := some (7 * 24 * 60 * 60 * 1000)
  resultMs := some (24 * 60 * 60 * 1000)
  terminalIndexMs := some (7 * 24 * 60 * 60 * 1000)
  deadLetterMs := some (30 * 24 * 60 * 60 * 1000)
  eventMs := some (7 * 24 * 60 * 60 * 1000)

/-- What an offer reads of a task definition. -/
structure TaskDefinition (P : Type) where
  name : String
  schemaId : String
  /-- `⊤` is `Infinity`. -/
  maxRetries : WithTop (Option ℚ)
  storageLimits : StorageLimits
  retention : RetentionPolicy
  /-- The definition has a progress schema. -/
  progress : Bool
  idempotencyKey : P → String
  encodePayload : P → Option String
  /-- The record of a reply decodes. -/
  decodes : TaskRecord → Bool

structure TaskOptions where
  taskId : Option String
  delay : Option (Option ℚ)
  maxRetries : Option (Option ℚ)
  maxStalledCount : Option (Option ℚ)
  onSuccessPolicy : Option CompletionPolicy
  onFailurePolicy : Option CompletionPolicy
  /-- `current-task-settles`. -/
  retainResultUntil : Bool
  onDuplicate : Option DuplicateMode

/-- An offer without options. -/
def TaskOptions.none : TaskOptions := ⟨.none, .none, .none, .none, .none, .none, false, .none⟩

/-- The field that a check names, with its constraint. -/
structure Fault where
  field : String
  constraint : String
deriving DecidableEq, Repr

/-- The first field whose value is no safe integer from its minimum on. -/
def integerFault (fields : List (String × Option ℚ × ℤ)) (constraint : ℤ → String) : Option Fault :=
  (fields.find? fun field => !isSafeInteger field.2.2 field.2.1).map fun field => ⟨field.1, constraint field.2.2⟩

namespace TaskInvariant

variable {P : Type} (definition : TaskDefinition P)

/-- A missing history limit is not checked. -/
def storageLimits : List (String × Option ℚ × ℤ) :=
  let limits := definition.storageLimits
  [("maxValueBytes", limits.maxValueBytes, 0), ("maxErrorEntries", limits.maxErrorEntries, 0),
      ("maxRelationships", limits.maxRelationships, 0), ("maxEventEntries", limits.maxEventEntries, 1)] ++
    (limits.maxHistoryEntries.map fun limit => ("maxHistoryEntries", limit, (1 : ℤ))).toList

def retention : List (String × Option ℚ × ℤ) :=
  let retention := definition.retention
  [("taskRecordMs", retention.taskRecordMs, 0), ("resultMs", retention.resultMs, 0),
    ("terminalIndexMs", retention.terminalIndexMs, 0), ("deadLetterMs", retention.deadLetterMs, 0),
    ("eventMs", retention.eventMs, 0)]

/-- What is wrong with a definition. -/
def validate : Option Fault :=
  if definition.maxRetries ≠ ⊤ ∧ isSafeInteger 0 (definition.maxRetries.untopD none) = false then
    some ⟨"maxRetries", "a non-negative safe integer or Infinity"⟩
  else
    integerFault (storageLimits definition)
        (fun minimum => "a safe integer greater than or equal to " ++ toString minimum) <|>
      integerFault (retention definition) fun _ => "a non-negative safe integer"

end TaskInvariant

/-- How an offer fails, besides in the engine. -/
inductive OfferError
  | definition (fault : Fault)
  | options (fault : Fault)
  | retentionContextRequired
  | encoding
  | invalidInput (fault : Fault)
  | engine (reply : Reply)
  | decoding

/-- The engine that a client talks to: its key, and the task whose handler makes the offers, with its packed form. -/
structure Client where
  keyPrefix : String
  currentTask : Option (TaskIdentity × String)

def Client.withPrefix (client : Client) (key : String) : String := client.keyPrefix ++ ":" ++ key

/-- A finite safe number that is not negative. -/
def isDelay (delay : Option ℚ) : Bool := delay.any fun d : ℚ => |d| ≤ (maxSafeInteger : ℚ) ∧ 0 ≤ d

/-- A reply that says that the task is stored. -/
def Reply.IsOffered : Reply → Prop
  | .created _ _ | .existing _ _ => True
  | _ => False

namespace TaskQueue

variable {P : Type} (definition : TaskDefinition P) (options : TaskOptions)

/-- What is wrong with the options of an offer. -/
def optionsFault : Option Fault :=
  if isDelay (options.delay.getD (some 0)) = false then
    some ⟨"delay", "a finite safe number greater than or equal to 0"⟩
  else
    integerFault
      ((options.maxRetries.map fun actual => ("maxRetries", actual, (0 : ℤ))).toList ++
        (options.maxStalledCount.map fun actual => ("maxStalledCount", actual, (0 : ℤ))).toList)
      fun _ => "a non-negative safe integer"

/-- The request of an offer. -/
def taskInsert (client : Client) (queue : String) (id payload : String) : CreateArgs where
  queue := client.withPrefix queue
  throwOnExists := false
  id := id
  name := definition.name
  payload := payload
  delay := options.delay.getD (some 0)
  maxRetries := options.maxRetries.getD (some (-1))
  onSuccessPolicy := options.onSuccessPolicy.getD .delete
  onFailurePolicy := options.onFailurePolicy.getD .delete
  retentionHolder := if options.retainResultUntil then
    client.currentTask.map fun task => { task.1 with queue := client.withPrefix task.1.queue } else none
  creator := client.currentTask.map Prod.snd
  onDuplicate := options.onDuplicate.getD .returnExisting
  maxStalledCount := options.maxStalledCount.getD (some 1)
  schemaId := some definition.schemaId
  maxErrorEntries := definition.storageLimits.maxErrorEntries
  maxRelationships := definition.storageLimits.maxRelationships
  maxEventEntries := definition.storageLimits.maxEventEntries
  taskRecordRetentionMs := definition.retention.taskRecordMs
  resultRetentionMs := definition.retention.resultMs
  terminalIndexRetentionMs := definition.retention.terminalIndexMs
  deadLetterRetentionMs := definition.retention.deadLetterMs
  eventRetentionMs := definition.retention.eventMs
  historyEnabled := definition.progress
  maxHistoryEntries := definition.storageLimits.maxHistoryEntries.getD (some 0)

/-- What the engine's client finds wrong with a request before it sends it. -/
def insertFault (storageLimits : StorageLimits) (a : CreateArgs) : Option Fault :=
  if storageLimits.maxHistoryEntries.any (fun limit => !isSafeInteger 1 limit) = true then
    some ⟨"maxHistoryEntries", "null or a positive safe integer"⟩
  else if isDelay a.delay = false then some ⟨"delay", "a finite safe number greater than or equal to 0"⟩
  else integerFault (integerFields a) fun minimum => "a safe integer greater than or equal to " ++ toString minimum

/-- What an offer answers: whether it created, and the generation with the cursor to wait from. -/
structure OfferOutcome where
  created : Bool
  generation : ℕ
  cursor : StreamId

/-- What the client makes of the reply to an offer. -/
def offered : Reply → Except OfferError OfferOutcome
  | .created cursor task =>
    if definition.decodes task then .ok ⟨true, task.generation, cursor⟩ else .error .decoding
  | .existing cursor task =>
    if definition.decodes task then .ok ⟨false, task.generation, cursor⟩ else .error .decoding
  | reply => .error (.engine reply)

def offer (client : Client) (queue : String) (payload : P) : Process Op Reply (Except OfferError OfferOutcome) :=
  match TaskInvariant.validate definition with
  | some fault => .done (.error (.definition fault))
  | none =>
    match optionsFault options with
    | some fault => .done (.error (.options fault))
    | none =>
      if options.retainResultUntil = true ∧ client.currentTask = none then .done (.error .retentionContextRequired)
      else
        match definition.encodePayload payload with
        | none => .done (.error .encoding)
        | some encoded =>
          let id := options.taskId.getD (definition.idempotencyKey payload)
          let a := taskInsert definition options client queue id encoded
          match insertFault definition.storageLimits a with
          | some fault => .done (.error (.invalidInput fault))
          | none => .ask (.createTask a) fun reply => .done (offered definition reply)

/-- The request that an offer makes. -/
def request (client : Client) (queue : String) (payload : P) : Option Op :=
  (definition.encodePayload payload).map fun encoded =>
    .createTask (taskInsert definition options client queue
      (options.taskId.getD (definition.idempotencyKey payload)) encoded)

variable {definition options} {client : Client} {queue : String} {payload : P} {l : List (Op × Reply)}

/-- An offer asks nothing, or it makes its one request and reads the reply. -/
theorem offer_cases (definition : TaskDefinition P) (options : TaskOptions) (client : Client) (queue : String)
    (payload : P) :
    (∃ e, offer definition options client queue payload = .done (.error e)) ∨
      ∃ op, request definition options client queue payload = some op ∧
        offer definition options client queue payload = .ask op fun reply => .done (offered definition reply) := by
  unfold offer
  split
  · exact Or.inl ⟨_, rfl⟩
  · split
    · exact Or.inl ⟨_, rfl⟩
    · split
      · exact Or.inl ⟨_, rfl⟩
      · split
        · exact Or.inl ⟨_, rfl⟩
        · next encoded hencoded =>
          dsimp only
          split
          · exact Or.inl ⟨_, rfl⟩
          · exact Or.inr ⟨_, by rw [request, hencoded]; rfl, rfl⟩

theorem offered_ok {reply : Reply} {outcome : OfferOutcome} (h : offered definition reply = .ok outcome) :
    reply.IsOffered := by
  cases reply with
  | created | existing => trivial
  | _ => cases h

/-- The request that an offer is about to make. -/
theorem offer_asks {op : Op} {next : Reply → Process Op Reply (Except OfferError OfferOutcome)}
    (h : (offer definition options client queue payload).After l (.ask op next)) :
    l = [] ∧ request definition options client queue payload = some op := by
  obtain ⟨e, heq⟩ | ⟨op', hop, heq⟩ := offer_cases definition options client queue payload
  · rw [heq] at h
    exact absurd h.done_inv.2 (by simp)
  · rw [heq] at h
    obtain ⟨hl, hask⟩ | ⟨reply, l', hl, hrest⟩ := h.ask_inv
    · obtain ⟨rfl, -⟩ := Process.ask.inj hask
      exact ⟨hl, hop⟩
    · exact absurd hrest.done_inv.2 (by simp)

/-- What an offer that went well has asked. -/
theorem offer_ok {outcome : OfferOutcome}
    (h : (offer definition options client queue payload).After l (.done (.ok outcome))) :
    ∃ op reply, l = [(op, reply)] ∧ request definition options client queue payload = some op ∧ reply.IsOffered := by
  obtain ⟨e, heq⟩ | ⟨op, hop, heq⟩ := offer_cases definition options client queue payload
  · rw [heq] at h
    exact absurd h.done_inv.2 (by simp)
  · rw [heq] at h
    obtain ⟨-, hdone⟩ | ⟨reply, l', rfl, hrest⟩ := h.ask_inv
    · exact absurd hdone (by simp)
    · obtain ⟨rfl, hdone⟩ := hrest.done_inv
      exact ⟨op, reply, rfl, hop, offered_ok (Process.done.inj hdone).symm⟩

end TaskQueue

end EffectMQ
