import EffectMQ.TaskEngine.Cursor
import EffectMQ.TaskQueue.Codec
import EffectMQ.TaskQueue.Connection
import EffectMQ.TaskQueue.Offer

/-!
# Waiting for a task

The client reads what is stored of the generation that a handle names. While that is pending it opens the event stream of
the queue at the cursor of the handle, reads what is stored once more beside it, and goes on with the stream.
-/

namespace EffectMQ

open Redis Transition

/-! ### What a wait reads -/

structure TaskHandle where
  queue : String
  taskId : String
  generation : ℕ
  cursor : StreamId
  taskName : String
  schemaId : String
  protocolVersion : ℕ

/-- How a wait fails. A corrupt value that the wait finds itself is told from one that a decoder refuses. -/
inductive WaitError (F : Type)
  | taskHandleMismatch (expectedQueue actualQueue expectedTaskName actualTaskName : String)
  | unsupportedProtocolVersion (encountered : ℕ) (supported : List ℕ)
  | schemaIdentityMismatch (expected encountered : String)
  | corruptStorageValue (message : String)
  | decoding (fault : DecodeFault)
  | taskFailed (failure : F)
  | taskNotFound
  | resultExpired (latestGeneration : ℕ)
  | stream (opening : StreamOpening)
  | engine (answer : Answer)
  /-- The reads of a run are used up, and the wait goes on. -/
  | waiting

/-- How a generation ended, for the client. -/
inductive Settled (V F : Type)
  | success (value : V)
  | failure (failure : F)

/-- What a read of the stored state says. -/
inductive Durable (V : Type)
  | pending
  | success (value : Option V)

namespace QueueCodec

variable {V F : Type} (codec : QueueCodec V F)

/-- What the protocol version and the schema of a stored value say against it. -/
def identityFault (version : ℕ) (schemaId : String) : Option (WaitError F) :=
  if version ∉ readableProtocolVersions then
    some (.unsupportedProtocolVersion version readableProtocolVersions)
  else if schemaId ≠ codec.schemaId then some (.schemaIdentityMismatch codec.schemaId schemaId)
  else none

def decodeTask (task : TaskRecord) : Except (WaitError F) (DecodedTask V F) :=
  match codec.identityFault task.protocolVersion task.schemaId with
  | some fault => .error fault
  | none => (codec.decodeFields task).mapError .decoding

def decodeTerminalResult (handle : TaskHandle) (result : TerminalResult) : Except (WaitError F) (Durable V) :=
  match codec.identityFault result.protocolVersion result.schemaId with
  | some fault => .error fault
  | none =>
    if result.generation ≠ handle.generation then
      .error (.corruptStorageValue "Terminal result generation does not match its key")
    else
      match result.outcome with
      | .success =>
        match result.success with
        | none => .error (.corruptStorageValue "Terminal success has no result value")
        | some success =>
          match codec.decodeSuccess success with
          | .error fault => .error (.decoding fault)
          | .ok value => .ok (.success (some value))
      | .failure =>
        match result.failure with
        | none => .error (.corruptStorageValue "Terminal failure has no error value")
        | some failure =>
          match codec.decodeFailure failure with
          | .error fault => .error (.decoding fault)
          | .ok decoded => .error (.taskFailed decoded)

/-- An event of the stream, decoded: how it settles its generation, if it does. -/
def decodeEvent (event : Event) : Except (WaitError F) (Option (Settled V F)) :=
  match event.body with
  | .created newTask _ => (codec.decodeTask newTask).map fun _ => none
  | .updated existingTask newTask _ =>
    match codec.decodeTask existingTask with
    | .error error => .error error
    | .ok _ => (codec.decodeTask newTask).map fun _ => none
  | .failed error _ _ _ terminal _ =>
    match codec.decodeFailure error with
    | .error fault => .error (.decoding fault)
    | .ok failure => .ok (if terminal then some (.failure failure) else none)
  | .completed success _ =>
    match codec.decodeSuccess success with
    | .error fault => .error (.decoding fault)
    | .ok value => .ok (some (.success value))
  | .moved .. => .ok none

/-- The first event of a batch that settles the generation of a handle; every event before it is decoded. -/
def firstTerminal (handle : TaskHandle) : List (StreamId × Event) → Except (WaitError F) (Option (Settled V F))
  | [] => .ok none
  | (_, event) :: rest =>
    match codec.decodeEvent event with
    | .error error => .error error
    | .ok settled =>
      if event.taskId = handle.taskId ∧ event.generation = handle.generation ∧ settled.isSome then .ok settled
      else firstTerminal handle rest

end QueueCodec

/-! ### The programs -/

section

variable {V F α : Type}

/-- One invocation, and what the client makes of its reply. -/
def invoke (op : Op) (next : Reply → Process Query Answer (Except (WaitError F) α)) :
    Process Query Answer (Except (WaitError F) α) :=
  .ask (.call op) fun
    | .reply reply => next reply
    | answer => .done (.error (.engine answer))

namespace TaskQueue

variable (codec : QueueCodec V F) (client : Client) (handle : TaskHandle)

/-- The result of the generation of a handle, or the error of a generation without one. -/
def readResult (latest : Process Query Answer (Except (WaitError F) (Durable V))) :
    Process Query Answer (Except (WaitError F) (Durable V)) :=
  invoke (.getResult ⟨client.withPrefix handle.queue, handle.taskId, handle.generation⟩) fun
    | .result (some result) => .done (codec.decodeTerminalResult handle result)
    | .result none => latest
    | reply => .done (.error (.engine (.reply reply)))

def readDurable : Process Query Answer (Except (WaitError F) (Durable V)) :=
  invoke (.getTask (client.withPrefix handle.queue) handle.taskId) fun
    | .task none =>
      readResult codec client handle <|
        invoke (.getGeneration (client.withPrefix handle.queue) handle.taskId) fun
          | .generation latestGeneration =>
            .done (.error (if latestGeneration = 0 then .taskNotFound else .resultExpired latestGeneration))
          | reply => .done (.error (.engine (.reply reply)))
    | .task (some stored) =>
      if stored.generation ≠ handle.generation then
        readResult codec client handle (.done (.error (.resultExpired stored.generation)))
      else
        match stored.outcome with
        | none => .done (.ok .pending)
        | some outcome =>
          match codec.decodeTask stored with
          | .error error => .done (.error error)
          | .ok task =>
            match outcome with
            | .success => .done (.ok (.success task.success))
            | .failure =>
              match task.errors.getLast?.filter fun failure => !codec.isUndefined failure with
              | some lastFailure => .done (.error (.taskFailed lastFailure))
              | none =>
                readResult codec client handle
                  (.done (.error (.corruptStorageValue "Terminal failure has no error entry")))
    | reply => .done (.error (.engine (.reply reply)))

/-- The rest of a stream, in at most that many reads, until an event settles the generation. -/
def awaitTerminal : ℕ → StreamId → Process Query Answer (Except (WaitError F) (Option V))
  | 0, _ => .done (.error .waiting)
  | reads + 1, position =>
    .ask (.read (client.withPrefix codec.name) position) fun
      | .entries entries =>
        match codec.firstTerminal handle entries with
        | .error error => .done (.error error)
        | .ok (some (.success value)) => .done (.ok (some value))
        | .ok (some (.failure failure)) => .done (.error (.taskFailed failure))
        | .ok none => awaitTerminal reads ((entries.getLast?.map Prod.fst).getD position)
      | answer => .done (.error (.engine answer))

/-- The event stream of the queue from the cursor of the handle on. -/
def stream (reads : ℕ) : Process Query Answer (Except (WaitError F) (Option V)) :=
  invoke (.eventCursors (client.withPrefix codec.name)) fun
    | .eventCursors first earliest latest =>
      match openStream (streamIdText first) (streamIdText earliest) (streamIdText latest)
          (some (streamIdText handle.cursor)) with
      | .readFrom _ => awaitTerminal codec client handle reads handle.cursor
      | opening => .done (.error (.stream opening))
    | reply => .done (.error (.engine (.reply reply)))

/-- A wait: the schedule says how the second read of the stored state and the stream take turns. -/
def wait (schedule : List Bool) (reads : ℕ) : Process Query Answer (Except (WaitError F) (Option V)) :=
  if handle.queue ≠ codec.name ∨ handle.taskName ≠ codec.taskName then
    .done (.error (.taskHandleMismatch codec.name handle.queue codec.taskName handle.taskName))
  else if handle.protocolVersion ≠ protocolVersion then
    .done (.error (.unsupportedProtocolVersion handle.protocolVersion readableProtocolVersions))
  else if handle.schemaId ≠ codec.schemaId then
    .done (.error (.schemaIdentityMismatch codec.schemaId handle.schemaId))
  else
    (readDurable codec client handle).andThen fun
      | .success value => .done (.ok value)
      | .pending =>
        (readDurable codec client handle).beside (stream codec client handle reads)
          (fun rechecked eventFiber =>
            match rechecked with
            | .error error => .done (.error error)
            | .ok (.success value) => .done (.ok value)
            | .ok .pending => eventFiber)
          schedule

end TaskQueue

end

/-- The generation that a reply to an offer names, and the cursor to wait from. -/
def Reply.handed : Reply → Option (ℕ × StreamId)
  | .created cursor r | .existing cursor r => some (r.generation, cursor)
  | _ => none

/-- A wait of some client. -/
structure Waiter (V F : Type) where
  codec : QueueCodec V F
  client : Client
  handle : TaskHandle
  schedule : List Bool
  reads : ℕ

namespace Waiter

variable {V F : Type} (waiter : Waiter V F)

def program : Process Query Answer (Except (WaitError F) (Option V)) :=
  TaskQueue.wait waiter.codec waiter.client waiter.handle waiter.schedule waiter.reads

/-- The generation that a waiter waits for. -/
def generation : TaskIdentity :=
  ⟨waiter.client.withPrefix waiter.handle.queue, waiter.handle.taskId, waiter.handle.generation⟩

/-- The handle is what an offer was answered. -/
def IssuedBy (c : Call) : Prop :=
  match c.op with
  | .createTask a => a.queue = waiter.generation.queue ∧ a.id = waiter.handle.taskId ∧
      c.reply.handed = some (waiter.handle.generation, waiter.handle.cursor)
  | _ => False

instance (c : Call) : Decidable (waiter.IssuedBy c) := by
  unfold IssuedBy
  split <;> infer_instance

end Waiter

section

variable {V F : Type}

/-- Clients that wait beside each other and beside every other call. -/
def waiters (V F : Type) : System (Parties Engine (Waiter V F) Query Answer (Except (WaitError F) (Option V)))
    (Move (Waiter V F) Observation) :=
  parties observed Observation.request Observation.answer Waiter.program fun _ => True

/-- Every launch of a client comes after the offer that issued the handle of its waiter. -/
def Waiter.IssuedAs {ι : Type} (waiter : Waiter V F) (start : ι) (moves : List (Move ι Observation)) : Prop :=
  ∀ before i after, moves = before ++ .launch i start :: after →
    ∃ c, Observation.call c ∈ before.filterMap Move.action ∧ waiter.IssuedBy c

def Waiter.Issued (waiter : Waiter V F) (moves : List (Move (Waiter V F) Observation)) : Prop := waiter.IssuedAs waiter moves

end

end EffectMQ
