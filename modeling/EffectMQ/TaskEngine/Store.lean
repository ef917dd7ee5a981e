import EffectMQ.TaskEngine.Record

/-!
# The store and one script invocation

The keys of the engine, by role: a map for each kind of key, with the queue prefix, the task id and the
generation as arguments. A script sees the store, the part of its maintenance budget that is left and, once
`error` was called, the error. Redis does not undo what an aborted script wrote, and the script writes nothing
after it aborts: `raised` keeps the store of that moment, and what the functions below still compute on the
live store is thrown away when the invocation ends.
-/

namespace EffectMQ

open Redis

/-- The five execution lists of a queue. -/
structure QueueLists where
  wait : List String
  scheduled : SortedSet String
  active : SortedSet String
  failed : SortedSet String
  success : SortedSet String
deriving Inhabited

/-- The expiry indexes of a queue, and its dead letters. -/
structure ExpiryIndexes where
  tasks : SortedSet TaskIdentity
  results : SortedSet TaskIdentity
  terminal : SortedSet TaskIdentity
  deadLetters : SortedSet TaskIdentity
  deadLetterExpiry : SortedSet TaskIdentity
deriving Inhabited

structure Store where
  task : String × String → Option TaskRecord
  generations : String × String → ℕ
  created : String → SortedSet String
  lists : String → QueueLists
  lock : String × String → Option Lock
  result : TaskIdentity → Option TerminalResult
  expiry : String → ExpiryIndexes
  retainedBy : TaskIdentity → Finset TaskIdentity
  retains : TaskIdentity → Finset TaskIdentity
  continuations : String → SortedSet TaskIdentity
  maintenanceCursor : String → ℕ
  history : TaskIdentity → List (StreamId × HistoryEntry)
  events : String → Stream Event
  schedule : String × String → Option ℤ

namespace Store

/-- The store before the first operation. -/
def empty : Store where
  task _ := none
  generations _ := 0
  created _ := .empty
  lists _ := ⟨[], .empty, .empty, .empty, .empty⟩
  lock _ := none
  result _ := none
  expiry _ := ⟨.empty, .empty, .empty, .empty, .empty⟩
  retainedBy _ := ∅
  retains _ := ∅
  continuations _ := .empty
  maintenanceCursor _ := 0
  history _ := []
  events _ := .empty
  schedule _ := none

variable (s : Store)

/-- Change a stored record. `HSET` on a missing hash would create one; the engine only does that in
`deleteTask`, which deletes it again. -/
def modifyTask (queue id : String) (f : TaskRecord → TaskRecord) : Store :=
  { s with task := Function.update s.task (queue, id) ((s.task (queue, id)).map f) }

def setLists (queue : String) (lists : QueueLists) : Store :=
  { s with lists := Function.update s.lists queue lists }

def setExpiry (queue : String) (indexes : ExpiryIndexes) : Store :=
  { s with expiry := Function.update s.expiry queue indexes }

/-- The generation of the stored record, `0` when there is none. -/
def generation (queue id : String) : ℕ := ((s.task (queue, id)).map TaskRecord.generation).getD 0

/-- The identity of the stored generation. -/
def identity (queue id : String) : TaskIdentity := ⟨queue, id, s.generation queue id⟩

/-- `exists(taskHash) == 1 and currentGeneration == generation`: the identity names the stored record. -/
def current (x : TaskIdentity) : Option TaskRecord :=
  (s.task (x.queue, x.id)).filter fun r => r.generation = x.generation

def hasRetentionHolds (x : TaskIdentity) : Bool := 0 < (s.retainedBy x).card

end Store

/-- The surroundings of one script invocation: the server clock, the debug flag, the maintenance batch and
the choices Redis leaves to itself. -/
structure Env where
  clock : ℕ
  debugMode : Bool
  maintenanceBatchSize : ℕ
  batch_pos : 0 < maintenanceBatchSize
  spop : RandomPop TaskIdentity TaskIdentity
  trimByLength : String → List StreamId → ℕ
  trimById : String → List StreamId → ℕ

/-- The clock as a score. -/
def Env.now (env : Env) : ℚ := env.clock

/-- A raised script error and the store at that moment. -/
structure Raised where
  message : String
  store : Store

/-- The state of a running script. -/
structure World where
  store : Store
  remaining : ℤ
  raised : Option Raised

namespace World

def modify (w : World) (f : Store → Store) : World := { w with store := f w.store }

def spend (w : World) (n : ℕ) : World := { w with remaining := w.remaining - n }

/-- `error(message)`. -/
def raise (w : World) (message : String) : World :=
  { w with raised := w.raised <|> some ⟨message, w.store⟩ }

end World

/-- `2^53 - 1`. -/
def maxSafeInteger : ℕ := 9007199254740991

end EffectMQ
