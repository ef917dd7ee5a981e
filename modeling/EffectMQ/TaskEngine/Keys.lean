import EffectMQ.TaskEngine.Numbers
import EffectMQ.Text.Separator

/-!
# The keys of the task engine

The key helpers of the script. A queue has one key for each of its lists and indexes, one for each schedule name, a record
and a lock for each id, and a result, a history and two sets of holds for each generation of an id. A generation that the
helper gets as a number is written by `..`; the history gets the text that the record has of it.
-/

namespace EffectMQ

def scheduleHash (queue name : String) : String := queue ++ ":schedule:" ++ name
def taskHash (queue id : String) : String := queue ++ ":task:" ++ id
def generationHash (queue : String) : String := queue ++ ":generations"
def createdList (queue : String) : String := queue ++ ":created"
def delayedList (queue : String) : String := queue ++ ":scheduled"
def waitList (queue : String) : String := queue ++ ":wait"
def successList (queue : String) : String := queue ++ ":success"
def failedList (queue : String) : String := queue ++ ":failed"
def activeList (queue : String) : String := queue ++ ":active"
def eventStream (queue : String) : String := queue ++ ":events"
def eventMetadata (queue : String) : String := queue ++ ":events:metadata"
def lockHash (queue id : String) : String := queue ++ ":lock:" ++ id
def resultHash (queue id : String) (generation : ℕ) : String := queue ++ ":result:" ++ id ++ ":" ++ luaNumber generation
def taskExpiryIndex (queue : String) : String := queue ++ ":expiry:tasks"
def resultExpiryIndex (queue : String) : String := queue ++ ":expiry:results"
def terminalExpiryIndex (queue : String) : String := queue ++ ":expiry:terminal-indexes"
def deadLetterList (queue : String) : String := queue ++ ":dead-letter"
def deadLetterExpiryIndex (queue : String) : String := queue ++ ":expiry:dead-letter"
def retentionHoldersKey (queue id : String) (generation : ℕ) : String :=
  queue ++ ":task:" ++ id ++ ":" ++ luaNumber generation ++ ":retained-by"
def retainedTasksKey (queue id : String) (generation : ℕ) : String :=
  queue ++ ":task:" ++ id ++ ":" ++ luaNumber generation ++ ":retains"
def retentionContinuationKey (queue : String) : String := queue ++ ":retention-release-continuations"
def maintenanceCursorKey (queue : String) : String := queue ++ ":maintenance:cursor"
def historyKey (queue id generation : String) : String := taskHash queue id ++ ":" ++ generation ++ ":history"

/-- The types of Redis values. -/
inductive RedisType
  | string | hash | list | set | sortedSet | stream
deriving DecidableEq

/-- The keys that a queue has once. -/
inductive QueueKey
  | generations | created | delayed | wait | success | failed | active | events | eventMetadata | taskExpiry | resultExpiry
  | terminalExpiry | deadLetter | deadLetterExpiry | retentionContinuation | maintenanceCursor
deriving DecidableEq

namespace QueueKey

def key (queue : String) : QueueKey → String
  | generations => generationHash queue
  | created => createdList queue
  | delayed => delayedList queue
  | wait => waitList queue
  | success => successList queue
  | failed => failedList queue
  | active => activeList queue
  | events => eventStream queue
  | eventMetadata => EffectMQ.eventMetadata queue
  | taskExpiry => taskExpiryIndex queue
  | resultExpiry => resultExpiryIndex queue
  | terminalExpiry => terminalExpiryIndex queue
  | deadLetter => deadLetterList queue
  | deadLetterExpiry => deadLetterExpiryIndex queue
  | retentionContinuation => retentionContinuationKey queue
  | maintenanceCursor => maintenanceCursorKey queue

def type : QueueKey → RedisType
  | generations | eventMetadata => .hash
  | wait => .list
  | events => .stream
  | maintenanceCursor => .string
  | _ => .sortedSet

end QueueKey

/-- What a generation has beside the record of its id, under a key that begins with the key of the record. -/
inductive GenerationKey
  | history | retentionHolders | retainedTasks
deriving DecidableEq

namespace GenerationKey

def key (queue id : String) (generation : ℕ) : GenerationKey → String
  | history => historyKey queue id generation.repr
  | retentionHolders => retentionHoldersKey queue id generation
  | retainedTasks => retainedTasksKey queue id generation

def type : GenerationKey → RedisType
  | history => .stream
  | retentionHolders | retainedTasks => .set

/-- The generation as it stands in the key. -/
def generationText (generation : ℕ) : GenerationKey → String
  | history => generation.repr
  | retentionHolders | retainedTasks => luaNumber generation

/-- The last word of the key. -/
def word : GenerationKey → String
  | history => "history"
  | retentionHolders => "retained-by"
  | retainedTasks => "retains"

end GenerationKey

/-- What the engine keeps under a key of its own. -/
inductive Slot
  | queueWide (k : QueueKey)
  | schedule (name : String)
  | task (id : String)
  | lock (id : String)
  | result (id : String) (generation : ℕ)
  | generation (k : GenerationKey) (id : String) (generation : ℕ)
deriving DecidableEq

namespace Slot

def key (queue : String) : Slot → String
  | queueWide k => k.key queue
  | schedule name => scheduleHash queue name
  | task id => taskHash queue id
  | lock id => lockHash queue id
  | result id g => resultHash queue id g
  | generation k id g => k.key queue id g

def type : Slot → RedisType
  | queueWide k => k.type
  | schedule _ | task _ | result _ _ => .hash
  | lock _ => .string
  | generation k _ _ => k.type

/-- The task id that a key belongs to. -/
def owner : Slot → Option String
  | queueWide _ | schedule _ => none
  | task id | lock id | result id _ | generation _ id _ => some id

/-- The generation that a key belongs to. -/
def ownerGeneration : Slot → Option ℕ
  | result _ g | generation _ _ g => some g
  | _ => none

end Slot

/-- An id that reads as another id, a generation and the last word of a key. -/
def Shadows (id : String) (k : GenerationKey) (id' : String) (generation : ℕ) : Prop :=
  id = id' ++ ":" ++ k.generationText generation ++ ":" ++ k.word

instance (id : String) (k : GenerationKey) (id' : String) (generation : ℕ) : Decidable (Shadows id k id' generation) :=
  inferInstanceAs (Decidable (_ = _))

namespace Slot

/-- The first is the record of an id that reads as the generation of the second. -/
def Shadows : Slot → Slot → Prop
  | task id, generation k id' g => EffectMQ.Shadows id k id' g
  | _, _ => False

/-- Two generations of an id that stand in their keys as one text. -/
def SameText : Slot → Slot → Prop
  | result id g, result id' g' => id = id' ∧ g ≠ g' ∧ luaNumber g = luaNumber g'
  | generation k id g, generation k' id' g' => k = k' ∧ id = id' ∧ g ≠ g' ∧ k.generationText g = k.generationText g'
  | _, _ => False

end Slot

end EffectMQ
