import EffectMQ.Redis.Stream
import EffectMQ.Redis.RandomPop

/-!
# What the engine stores

The record of a task generation, its terminal result, its history and its events, as the task hash, the
result hash and the two kinds of stream hold them. Clock values are whole milliseconds; delays and retry
times may be fractional, so every score is rational. Payloads, success values and creators are packed on the
Node side and never opened by the script: they are strings here. A failure value is unpacked by the script,
which looks at whether it is a table and at its `_tag`.
-/

namespace EffectMQ

open Redis

/-- A queue, an id and a generation: the tuple that relationships and expiry indexes hold. -/
structure TaskIdentity where
  queue : String
  id : String
  generation : ℕ
deriving DecidableEq, Repr, Inhabited

namespace TaskIdentity

/-- The packed form of a string: its length header, then its bytes. -/
def packString (s : String) : List ℕ :=
  let n := s.utf8ByteSize
  let header :=
    if n < 32 then [0xa0 + n]
    else if n < 256 then [0xd9, n]
    else if n < 65536 then [0xda, n / 256, n % 256]
    else [0xdb, n / 16777216, n / 65536 % 256, n / 256 % 256, n % 256]
  header ++ s.toUTF8.toList.map UInt8.toNat

/-- The packed form of a positive integer. -/
def packNumber (n : ℕ) : List ℕ :=
  if n < 128 then [n]
  else if n < 256 then [0xcc, n]
  else if n < 65536 then [0xcd, n / 256, n % 256]
  else if n < 4294967296 then [0xce, n / 16777216, n / 65536 % 256, n / 256 % 256, n % 256]
  else 0xcf :: (List.range 8).map fun i => n / 256 ^ (7 - i) % 256

/-- `identityMember`: `cmsgpack.pack({ queue, id, generation })`. -/
def identityMember (x : TaskIdentity) : List ℕ :=
  0x93 :: (packString x.queue ++ packString x.id ++ packNumber x.generation)

/-- Members sort by their packed bytes; the fields themselves only serve to make the order total. -/
def sortKey (x : TaskIdentity) : List ℕ ×ₗ String ×ₗ String ×ₗ ℕ :=
  toLex (x.identityMember, toLex (x.queue, toLex (x.id, x.generation)))

theorem sortKey_injective : Function.Injective sortKey := by
  intro x y h
  have h := (Prod.mk.inj (toLex.injective h)).2
  obtain ⟨hqueue, h⟩ := Prod.mk.inj (toLex.injective h)
  obtain ⟨hid, hgeneration⟩ := Prod.mk.inj (toLex.injective h)
  cases x
  cases y
  simp_all

instance : MemberOrder TaskIdentity where
  lt x y := decide (x.sortKey < y.sortKey)
  irrefl x := decide_eq_false (lt_irrefl x.sortKey)
  trans _ _ _ hxy hyz := decide_eq_true (lt_trans (of_decide_eq_true hxy) (of_decide_eq_true hyz))
  total _ _ hxy hyx := sortKey_injective
    (le_antisymm (not_lt.mp (of_decide_eq_false hyx)) (not_lt.mp (of_decide_eq_false hxy)))

end TaskIdentity

/-- The lists a task can be in. -/
inductive TaskList
  | wait | scheduled | active | failed | success
deriving DecidableEq, Repr

/-- What happens to a settled task. -/
inductive CompletionPolicy
  | delete | keep | markAsSuccess | markAsFailure
deriving DecidableEq, Repr

inductive Outcome
  | success | failure
deriving DecidableEq, Repr

inductive ExecutionState
  | delayed | waiting | leased | retryScheduled | succeeded | failed
deriving DecidableEq, Repr

/-- Why an attempt failed. -/
inductive FailureKind
  | handler | stall | canceled
deriving DecidableEq, Repr

/-- A failure value as `cmsgpack.unpack` gives it. Of a table the script reads `_tag` only; the other entries
stay packed. -/
inductive LuaValue
  | nil
  | boolean (b : Bool)
  | number (n : ℚ)
  | string (s : String)
  | table (tag : Option String) (entries : String)
deriving DecidableEq, Repr

/-- `type(error) == "table" and error._tag or nil`. -/
def LuaValue.errorTag : LuaValue → Option String
  | .table tag _ => tag
  | _ => none

def canceledTag : String := "~effectmq/Error/Canceled"

def stalledTag : String := "~effectmq/Error/Stalled"

/-- The failure value of a stall. -/
def stalledError (clock : ℕ) : LuaValue := .table (some stalledTag) ("timestamp " ++ toString clock)

/-- An entry of the stored error list. -/
structure ErrorEntry where
  error : LuaValue
  timestamp : ℕ
  retryAt : Option ℚ
deriving DecidableEq, Repr

/-- The history fields of a task hash. -/
structure HistoryFields where
  enabled : Bool
  maxEntries : ℕ
  sequence : ℕ
  trimmed : ℕ
  trimmedId : StreamId
deriving DecidableEq, Repr, Inhabited

/-- The task hash. `currentList` is absent until the first move, then names a list or is `none`. -/
structure TaskRecord where
  generation : ℕ
  protocolVersion : ℕ
  schemaId : String
  name : String
  createdAt : ℕ
  updatedAt : ℕ
  payload : String
  delay : ℚ
  maxRetries : ℤ
  maxStalledCount : ℕ
  maxErrorEntries : ℕ
  maxRelationships : ℕ
  maxEventEntries : ℕ
  taskRecordRetentionMs : ℕ
  resultRetentionMs : ℕ
  terminalIndexRetentionMs : ℕ
  deadLetterRetentionMs : ℕ
  eventRetentionMs : ℕ
  attempt : ℕ
  handlerFailureCount : ℕ
  stalledAttemptCount : ℕ
  onSuccessPolicy : CompletionPolicy
  onFailurePolicy : CompletionPolicy
  errors : List ErrorEntry
  creator : Option String
  success : Option String
  outcome : Option Outcome
  currentList : Option (Option TaskList)
  history : HistoryFields
deriving DecidableEq, Repr

namespace TaskRecord

/-- The policy that applies to an outcome. -/
def policy (r : TaskRecord) : Outcome → CompletionPolicy
  | .success => r.onSuccessPolicy
  | .failure => r.onFailurePolicy

/-- The list the record names, if any. -/
def place (r : TaskRecord) : Option TaskList := r.currentList.join

end TaskRecord

/-- The result hash of a generation. -/
structure TerminalResult where
  protocolVersion : ℕ
  schemaId : String
  generation : ℕ
  outcome : Outcome
  settledAt : ℕ
  success : Option String
  failure : Option LuaValue
deriving DecidableEq, Repr

/-- The lease of an attempt: its token, and when the key disappears. -/
structure Lock where
  token : String
  expiresAt : ℚ
deriving DecidableEq, Repr

/-- The payload of a published event, under its tag. -/
inductive EventBody
  | created (newTask : TaskRecord) (state : ExecutionState)
  | updated (existingTask newTask : TaskRecord) (state : ExecutionState)
  | moved (source target : Option TaskList) (previousState newState : Option ExecutionState)
      (attempt handlerFailureCount stalledAttemptCount : ℕ)
  | completed (success : String) (policy : CompletionPolicy)
  | failed (error : LuaValue) (policy : CompletionPolicy) (failureKind : FailureKind) (attempt : ℕ)
      (terminal : Bool) (retryAt : Option ℚ)
deriving DecidableEq, Repr

/-- An entry of the queue's event stream. -/
structure Event where
  taskId : String
  generation : ℕ
  protocolVersion : ℕ
  schemaId : String
  body : EventBody
deriving DecidableEq, Repr

/-- The data of a history entry. A lifecycle entry keeps the allowed fields of its event. -/
inductive HistoryData
  | progress (data : String)
  | created
  | updated
  | moved (source target : Option TaskList) (previousState newState : Option ExecutionState)
  | completed (policy : CompletionPolicy)
  | failed (policy : CompletionPolicy) (failureKind : FailureKind) (terminal : Bool) (retryAt : Option ℚ)
deriving DecidableEq, Repr

/-- An entry of a generation's history stream. -/
structure HistoryEntry where
  taskId : String
  generation : ℕ
  schemaId : String
  attempt : ℕ
  timestamp : ℕ
  sequence : ℕ
  data : HistoryData
deriving DecidableEq, Repr

end EffectMQ
