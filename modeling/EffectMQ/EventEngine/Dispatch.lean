import EffectMQ.EventEngine.Record

/-!
# The operations of an event queue

The bounded maintenance sweep and the operations of the event script, with their replies.
-/

namespace EffectMQ.EventEngine

open Redis

/-- The inputs of the script, by operation. -/
inductive EventOp
  | subscribe (name generation : String)
  | unsubscribe (name generation : String)
  | emit (id queue payload : String) (ttlMs : Option ℕ)
  | get (id : String)
  | take (name generation token : String) (leaseMs : ℕ)
  | acknowledge (id name generation token : String)
  | renew (id name generation token : String) (leaseMs : ℕ)
  | release (id name generation token : String) (delayMs : ℕ)
  | maintain
  | listArchived (offset limit : ℕ)
deriving DecidableEq, Repr

inductive ErrorCode
  | invalidInput
  | configurationConflict
  | capacityExceeded
  | subscriptionMissing
  | leaseLost
  | eventNotActive
  | corruptStorage
deriving DecidableEq, Repr

inductive Acknowledgement
  | acknowledged
  | alreadyAcknowledged
  | gone
deriving DecidableEq, Repr

inductive EventReply
  | subscription (name generation : String)
  | unsubscribed (value : Bool)
  | emitted (record : EventRecord)
  | event (record : Option EventRecord)
  | delivery (event : Option (EventRecord × String))
  | acknowledgement (value : Acknowledgement)
  | done
  | maintenance (processed : ℕ) (pending : Bool)
  | archived (ids : List String)
  | fail (code : ErrorCode) (message : String)
deriving DecidableEq

/-! ### Maintenance -/

/-- `ZRANGEBYSCORE key -inf now LIMIT 0 batch`. -/
def dueIn (env : EventEnv) (index : SortedSet String) : List String :=
  (index.within fun score => score ≤ env.now).take env.batch

def expireDue (env : EventEnv) (id : String) : Script Unit := do
  match ← load id with
  | some record => modify fun s => (normalize env record s).2
  | none => modify fun s => { s with deadlines := s.deadlines.remove id }

def purgeDue (id : String) : Script Unit := do
  match ← load id with
  | some record => modify (purge record)
  | none => modify fun s => { s with archiveDeadlines := s.archiveDeadlines.remove id, archives := s.archives.remove id }

/-- One event of a removed generation. A terminal event or a waiver no longer needs the index of the generation. -/
def drainDelivery (env : EventEnv) (generation id : String) : Script Unit := do
  match ← load id with
  | some record => modify fun s => (normalize env record s).2
  | none => pure ()
  modify (withdraw generation id)

/-- Forget a removed generation whose index is empty. -/
def forgetDrained (generation : String) (s : EventStore) : EventStore :=
  if (s.delivery generation).card = 0 then
    { s with retired := s.retired.remove generation, removed := s.removed.erase generation }
  else s

/-- The removed generations in turn, while the budget lasts; the result counts the events. -/
def drainRetired (env : EventEnv) : ℕ → List String → Script ℕ
  | _, [] => return 0
  | remaining, generation :: rest => do
    if remaining = 0 then return 0
    else
      let ids := ((← get).delivery generation).members.take remaining
      ids.forM (drainDelivery env generation)
      modify (forgetDrained generation)
      -- an empty index costs one unit of the budget too
      let processed ← drainRetired env (remaining - max ids.length 1) rest
      return ids.length + processed

/-- Whether something is due still. -/
def pendingWork (env : EventEnv) (s : EventStore) : Bool :=
  0 < s.retired.card ∨ 0 < (s.deadlines.within fun score => score ≤ env.now).length ∨
    0 < (s.archiveDeadlines.within fun score => score ≤ env.now).length

def maintain (env : EventEnv) : Script (ℕ × Bool) := do
  let expiring := dueIn env (← get).deadlines
  expiring.forM (expireDue env)
  let purging := dueIn env (← get).archiveDeadlines
  purging.forM purgeDue
  let drained ← drainRetired env env.batch ((← get).retired.members.take env.batch)
  return (expiring.length + purging.length + drained, pendingWork env (← get))

/-! ### Operations -/

def registered (name generation : String) (subscriptions : Hash String) : Bool :=
  subscriptions.lookup name = some generation

def subscribe (name generation : String) (s : EventStore) : EventReply × EventStore :=
  match s.subscriptions.lookup name with
  | some existing => (.subscription name existing, s)
  | none =>
    if 1000 ≤ s.subscriptions.keys.length then (.fail .capacityExceeded "Queue has 1000 active subscriptions", s)
    else (.subscription name generation, { s with subscriptions := s.subscriptions.insert name generation })

def unsubscribe (env : EventEnv) (name generation : String) : Script EventReply := do
  if registered name generation (← get).subscriptions = false then return .unsubscribed false
  else
    modify fun s => { s with
      subscriptions := s.subscriptions.erase name
      removed := s.removed.insert generation env.now
      retired := s.retired.add generation env.now }
    let _ ← maintain env
    return .unsubscribed true

/-- The recipients of an event at its emission: one for each registered generation. -/
def recipientsOf (subscriptions : Hash String) : Hash Recipient :=
  subscriptions.entries.foldl (fun recipients entry => recipients.insert entry.2
    { name := entry.1, generation := entry.2, status := .pending, leaseToken := none, leaseUntil := none }) ∅

def newEvent (env : EventEnv) (id queue payload : String) (ttlMs : Option ℕ) (subscriptions : Hash String) :
    EventRecord where
  version := 1
  id := id
  queue := queue
  payload := payload
  createdAt := env.now
  resolvedAt := env.now
  expiresAt := ttlMs.map (env.now + ·)
  settledAt := none
  archiveUntil := none
  status := .active
  recipients := recipientsOf subscriptions

def emit (env : EventEnv) (id queue payload : String) (ttlMs : Option ℕ) (s : EventStore) : EventReply × EventStore :=
  if (s.record id).isSome then (.fail .invalidInput "Event id already exists", s)
  else
    let record := newEvent env id queue payload ttlMs s.subscriptions
    let s := s.subscriptions.entries.foldl (fun s entry => deliver entry.2 id env.now s) s
    let s := save record s
    let s := match record.expiresAt with
      | some time => { s with deadlines := s.deadlines.add id time }
      | none => s
    let (record, s) := normalize env record s
    (.emitted record, s)

/-- The end of a lease: never after the deadline of the event. -/
def leaseEnd (env : EventEnv) (record : EventRecord) (leaseMs : ℕ) : ℕ :=
  record.expiresAt.elim (env.now + leaseMs) (min (env.now + leaseMs))

def EventRecord.setRecipient (record : EventRecord) (generation : String) (f : Recipient → Recipient) : EventRecord :=
  { record with recipients := record.recipients.modify generation f }

def EventRecord.leased (record : EventRecord) (generation token : String) (leaseUntil : ℕ) : EventRecord :=
  record.setRecipient generation fun recipient =>
    { recipient with leaseToken := some token, leaseUntil := some leaseUntil }

def EventRecord.acknowledged (record : EventRecord) (generation : String) (now : ℕ) : EventRecord :=
  { record.setRecipient generation fun recipient => { recipient with status := .acknowledged, leaseUntil := none } with
    resolvedAt := now }

def EventRecord.renewed (record : EventRecord) (generation : String) (leaseUntil : ℕ) : EventRecord :=
  record.setRecipient generation fun recipient => { recipient with leaseUntil := some leaseUntil }

def EventRecord.released (record : EventRecord) (generation : String) : EventRecord :=
  record.setRecipient generation fun recipient => { recipient with leaseToken := none, leaseUntil := none }

/-- The first candidate whose delivery is still pending is leased; the others leave the index. -/
def takeFrom (env : EventEnv) (generation token : String) (leaseMs : ℕ) : List String → Script EventReply
  | [] => return .delivery none
  | id :: rest => do
    match ← current env id with
    | some record =>
      if record.status = .active ∧ ∃ recipient ∈ record.recipients.lookup generation, recipient.status = .pending then
        let leaseUntil := leaseEnd env record leaseMs
        modify (deliver generation id leaseUntil)
        modify (save (record.leased generation token leaseUntil))
        return .delivery (some (record.leased generation token leaseUntil, token))
      else
        modify (withdraw generation id)
        takeFrom env generation token leaseMs rest
    | none =>
      modify (withdraw generation id)
      takeFrom env generation token leaseMs rest

def take (env : EventEnv) (name generation token : String) (leaseMs : ℕ) : Script EventReply := do
  if registered name generation (← get).subscriptions = false then
    return .fail .subscriptionMissing "Subscription generation is no longer registered"
  else takeFrom env generation token leaseMs (dueIn env ((← get).delivery generation))

/-- What an owner does with its delivery. -/
inductive Handling
  | acknowledge
  | renew (leaseMs : ℕ)
  | release (delayMs : ℕ)
deriving DecidableEq, Repr

/-- The checks that the operations of an owner share: the reply when one of them fails. -/
def handlingFault (env : EventEnv) (name generation token : String) (handling : Handling) (record : EventRecord)
    (subscriptions : Hash String) : Option EventReply :=
  match record.recipients.lookup generation with
  | none => some (.fail .leaseLost "Delivery token is not current")
  | some recipient =>
    if recipient.name ≠ name ∨ recipient.leaseToken ≠ some token then
      some (.fail .leaseLost "Delivery token is not current")
    else if handling = .acknowledge ∧ recipient.status = .acknowledged then
      some (.acknowledgement .alreadyAcknowledged)
    else if record.status ≠ .active then some (.fail .eventNotActive "Event has settled")
    else if recipient.status ≠ .pending ∨ (recipient.leaseUntil.all fun time => time ≤ env.now) = true ∨
        registered name generation subscriptions = false then
      some (.fail .leaseLost "Delivery lease has expired or subscription was removed")
    else none

def handle (env : EventEnv) (id name generation token : String) (handling : Handling) : Script EventReply := do
  match ← current env id with
  | none =>
    if handling = .acknowledge then return .acknowledgement .gone
    else return .fail .leaseLost "Event is no longer retained"
  | some record =>
    match handlingFault env name generation token handling record (← get).subscriptions with
    | some fault => return fault
    | none =>
      match handling with
      | .acknowledge =>
        let record := record.acknowledged generation env.now
        modify (withdraw generation id)
        modify (save record)
        modify fun s => (normalize env record s).2
        return .acknowledgement .acknowledged
      | .renew leaseMs =>
        let leaseUntil := leaseEnd env record leaseMs
        modify (deliver generation id leaseUntil)
        modify (save (record.renewed generation leaseUntil))
        return .done
      | .release delayMs =>
        modify (deliver generation id (env.now + delayMs))
        modify (save (record.released generation))
        return .done

/-- The settled events that are retained still. -/
def listArchived (env : EventEnv) (offset limit : ℕ) : Script EventReply := do
  let _ ← maintain env
  let minimum := env.policy.archiveRetentionMs.map fun ms : ℕ => (env.now : ℚ) - ms
  return .archived ((((← get).archives.within fun score => minimum.all fun low => low < score).drop offset).take limit)

def dispatch (env : EventEnv) (op : EventOp) : Script EventReply := do
  if ∃ existing ∈ (← get).config, existing ≠ env.policy then
    return .fail .configurationConflict "Queue already exists with a different policy"
  else
    modify fun s => { s with config := some env.policy }
    match op with
    | .subscribe name generation => modifyGet (subscribe name generation)
    | .unsubscribe name generation => unsubscribe env name generation
    | .emit id queue payload ttlMs => modifyGet (emit env id queue payload ttlMs)
    | .get id => return .event (← current env id)
    | .take name generation token leaseMs => take env name generation token leaseMs
    | .acknowledge id name generation token => handle env id name generation token .acknowledge
    | .renew id name generation token leaseMs => handle env id name generation token (.renew leaseMs)
    | .release id name generation token delayMs => handle env id name generation token (.release delayMs)
    | .maintain => do
      let (processed, pending) ← maintain env
      return .maintenance processed pending
    | .listArchived offset limit => listArchived env offset limit

/-- One invocation: a raised error becomes a reply, and what was written before it stays. -/
def exec (env : EventEnv) (op : EventOp) (s : EventStore) : EventReply × EventStore :=
  match dispatch env op s with
  | .ok reply s => (reply, s)
  | .error message s => (.fail .corruptStorage message, s)

end EffectMQ.EventEngine
