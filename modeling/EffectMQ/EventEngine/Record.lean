import EffectMQ.Redis.Hash
import EffectMQ.Redis.SortedSet

/-!
# The records of an event queue

The state that the event script keeps for one queue, and what it does to one record. A script function that raises
`EVENT_CORRUPT` stops where it is, with what it has written so far.
-/

namespace EffectMQ.EventEngine

open Redis

/-- `onCompletion`. -/
inductive OnCompletion
  | delete
  | archive
deriving DecidableEq, Repr

/-- The policy of a queue; it is stored with the first call. -/
structure Policy where
  onCompletion : OnCompletion
  ttlMs : Option ℕ
  archiveRetentionMs : Option ℕ
deriving DecidableEq, Repr

inductive RecipientStatus
  | pending
  | acknowledged
  | waived
deriving DecidableEq, Repr

structure Recipient where
  name : String
  generation : String
  status : RecipientStatus
  leaseToken : Option String
  leaseUntil : Option ℕ
deriving DecidableEq, Repr

inductive EventStatus
  | active
  | completed
  | expired
deriving DecidableEq, Repr

/-- A stored event, with its recipients by generation. -/
structure EventRecord where
  version : ℕ
  id : String
  queue : String
  payload : String
  createdAt : ℕ
  resolvedAt : ℕ
  expiresAt : Option ℕ
  settledAt : Option ℕ
  archiveUntil : Option ℕ
  status : EventStatus
  recipients : Hash Recipient
deriving DecidableEq

/-- The keys of one event queue. -/
structure EventStore where
  config : Option Policy
  subscriptions : Hash String
  removed : Hash ℕ
  retired : SortedSet String
  deadlines : SortedSet String
  archives : SortedSet String
  archiveDeadlines : SortedSet String
  record : String → Option EventRecord
  delivery : String → SortedSet String

def EventStore.empty : EventStore where
  config := none
  subscriptions := ∅
  removed := ∅
  retired := .empty
  deadlines := .empty
  archives := .empty
  archiveDeadlines := .empty
  record _ := none
  delivery _ := .empty

/-- What surrounds one invocation: the Redis clock, the batch size and the policy of the caller. -/
structure EventEnv where
  now : ℕ
  batch : ℕ
  batch_pos : 0 < batch
  policy : Policy

/-- A part of the script, which may raise an error. -/
abbrev Script := EStateM String EventStore

/-! ### Records and indexes -/

def save (record : EventRecord) (s : EventStore) : EventStore :=
  { s with record := Function.update s.record record.id (some record) }

/-- `ZREM` of a record from the delivery index of every recipient that `p` selects. -/
def undeliver (record : EventRecord) (p : String → Recipient → Bool) (s : EventStore) : EventStore :=
  { s with delivery := fun generation =>
      if ∃ recipient ∈ record.recipients.lookup generation, p generation recipient = true
      then (s.delivery generation).remove record.id else s.delivery generation }

/-- `ZADD` of an event to the delivery index of a generation. -/
def deliver (generation id : String) (time : ℕ) (s : EventStore) : EventStore :=
  { s with delivery := Function.update s.delivery generation ((s.delivery generation).add id time) }

def withdraw (generation id : String) (s : EventStore) : EventStore :=
  { s with delivery := Function.update s.delivery generation ((s.delivery generation).remove id) }

def load (id : String) : Script (Option EventRecord) := fun s =>
  match s.record id with
  | none => .ok none s
  | some record =>
    if record.version ≠ 1 ∨ record.id ≠ id then .error "EVENT_CORRUPT: Invalid event record" s
    else if ∃ entry ∈ record.recipients.entries, entry.2.generation ≠ entry.1 then
      .error "EVENT_CORRUPT: Invalid event recipient" s
    else .ok (some record) s

def purge (record : EventRecord) (s : EventStore) : EventStore :=
  { undeliver record (fun _ _ => true) s with
    record := Function.update s.record record.id none
    deadlines := s.deadlines.remove record.id
    archives := s.archives.remove record.id
    archiveDeadlines := s.archiveDeadlines.remove record.id }

/-- Settle a record, which is changed in place: the result is the record with the store. -/
def settle (env : EventEnv) (record : EventRecord) (status : EventStatus) (time : ℕ) (s : EventStore) :
    EventRecord × EventStore :=
  let s := { undeliver record (fun _ _ => true) s with deadlines := s.deadlines.remove record.id }
  let record := { record with
    status := status
    settledAt := some time
    recipients := record.recipients.mapValues fun _ recipient => { recipient with leaseUntil := none } }
  match env.policy.onCompletion with
  | .delete => (record, purge record s)
  | .archive =>
    let record := match env.policy.archiveRetentionMs with
      | some ms => { record with archiveUntil := some (time + ms) }
      | none => record
    if ∃ time ∈ record.archiveUntil, time ≤ env.now then (record, purge record s)
    else
      (record, { save record s with
        archives := s.archives.add record.id time
        archiveDeadlines := match record.archiveUntil with
          | some time => s.archiveDeadlines.add record.id time
          | none => s.archiveDeadlines })

/-- The removal that waives a recipient: its generation is removed, before the deadline of the event. -/
def waivedAt (removed : Hash ℕ) (record : EventRecord) (generation : String) (recipient : Recipient) : Option ℕ :=
  if recipient.status = .pending then
    (removed.lookup generation).filter fun removedAt => record.expiresAt.all fun time => removedAt < time
  else none

def waive (recipient : Recipient) : Recipient :=
  { recipient with status := .waived, leaseToken := none, leaseUntil := none }

/-- The recipients that are pending. -/
def EventRecord.pending (record : EventRecord) : ℕ :=
  (record.recipients.entries.filter fun entry => entry.2.status = .pending).length

/-- Apply the removals of subscriptions and the deadline to a record, which is changed in place. -/
def normalize (env : EventEnv) (record : EventRecord) (s : EventStore) : EventRecord × EventStore :=
  if record.status ≠ .active then
    if ∃ time ∈ record.archiveUntil, time ≤ env.now then (record, purge record s) else (record, s)
  else
    let waived := fun generation recipient => waivedAt s.removed record generation recipient
    let changed := record.recipients.entries.any fun entry => (waived entry.1 entry.2).isSome
    let s' := undeliver record (fun generation recipient => (waived generation recipient).isSome) s
    let record' := { record with
      recipients := record.recipients.mapValues fun generation recipient =>
        if (waived generation recipient).isSome then waive recipient else recipient
      resolvedAt := record.recipients.entries.foldl
        (fun resolvedAt entry => (waived entry.1 entry.2).elim resolvedAt (max resolvedAt)) record.resolvedAt }
    if record'.pending = 0 then settle env record' .completed record'.resolvedAt s'
    else
      match record'.expiresAt with
      | some time =>
        if time ≤ env.now then settle env record' .expired time s'
        else if changed then (record', save record' s') else (record', s')
      | none => if changed then (record', save record' s') else (record', s')

/-- `load` and `normalize`; a record that this purges is gone. -/
def current (env : EventEnv) (id : String) : Script (Option EventRecord) := do
  match ← load id with
  | none => return none
  | some record =>
    let (record, s) := normalize env record (← get)
    set s
    if s.record id = none then return none else return some record

end EffectMQ.EventEngine
