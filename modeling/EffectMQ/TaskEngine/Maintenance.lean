import EffectMQ.TaskEngine.Settlement

/-!
# Maintenance

Seven sweeps over the due members of a queue share the budget of the invocation. They run in a rotation that
the queue's cursor remembers, and stop when the budget is spent.
-/

namespace EffectMQ

open Redis

def syncDelayed (env : Env) (queue : String) (w : World) : World :=
  if w.remaining ≤ 0 then w
  else
    let items := (w.store.lists queue).scheduled.rangeByScore env.now w.remaining
    items.foldl (fun w item => moveToList env queue item (some .wait) 0 false none w) (w.spend items.length)

/-- An active id whose lease key is gone fails as stalled. -/
def failStalled (env : Env) (queue : String) (w : World) (id : String) : World :=
  if isLocked env w.store queue id then w
  else
    let nextStalledCount := ((w.store.task (queue, id)).map TaskRecord.stalledAttemptCount).getD 0 + 1
    let maxStalledCount := ((w.store.task (queue, id)).map TaskRecord.maxStalledCount).getD 1
    let retryAt := if maxStalledCount < nextStalledCount then -1 else 0
    failTask env queue id (stalledError env.clock) retryAt .stall w

def getExpiredActiveList (env : Env) (queue : String) (w : World) : List String :=
  if w.remaining ≤ 0 then [] else (w.store.lists queue).active.rangeByScore env.now w.remaining

def syncLocks (env : Env) (queue : String) (w : World) : World :=
  let activeIds := getExpiredActiveList env queue w
  activeIds.foldl (failStalled env queue) (w.spend activeIds.length)

def syncRetentionContinuations (env : Env) (queue : String) (w : World) : World :=
  if w.remaining ≤ 0 then w
  else
    ((w.store.continuations queue).range 0 0).foldl (fun w holder => releaseOwnedHolds env holder w) w

def dueExpiryMembers (env : Env) (index : SortedSet TaskIdentity) (w : World) : List TaskIdentity :=
  if w.remaining ≤ 0 then [] else index.rangeByScore env.now w.remaining

/-- The stored record of an index member of a queue. The members carry the queue prefix, but the sweeps of an
index look in their own queue. -/
def member (queue : String) (x : TaskIdentity) : TaskIdentity := ⟨queue, x.id, x.generation⟩

def setTaskExpiry (queue : String) (index : SortedSet TaskIdentity) (s : Store) : Store :=
  s.setExpiry queue { s.expiry queue with tasks := index }

def expireTask (env : Env) (queue : String) (w : World) (x : TaskIdentity) : World :=
  let t := member queue x
  let drop := fun s : Store => setTaskExpiry queue ((s.expiry queue).tasks.remove x) s
  match w.store.current t with
  | none => w.modify drop
  | some r =>
    if r.outcome.isNone then w.modify drop
    else if w.store.hasRetentionHolds t then
      w.modify fun s => setTaskExpiry queue ((s.expiry queue).tasks.add x (env.now + 1000)) s
    else
      (deleteTask env queue x.id false w).modify fun s =>
        drop { s with retainedBy := Function.update s.retainedBy t ∅ }

def syncTaskExpiry (env : Env) (queue : String) (w : World) : World :=
  let members := dueExpiryMembers env (w.store.expiry queue).tasks w
  members.foldl (expireTask env queue) (w.spend members.length)

def expireResult (env : Env) (queue : String) (w : World) (x : TaskIdentity) : World :=
  let t := member queue x
  if w.store.hasRetentionHolds t then
    w.modify fun s => s.setExpiry queue
      { s.expiry queue with results := (s.expiry queue).results.add x (env.now + 1000) }
  else
    w.modify fun s =>
      { s.setExpiry queue { s.expiry queue with results := (s.expiry queue).results.remove x } with
        result := Function.update s.result t none }

def syncResultExpiry (env : Env) (queue : String) (w : World) : World :=
  let members := dueExpiryMembers env (w.store.expiry queue).results w
  members.foldl (expireResult env queue) (w.spend members.length)

/-- Take an id out of both terminal indexes. -/
def unindexTerminal (queue id : String) (s : Store) : Store :=
  let (fromSuccess, L) := (s.lists queue).removeFrom id .success
  let (fromFailed, L) := L.removeFrom id .failed
  let s := s.setLists queue L
  if 0 < fromSuccess + fromFailed then s.modifyTask queue id fun r => { r with currentList := some none } else s

def expireTerminal (queue : String) (w : World) (x : TaskIdentity) : World :=
  w.modify fun s =>
    let s := if (s.current (member queue x)).isSome then unindexTerminal queue x.id s else s
    s.setExpiry queue { s.expiry queue with terminal := (s.expiry queue).terminal.remove x }

def syncTerminalExpiry (env : Env) (queue : String) (w : World) : World :=
  let members := dueExpiryMembers env (w.store.expiry queue).terminal w
  members.foldl (expireTerminal queue) (w.spend members.length)

def expireDeadLetter (queue : String) (w : World) (x : TaskIdentity) : World :=
  w.modify fun s => s.setExpiry queue
    { s.expiry queue with
      deadLetters := (s.expiry queue).deadLetters.remove x
      deadLetterExpiry := (s.expiry queue).deadLetterExpiry.remove x }

def syncDeadLetterExpiry (env : Env) (queue : String) (w : World) : World :=
  let members := dueExpiryMembers env (w.store.expiry queue).deadLetterExpiry w
  members.foldl (expireDeadLetter queue) (w.spend members.length)

/-- The sweeps in the order of the rotation. -/
def syncers : List (Env → String → World → World) :=
  [syncDelayed, syncLocks, syncRetentionContinuations, syncTaskExpiry, syncResultExpiry, syncTerminalExpiry,
    syncDeadLetterExpiry]

/-- One turn of the rotation; nothing runs once the budget is spent. -/
def syncTurn (env : Env) (queue : String) (cursor : ℕ) (w : World) (offset : ℕ) : World :=
  if w.remaining ≤ 0 then w
  else match syncers[(cursor + offset) % syncers.length]? with
    | some sync => sync env queue w
    | none => w

def syncAll (env : Env) (queue : String) (w : World) : World :=
  let cursor := w.store.maintenanceCursor queue
  let w := (List.range syncers.length).foldl (syncTurn env queue cursor) w
  w.modify fun s =>
    { s with maintenanceCursor := Function.update s.maintenanceCursor queue ((cursor + 1) % syncers.length) }

/-- The health figures of a queue after a sweep. -/
structure Snapshot where
  depth : ℕ
  oldestAge : ℚ
  sweepLag : ℚ
  dueBacklog : ℕ
  expiredLeases : ℕ
  retentionBacklog : ℕ
  processed : ℤ
deriving DecidableEq, Repr

def maintenanceSnapshot (env : Env) (queue : String) (w : World) : Snapshot :=
  let s := w.store
  let L := s.lists queue
  let e := s.expiry queue
  let dueScores := [L.scheduled.firstScore, L.active.firstScore, e.tasks.firstScore, e.results.firstScore,
    e.terminal.firstScore, e.deadLetterExpiry.firstScore, (s.continuations queue).firstScore]
  let oldestDue := dueScores.foldl (fun oldest score => match score with
    | some score => if score ≤ env.now ∧ oldest.all (score < ·) then some score else oldest
    | none => oldest) none
  { depth := L.wait.length + L.scheduled.card + L.active.card
    oldestAge := ((s.created queue).firstScore.map fun score => max 0 (env.now - score)).getD 0
    sweepLag := (oldestDue.map fun score => max 0 (env.now - score)).getD 0
    dueBacklog := L.scheduled.count env.now
    expiredLeases := L.active.count env.now
    retentionBacklog := e.tasks.count env.now + e.results.count env.now + e.terminal.count env.now +
      e.deadLetterExpiry.count env.now
    processed := env.maintenanceBatchSize - w.remaining }

end EffectMQ
