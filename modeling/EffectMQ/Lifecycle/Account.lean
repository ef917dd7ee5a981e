import EffectMQ.Lifecycle.Lease

/-!
# The account of a step

What each action makes of the stored record, up to its history fields, which events it publishes under the
identity of that record, and which result it writes.
-/

namespace EffectMQ

open Redis

namespace TaskRecord

/-- The execution state that a list, or no list, stands for. -/
def state (r : TaskRecord) : Option TaskList → Option ExecutionState
  | some .wait => some .waiting
  | some .active => some .leased
  | some .success => some .succeeded
  | some .failed => some .failed
  | some .scheduled =>
    if 0 < r.handlerFailureCount + r.stalledAttemptCount then some .retryScheduled else some .delayed
  | none => r.outcome.map fun
    | .success => .succeeded
    | .failure => .failed

/-- The move of a record to a list, when it is not there. -/
def moves (r : TaskRecord) (list : Option TaskList) : List EventBody :=
  if r.place = list then []
  else [.moved r.place list (r.state r.place) (r.state list) r.attempt r.handlerFailureCount r.stalledAttemptCount]

/-- An event under the identity of a record. -/
def stamp (r : TaskRecord) (id : String) (body : EventBody) : Event :=
  ⟨id, r.generation, r.protocolVersion, r.schemaId, body⟩

def withHistory (r : TaskRecord) (history : HistoryFields) : TaskRecord := { r with history := history }

@[simp] theorem stamp_withHistory (r : TaskRecord) (history : HistoryFields) :
    (r.withHistory history).stamp = r.stamp := rfl

@[simp] theorem moves_withHistory (r : TaskRecord) (history : HistoryFields) :
    (r.withHistory history).moves = r.moves := rfl

def listed (r : TaskRecord) (list : Option TaskList) : TaskRecord := { r with currentList := some list }

/-- The record of a success, before its policy places it. -/
def succeeded (env : Env) (r : TaskRecord) (result : String) : TaskRecord :=
  { r with updatedAt := env.clock, success := some result, outcome := some .success }

/-- The record of a terminal failure, before its policy places it. -/
def exhausted (env : Env) (r : TaskRecord) (error : LuaValue) (retryAt : Option ℚ) (kind : FailureKind) : TaskRecord :=
  { r.failed env error retryAt kind with updatedAt := env.clock, outcome := some .failure }

/-- The place a policy gives to a settled record; disposal takes the record. -/
def placed (r : TaskRecord) (policy : CompletionPolicy) (held : Bool) : Option TaskRecord :=
  if policy = .delete ∧ held = false then none else some (r.listed policy.list)

/-- A record that left the terminal indexes. -/
def unindexed (r : TaskRecord) : TaskRecord :=
  if r.place = some .success ∨ r.place = some .failed then r.listed none else r

/-- The list that a retry goes to. -/
def retryList (env : Env) (retryAt : ℚ) : TaskList := if env.now < retryAt then .scheduled else .wait

end TaskRecord

namespace TaskAction

/-- The record after an action, up to its history fields. -/
def next (env : Env) (r : TaskRecord) : TaskAction → Option TaskRecord
  | .promote => some (r.listed (some .wait))
  | .lease _ _ => some { r.listed (some .active) with attempt := r.attempt + 1 }
  | .renew _ _ => some (r.listed (some .active))
  | .release _ => some (r.listed (some .wait))
  | .retry cause error retryAt =>
    some ((r.failed env error (retryTime retryAt) cause.kind).listed (some (TaskRecord.retryList env retryAt)))
  | .fail cause error retryAt held =>
    (r.exhausted env error (retryTime retryAt) cause.kind).placed r.onFailurePolicy held
  | .succeed _ result held => (r.succeeded env result).placed r.onSuccessPolicy held
  | .refile => r.outcome.elim (some r) fun outcome => r.placed (r.policy outcome) false
  | .expireTerminal g => some (if r.generation = g then r.unindexed else r)
  | .replace | .expireTask | .remove | .forget _ => none
  | _ => some r

/-- The events that an action publishes about a stored record. -/
def bodies (env : Env) (r : TaskRecord) : TaskAction → List EventBody
  | .promote => r.moves (some .wait)
  | .lease _ _ => r.moves (some .active)
  | .renew _ _ => r.moves (some .active)
  | .release _ => r.moves (some .wait)
  | .retry cause error retryAt =>
    .failed error r.onFailurePolicy cause.kind r.attempt false (retryTime retryAt) ::
      (r.failed env error (retryTime retryAt) cause.kind).moves (some (TaskRecord.retryList env retryAt))
  | .fail cause error retryAt _ =>
    .failed error r.onFailurePolicy cause.kind r.attempt true (retryTime retryAt) ::
      (r.exhausted env error (retryTime retryAt) cause.kind).moves r.onFailurePolicy.list
  | .succeed _ result _ => .completed result r.onSuccessPolicy :: (r.succeeded env result).moves r.onSuccessPolicy.list
  | .refile => r.outcome.elim [] fun outcome => r.moves (r.policy outcome).list
  | .replace | .expireTask | .remove | .forget _ => r.moves none
  | _ => []

/-- The list a new record starts in. -/
def firstList (a : CreateArgs) : TaskList := if 0 < a.delay.getD 0 then .scheduled else .wait

/-- The events of a creation. -/
def createBodies (env : Env) (a : CreateArgs) (replacedTask : Option TaskRecord) (n : ℕ) : List EventBody :=
  let state := if 0 < a.delay.getD 0 then ExecutionState.delayed else .waiting
  (match replacedTask with
    | some existingTask => EventBody.updated existingTask (newRecord env a n) state
    | none => .created (newRecord env a n) state) ::
  [.moved none (some (firstList a)) none (some state) 0 0 0]

/-- The outcome that an action settles a generation with. -/
def settles : TaskAction → Option Outcome
  | .succeed _ _ _ => some .success
  | .fail _ _ _ _ => some .failure
  | _ => none

/-- The actions that forget the result of a generation. -/
def Erases (g : ℕ) : TaskAction → Prop
  | .expireResult g' held => g' = g ∧ held = false
  | .forget g' => g' = g
  | _ => False

end TaskAction

namespace TaskView

variable (env : Env) (id : String) {v : TaskView} {r : TaskRecord}

theorem state_of_record (h : v.record = some r) (list : Option TaskList) : v.state list = r.state list := by
  cases list with
  | none =>
    simp only [state, TaskRecord.state, h, Option.bind_some]
    cases r.outcome with
    | none => rfl
    | some outcome => cases outcome <;> rfl
  | some l => cases l <;> simp [state, TaskRecord.state, h]

theorem moved_of_record (h : v.record = some r) (source target : Option TaskList) :
    v.moved source target = .moved source target (r.state source) (r.state target) r.attempt r.handlerFailureCount
      r.stalledAttemptCount := by
  simp [moved, state_of_record h, h]

theorem log_move_of_record (h : v.record = some r) (list : Option TaskList) (readyAt : ℚ) (attempt : Option ℕ) :
    (v.move env id list readyAt attempt).log = v.log ++ (r.moves list).map (r.stamp id) := by
  rw [log_move, place_of_record h, TaskRecord.moves]
  split
  · simp
  · have hrelist : (v.relist env list readyAt).record = some (r.listed list) := by
      simp [relist, h, TaskRecord.listed]
    have hstate : ∀ l, (r.listed list).state l = r.state l := fun l => by cases l <;> rfl
    rw [moved_of_record hrelist, event_of_record h, hstate, hstate]
    rfl

theorem log_delete_of_record (h : v.record = some r) :
    (v.delete env id).log = v.log ++ (r.moves none).map (r.stamp id) := log_move_of_record env id h none 0 none

theorem record_move_of_record (h : v.record = some r) (list : Option TaskList) (readyAt : ℚ) (attempt : Option ℕ) :
    ∃ history, (v.move env id list readyAt attempt).record = some ((r.listed list).withHistory history) := by
  obtain ⟨history, hrecord⟩ := record_move env id attempt list readyAt h
  exact ⟨history, hrecord⟩

/-- The completion policy of a settled record, on the record and the log. -/
theorem record_applyPolicy {outcome : Outcome} (h : v.record = some r) (ho : r.outcome = some outcome) (held : Bool) :
    ∃ history, (v.applyPolicy env id held).record =
      (r.placed (r.policy outcome) held).map fun r => r.withHistory history := by
  rw [applyPolicy_of_settled env h ho, TaskRecord.placed]
  split
  · exact ⟨r.history, rfl⟩
  · exact record_move_of_record env id h _ 0 none

theorem log_applyPolicy {outcome : Outcome} (h : v.record = some r) (ho : r.outcome = some outcome) (held : Bool) :
    (v.applyPolicy env id held).log = v.log ++ (r.moves (r.policy outcome).list).map (r.stamp id) := by
  rw [applyPolicy_of_settled env h ho]
  split
  · next hdelete =>
    obtain ⟨history, hrecord⟩ := record_move_of_record env id h none 0 none
    have hnone : ((r.listed none).withHistory history).moves none = [] := rfl
    rw [log_delete_of_record env id hrecord, hnone, hdelete.1, log_move_of_record env id h]
    simp [CompletionPolicy.list]
  · exact log_move_of_record env id h _ 0 none

theorem log_settle {outcome : Outcome} (h : v.record = some r) (ho : r.outcome = some outcome)
    (terminalFailure : LuaValue) (held : Bool) :
    (v.settle env id terminalFailure held).log = v.log ++ (r.moves (r.policy outcome).list).map (r.stamp id) := by
  have hrecord := ((record_retention env).trans (record_persist env terminalFailure)).trans h
  have hlog : ((v.persist env terminalFailure).retention env).log = v.log := by
    unfold retention persist
    split <;> split <;> rfl
  rw [settle, log_applyPolicy env id hrecord ho, hlog]

theorem record_settle {outcome : Outcome} (h : v.record = some r) (ho : r.outcome = some outcome)
    (terminalFailure : LuaValue) (held : Bool) :
    ∃ history, (v.settle env id terminalFailure held).record =
      (r.placed (r.policy outcome) held).map fun r => r.withHistory history :=
  record_applyPolicy env id (((record_retention env).trans (record_persist env terminalFailure)).trans h) ho held

@[simp] theorem result_delete : (v.delete env id).result = v.result := by simp [delete, drop]

@[simp] theorem result_applyPolicy (held : Bool) : (v.applyPolicy env id held).result = v.result := by
  unfold applyPolicy
  split
  · rfl
  · split
    · rfl
    · dsimp only
      split <;> simp

theorem result_settle (h : v.record = some r) (terminalFailure : LuaValue) (held : Bool) :
    (v.settle env id terminalFailure held).result =
      Function.update v.result r.generation (some (resultOf env r (v.result r.generation) terminalFailure)) := by
  have hretention : ((v.persist env terminalFailure).retention env).result = (v.persist env terminalFailure).result := by
    unfold retention
    split <;> rfl
  rw [settle, result_applyPolicy, hretention, persist, h]

theorem unindexed_of_listed (h : v.Listed) (hr : v.record = some r) : v.unindexed r = r.unindexed := by
  have hsuccess : (v.score .success).isSome ↔ r.place = some .success := by
    rw [h.score, place_of_record hr]
    simp
  have hfailed : (v.score .failed).isSome ↔ r.place = some .failed := by
    rw [h.score, place_of_record hr]
    simp
  simp only [unindexed, TaskRecord.unindexed, hsuccess, hfailed, TaskRecord.listed]

end TaskView

namespace TaskRecord

variable (env : Env) (r : TaskRecord) (error : LuaValue) (retryAt : Option ℚ) (kind : FailureKind)

@[simp] theorem onFailurePolicy_failed : (r.failed env error retryAt kind).onFailurePolicy = r.onFailurePolicy := by
  unfold failed
  split <;> rfl

@[simp] theorem attempt_failed : (r.failed env error retryAt kind).attempt = r.attempt := by
  unfold failed
  split <;> rfl

@[simp] theorem success_failed : (r.failed env error retryAt kind).success = r.success := by
  unfold failed
  split <;> rfl

@[simp] theorem stamp_failed : (r.failed env error retryAt kind).stamp = r.stamp := by
  unfold failed
  split <;> rfl

@[simp] theorem place_failed : (r.failed env error retryAt kind).place = r.place :=
  congrArg Option.join (currentList_failed env r error retryAt kind)

end TaskRecord

namespace TaskView

variable (env : Env) (id : String) {v : TaskView} {r : TaskRecord}

/-- The failure of a record, up to where it goes. -/
theorem log_recordFailure (h : v.record = some r) (error : LuaValue) (retryAt : Option ℚ) (kind : FailureKind) :
    (v.recordFailure env id error retryAt kind).log = v.log ++
      [r.stamp id (.failed error r.onFailurePolicy kind r.attempt (!willRetry error retryAt) retryAt)] := by
  have hrecord := record_appendTaskError env h error retryAt kind
  rw [recordFailure, log_publish, event_of_record hrecord, failedEvent, hrecord]
  have hstamp := congrFun (TaskRecord.stamp_failed env r error retryAt kind) id
  simp only [Option.map_some, Option.getD_some, TaskRecord.onFailurePolicy_failed, TaskRecord.attempt_failed, ← hstamp]
  rfl

theorem record_succeed (h : v.record = some r) (result : String) :
    ∃ history, (v.succeed env id result).record = some ((r.succeeded env result).withHistory history) := by
  have hset : (v.unlock.set env fun r => { r with success := some result, outcome := some .success }).record =
      some (r.succeeded env result) := by
    simp [set, modify, unlock, h, TaskRecord.succeeded]
  obtain ⟨history, hrecord⟩ := record_publish env id _ none none hset
  exact ⟨history, hrecord⟩

theorem log_succeed (h : v.record = some r) (result : String) :
    (v.succeed env id result).log = v.log ++ [r.stamp id (.completed result r.onSuccessPolicy)] := by
  have hset : (v.unlock.set env fun r => { r with success := some result, outcome := some .success }).record =
      some (r.succeeded env result) := by
    simp [set, modify, unlock, h, TaskRecord.succeeded]
  rw [succeed, log_publish, event_of_record hset, hset]
  rfl

end TaskView

section

variable {env : Env} {id : String} {v v' : TaskView} {r r' : TaskRecord} {a : TaskAction}

/-- What a step makes of a stored record, and the events it publishes about it. -/
structure Accounted (env : Env) (id : String) (v : TaskView) (r : TaskRecord) (a : TaskAction) (v' : TaskView) :
    Prop where
  record : ∃ history, v'.record = (a.next env r).map fun r => r.withHistory history
  log : v'.log = v.log ++ (a.bodies env r).map (r.stamp id)

theorem Accounted.of_eq (h : v.record = some r) (hnext : a.next env r = some r) (hbodies : a.bodies env r = [])
    (hrecord : v'.record = v.record) (hlog : v'.log = v.log) : Accounted env id v r a v' where
  record := ⟨r.history, by rw [hnext, hrecord, h]; rfl⟩
  log := by simp [hbodies, hlog]

theorem Accounted.retry (h : v.record = some r) (cause : Cause) (error : LuaValue) (retryAt : ℚ)
    (hretry : willRetry error (retryTime retryAt) = true) :
    Accounted env id v r (.retry cause error retryAt) (TaskAction.apply env id v (.retry cause error retryAt)) := by
  obtain ⟨history, hfailed⟩ := TaskView.record_recordFailure env id h error (retryTime retryAt) cause.kind
  have hlog := TaskView.log_recordFailure env id h error (retryTime retryAt) cause.kind
  have hfailed' : (TaskAction.failed env id cause error retryAt v).record =
    some ((r.failed env error (retryTime retryAt) cause.kind).withHistory history) := hfailed
  have hmove : ∀ list readyAt,
      (∃ history', ((TaskAction.failed env id cause error retryAt v).move env id list readyAt none).record =
        some (((r.failed env error (retryTime retryAt) cause.kind).listed list).withHistory history')) ∧
      ((TaskAction.failed env id cause error retryAt v).move env id list readyAt none).log = v.log ++
        (EventBody.failed error r.onFailurePolicy cause.kind r.attempt false (retryTime retryAt) ::
          (r.failed env error (retryTime retryAt) cause.kind).moves list).map (r.stamp id) := by
    intro list readyAt
    refine ⟨TaskView.record_move_of_record env id hfailed' list readyAt none, ?_⟩
    rw [TaskView.log_move_of_record env id hfailed' list readyAt none, TaskAction.failed, hlog, hretry]
    simp
  unfold TaskAction.apply
  dsimp only
  split
  · next hlater =>
    obtain ⟨hrecord, hlog⟩ := hmove (some .scheduled) retryAt
    exact ⟨by simpa [TaskAction.next, TaskRecord.retryList, hlater] using hrecord,
      by simpa [TaskAction.bodies, TaskRecord.retryList, hlater] using hlog⟩
  · next hlater =>
    obtain ⟨hrecord, hlog⟩ := hmove (some .wait) 0
    exact ⟨by simpa [TaskAction.next, TaskRecord.retryList, hlater] using hrecord,
      by simpa [TaskAction.bodies, TaskRecord.retryList, hlater] using hlog⟩

theorem Accounted.fail (h : v.record = some r) (cause : Cause) (error : LuaValue) (retryAt : ℚ) (held : Bool)
    (hterminal : willRetry error (retryTime retryAt) = false) :
    Accounted env id v r (.fail cause error retryAt held)
      (TaskAction.apply env id v (.fail cause error retryAt held)) := by
  obtain ⟨history, hfailed⟩ := TaskView.record_recordFailure env id h error (retryTime retryAt) cause.kind
  have hlog := TaskView.log_recordFailure env id h error (retryTime retryAt) cause.kind
  have hset : ((TaskAction.failed env id cause error retryAt v).set env
      fun r => { r with outcome := some .failure }).record =
      some ((r.exhausted env error (retryTime retryAt) cause.kind).withHistory history) :=
    congrArg (Option.map _) hfailed
  have hpolicy : ((r.exhausted env error (retryTime retryAt) cause.kind).withHistory history).policy .failure =
      r.onFailurePolicy := TaskRecord.onFailurePolicy_failed env r error (retryTime retryAt) cause.kind
  have hstamp : (r.exhausted env error (retryTime retryAt) cause.kind).stamp = r.stamp :=
    TaskRecord.stamp_failed env r error (retryTime retryAt) cause.kind
  obtain ⟨history', hrecord⟩ := TaskView.record_settle env id hset rfl error held
  refine ⟨⟨history', hrecord.trans ?_⟩, ?_⟩
  · rw [hpolicy, TaskAction.next]
    unfold TaskRecord.placed
    split <;> rfl
  · refine (TaskView.log_settle env id hset rfl error held).trans ?_
    have hlog' : ((TaskAction.failed env id cause error retryAt v).set env
        fun r => { r with outcome := some .failure }).log = _ := hlog
    rw [hlog', hpolicy, hterminal]
    simp [TaskAction.bodies, hstamp]

theorem Accounted.succeed (h : v.record = some r) (leaseToken result : String) (held : Bool) :
    Accounted env id v r (.succeed leaseToken result held)
      (TaskAction.apply env id v (.succeed leaseToken result held)) := by
  obtain ⟨history, hsucceed⟩ := TaskView.record_succeed env id h result
  obtain ⟨history', hrecord⟩ := TaskView.record_settle env id hsucceed rfl .nil held
  refine ⟨⟨history', hrecord.trans ?_⟩, ?_⟩
  · rw [TaskAction.next]
    unfold TaskRecord.placed
    split <;> split <;> first | rfl | contradiction
  · refine (TaskView.log_settle env id hsucceed rfl .nil held).trans ?_
    rw [TaskView.log_succeed env id h result]
    simp [TaskAction.bodies]
    rfl

/-- Every step is accounted for. -/
theorem TaskStep.accounted (hstep : TaskStep env id v a v') (hv : v.Consistent env.now) (h : v.record = some r) :
    Accounted env id v r a v' := by
  obtain ⟨henabled, rfl⟩ := hstep
  have hmove : ∀ list readyAt attempt,
      (∃ history, (v.move env id list readyAt attempt).record = some ((r.listed list).withHistory history)) ∧
      (v.move env id list readyAt attempt).log = v.log ++ (r.moves list).map (r.stamp id) :=
    fun list readyAt attempt =>
      ⟨TaskView.record_move_of_record env id h list readyAt attempt, TaskView.log_move_of_record env id h list readyAt attempt⟩
  have hdelete : Accounted env id v r .remove (v.delete env id) :=
    ⟨⟨r.history, rfl⟩, TaskView.log_delete_of_record env id h⟩
  cases a with
  | create => exact absurd (h.symm.trans henabled) (by simp)
  | promote => exact ⟨(hmove _ _ _).1, (hmove _ _ _).2⟩
  | lease leaseToken lockTimeout =>
    obtain ⟨⟨history, hrecord⟩, hlog⟩ := hmove (some .active) (env.now + lockTimeout)
      (some ((v.record.map TaskRecord.attempt).getD 0 + 1))
    exact ⟨⟨history, congrArg (Option.map _) hrecord⟩, hlog⟩
  | renew leaseToken lockTimeout =>
    have hlocked : { v with lock := some (Lock.mk leaseToken (env.now + lockTimeout)) }.record = some r := h
    exact ⟨TaskView.record_move_of_record env id hlocked _ _ _, TaskView.log_move_of_record env id hlocked _ _ _⟩
  | release leaseToken =>
    have hunlocked : v.unlock.record = some r := h
    exact ⟨TaskView.record_move_of_record env id hunlocked _ _ _, TaskView.log_move_of_record env id hunlocked _ _ _⟩
  | retry cause error retryAt => exact .retry h cause error retryAt henabled.2.2
  | fail cause error retryAt held => exact .fail h cause error retryAt held henabled.2.2
  | succeed leaseToken result held => exact .succeed h leaseToken result held
  | progress leaseToken data =>
    obtain ⟨history, hrecord⟩ := TaskView.record_push env id (.progress data) none h
    exact ⟨⟨history, hrecord⟩, by simp [TaskAction.bodies, TaskAction.apply, TaskView.push]⟩
  | refile =>
    obtain ⟨r', hsettled⟩ := henabled
    obtain rfl := Option.some.inj (h.symm.trans hsettled.record)
    obtain ⟨outcome, ho⟩ := Option.isSome_iff_exists.mp hsettled.outcome
    have hnext : TaskAction.refile.next env r = r.placed (r.policy outcome) false := by simp [TaskAction.next, ho]
    have hbodies : TaskAction.refile.bodies env r = r.moves (r.policy outcome).list := by simp [TaskAction.bodies, ho]
    refine ⟨?_, ?_⟩
    · rw [hnext]
      exact TaskView.record_applyPolicy env id h ho false
    · rw [hbodies]
      exact TaskView.log_applyPolicy env id h ho false
  | replace | expireTask | remove => exact ⟨hdelete.record, hdelete.log⟩
  | dropDate | holdDate | expireDeadLetter => exact .of_eq h rfl rfl rfl rfl
  | revoke => exact .of_eq h rfl rfl rfl rfl
  | expireResult g held =>
    refine .of_eq h rfl rfl ?_ ?_ <;> simp only [TaskAction.apply, TaskView.expireResult] <;> split <;> rfl
  | expireTerminal g =>
    have hunindexed := TaskView.unindexed_of_listed hv.listed h
    simp only [TaskAction.apply, TaskView.expireTerminal, h, Option.any_some]
    by_cases hg : r.generation = g
    · simp only [hg, decide_true, ↓reduceIte]
      refine ⟨⟨r.unindexed.history, ?_⟩, by simp [TaskAction.bodies, TaskView.setDates, TaskView.unindexTerminal]⟩
      simp only [TaskView.setDates, TaskView.unindexTerminal, h, Option.map_some, hunindexed, TaskAction.next, hg]
      rfl
    · simp only [hg, decide_false, Bool.false_eq_true, ↓reduceIte]
      exact .of_eq h (by simp [TaskAction.next, hg]) rfl rfl rfl
  | forget g =>
    have herased : (v.erase g).record = some r := h
    exact ⟨⟨r.history, rfl⟩, TaskView.log_delete_of_record env id herased⟩

/-! ### What the offer fixed -/

/-- The fields that only the offer of a generation decides. -/
structure TaskRecord.SameOffer (r r' : TaskRecord) : Prop where
  generation : r'.generation = r.generation
  onSuccessPolicy : r'.onSuccessPolicy = r.onSuccessPolicy
  onFailurePolicy : r'.onFailurePolicy = r.onFailurePolicy
  maxRelationships : r'.maxRelationships = r.maxRelationships
  taskRecordRetentionMs : r'.taskRecordRetentionMs = r.taskRecordRetentionMs
  resultRetentionMs : r'.resultRetentionMs = r.resultRetentionMs
  terminalIndexRetentionMs : r'.terminalIndexRetentionMs = r.terminalIndexRetentionMs

theorem TaskRecord.SameOffer.refl (r : TaskRecord) : r.SameOffer r := ⟨rfl, rfl, rfl, rfl, rfl, rfl, rfl⟩

theorem TaskRecord.SameOffer.trans {r'' : TaskRecord} (h : r.SameOffer r') (h' : r'.SameOffer r'') :
    r.SameOffer r'' where
  generation := h'.generation.trans h.generation
  onSuccessPolicy := h'.onSuccessPolicy.trans h.onSuccessPolicy
  onFailurePolicy := h'.onFailurePolicy.trans h.onFailurePolicy
  maxRelationships := h'.maxRelationships.trans h.maxRelationships
  taskRecordRetentionMs := h'.taskRecordRetentionMs.trans h.taskRecordRetentionMs
  resultRetentionMs := h'.resultRetentionMs.trans h.resultRetentionMs
  terminalIndexRetentionMs := h'.terminalIndexRetentionMs.trans h.terminalIndexRetentionMs

theorem TaskRecord.SameOffer.policy (h : r.SameOffer r') (outcome : Outcome) : r'.policy outcome = r.policy outcome := by
  cases outcome
  · exact h.onSuccessPolicy
  · exact h.onFailurePolicy

theorem TaskRecord.placed_eq_some {policy : CompletionPolicy} {held : Bool} (h : r.placed policy held = some r') :
    r' = r.listed policy.list := by
  unfold TaskRecord.placed at h
  split at h
  · exact absurd h (by simp)
  · exact (Option.some.inj h).symm

theorem TaskRecord.sameOffer_failed (env : Env) (r : TaskRecord) (error : LuaValue) (retryAt : Option ℚ)
    (kind : FailureKind) : r.SameOffer (r.failed env error retryAt kind) := by
  unfold TaskRecord.failed
  split <;> exact ⟨rfl, rfl, rfl, rfl, rfl, rfl, rfl⟩

theorem TaskAction.next_sameOffer (h : a.next env r = some r') : r.SameOffer r' := by
  cases a with
  | succeed leaseToken result held =>
    obtain rfl := TaskRecord.placed_eq_some h
    exact ⟨rfl, rfl, rfl, rfl, rfl, rfl, rfl⟩
  | fail cause error retryAt held =>
    obtain rfl := TaskRecord.placed_eq_some h
    obtain ⟨h₁, h₂, h₃, h₄, h₅, h₆, h₇⟩ := r.sameOffer_failed env error (retryTime retryAt) cause.kind
    exact ⟨h₁, h₂, h₃, h₄, h₅, h₆, h₇⟩
  | retry cause error retryAt =>
    obtain rfl := Option.some.inj h
    obtain ⟨h₁, h₂, h₃, h₄, h₅, h₆, h₇⟩ := r.sameOffer_failed env error (retryTime retryAt) cause.kind
    exact ⟨h₁, h₂, h₃, h₄, h₅, h₆, h₇⟩
  | refile =>
    cases ho : r.outcome with
    | none =>
      simp only [TaskAction.next, ho, Option.elim_none] at h
      exact Option.some.inj h ▸ .refl r
    | some outcome =>
      simp only [TaskAction.next, ho, Option.elim_some] at h
      obtain rfl := TaskRecord.placed_eq_some h
      exact ⟨rfl, rfl, rfl, rfl, rfl, rfl, rfl⟩
  | expireTerminal g =>
    obtain rfl := Option.some.inj h
    unfold TaskRecord.unindexed
    split
    · split <;> exact ⟨rfl, rfl, rfl, rfl, rfl, rfl, rfl⟩
    · exact .refl r
  | replace | expireTask | remove | forget => exact absurd h (by simp [TaskAction.next])
  | create | promote | lease | renew | release | progress | dropDate | holdDate | expireResult | expireDeadLetter
  | revoke =>
    obtain rfl := Option.some.inj h
    exact ⟨rfl, rfl, rfl, rfl, rfl, rfl, rfl⟩

/-- An action keeps the outcome unless it settles. -/
theorem TaskAction.next_outcome (h : a.next env r = some r') : r'.outcome = (a.settles <|> r.outcome) := by
  cases a with
  | succeed | fail =>
    obtain rfl := TaskRecord.placed_eq_some h
    rfl
  | retry cause error retryAt =>
    obtain rfl := Option.some.inj h
    exact TaskRecord.outcome_failed env r error (retryTime retryAt) cause.kind
  | refile =>
    cases ho : r.outcome with
    | none =>
      simp only [TaskAction.next, ho, Option.elim_none] at h
      obtain rfl := Option.some.inj h
      exact ho
    | some outcome =>
      simp only [TaskAction.next, ho, Option.elim_some] at h
      obtain rfl := TaskRecord.placed_eq_some h
      exact ho
  | expireTerminal g =>
    obtain rfl := Option.some.inj h
    unfold TaskRecord.unindexed
    split
    · split <;> rfl
    · rfl
  | replace | expireTask | remove | forget => exact absurd h (by simp [TaskAction.next])
  | create | promote | lease | renew | release | progress | dropDate | holdDate | expireResult | expireDeadLetter
  | revoke =>
    obtain rfl := Option.some.inj h
    rfl

theorem TaskStep.record_next (hstep : TaskStep env id v a v') (hv : v.Consistent env.now) (h : v.record = some r)
    (h' : v'.record = some r') : ∃ r'' history, a.next env r = some r'' ∧ r' = r''.withHistory history := by
  obtain ⟨history, hrecord⟩ := (hstep.accounted hv h).record
  rw [h'] at hrecord
  obtain ⟨r'', hnext, heq⟩ := Option.map_eq_some_iff.mp hrecord.symm
  exact ⟨r'', history, hnext, heq.symm⟩

theorem TaskStep.sameOffer (hstep : TaskStep env id v a v') (hv : v.Consistent env.now) (h : v.record = some r)
    (h' : v'.record = some r') : r.SameOffer r' := by
  obtain ⟨r'', history, hnext, rfl⟩ := hstep.record_next hv h h'
  obtain ⟨h₁, h₂, h₃, h₄, h₅, h₆, h₇⟩ := TaskAction.next_sameOffer hnext
  exact ⟨h₁, h₂, h₃, h₄, h₅, h₆, h₇⟩

/-- A record that a step leaves is of the same generation and keeps its outcome, unless the step settles it. -/
theorem TaskStep.record_outcome (hstep : TaskStep env id v a v') (hv : v.Consistent env.now) (h : v.record = some r)
    (h' : v'.record = some r') : r'.generation = r.generation ∧ r'.outcome = (a.settles <|> r.outcome) := by
  refine ⟨(hstep.sameOffer hv h h').generation, ?_⟩
  obtain ⟨r'', history, hnext, rfl⟩ := hstep.record_next hv h h'
  have houtcome := TaskAction.next_outcome hnext
  exact houtcome

/-- Only a running attempt settles. -/
theorem TaskStep.running_of_settles (hstep : TaskStep env id v a v') {outcome : Outcome}
    (hsettles : a.settles = some outcome) : ∃ r, v.Running r := by
  cases a with
  | succeed | fail => exact hstep.1.1
  | create | promote | lease | renew | release | retry | progress | refile | replace | expireTask | dropDate | holdDate
  | expireResult | expireTerminal | expireDeadLetter | remove | revoke | forget =>
    exact absurd hsettles (by simp [TaskAction.settles])

/-! ### Results, counters and creation -/

/-- A settlement writes the result of the stored generation. -/
theorem TaskStep.result_of_settles (hstep : TaskStep env id v a v') (h : v.record = some r) {outcome : Outcome}
    (hsettles : a.settles = some outcome) :
    ∃ t, v'.result = Function.update v.result r.generation (some t) ∧ t.outcome = outcome ∧
      t.settledAt = env.clock := by
  obtain ⟨henabled, rfl⟩ := hstep
  cases a with
  | succeed leaseToken result held =>
    obtain rfl := Option.some.inj hsettles
    obtain ⟨history, hrecord⟩ := TaskView.record_succeed env id h result
    exact ⟨_, TaskView.result_settle env id hrecord .nil held, rfl, rfl⟩
  | fail cause error retryAt held =>
    obtain rfl := Option.some.inj hsettles
    obtain ⟨history, hfailed⟩ := TaskView.record_recordFailure env id h error (retryTime retryAt) cause.kind
    have hset : ((TaskAction.failed env id cause error retryAt v).set env
        fun r => { r with outcome := some .failure }).record =
        some ((r.exhausted env error (retryTime retryAt) cause.kind).withHistory history) :=
      congrArg (Option.map _) hfailed
    have hresult := TaskView.result_settle env id hset error held
    have hgeneration : ((r.exhausted env error (retryTime retryAt) cause.kind).withHistory history).generation =
      r.generation := TaskRecord.generation_failed env r error (retryTime retryAt) cause.kind
    rw [hgeneration] at hresult
    exact ⟨_, hresult, rfl, rfl⟩
  | create | promote | lease | renew | release | retry | progress | refile | replace | expireTask | dropDate | holdDate
  | expireResult | expireTerminal | expireDeadLetter | remove | revoke | forget =>
    exact absurd hsettles (by simp [TaskAction.settles])

/-- Every other action leaves a result or forgets it. -/
theorem TaskStep.result_eq (hstep : TaskStep env id v a v') (hsettles : a.settles = none) {g : ℕ}
    (herases : ¬ a.Erases g) : v'.result g = v.result g := by
  obtain ⟨_, rfl⟩ := hstep
  cases a with
  | create a replacedTask =>
    simp only [TaskAction.apply, TaskView.announce]
    split <;> simp [TaskView.create]
  | promote | replace | expireTask | remove => simp [TaskAction.apply, TaskView.unlock]
  | lease => simp [TaskAction.apply, TaskView.lease, TaskView.modify]
  | renew => simp [TaskAction.apply, TaskView.renew]
  | release => simp [TaskAction.apply, TaskView.unlock]
  | retry cause error retryAt =>
    simp only [TaskAction.apply]
    split <;> simp only [TaskView.result_move] <;> rfl
  | fail | succeed => exact absurd hsettles (by simp [TaskAction.settles])
  | refile => simp [TaskAction.apply]
  | progress | dropDate | holdDate | expireDeadLetter | revoke => rfl
  | expireResult g' held =>
    simp only [TaskAction.apply, TaskView.expireResult]
    cases held with
    | true => rfl
    | false => exact Function.update_of_ne (fun hg => herases ⟨hg.symm, rfl⟩) _ _
  | expireTerminal g' =>
    simp only [TaskAction.apply, TaskView.expireTerminal]
    split <;> rfl
  | forget g' =>
    simp only [TaskAction.apply, TaskView.result_delete]
    exact Function.update_of_ne (fun hg => herases hg.symm) _ _

theorem TaskStep.result_of_erases (hstep : TaskStep env id v a v') {g : ℕ} (herases : a.Erases g) :
    v'.result g = none := by
  obtain ⟨_, rfl⟩ := hstep
  cases a with
  | expireResult g' held =>
    obtain ⟨rfl, rfl⟩ := herases
    exact Function.update_self ..
  | forget g' =>
    obtain rfl := herases
    simp [TaskAction.apply, TaskView.erase]
  | create | promote | lease | renew | release | retry | fail | succeed | progress | refile | replace | expireTask
  | dropDate | holdDate | expireTerminal | expireDeadLetter | remove | revoke => exact absurd herases (by simp [TaskAction.Erases])

@[simp] theorem TaskView.counter_delete : (v.delete env id).counter = v.counter := by simp [TaskView.delete, TaskView.drop]

@[simp] theorem TaskView.counter_applyPolicy (held : Bool) : (v.applyPolicy env id held).counter = v.counter := by
  unfold TaskView.applyPolicy
  split
  · rfl
  · split
    · rfl
    · dsimp only
      split <;> simp

@[simp] theorem TaskView.counter_settle (terminalFailure : LuaValue) (held : Bool) :
    (v.settle env id terminalFailure held).counter = v.counter := by
  rw [TaskView.settle, TaskView.counter_applyPolicy]
  unfold TaskView.retention TaskView.persist
  split <;> split <;> rfl

/-- Only a creation allocates a generation. -/
theorem TaskStep.counter (hstep : TaskStep env id v a v') (ha : ∀ args replacedTask, a ≠ .create args replacedTask) :
    v'.counter = v.counter := by
  obtain ⟨_, rfl⟩ := hstep
  cases a with
  | create args replacedTask => exact absurd rfl (ha args replacedTask)
  | promote | replace | expireTask | remove | release | refile => simp [TaskAction.apply, TaskView.unlock]
  | lease => simp [TaskAction.apply, TaskView.lease, TaskView.modify]
  | renew => simp [TaskAction.apply, TaskView.renew]
  | retry cause error retryAt =>
    simp only [TaskAction.apply]
    split <;> simp only [TaskView.counter_move] <;> rfl
  | fail | succeed =>
    simp only [TaskAction.apply, TaskView.counter_settle]
    rfl
  | progress | dropDate | holdDate | expireDeadLetter | revoke => rfl
  | expireResult g held =>
    simp only [TaskAction.apply, TaskView.expireResult]
    split <;> rfl
  | expireTerminal g =>
    simp only [TaskAction.apply, TaskView.expireTerminal]
    split <;> rfl
  | forget g => simp [TaskAction.apply, TaskView.erase, TaskView.setDates]

/-- Without a record, nothing but a creation happens to the record and the log. -/
theorem TaskStep.unrecorded (hstep : TaskStep env id v a v') (hv : v.Consistent env.now) (h : v.record = none)
    (ha : ∀ args replacedTask, a ≠ .create args replacedTask) : v'.record = none ∧ v'.log = v.log := by
  obtain ⟨henabled, rfl⟩ := hstep
  have hrunning : ∀ {P : Prop}, (∃ r, v.Running r) ∧ P → False := fun ⟨⟨r, hr⟩, _⟩ => by
    simp [hr.record] at h
  have hplaced : ∀ {P : Prop} {l}, (∃ r, v.record = some r ∧ r.place = some l) ∧ P → False := fun ⟨⟨r, hr, _⟩, _⟩ => by
    simp [hr] at h
  have hsettled : ∀ r, ¬ v.Settled r := fun r hr => by
    simp [hr.record] at h
  cases a with
  | create args replacedTask => exact absurd rfl (ha args replacedTask)
  | promote | lease => exact (hplaced henabled).elim
  | renew | release | retry | fail | succeed | progress => exact (hrunning henabled).elim
  | refile | replace => exact absurd henabled.choose_spec (hsettled _)
  | expireTask => exact absurd henabled.choose_spec.1 (hsettled _)
  | dropDate | holdDate | expireDeadLetter | revoke => exact ⟨h, rfl⟩
  | expireResult g held =>
    simp only [TaskAction.apply, TaskView.expireResult]
    split <;> exact ⟨h, rfl⟩
  | expireTerminal g =>
    have hcurrent : (v.record.any fun r => r.generation = g) = false := by simp [h]
    have hstays : v.expireTerminal g = v.setDates g fun d => { d with terminal := none } := by
      rw [TaskView.expireTerminal, if_neg (by simp [hcurrent])]
    rw [TaskAction.apply, hstays]
    exact ⟨h, rfl⟩
  | remove =>
    rw [TaskAction.apply, hv.delete_eq h]
    exact ⟨h, rfl⟩
  | forget g =>
    have herased : (v.erase g).record = none := h
    rw [TaskAction.apply, (hv.erase g).delete_eq herased]
    exact ⟨h, rfl⟩

theorem moves_newRecord (args : CreateArgs) (n : ℕ) {l : TaskList} (hl : l = .wait ∨ l = .scheduled) :
    (newRecord env args n).moves (some l) =
      [.moved none (some l) none (some (if l = .scheduled then .delayed else .waiting)) 0 0 0] := by
  rcases hl with rfl | rfl <;> simp [TaskRecord.moves, TaskRecord.place, newRecord, TaskRecord.state]

/-- A creation allocates the next generation, and publishes its record and its first move. -/
theorem TaskStep.created {args : CreateArgs} {replacedTask : Option TaskRecord}
    (hstep : TaskStep env id v (.create args replacedTask) v') :
    (∃ history, v'.record =
      some (((newRecord env args (v.counter + 1)).listed (some (TaskAction.firstList args))).withHistory history)) ∧
    v'.counter = v.counter + 1 ∧
    v'.log = v.log ++ (TaskAction.createBodies env args replacedTask (v.counter + 1)).map
      ((newRecord env args (v.counter + 1)).stamp id) := by
  obtain ⟨_, rfl⟩ := hstep
  have hcreate : (v.create env args).record = some (newRecord env args (v.counter + 1)) := rfl
  generalize hbody : (v.create env args).announcement env args replacedTask = body
  obtain ⟨history, hpublish⟩ := TaskView.record_publish env id body none none hcreate
  have hlog : ((v.create env args).publish env id body none none).log =
      v.log ++ [(newRecord env args (v.counter + 1)).stamp id body] := by
    rw [TaskView.log_publish, TaskView.event_of_record hcreate]
    rfl
  have hpublish' : ((v.create env args).publish env id body none none).record =
      some ((newRecord env args (v.counter + 1)).withHistory history) := hpublish
  have hmove := fun list readyAt => And.intro
    (TaskView.record_move_of_record env id hpublish' list readyAt none)
    (TaskView.log_move_of_record env id hpublish' list readyAt none)
  simp only [TaskAction.apply, TaskView.announce, hbody]
  split
  · next hdelay =>
    obtain ⟨⟨history', hrecord⟩, hmoved⟩ := hmove (some .scheduled) (double (env.now + args.delay.getD 0))
    refine ⟨⟨history', ?_⟩, by simp [TaskView.create], ?_⟩
    · rw [TaskAction.firstList, if_pos hdelay]
      exact hrecord
    · rw [hmoved, hlog, TaskRecord.moves_withHistory, moves_newRecord args _ (Or.inr rfl), ← hbody]
      cases replacedTask <;> simp [TaskAction.createBodies, TaskAction.firstList, hdelay, TaskView.announcement,
        hcreate]
  · next hdelay =>
    obtain ⟨⟨history', hrecord⟩, hmoved⟩ := hmove (some .wait) 0
    refine ⟨⟨history', ?_⟩, by simp [TaskView.create], ?_⟩
    · rw [TaskAction.firstList, if_neg hdelay]
      exact hrecord
    · rw [hmoved, hlog, TaskRecord.moves_withHistory, moves_newRecord args _ (Or.inl rfl), ← hbody]
      cases replacedTask <;> simp [TaskAction.createBodies, TaskAction.firstList, hdelay, TaskView.announcement,
        hcreate]

theorem TaskStep.counter_le (hstep : TaskStep env id v a v') : v.counter ≤ v'.counter := by
  by_cases hcreate : ∃ args replacedTask, a = .create args replacedTask
  · obtain ⟨args, replacedTask, rfl⟩ := hcreate
    rw [hstep.created.2.1]
    exact Nat.le_succ _
  · exact le_of_eq (hstep.counter fun args replacedTask h => hcreate ⟨args, replacedTask, h⟩).symm

/-- The record of a generation after a step was there before, unless the step created it. -/
theorem TaskStep.record_of_generation (hstep : TaskStep env id v a v') (hv : v.Consistent env.now)
    (h' : v'.record = some r') :
    (∃ r, v.record = some r ∧ r'.generation = r.generation ∧ r'.outcome = (a.settles <|> r.outcome)) ∨
      (v.record = none ∧ r'.generation = v.counter + 1 ∧ r'.outcome = none) := by
  cases hr : v.record with
  | some r => exact Or.inl ⟨r, rfl, hstep.record_outcome hv hr h'⟩
  | none =>
    by_cases hcreate : ∃ args replacedTask, a = .create args replacedTask
    · obtain ⟨args, replacedTask, rfl⟩ := hcreate
      obtain ⟨⟨history, hrecord⟩, _⟩ := hstep.created
      rw [h'] at hrecord
      obtain rfl := Option.some.inj hrecord
      exact Or.inr ⟨rfl, rfl, rfl⟩
    · rw [(hstep.unrecorded hv hr fun args replacedTask h => hcreate ⟨args, replacedTask, h⟩).1] at h'
      exact absurd h' (by simp)

end

end EffectMQ