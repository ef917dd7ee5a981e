import EffectMQ.TaskEngine.Operations

/-!
# What leaves the schedules alone

The two schedule operations are the only ones that write a schedule. Every other function of the engine leaves all of
them as they were, whatever the store and the clock are.
-/

namespace EffectMQ

open Redis

/-- A fold of functions that leave the schedules alone. -/
theorem foldl_schedule {α : Type} {f : World → α → World}
    (hf : ∀ w x, (f w x).store.schedule = w.store.schedule) (l : List α) (w : World) :
    (l.foldl f w).store.schedule = w.store.schedule := by
  induction l generalizing w with
  | nil => rfl
  | cons x l ih => rw [List.foldl_cons, ih, hf]

section

variable (env : Env) (queue id : String) (s : Store) (w : World)

@[simp] theorem modifyTask_schedule (f : TaskRecord → TaskRecord) :
    (s.modifyTask queue id f).schedule = s.schedule := rfl

@[simp] theorem setLists_schedule (L : QueueLists) : (s.setLists queue L).schedule = s.schedule := rfl

@[simp] theorem setExpiry_schedule (e : ExpiryIndexes) : (s.setExpiry queue e).schedule = s.schedule := rfl

@[simp] theorem spend_schedule (n : ℕ) : (w.spend n).store.schedule = w.store.schedule := rfl

@[simp] theorem modify_schedule (f : Store → Store) : (w.modify f).store.schedule = (f w.store).schedule := rfl

@[simp] theorem assertHistory_schedule : (assertHistory queue id w).store.schedule = w.store.schedule := by
  unfold assertHistory
  split <;> rfl

@[simp] theorem pushHistory_schedule (r : TaskRecord) (data : HistoryData) (attempt : Option ℕ) :
    (pushHistory env queue id r data attempt s).schedule = s.schedule := by
  unfold pushHistory
  dsimp only
  split <;> rfl

@[simp] theorem appendHistory_schedule (data : HistoryData) (attempt : Option ℕ) :
    (appendHistory env queue id data attempt w).store.schedule = w.store.schedule := by
  unfold appendHistory
  split
  · rfl
  · split <;> simp

@[simp] theorem publishEvent_schedule (body : EventBody) (kind : Option FailureKind) (attempt : Option ℕ) :
    (publishEvent env queue id body kind attempt w).store.schedule = w.store.schedule :=
  appendHistory_schedule env queue id w _ attempt

/-! ### Lists and records -/

@[simp] theorem relist_schedule (list : Option TaskList) (readyAt : ℚ) (sourceKnownEmpty : Bool) :
    (relist env queue id list readyAt sourceKnownEmpty s).2.schedule = s.schedule := by
  have hremove : (removeFromCurrentLists env queue id s).2.schedule = s.schedule := by
    unfold removeFromCurrentLists
    dsimp only
    split <;> split <;> rfl
  unfold relist
  cases list <;> cases sourceKnownEmpty <;> simp [hremove]

@[simp] theorem moveToList_schedule (list : Option TaskList) (readyAt : ℚ) (sourceKnownEmpty : Bool)
    (attempt : Option ℕ) :
    (moveToList env queue id list readyAt sourceKnownEmpty attempt w).store.schedule = w.store.schedule := by
  unfold moveToList
  dsimp only
  split <;> simp

@[simp] theorem dropRecord_schedule (generation : Option ℕ) :
    (dropRecord queue id generation s).schedule = s.schedule := by
  cases generation <;> rfl

@[simp] theorem deleteTask_schedule (sourceKnownEmpty : Bool) :
    (deleteTask env queue id sourceKnownEmpty w).store.schedule = w.store.schedule := by
  unfold deleteTask
  simp

@[simp] theorem lockTask_schedule (leaseToken : String) (lockTimeout : ℚ) :
    (lockTask env queue id leaseToken lockTimeout w).store.schedule = w.store.schedule := by
  unfold lockTask
  simp

/-! ### The end of an attempt -/

@[simp] theorem persistTerminalResult_schedule (terminalFailure : LuaValue) :
    (persistTerminalResult env queue id terminalFailure s).schedule = s.schedule := by
  unfold persistTerminalResult
  split <;> rfl

@[simp] theorem scheduleTerminalRetention_schedule :
    (scheduleTerminalRetention env queue id s).schedule = s.schedule := by
  unfold scheduleTerminalRetention
  split <;> rfl

theorem acquireRetentionHold_schedule {holder retained : TaskIdentity} {s' : Store}
    (h : acquireRetentionHold holder retained s = .ok s') : s'.schedule = s.schedule := by
  unfold acquireRetentionHold at h
  dsimp only at h
  split at h
  · rw [← Except.ok.inj h]
  · split at h
    · exact absurd h (by simp)
    · split at h
      · exact absurd h (by simp)
      · rw [← Except.ok.inj h]

@[simp] theorem applyCompletionPolicy_schedule :
    (applyCompletionPolicy env queue id w).store.schedule = w.store.schedule := by
  unfold applyCompletionPolicy
  split
  · rfl
  · split
    · rfl
    · dsimp only
      split <;> simp

@[simp] theorem releaseHold_schedule (holder retained : TaskIdentity) :
    (releaseHold env holder w retained).store.schedule = w.store.schedule := by
  unfold releaseHold
  dsimp only
  split
  · rfl
  · split <;> simp

@[simp] theorem releaseOwnedHolds_schedule (holder : TaskIdentity) :
    (releaseOwnedHolds env holder w).store.schedule = w.store.schedule := by
  unfold releaseOwnedHolds
  dsimp only
  rw [modify_schedule]
  exact foldl_schedule (fun w x => releaseHold_schedule env w holder x) _ _

@[simp] theorem settleTask_schedule (terminalFailure : LuaValue) :
    (settleTask env queue id terminalFailure w).store.schedule = w.store.schedule := by
  unfold settleTask
  simp

@[simp] theorem failTask_schedule (error : LuaValue) (retryAt : ℚ) (kind : FailureKind) :
    (failTask env queue id error retryAt kind w).store.schedule = w.store.schedule := by
  have hrecord : ∀ retryAt, (recordFailure env queue id error retryAt kind w).store.schedule = w.store.schedule := by
    intro retryAt
    unfold recordFailure
    rw [publishEvent_schedule]
    exact assertHistory_schedule queue id w
  unfold failTask
  dsimp only
  split
  · split <;> simp [hrecord]
  · rw [settleTask_schedule]
    exact hrecord _

@[simp] theorem completeTask_schedule (result : String) :
    (completeTask env queue id result w).store.schedule = w.store.schedule := by
  unfold completeTask
  simp [setTask, unlockTask]

/-! ### Sweeps -/

theorem unindexTerminal_schedule : (unindexTerminal queue id s).schedule = s.schedule := by
  unfold unindexTerminal
  dsimp only
  split <;> rfl

@[simp] theorem syncAll_schedule : (syncAll env queue w).store.schedule = w.store.schedule := by
  have hdeadLetter : ∀ w x, (expireDeadLetter queue w x).store.schedule = w.store.schedule := fun _ _ => rfl
  have hterminal : ∀ w x, (expireTerminal queue w x).store.schedule = w.store.schedule := by
    intro w x
    unfold expireTerminal
    rw [modify_schedule]
    dsimp only
    split
    · exact unindexTerminal_schedule queue x.id w.store
    · rfl
  have hresult : ∀ w x, (expireResult env queue w x).store.schedule = w.store.schedule := by
    intro w x
    unfold expireResult
    dsimp only
    split <;> rfl
  have htask : ∀ w x, (expireTask env queue w x).store.schedule = w.store.schedule := by
    intro w x
    unfold expireTask
    dsimp only
    split
    · rfl
    · split
      · rfl
      · split
        · rfl
        · simp [setTaskExpiry]
  have hstalled : ∀ w id, (failStalled env queue w id).store.schedule = w.store.schedule := by
    intro w id
    unfold failStalled
    split <;> simp
  have hsync : ∀ sync ∈ syncers, ∀ w, (sync env queue w).store.schedule = w.store.schedule := by
    intro sync hsync w
    simp only [syncers, List.mem_cons, List.not_mem_nil, or_false] at hsync
    rcases hsync with rfl | rfl | rfl | rfl | rfl | rfl | rfl
    · unfold syncDelayed
      split
      · rfl
      · exact foldl_schedule (fun w item => moveToList_schedule env queue item w _ _ _ _) _ _
    · exact foldl_schedule hstalled _ _
    · unfold syncRetentionContinuations
      split
      · rfl
      · exact foldl_schedule (fun w holder => releaseOwnedHolds_schedule env w holder) _ _
    · exact foldl_schedule htask _ _
    · exact foldl_schedule hresult _ _
    · exact foldl_schedule hterminal _ _
    · exact foldl_schedule hdeadLetter _ _
  unfold syncAll
  refine foldl_schedule (fun w offset => ?_) _ _
  unfold syncTurn
  split
  · rfl
  · split
    · next sync heq => exact hsync sync (List.mem_of_getElem? heq) w
    · rfl

/-! ### Operations -/

theorem announce_schedule (a : CreateArgs) (replacedTask : Option TaskRecord) :
    (announce env a replacedTask w).2.store.schedule = w.store.schedule := by
  unfold announce
  dsimp only
  split <;> simp

theorem createGeneration_schedule (a : CreateArgs) (replacedTask : Option TaskRecord) :
    (createGeneration env a replacedTask w).2.store.schedule = w.store.schedule := by
  unfold createGeneration
  dsimp only
  split
  · exact announce_schedule env _ a replacedTask
  · split
    · next hhold =>
      rw [announce_schedule]
      exact acquireRetentionHold_schedule (writeRecord env a w.store) hhold
    · simp [unallocate, writeRecord]

theorem returnExisting_schedule (a : CreateArgs) (existingTask : TaskRecord) :
    (returnExisting a existingTask w).2.store.schedule = w.store.schedule := by
  unfold returnExisting
  split
  · rfl
  · split
    · next hhold => exact acquireRetentionHold_schedule w.store hhold
    · rfl

theorem offerSwept_schedule (a : CreateArgs) : (offerSwept env a w).2.store.schedule = w.store.schedule := by
  have hreplace : (createGeneration env a (w.store.task (a.queue, a.id))
      ((deleteTask env a.queue a.id false w).modify (unlockTask a.queue a.id))).2.store.schedule =
      w.store.schedule := by
    rw [createGeneration_schedule]
    exact deleteTask_schedule env a.queue a.id w false
  unfold offerSwept
  dsimp only
  split
  · rfl
  · split
    · rfl
    · split
      · exact createGeneration_schedule env w a none
      · next hr =>
        rw [hr] at hreplace
        split
        · rfl
        · split
          · exact returnExisting_schedule w a _
          · rfl
          · split
            · rfl
            · split
              · rfl
              · exact hreplace

theorem takeSwept_schedule (leaseToken : String) (lockTimeout : ℚ) :
    (takeSwept env queue leaseToken lockTimeout w).2.store.schedule = w.store.schedule := by
  unfold takeSwept
  split
  · rfl
  · split <;> simp

theorem acknowledge_schedule (leaseToken : String) {effect : World → World}
    (heffect : ∀ w, (effect w).store.schedule = w.store.schedule) :
    (acknowledge env queue leaseToken id effect w).2.store.schedule = w.store.schedule := by
  unfold acknowledge
  split
  · rfl
  · split
    · rfl
    · exact heffect w

end

/-- An operation other than the two schedule operations. -/
def Op.LeavesSchedules : Op → Prop
  | .setSchedule _ _ _ | .consumeSchedule _ _ _ _ => False
  | _ => True

theorem run_schedule {op : Op} (hop : op.LeavesSchedules) (env : Env) (w : World) :
    (op.run env w).2.store.schedule = w.store.schedule := by
  cases op with
  | createTask a =>
    simp only [Op.run, createTask]
    split
    · rfl
    · rw [offerSwept_schedule, syncAll_schedule]
  | takeTask queue leaseToken lockTimeout =>
    simp only [Op.run, takeTask]
    split
    · rfl
    · rw [takeSwept_schedule, syncAll_schedule]
  | writeSuccess queue leaseToken id result =>
    simp only [Op.run, writeSuccess]
    rw [acknowledge_schedule env queue id _ leaseToken fun w => completeTask_schedule env queue id w result,
      syncAll_schedule]
  | writeError queue leaseToken id error retryAt =>
    simp only [Op.run, writeError]
    split
    · rfl
    · rw [acknowledge_schedule env queue id _ leaseToken fun w => failTask_schedule env queue id w _ _ _,
        syncAll_schedule]
  | extendLock queue leaseToken id lockTimeout =>
    simp only [Op.run, extendLock, renewLease]
    split
    · rfl
    · split <;> simp
  | removeLock queue leaseToken id =>
    simp only [Op.run, removeLock]
    split <;> simp [unlockTask]
  | appendProgress queue id generation schemaId token data =>
    simp only [Op.run, appendProgress]
    split
    · rfl
    · split <;> simp
  | readHistory queue id generation schemaId sequence position count =>
    simp only [Op.run, readHistory]
    split
    · rfl
    · split
      · simp
      · split <;> simp
  | removeTask queue id =>
    simp only [Op.run, removeTask]
    split
    · simp
    · split
      · simp
      · split <;> simp
  | forceRemoveTask queue id =>
    simp only [Op.run, forceRemoveTask]
    split <;> simp [eraseGeneration, unlockTask]
  | maintain queue => exact syncAll_schedule env queue w
  | listTasks queue list offset limit =>
    simp only [Op.run, listTasks]
    split <;> simp
  | getTask | getGeneration | getResult | eventCursors => rfl
  | setSchedule | consumeSchedule => exact hop.elim

variable {env : Env} {op : Op} {reply : Reply} {s s' : Store}

/-- The schedules after an invocation that is not about them. -/
theorem exec_schedule (hop : op.LeavesSchedules) (h : exec env op s = .replied reply s') :
    s'.schedule = s.schedule := by
  have hrun := run_schedule hop env ⟨s, env.maintenanceBatchSize, none⟩
  unfold exec at h
  dsimp only at h
  split at h
  · exact absurd h (by simp)
  · rw [← (Result.replied.inj h).2]
    exact hrun

theorem exec_setSchedule {queue name : String} {next : ℤ}
    (h : exec env (.setSchedule queue name next) s = .replied reply s') :
    reply = .schedule ((s.schedule (queue, name)).getD next) ∧
      s'.schedule = Function.update s.schedule (queue, name) (some ((s.schedule (queue, name)).getD next)) := by
  obtain ⟨rfl, rfl⟩ := Result.replied.inj h
  exact ⟨rfl, rfl⟩

/-- A consumption moves the cursor that it names forward, once its time has come, or changes nothing. -/
theorem consumeSchedule_spec (env : Env) (queue name : String) (current next : ℤ) (s : Store) :
    (consumeSchedule env queue name current next s =
          (.consumed true (some next), { s with schedule := Function.update s.schedule (queue, name) (some next) }) ∧
        s.schedule (queue, name) = some current ∧ current ≤ env.clock ∧ current < next) ∨
      consumeSchedule env queue name current next s = (.consumed false (s.schedule (queue, name)), s) := by
  unfold consumeSchedule
  split
  · next hnone => exact Or.inr (by rw [hnone])
  · next cursor hsome =>
    split
    · exact Or.inr (by rw [hsome])
    · next hdue =>
      obtain ⟨hcurrent, hclock⟩ := not_or.mp hdue
      split
      · next hlt =>
        rw [not_not.mp hcurrent] at hsome hlt hclock
        exact Or.inl ⟨rfl, hsome, not_lt.mp hclock, hlt⟩
      · exact Or.inr (by rw [hsome])

theorem exec_consumeSchedule {queue name : String} {current next : ℤ}
    (h : exec env (.consumeSchedule queue name current next) s = .replied reply s') :
    (reply = .consumed true (some next) ∧ s.schedule (queue, name) = some current ∧ current ≤ env.clock ∧
        current < next ∧ s'.schedule = Function.update s.schedule (queue, name) (some next)) ∨
      (reply = .consumed false (s.schedule (queue, name)) ∧ s' = s) := by
  have hpair : consumeSchedule env queue name current next s = (reply, s') := by
    obtain ⟨hreply, hstore⟩ := Result.replied.inj h
    exact Prod.ext hreply hstore
  obtain ⟨heq, hcursor, hclock, hlt⟩ | heq := consumeSchedule_spec env queue name current next s
  · obtain ⟨rfl, rfl⟩ := Prod.mk.inj (heq.symm.trans hpair)
    exact Or.inl ⟨rfl, hcursor, hclock, hlt, rfl⟩
  · obtain ⟨rfl, rfl⟩ := Prod.mk.inj (heq.symm.trans hpair)
    exact Or.inr ⟨rfl, rfl⟩

/-! The schedule operations leave the records alone. -/

theorem exec_setSchedule_task {queue name : String} {next : ℤ}
    (h : exec env (.setSchedule queue name next) s = .replied reply s') : s'.task = s.task := by
  obtain ⟨_, rfl⟩ := Result.replied.inj h
  rfl

theorem exec_consumeSchedule_task {queue name : String} {current next : ℤ}
    (h : exec env (.consumeSchedule queue name current next) s = .replied reply s') : s'.task = s.task := by
  obtain ⟨_, rfl⟩ := Result.replied.inj h
  change (consumeSchedule env queue name current next s).2.task = s.task
  obtain ⟨heq, _⟩ | heq := consumeSchedule_spec env queue name current next s <;> rw [heq]

end EffectMQ
