import EffectMQ.Lifecycle.Run

/-!
# Invariants of the stored records, histories and events

Records, histories and event streams change in six ways only, wherever the script does it. What these six keep, every
function keeps, and with it every invocation, also when it aborts.
-/

namespace EffectMQ

open Redis

/-- Two records with the same streams, written under the same identity and limits. -/
structure TaskRecord.SameStreams (r r' : TaskRecord) : Prop where
  generation : r'.generation = r.generation
  schemaId : r'.schemaId = r.schemaId
  protocolVersion : r'.protocolVersion = r.protocolVersion
  maxEventEntries : r'.maxEventEntries = r.maxEventEntries
  eventRetentionMs : r'.eventRetentionMs = r.eventRetentionMs
  history : r'.history = r.history

/-- A property of stores that an invocation keeps, and what holds of the store when a check of the histories fails. -/
structure StoreInvariant (env : Env) (I J : Store → Prop) : Prop where
  aside : ∀ {s s' : Store}, I s → s'.task = s.task → s'.history = s.history → s'.events = s.events → I s'
  modifyTask : ∀ {s : Store} (queue id : String) {f : TaskRecord → TaskRecord}, (∀ r : TaskRecord, r.SameStreams (f r)) → I s →
    I (s.modifyTask queue id f)
  pushHistory : ∀ {s : Store} {queue id : String} {r : TaskRecord} (data : HistoryData) (attempt : Option ℕ),
    s.task (queue, id) = some r → r.history.enabled = true → I s →
      I (EffectMQ.pushHistory env queue id r data attempt s)
  appendEvent : ∀ {s : Store} (queue id : String) (body : EventBody), I s → I (EffectMQ.appendEvent env queue id body s)
  dropRecord : ∀ {s : Store} (queue id : String), I s →
    I (EffectMQ.dropRecord queue id ((s.task (queue, id)).map TaskRecord.generation) s)
  writeRecord : ∀ {s : Store} {a : CreateArgs}, createFault a = none → s.task (a.queue, a.id) = none → I s →
    I (EffectMQ.writeRecord env a s)
  raise : ∀ {s : Store} {queue id message : String}, I s → historyFault s queue id = some message → J s

/-- The store of a running script meets an invariant, and the store of an aborted one another. -/
structure Keeps (I J : Store → Prop) (w : World) : Prop where
  store : I w.store
  raised : ∀ e, w.raised = some e → J e.store

namespace Keeps

variable {I J : Store → Prop} {w : World}

theorem modify (h : Keeps I J w) {f : Store → Store} (hf : I (f w.store)) : Keeps I J (w.modify f) := ⟨hf, h.raised⟩

theorem setStore (h : Keeps I J w) {s : Store} (hs : I s) : Keeps I J { w with store := s } := ⟨hs, h.raised⟩

theorem spend (h : Keeps I J w) (n : ℕ) : Keeps I J (w.spend n) := ⟨h.store, h.raised⟩

theorem foldl {ι : Type} {f : World → ι → World} (hf : ∀ w x, Keeps I J w → Keeps I J (f w x)) (items : List ι)
    (h : Keeps I J w) : Keeps I J (items.foldl f w) := by
  induction items generalizing w with
  | nil => exact h
  | cons x rest ih => exact ih (hf w x h)

theorem acknowledge (h : Keeps I J w) {env : Env} (queue leaseToken id : String) {effect : World → World}
    (heffect : Keeps I J (effect w)) : Keeps I J (acknowledge env queue leaseToken id effect w).2 := by
  unfold EffectMQ.acknowledge
  split
  · exact h
  · split
    · exact h
    · exact heffect

end Keeps

namespace StoreInvariant

section

variable (env : Env) (queue id : String)

theorem removeFromCurrentLists_task (s : Store) :
    (removeFromCurrentLists env queue id s).2.task = s.task ∧
      (removeFromCurrentLists env queue id s).2.history = s.history ∧
      (removeFromCurrentLists env queue id s).2.events = s.events := by
  unfold removeFromCurrentLists
  dsimp only
  split
  all_goals
    split
    · exact ⟨rfl, rfl, rfl⟩
    · exact ⟨rfl, rfl, rfl⟩

theorem generation_relist (s : Store) (list : Option TaskList) (readyAt : ℚ) (sourceKnownEmpty : Bool) :
    ((relist env queue id list readyAt sourceKnownEmpty s).2.task (queue, id)).map TaskRecord.generation =
      (s.task (queue, id)).map TaskRecord.generation := by
  have hremoved : (if sourceKnownEmpty then (none, s) else removeFromCurrentLists env queue id s).2.task = s.task := by
    split
    · rfl
    · exact (removeFromCurrentLists_task env queue id s).1
  unfold relist
  dsimp only
  cases list with
  | none =>
    simp only [Store.modifyTask, Function.update_self, hremoved]
    cases s.task (queue, id) <;> rfl
  | some l =>
    simp only [Store.modifyTask, Function.update_self, Store.setLists, hremoved]
    cases s.task (queue, id) <;> rfl

theorem generation_moveToList (w : World) (list : Option TaskList) (readyAt : ℚ) (sourceKnownEmpty : Bool)
    (attempt : Option ℕ) :
    ((moveToList env queue id list readyAt sourceKnownEmpty attempt w).store.task (queue, id)).map
      TaskRecord.generation = (w.store.task (queue, id)).map TaskRecord.generation := by
  have hrelist := generation_relist env queue id w.store list readyAt sourceKnownEmpty
  unfold moveToList
  simp only [assertHistory_store]
  split
  · exact hrelist
  · rw [← hrelist]
    have hpublish := @local_publishEvent env queue id
      { assertHistory queue id w with
        store := (relist env queue id list readyAt sourceKnownEmpty w.store).2 }
      (movedEvent (relist env queue id list readyAt sourceKnownEmpty w.store).2 queue id
        (relist env queue id list readyAt sourceKnownEmpty w.store).1 list) none attempt
    exact (congrArg (fun v : TaskView => v.record.map TaskRecord.generation) hpublish.view_self).trans
      (EffectMQ.generation_publish env _ none attempt _)

end

variable {env : Env} {I J : Store → Prop} {w : World} (hI : StoreInvariant env I J)

include hI

/-- A change of the store that touches no record, history or event. -/
theorem beside (h : Keeps I J w) {f : Store → Store} (htask : (f w.store).task = w.store.task)
    (hhistory : (f w.store).history = w.store.history) (hevents : (f w.store).events = w.store.events) :
    Keeps I J (w.modify f) :=
  h.modify (hI.aside h.store htask hhistory hevents)

section

variable (queue id : String)

theorem assertHistory (h : Keeps I J w) : Keeps I J (assertHistory queue id w) := by
  unfold EffectMQ.assertHistory
  split
  · next message hfault =>
    refine ⟨h.store, fun e he => ?_⟩
    unfold World.raise at he
    cases hraised : w.raised with
    | none =>
      rw [hraised] at he
      obtain rfl := Option.some.inj he
      exact hI.raise h.store hfault
    | some e' =>
      rw [hraised] at he
      obtain rfl := Option.some.inj he
      exact h.raised _ hraised
  · exact h

theorem appendHistory (h : Keeps I J w) (data : HistoryData) (attempt : Option ℕ) :
    Keeps I J (appendHistory env queue id data attempt w) := by
  unfold EffectMQ.appendHistory
  cases hr : w.store.task (queue, id) with
  | none => exact h
  | some r =>
    dsimp only
    split
    · next henabled =>
      refine (hI.assertHistory queue id h).modify ?_
      rw [assertHistory_store]
      exact hI.pushHistory data attempt hr henabled h.store
    · exact h

theorem publishEvent (h : Keeps I J w) (body : EventBody) (failureKind : Option FailureKind) (attempt : Option ℕ) :
    Keeps I J (publishEvent env queue id body failureKind attempt w) := by
  have hhistory := hI.appendHistory queue id h (lifecycleData body failureKind) attempt
  exact hhistory.modify (hI.appendEvent queue id body hhistory.store)

theorem relist {s : Store} (h : I s) (list : Option TaskList) (readyAt : ℚ) (sourceKnownEmpty : Bool) :
    I (relist env queue id list readyAt sourceKnownEmpty s).2 := by
  have hremoved : I (if sourceKnownEmpty then (none, s) else removeFromCurrentLists env queue id s).2 := by
    obtain ⟨htask, hhistory, hevents⟩ := removeFromCurrentLists_task env queue id s
    split
    · exact h
    · exact hI.aside h htask hhistory hevents
  unfold EffectMQ.relist
  dsimp only
  refine hI.modifyTask queue id (fun _ => ⟨rfl, rfl, rfl, rfl, rfl, rfl⟩) ?_
  cases list with
  | none => exact hremoved
  | some l => exact hI.aside hremoved rfl rfl rfl

theorem moveToList (h : Keeps I J w) (list : Option TaskList) (readyAt : ℚ) (sourceKnownEmpty : Bool)
    (attempt : Option ℕ) : Keeps I J (moveToList env queue id list readyAt sourceKnownEmpty attempt w) := by
  have hassert := hI.assertHistory queue id h
  have hrelist := hassert.setStore (hI.relist queue id hassert.store list readyAt sourceKnownEmpty)
  unfold EffectMQ.moveToList
  dsimp only
  split
  · exact hrelist
  · exact hI.publishEvent queue id hrelist _ none attempt

theorem deleteTask (h : Keeps I J w) (sourceKnownEmpty : Bool) :
    Keeps I J (deleteTask env queue id sourceKnownEmpty w) := by
  have hmove := hI.moveToList queue id h none 0 sourceKnownEmpty none
  unfold EffectMQ.deleteTask
  dsimp only
  rw [← generation_moveToList env queue id w none 0 sourceKnownEmpty none]
  exact hmove.modify (hI.dropRecord queue id hmove.store)

/-! ### Attempts and settlement -/

theorem lockTask (h : Keeps I J w) (leaseToken : String) (lockTimeout : ℚ) :
    Keeps I J (lockTask env queue id leaseToken lockTimeout w) := by
  unfold EffectMQ.lockTask
  dsimp only
  have hmove := hI.moveToList queue id (hI.assertHistory queue id h) (some .active) (env.now + lockTimeout) false
    (some ((((EffectMQ.assertHistory queue id w).store.task (queue, id)).map TaskRecord.attempt).getD 0 + 1))
  have hcount := hI.modifyTask queue id (f := fun r => { r with attempt := r.attempt + 1 })
    (fun _ => ⟨rfl, rfl, rfl, rfl, rfl, rfl⟩) hmove.store
  exact hmove.modify (hI.aside hcount rfl rfl rfl)

theorem applyCompletionPolicy (h : Keeps I J w) : Keeps I J (applyCompletionPolicy env queue id w) := by
  unfold EffectMQ.applyCompletionPolicy
  split
  · exact h
  · split
    · exact h
    · dsimp only
      split
      · exact hI.deleteTask queue id (hI.moveToList queue id h _ 0 false none) true
      · exact hI.moveToList queue id h _ 0 false none

theorem releaseHold (h : Keeps I J w) (holder retained : TaskIdentity) :
    Keeps I J (releaseHold env holder w retained) := by
  have hdrop := hI.beside h (f := fun s =>
    { s with retainedBy := Function.update s.retainedBy retained ((s.retainedBy retained).erase holder) }) rfl rfl rfl
  unfold EffectMQ.releaseHold
  dsimp only
  split
  · exact hdrop
  · split
    · exact hI.applyCompletionPolicy _ _ hdrop
    · exact hdrop

theorem releaseOwnedHolds (h : Keeps I J w) (holder : TaskIdentity) : Keeps I J (releaseOwnedHolds env holder w) := by
  unfold EffectMQ.releaseOwnedHolds
  dsimp only
  refine hI.beside (((hI.beside h rfl rfl rfl).spend _).foldl (fun _ x h => ?_) _) rfl rfl rfl
  exact hI.releaseHold h holder x

theorem settleTask (h : Keeps I J w) (terminalFailure : LuaValue) :
    Keeps I J (settleTask env queue id terminalFailure w) := by
  have hpersist : I (persistTerminalResult env queue id terminalFailure w.store) := by
    unfold persistTerminalResult
    split
    · exact h.store
    · exact hI.aside h.store rfl rfl rfl
  have hscheduled : I (scheduleTerminalRetention env queue id
      (persistTerminalResult env queue id terminalFailure w.store)) := by
    unfold scheduleTerminalRetention
    split
    · exact hpersist
    · exact hI.aside hpersist rfl rfl rfl
  exact hI.releaseOwnedHolds (hI.applyCompletionPolicy queue id (h.modify hscheduled)) _

theorem recordFailure (h : Keeps I J w) (error : LuaValue) (retryAt : Option ℚ) (failureKind : FailureKind) :
    Keeps I J (recordFailure env queue id error retryAt failureKind w) := by
  have hassert := hI.assertHistory queue id h
  have hcount : I (countFailure queue id failureKind (EffectMQ.assertHistory queue id w).store) := by
    unfold countFailure
    refine hI.modifyTask queue id (fun r => ?_) (hI.aside hassert.store rfl rfl rfl)
    split <;> exact ⟨rfl, rfl, rfl, rfl, rfl, rfl⟩
  have herror := hassert.modify (f := fun s =>
      appendTaskError env queue id error retryAt (countFailure queue id failureKind s))
    (hI.modifyTask queue id (fun _ => ⟨rfl, rfl, rfl, rfl, rfl, rfl⟩) hcount)
  exact hI.publishEvent queue id herror _ _ none

theorem failTask (h : Keeps I J w) (error : LuaValue) (retryAt : ℚ) (failureKind : FailureKind) :
    Keeps I J (failTask env queue id error retryAt failureKind w) := by
  have hfailure := hI.recordFailure queue id h error (retryTime retryAt) failureKind
  unfold EffectMQ.failTask
  dsimp only
  split
  · split
    · exact hI.moveToList queue id hfailure _ _ false none
    · exact hI.moveToList queue id hfailure _ _ false none
  · refine hI.settleTask queue id (hfailure.modify ?_) error
    exact hI.modifyTask queue id (fun _ => ⟨rfl, rfl, rfl, rfl, rfl, rfl⟩) hfailure.store

/-! ### Maintenance -/

theorem syncDelayed (h : Keeps I J w) : Keeps I J (syncDelayed env queue w) := by
  unfold EffectMQ.syncDelayed
  split
  · exact h
  · exact (h.spend _).foldl (fun _ x h => hI.moveToList queue x h _ _ false none) _

theorem syncLocks (h : Keeps I J w) : Keeps I J (syncLocks env queue w) := by
  refine (h.spend _).foldl (fun w x h => ?_) _
  unfold failStalled
  split
  · exact h
  · exact hI.failTask queue x h _ _ _

theorem syncRetentionContinuations (h : Keeps I J w) : Keeps I J (syncRetentionContinuations env queue w) := by
  unfold EffectMQ.syncRetentionContinuations
  split
  · exact h
  · exact h.foldl (fun _ x h => hI.releaseOwnedHolds h x) _

theorem syncTaskExpiry (h : Keeps I J w) : Keeps I J (syncTaskExpiry env queue w) := by
  refine (h.spend _).foldl (fun w x h => ?_) _
  unfold expireTask
  dsimp only
  split
  · exact hI.beside h rfl rfl rfl
  · split
    · exact hI.beside h rfl rfl rfl
    · split
      · exact hI.beside h rfl rfl rfl
      · exact hI.beside (hI.deleteTask queue x.id h false) rfl rfl rfl

theorem syncResultExpiry (h : Keeps I J w) : Keeps I J (syncResultExpiry env queue w) := by
  refine (h.spend _).foldl (fun w x h => ?_) _
  unfold expireResult
  dsimp only
  split
  · exact hI.beside h rfl rfl rfl
  · exact hI.beside h rfl rfl rfl

theorem syncTerminalExpiry (h : Keeps I J w) : Keeps I J (syncTerminalExpiry env queue w) := by
  refine (h.spend _).foldl (fun w x h => ?_) _
  refine h.modify ?_
  have hunindex : I (unindexTerminal queue x.id w.store) := by
    unfold unindexTerminal
    dsimp only
    split
    · exact hI.modifyTask queue x.id (fun _ => ⟨rfl, rfl, rfl, rfl, rfl, rfl⟩) (hI.aside h.store rfl rfl rfl)
    · exact hI.aside h.store rfl rfl rfl
  dsimp only
  split
  · exact hI.aside hunindex rfl rfl rfl
  · exact hI.aside h.store rfl rfl rfl

theorem syncDeadLetterExpiry (h : Keeps I J w) : Keeps I J (syncDeadLetterExpiry env queue w) :=
  (h.spend _).foldl (fun _ _ h => hI.beside h rfl rfl rfl) _

theorem syncTurn (cursor offset : ℕ) (h : Keeps I J w) : Keeps I J (syncTurn env queue cursor w offset) := by
  unfold EffectMQ.syncTurn
  split
  · exact h
  · split
    · next sync hsync =>
      have hmem := List.mem_of_getElem? hsync
      simp only [syncers, List.mem_cons, List.not_mem_nil, or_false] at hmem
      rcases hmem with rfl | rfl | rfl | rfl | rfl | rfl | rfl
      · exact hI.syncDelayed queue h
      · exact hI.syncLocks queue h
      · exact hI.syncRetentionContinuations queue h
      · exact hI.syncTaskExpiry queue h
      · exact hI.syncResultExpiry queue h
      · exact hI.syncTerminalExpiry queue h
      · exact hI.syncDeadLetterExpiry queue h
    · exact h

theorem syncAll (h : Keeps I J w) : Keeps I J (syncAll env queue w) := by
  unfold EffectMQ.syncAll
  dsimp only
  have hturns := h.foldl (f := EffectMQ.syncTurn env queue (w.store.maintenanceCursor queue))
    (fun _ offset h => hI.syncTurn queue _ offset h) (List.range syncers.length)
  exact hI.beside hturns rfl rfl rfl

end

/-! ### Operations -/

theorem acquire {s s' : Store} (h : I s) {holder x : TaskIdentity}
    (hacquire : acquireRetentionHold holder x s = .ok s') : I s' := by
  rcases acquireRetentionHold_ok hacquire with ⟨_, rfl⟩ | ⟨rfl, _⟩
  · exact h
  · exact hI.aside h rfl rfl rfl

theorem announce (h : Keeps I J w) (a : CreateArgs) (replacedTask : Option TaskRecord) :
    Keeps I J (announce env a replacedTask w).2 := by
  unfold EffectMQ.announce
  dsimp only
  split
  · exact hI.moveToList a.queue a.id (hI.publishEvent a.queue a.id h _ none none) _ _ true none
  · exact hI.moveToList a.queue a.id (hI.publishEvent a.queue a.id h _ none none) _ _ true none

theorem createGeneration (h : Keeps I J w) {a : CreateArgs} (hvalid : createFault a = none)
    (hfresh : w.store.task (a.queue, a.id) = none) (replacedTask : Option TaskRecord) :
    Keeps I J (createGeneration env a replacedTask w).2 := by
  have hwrite := h.modify (hI.writeRecord hvalid hfresh h.store)
  unfold EffectMQ.createGeneration
  dsimp only
  split
  · exact hI.announce hwrite a replacedTask
  · split
    · next hacquire => exact hI.announce (hwrite.setStore (hI.acquire hwrite.store hacquire)) a replacedTask
    · exact hI.beside (hI.deleteTask a.queue a.id hwrite false) rfl rfl rfl

theorem offerSwept (h : Keeps I J w) {a : CreateArgs} (hvalid : createFault a = none) :
    Keeps I J (offerSwept env a w).2 := by
  unfold EffectMQ.offerSwept
  dsimp only
  split
  · exact h
  · split
    · exact h
    · cases hr : w.store.task (a.queue, a.id) with
      | none => exact hI.createGeneration h hvalid hr none
      | some r =>
        dsimp only
        split
        · exact h
        · cases a.onDuplicate with
          | unknown => exact h
          | returnExisting =>
            unfold returnExisting
            dsimp only
            split
            · exact h
            · split
              · next hacquire => exact h.setStore (hI.acquire h.store hacquire)
              · exact h
          | newGeneration =>
            dsimp only
            split
            · exact h
            · split
              · exact h
              · have hdisposed := hI.beside (hI.deleteTask a.queue a.id h false) (f := unlockTask a.queue a.id) rfl rfl rfl
                exact hI.createGeneration hdisposed hvalid (Function.update_self ..) (some r)

theorem completeTask (h : Keeps I J w) (queue id result : String) :
    Keeps I J (completeTask env queue id result w) := by
  have hunlock := hI.beside (hI.assertHistory queue id h) (f := unlockTask queue id) rfl rfl rfl
  have hset := hunlock.modify (f := setTask env queue id fun r =>
      { r with success := some result, outcome := some .success })
    (hI.modifyTask queue id (fun _ => ⟨rfl, rfl, rfl, rfl, rfl, rfl⟩) hunlock.store)
  unfold EffectMQ.completeTask
  exact hI.settleTask queue id (hI.publishEvent queue id hset _ none none) .nil

theorem run (h : Keeps I J w) (op : Op) : Keeps I J (op.run env w).2 := by
  cases op with
  | createTask a =>
    unfold Op.run EffectMQ.createTask
    dsimp only
    split
    · exact h
    · next hvalid => exact hI.offerSwept (hI.syncAll a.queue h) hvalid
  | takeTask queue leaseToken lockTimeout =>
    unfold Op.run EffectMQ.takeTask takeSwept
    dsimp only
    split
    · exact h
    · split
      · exact hI.syncAll queue h
      · split
        · exact hI.moveToList queue _ (hI.syncAll queue h) _ _ false none
        · exact hI.lockTask queue _ (hI.syncAll queue h) _ _
  | writeSuccess queue leaseToken id result =>
    have hsync := hI.syncAll queue h
    exact hsync.acknowledge queue leaseToken id (hI.completeTask hsync queue id result)
  | writeError queue leaseToken id error retryAt =>
    have hsync := hI.syncAll queue h
    unfold Op.run writeError
    dsimp only
    split
    · exact h
    · exact hsync.acknowledge queue leaseToken id (hI.failTask queue id hsync _ _ _)
  | extendLock queue leaseToken id lockTimeout =>
    unfold Op.run extendLock renewLease
    dsimp only
    split
    · exact h
    · split
      · exact h
      · exact hI.moveToList queue id (hI.beside h rfl rfl rfl) _ _ false none
  | removeLock queue leaseToken id =>
    unfold Op.run removeLock
    dsimp only
    split
    · exact h
    · exact hI.moveToList queue id (hI.beside h rfl rfl rfl) _ _ false none
  | appendProgress queue id generation schemaId token data =>
    unfold Op.run appendProgress
    dsimp only
    split
    · exact h
    · split
      · exact hI.assertHistory queue id h
      · exact hI.appendHistory queue id (hI.assertHistory queue id h) _ none
  | readHistory queue id generation schemaId sequence position count =>
    unfold Op.run readHistory
    dsimp only
    split
    · exact h
    · split
      · exact hI.assertHistory queue id h
      · split <;> exact hI.assertHistory queue id h
  | removeTask queue id =>
    unfold Op.run removeTask
    dsimp only
    have hsync := hI.syncAll queue h
    split
    · exact hsync
    · split
      · exact hsync
      · split
        · exact hsync
        · exact hI.deleteTask queue id (hI.releaseOwnedHolds hsync _) false
  | forceRemoveTask queue id =>
    unfold Op.run forceRemoveTask
    dsimp only
    have hsync := hI.syncAll queue h
    split
    · exact hsync
    · exact hI.deleteTask queue id
        (hI.beside (hI.releaseOwnedHolds (hI.beside hsync rfl rfl rfl) _) rfl rfl rfl) false
  | maintain queue => exact hI.syncAll queue h
  | listTasks queue list offset limit =>
    cases list <;> exact hI.syncAll queue h
  | setSchedule queue name next => exact h.setStore (hI.aside h.store rfl rfl rfl)
  | consumeSchedule queue name current next =>
    unfold Op.run consumeSchedule
    dsimp only
    split
    · exact h
    · split
      · exact h
      · split
        · exact h.setStore (hI.aside h.store rfl rfl rfl)
        · exact h
  | getTask | getGeneration | getResult | eventCursors => exact h

/-- An invocation that replies keeps the invariant. -/
theorem exec {s s' : Store} (h : I s) {op : Op} {reply : Reply} (hexec : exec env op s = .replied reply s') : I s' := by
  obtain ⟨_, rfl⟩ := exec_replied hexec
  exact (hI.run (w := World.begin env s) ⟨h, fun e he => absurd he (by simp [World.begin])⟩ op).store

end StoreInvariant

end EffectMQ
