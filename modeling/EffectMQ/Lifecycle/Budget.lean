import EffectMQ.Lifecycle.Serving
import EffectMQ.Transition.Budget

/-!
# The maintenance budget of an invocation

What an invocation draws from its budget, in the order of the script: the due members that the sweep fetches from an index,
and the holds that a release pops, wherever it is called. Every function spends what its draws take, and the holds that no
draw took are still there, with their holder in the continuation index.
-/

namespace EffectMQ

open Redis Transition

/-- A draw on the budget, with what was left of it. -/
inductive Draw
  | fetched (members : List Member) (limit : ℤ)
  | released (holder : TaskIdentity) (members : List TaskIdentity) (limit : ℤ)

namespace Draw

def size : Draw → ℕ
  | .fetched members _ => members.length
  | .released _ members _ => members.length

def limit : Draw → ℤ
  | .fetched _ limit => limit
  | .released _ _ limit => limit

/-- The members of the indexes among a draw. -/
def members : Draw → List Member
  | .fetched members _ => members
  | .released _ _ _ => []

/-- The holds of a holder among a draw. -/
def holds (holder : TaskIdentity) : Draw → Finset TaskIdentity
  | .fetched _ _ => ∅
  | .released holder' members _ => if holder' = holder then members.toFinset else ∅

end Draw

/-- The members that draws fetch. -/
def fetchedMembers (draws : List Draw) : List Member := draws.flatMap Draw.members

/-- The holds of a holder that draws release. -/
def releasedHolds (holder : TaskIdentity) (draws : List Draw) : Finset TaskIdentity :=
  draws.foldr (fun d holds => d.holds holder ∪ holds) ∅

/-- `releaseOwnedHolds` was called for a holder. -/
def ReleaseCalled (holder : TaskIdentity) (draws : List Draw) : Prop :=
  ∃ members limit, Draw.released holder members limit ∈ draws

/-! ### The draws of each function -/

/-- The draws of a loop. -/
def loopDraws {ι : Type} (f : World → ι → World) (draws : World → ι → List Draw) : List ι → World → List Draw
  | [], _ => []
  | x :: rest, w => draws w x ++ loopDraws f draws rest (f w x)

def releaseDraws (env : Env) (holder : TaskIdentity) (w : World) : List Draw :=
  [.released holder (poppedMembers env holder w) w.remaining]

def settleDraws (env : Env) (queue id : String) (terminalFailure : LuaValue) (w : World) : List Draw :=
  releaseDraws env (w.store.identity queue id) (settleCore env queue id terminalFailure w)

def failDraws (env : Env) (queue id : String) (error : LuaValue) (retryAt : ℚ) (failureKind : FailureKind) (w : World) :
    List Draw :=
  let w := recordFailure env queue id error (retryTime retryAt) failureKind w
  if willRetry error (retryTime retryAt) then []
  else settleDraws env queue id error (w.modify (setTask env queue id fun r => { r with outcome := some .failure }))

def stallDraws (env : Env) (queue : String) (w : World) (id : String) : List Draw :=
  if isLocked env w.store queue id then []
  else
    let nextStalledCount := ((w.store.task (queue, id)).map TaskRecord.stalledAttemptCount).getD 0 + 1
    let maxStalledCount := ((w.store.task (queue, id)).map TaskRecord.maxStalledCount).getD 1
    let retryAt := if maxStalledCount < nextStalledCount then -1 else 0
    failDraws env queue id (stalledError env.clock) retryAt .stall w

/-- A query for due members, which is not made without a budget. -/
def fetchDraws (members : List Member) (w : World) : List Draw :=
  if w.remaining ≤ 0 then [] else [.fetched members w.remaining]

def delayedDraws (env : Env) (queue : String) (w : World) : List Draw :=
  fetchDraws (((w.store.lists queue).scheduled.rangeByScore env.now w.remaining).map .delayed) w

def lockDraws (env : Env) (queue : String) (w : World) : List Draw :=
  let activeIds := getExpiredActiveList env queue w
  fetchDraws (activeIds.map .lock) w ++
    loopDraws (failStalled env queue) (stallDraws env queue) activeIds (w.spend activeIds.length)

def continuationDraws (env : Env) (queue : String) (w : World) : List Draw :=
  if w.remaining ≤ 0 then []
  else
    loopDraws (fun w holder => releaseOwnedHolds env holder w) (fun w holder => releaseDraws env holder w)
      ((w.store.continuations queue).range 0 0) w

/-- The draw of a sweep over an expiry index. None of them settles a task or releases a hold. -/
def expiryDraws (index : ExpiryIndexes → SortedSet TaskIdentity) (entry : TaskIdentity → Member) (env : Env) (queue : String)
    (w : World) : List Draw :=
  fetchDraws ((dueExpiryMembers env (index (w.store.expiry queue)) w).map entry) w

/-- The draws of the syncers, in their order. -/
def syncerDraws : List (Env → String → World → List Draw) :=
  [delayedDraws, lockDraws, continuationDraws, expiryDraws ExpiryIndexes.tasks .task,
    expiryDraws ExpiryIndexes.results .result, expiryDraws ExpiryIndexes.terminal .terminal,
    expiryDraws ExpiryIndexes.deadLetterExpiry .deadLetter]

def turnDraws (env : Env) (queue : String) (cursor : ℕ) (w : World) (offset : ℕ) : List Draw :=
  if w.remaining ≤ 0 then []
  else match syncerDraws[(cursor + offset) % syncers.length]? with
    | some draws => draws env queue w
    | none => []

def sweepDraws (env : Env) (queue : String) (w : World) : List Draw :=
  let cursor := w.store.maintenanceCursor queue
  loopDraws (syncTurn env queue cursor) (turnDraws env queue cursor) (List.range syncers.length) w

/-- An owned success up to its settlement. -/
def recordSuccess (env : Env) (queue id result : String) (w : World) : World :=
  let w := (assertHistory queue id w).modify (unlockTask queue id)
  let w := w.modify (setTask env queue id fun r => { r with success := some result, outcome := some .success })
  let policy := ((w.store.task (queue, id)).map TaskRecord.onSuccessPolicy).getD .delete
  publishEvent env queue id (.completed result policy) none none w

theorem completeTask_eq (env : Env) (queue id result : String) (w : World) :
    completeTask env queue id result w = settleTask env queue id .nil (recordSuccess env queue id result w) := rfl

/-- The draws of an acknowledgement after its sweep. -/
def acknowledgeDraws (env : Env) (queue leaseToken id : String) (effect : World → List Draw) (w : World) : List Draw :=
  if w.store.task (queue, id) = none then []
  else if isLockedBy env w.store queue id leaseToken = false then []
  else effect w

/-- The draws of an operation. -/
def Op.draws (env : Env) (w : World) : Op → List Draw
  | .createTask a => if createFault a = none then sweepDraws env a.queue w else []
  | .takeTask queue _ lockTimeout => if isPositiveSafeInteger lockTimeout = true then sweepDraws env queue w else []
  | .writeSuccess queue leaseToken id result =>
    sweepDraws env queue w ++ acknowledgeDraws env queue leaseToken id
      (fun w => settleDraws env queue id .nil (recordSuccess env queue id result w)) (syncAll env queue w)
  | .writeError queue leaseToken id error retryAt =>
    if isRetryTime retryAt = true then
      sweepDraws env queue w ++ acknowledgeDraws env queue leaseToken id
        (failDraws env queue id error (retryAt.getD (-1)) .handler) (syncAll env queue w)
    else []
  | .removeTask queue id =>
    let w' := syncAll env queue w
    sweepDraws env queue w ++
      if isLocked env w'.store queue id then []
      else if w'.store.task (queue, id) = none then []
      else if w'.store.hasRetentionHolds (w'.store.identity queue id) then []
      else releaseDraws env (w'.store.identity queue id) w'
  | .forceRemoveTask queue id =>
    let w' := syncAll env queue w
    sweepDraws env queue w ++
      if w'.store.task (queue, id) = none then []
      else releaseDraws env (w'.store.identity queue id) (w'.modify (unlockTask queue id))
  | .maintain queue => sweepDraws env queue w
  | .listTasks queue _ _ _ => sweepDraws env queue w
  | _ => []

/-! ### Work that draws nothing -/

/-- A part of the script that leaves the budget, the holds and the continuation indexes alone. -/
structure Aside (w w' : World) : Prop where
  remaining : w'.remaining = w.remaining
  retains : w'.store.retains = w.store.retains
  continuations : w'.store.continuations = w.store.continuations

namespace Aside

variable {env : Env} {queue id : String} {w w' w'' : World}

theorem refl (w : World) : Aside w w := ⟨rfl, rfl, rfl⟩

theorem trans (h : Aside w w') (h' : Aside w' w'') : Aside w w'' :=
  ⟨h'.remaining.trans h.remaining, h'.retains.trans h.retains, h'.continuations.trans h.continuations⟩

theorem modify (h : Aside w w') {f : Store → Store} (hretains : (f w'.store).retains = w'.store.retains)
    (hcontinuations : (f w'.store).continuations = w'.store.continuations) : Aside w (w'.modify f) :=
  h.trans ⟨rfl, hretains, hcontinuations⟩

theorem assertHistory (h : Aside w w') (queue id : String) : Aside w (assertHistory queue id w') := by
  unfold EffectMQ.assertHistory
  split
  · exact h.trans ⟨rfl, rfl, rfl⟩
  · exact h

theorem appendHistory (h : Aside w w') (data : HistoryData) (attempt : Option ℕ) :
    Aside w (appendHistory env queue id data attempt w') := by
  unfold EffectMQ.appendHistory
  cases w'.store.task (queue, id) with
  | none => exact h
  | some r =>
    dsimp only
    split
    · refine (h.assertHistory queue id).modify ?_ ?_ <;>
      · unfold pushHistory
        dsimp only
        split <;> rfl
    · exact h

theorem publishEvent (h : Aside w w') (body : EventBody) (failureKind : Option FailureKind) (attempt : Option ℕ) :
    Aside w (publishEvent env queue id body failureKind attempt w') :=
  (h.appendHistory _ _).modify rfl rfl

theorem relist (s : Store) (list : Option TaskList) (readyAt : ℚ) (sourceKnownEmpty : Bool) :
    (relist env queue id list readyAt sourceKnownEmpty s).2.retains = s.retains ∧
      (EffectMQ.relist env queue id list readyAt sourceKnownEmpty s).2.continuations = s.continuations := by
  have hremoved : (if sourceKnownEmpty then (none, s) else removeFromCurrentLists env queue id s).2.retains = s.retains ∧
      (if sourceKnownEmpty then (none, s) else removeFromCurrentLists env queue id s).2.continuations = s.continuations := by
    split
    · exact ⟨rfl, rfl⟩
    · unfold removeFromCurrentLists
      dsimp only
      split
      all_goals
        split
        · exact ⟨rfl, rfl⟩
        · exact ⟨rfl, rfl⟩
  unfold EffectMQ.relist
  cases list with
  | none => exact hremoved
  | some l => exact hremoved

theorem moveToList (h : Aside w w') (list : Option TaskList) (readyAt : ℚ) (sourceKnownEmpty : Bool) (attempt : Option ℕ) :
    Aside w (moveToList env queue id list readyAt sourceKnownEmpty attempt w') := by
  obtain ⟨hretains, hcontinuations⟩ :=
    @relist env queue id (EffectMQ.assertHistory queue id w').store list readyAt sourceKnownEmpty
  have hrelist : Aside w { EffectMQ.assertHistory queue id w' with
      store := (EffectMQ.relist env queue id list readyAt sourceKnownEmpty (EffectMQ.assertHistory queue id w').store).2 } :=
    (h.assertHistory queue id).trans ⟨rfl, hretains, hcontinuations⟩
  unfold EffectMQ.moveToList
  dsimp only
  split
  · exact hrelist
  · exact hrelist.publishEvent _ none attempt

theorem dropRecord (s : Store) (generation : Option ℕ) :
    (dropRecord queue id generation s).retains = s.retains ∧
      (EffectMQ.dropRecord queue id generation s).continuations = s.continuations := by
  cases generation <;> exact ⟨rfl, rfl⟩

theorem deleteTask (h : Aside w w') (queue id : String) (sourceKnownEmpty : Bool) :
    Aside w (deleteTask env queue id sourceKnownEmpty w') :=
  (h.moveToList none 0 sourceKnownEmpty none).modify (dropRecord _ _).1 (dropRecord _ _).2

theorem applyCompletionPolicy (h : Aside w w') (queue id : String) : Aside w (applyCompletionPolicy env queue id w') := by
  unfold EffectMQ.applyCompletionPolicy
  split
  · exact h
  · split
    · exact h
    · dsimp only
      split
      · exact (h.moveToList _ 0 false none).deleteTask queue id true
      · exact h.moveToList _ 0 false none

theorem releaseHold (h : Aside w w') (holder retained : TaskIdentity) : Aside w (releaseHold env holder w' retained) := by
  have hdrop : Aside w (w'.modify fun s =>
      { s with retainedBy := Function.update s.retainedBy retained ((s.retainedBy retained).erase holder) }) :=
    h.modify rfl rfl
  unfold EffectMQ.releaseHold
  dsimp only
  split
  · exact hdrop
  · split
    · exact hdrop.applyCompletionPolicy _ _
    · exact hdrop

theorem settleCore (h : Aside w w') (terminalFailure : LuaValue) : Aside w (settleCore env queue id terminalFailure w') := by
  refine (h.modify ?_ ?_).applyCompletionPolicy queue id <;>
  · unfold scheduleTerminalRetention persistTerminalResult
    split <;> split <;> rfl

theorem recordFailure (h : Aside w w') (error : LuaValue) (retryAt : Option ℚ) (failureKind : FailureKind) :
    Aside w (recordFailure env queue id error retryAt failureKind w') :=
  ((h.assertHistory queue id).modify rfl rfl).publishEvent _ _ none

theorem recordSuccess (h : Aside w w') (result : String) : Aside w (recordSuccess env queue id result w') :=
  (((h.assertHistory queue id).modify rfl rfl).modify rfl rfl).publishEvent _ none none

theorem eraseGeneration (w : World) (x : TaskIdentity) : Aside w (w.modify (eraseGeneration x)) :=
  (refl w).modify rfl rfl

theorem foldl {ι : Type} {f : World → ι → World} (hf : ∀ w x, Aside w (f w x)) (items : List ι) (h : Aside w w') :
    Aside w (items.foldl f w') := by
  induction items generalizing w' with
  | nil => exact h
  | cons x rest ih => exact ih (h.trans (hf w' x))

theorem expireTask (w : World) (x : TaskIdentity) : Aside w (expireTask env queue w x) := by
  unfold EffectMQ.expireTask
  dsimp only
  split
  · exact (refl w).modify rfl rfl
  · split
    · exact (refl w).modify rfl rfl
    · split
      · exact (refl w).modify rfl rfl
      · exact ((refl w).deleteTask queue x.id false).modify rfl rfl

theorem expireResult (w : World) (x : TaskIdentity) : Aside w (expireResult env queue w x) := by
  unfold EffectMQ.expireResult
  dsimp only
  split <;> exact (refl w).modify rfl rfl

theorem expireTerminal (w : World) (x : TaskIdentity) : Aside w (expireTerminal queue w x) := by
  have hunindexed : ∀ s : Store, (unindexTerminal queue x.id s).retains = s.retains ∧
      (unindexTerminal queue x.id s).continuations = s.continuations := fun s => by
    unfold unindexTerminal
    dsimp only
    split <;> exact ⟨rfl, rfl⟩
  refine (refl w).modify ?_ ?_
  · dsimp only
    split
    · exact (hunindexed _).1
    · rfl
  · dsimp only
    split
    · exact (hunindexed _).2
    · rfl

theorem expireDeadLetter (w : World) (x : TaskIdentity) : Aside w (expireDeadLetter queue w x) :=
  (refl w).modify rfl rfl

end Aside

/-! ### Accounts -/

/-- What draws say of a part of the script: it spends what they take, no hold goes that they do not release, and every holder
that a release was called for is in its continuation index, if it has holds left. -/
structure Account (w w' : World) (draws : List Draw) : Prop where
  spends : Spends Draw.limit Draw.size w.remaining draws w'.remaining
  retains : ∀ holder, w'.store.retains holder = w.store.retains holder \ releasedHolds holder draws
  unnoted : ∀ holder, ¬ ReleaseCalled holder draws →
    (w'.store.continuations holder.queue).score holder = (w.store.continuations holder.queue).score holder
  noted : ∀ holder, ReleaseCalled holder draws → w'.store.retains holder ≠ ∅ → w'.store.Noted holder

section

variable {env : Env} {queue id : String} {w w' w'' : World} {draws draws' : List Draw} {holder : TaskIdentity}

@[simp] theorem releasedHolds_append :
    releasedHolds holder (draws ++ draws') = releasedHolds holder draws ∪ releasedHolds holder draws' := by
  induction draws with
  | nil => exact (Finset.empty_union _).symm
  | cons d draws ih =>
    change d.holds holder ∪ releasedHolds holder (draws ++ draws') = d.holds holder ∪ releasedHolds holder draws ∪ _
    rw [ih, Finset.union_assoc]

theorem releaseCalled_append : ReleaseCalled holder (draws ++ draws') ↔
    ReleaseCalled holder draws ∨ ReleaseCalled holder draws' := by
  simp only [ReleaseCalled, List.mem_append, exists_or]

theorem Aside.account (h : Aside w w') (hroom : 0 ≤ w.remaining) : Account w w' [] where
  spends := by
    rw [h.remaining]
    exact .nil hroom
  retains holder := by
    rw [h.retains]
    exact Finset.sdiff_empty.symm
  unnoted holder _ := by rw [h.continuations]
  noted holder := by
    rintro ⟨members, limit, hmem⟩
    exact absurd hmem List.not_mem_nil

namespace Account

theorem nonneg (h : Account w w' draws) : 0 ≤ w'.remaining := h.spends.nonneg

theorem trans (h : Account w w' draws) (h' : Account w' w'' draws') : Account w w'' (draws ++ draws') where
  spends := h.spends.append h'.spends
  retains holder := by rw [h'.retains, h.retains, releasedHolds_append, sdiff_sdiff_left, Finset.sup_eq_union]
  unnoted holder hnot := by
    rw [releaseCalled_append, not_or] at hnot
    rw [h'.unnoted holder hnot.2, h.unnoted holder hnot.1]
  noted holder hcalled hne := by
    by_cases hlater : ReleaseCalled holder draws'
    · exact h'.noted holder hlater hne
    · have hearlier := (releaseCalled_append.mp hcalled).resolve_right hlater
      have hne' : w'.store.retains holder ≠ ∅ := fun hempty => hne (by rw [h'.retains, hempty, Finset.empty_sdiff])
      have hnoted := h.noted holder hearlier hne'
      unfold Store.Noted at hnoted ⊢
      rwa [h'.unnoted holder hlater]

theorem aside (h : Account w w' draws) (h' : Aside w' w'') : Account w w'' draws := by
  have := h.trans (h'.account h.nonneg)
  rwa [List.append_nil] at this

theorem loop {ι : Type} {f : World → ι → World} {g : World → ι → List Draw}
    (hf : ∀ w x, 0 ≤ w.remaining → Account w (f w x) (g w x)) (items : List ι) (hroom : 0 ≤ w.remaining) :
    Account w (items.foldl f w) (loopDraws f g items w) := by
  induction items generalizing w with
  | nil => exact (Aside.refl w).account hroom
  | cons x rest ih =>
    have hx := hf w x hroom
    exact hx.trans (ih hx.nonneg)

end Account

/-! ### The account of each function -/

theorem length_poppedMembers (hroom : 0 ≤ w.remaining) : ((poppedMembers env holder w).length : ℤ) ≤ w.remaining := by
  unfold poppedMembers
  split
  · rw [env.spop.length]
    omega
  · exact hroom

theorem releaseOwnedHolds_account (holder : TaskIdentity) (hroom : 0 ≤ w.remaining) :
    Account w (releaseOwnedHolds env holder w) (releaseDraws env holder w) := by
  let popped := poppedMembers env holder w
  let w₁ := (w.modify fun s => { s with
    retains := Function.update s.retains holder (s.retains holder \ popped.toFinset) }).spend popped.length
  have hdrops : Aside w₁ (popped.foldl (releaseHold env holder) w₁) :=
    (Aside.refl w₁).foldl (fun w x => (Aside.refl w).releaseHold holder x) popped
  have hstore : releaseOwnedHolds env holder w =
      (popped.foldl (releaseHold env holder) w₁).modify (noteContinuation env holder) := rfl
  have hretains : (releaseOwnedHolds env holder w).store.retains =
      Function.update w.store.retains holder (w.store.retains holder \ popped.toFinset) := by
    rw [hstore]
    exact hdrops.retains
  have hremaining : (releaseOwnedHolds env holder w).remaining = w.remaining - popped.length := by
    rw [hstore]
    exact hdrops.remaining
  refine ⟨?_, fun x => ?_, fun x hnot => ?_, ?_⟩
  · rw [hremaining]
    exact .single rfl (length_poppedMembers hroom)
  · rw [hretains]
    by_cases hx : x = holder
    · subst hx
      simp [releasedHolds, releaseDraws, Draw.holds, popped]
    · have hx' : ¬ holder = x := fun h => hx h.symm
      simp [Function.update_of_ne hx, releasedHolds, releaseDraws, Draw.holds, hx']
  · have hx : x ≠ holder := fun h => hnot ⟨popped, w.remaining, by rw [h]; exact List.mem_singleton_self _⟩
    have hcontinuations : (popped.foldl (releaseHold env holder) w₁).store.continuations = w.store.continuations :=
      hdrops.continuations
    rw [hstore, World.modify_store, noteContinuation]
    by_cases hqueue : x.queue = holder.queue
    · simp only [hqueue, Function.update_self, hcontinuations]
      split
      · exact SortedSet.score_add_of_ne _ _ hx
      · exact SortedSet.score_remove_of_ne _ hx
    · simp only [Function.update_of_ne hqueue, hcontinuations]
  · rintro x ⟨members, limit, hmem⟩
    obtain ⟨rfl, _⟩ := Draw.released.inj (List.mem_singleton.mp hmem)
    exact noted_of_releaseOwnedHolds _ w

theorem settleTask_account (terminalFailure : LuaValue) (hroom : 0 ≤ w.remaining) :
    Account w (settleTask env queue id terminalFailure w) (settleDraws env queue id terminalFailure w) := by
  have hcore : Aside w (settleCore env queue id terminalFailure w) := (Aside.refl w).settleCore terminalFailure
  rw [settleTask_eq]
  exact (hcore.account hroom).trans (releaseOwnedHolds_account _ (hcore.remaining ▸ hroom))

theorem failTask_account (error : LuaValue) (retryAt : ℚ) (failureKind : FailureKind) (hroom : 0 ≤ w.remaining) :
    Account w (failTask env queue id error retryAt failureKind w)
      (failDraws env queue id error retryAt failureKind w) := by
  have hrecord : Aside w (recordFailure env queue id error (retryTime retryAt) failureKind w) :=
    (Aside.refl w).recordFailure error _ failureKind
  unfold failTask failDraws
  dsimp only
  split
  · split
    · exact (hrecord.moveToList _ _ false none).account hroom
    · exact (hrecord.moveToList _ _ false none).account hroom
  · have hset : Aside w ((recordFailure env queue id error (retryTime retryAt) failureKind w).modify
        (setTask env queue id fun r => { r with outcome := some .failure })) := hrecord.modify rfl rfl
    exact (hset.account hroom).trans (settleTask_account error (hset.remaining ▸ hroom))

theorem completeTask_account (result : String) (hroom : 0 ≤ w.remaining) :
    Account w (completeTask env queue id result w)
      (settleDraws env queue id .nil (recordSuccess env queue id result w)) := by
  have hrecord : Aside w (recordSuccess env queue id result w) := (Aside.refl w).recordSuccess result
  rw [completeTask_eq]
  exact (hrecord.account hroom).trans (settleTask_account .nil (hrecord.remaining ▸ hroom))

theorem failStalled_account (w : World) (id : String) (hroom : 0 ≤ w.remaining) :
    Account w (failStalled env queue w id) (stallDraws env queue w id) := by
  unfold failStalled stallDraws
  split
  · exact (Aside.refl w).account hroom
  · exact failTask_account _ _ _ hroom

/-- A query takes as many members as it returns. -/
theorem fetch_account {members : List Member} (hroom : 0 ≤ w.remaining) (hlength : (members.length : ℤ) ≤ w.remaining) :
    Account w (w.spend members.length) (fetchDraws members w) := by
  unfold fetchDraws
  split
  · have hnone : (members.length : ℤ) = 0 := by omega
    refine Aside.account ⟨?_, rfl, rfl⟩ hroom
    simp [World.spend, hnone]
  · refine ⟨.single rfl hlength, fun holder => ?_, fun _ _ => rfl, ?_⟩
    · exact (Finset.sdiff_empty).symm
    · rintro holder ⟨_, _, hmem⟩
      exact absurd (List.mem_singleton.mp hmem) (by simp)

theorem length_rangeByScore {α : Type} [DecidableEq α] [MemberOrder α] (z : SortedSet α) (hi : ℚ) {limit : ℤ}
    (h : 0 ≤ limit) : ((z.rangeByScore hi limit).length : ℤ) ≤ limit := by
  rw [SortedSet.rangeByScore, SortedSet.limited, if_neg (not_lt.mpr h), List.length_take]
  omega

theorem syncDelayed_account (hroom : 0 ≤ w.remaining) : Account w (syncDelayed env queue w) (delayedDraws env queue w) := by
  unfold syncDelayed delayedDraws
  split
  · next hnone =>
    rw [fetchDraws, if_pos hnone]
    exact (Aside.refl w).account hroom
  · have hfetch := @fetch_account w (((w.store.lists queue).scheduled.rangeByScore env.now w.remaining).map .delayed) hroom
      (by simpa using length_rangeByScore _ _ hroom)
    rw [List.length_map] at hfetch
    exact hfetch.aside ((Aside.refl _).foldl (fun w x => (Aside.refl w).moveToList _ 0 false none) _)

theorem syncLocks_account (hroom : 0 ≤ w.remaining) : Account w (syncLocks env queue w) (lockDraws env queue w) := by
  have hlength : ((getExpiredActiveList env queue w).length : ℤ) ≤ w.remaining := by
    unfold getExpiredActiveList
    split
    · exact hroom
    · exact length_rangeByScore _ _ hroom
  have hfetch := @fetch_account w ((getExpiredActiveList env queue w).map .lock) hroom (by simpa using hlength)
  rw [List.length_map] at hfetch
  exact hfetch.trans (.loop failStalled_account _ hfetch.nonneg)

theorem syncRetentionContinuations_account (hroom : 0 ≤ w.remaining) :
    Account w (syncRetentionContinuations env queue w) (continuationDraws env queue w) := by
  unfold syncRetentionContinuations continuationDraws
  split
  · exact (Aside.refl w).account hroom
  · exact .loop (fun _ holder hroom => releaseOwnedHolds_account holder hroom) _ hroom

theorem expiry_account {index : ExpiryIndexes → SortedSet TaskIdentity} {entry : TaskIdentity → Member}
    {f : World → TaskIdentity → World} (hf : ∀ w x, Aside w (f w x)) (hroom : 0 ≤ w.remaining) :
    Account w ((dueExpiryMembers env (index (w.store.expiry queue)) w).foldl f
      (w.spend (dueExpiryMembers env (index (w.store.expiry queue)) w).length)) (expiryDraws index entry env queue w) := by
  have hlength : ((dueExpiryMembers env (index (w.store.expiry queue)) w).length : ℤ) ≤ w.remaining := by
    unfold dueExpiryMembers
    split
    · exact hroom
    · exact length_rangeByScore _ _ hroom
  have hfetch := @fetch_account w ((dueExpiryMembers env (index (w.store.expiry queue)) w).map entry) hroom
    (by simpa using hlength)
  rw [List.length_map] at hfetch
  exact hfetch.aside ((Aside.refl _).foldl hf _)

theorem syncer_account {n : ℕ} {sync : Env → String → World → World} {g : Env → String → World → List Draw}
    (hsync : syncers[n]? = some sync) (hdraws : syncerDraws[n]? = some g) (hroom : 0 ≤ w.remaining) :
    Account w (sync env queue w) (g env queue w) := by
  have hn : n < 7 := (List.getElem?_eq_some_iff.mp hsync).1
  interval_cases n <;> obtain rfl := Option.some.inj hsync <;> obtain rfl := Option.some.inj hdraws
  · exact syncDelayed_account hroom
  · exact syncLocks_account hroom
  · exact syncRetentionContinuations_account hroom
  · exact expiry_account Aside.expireTask hroom
  · exact expiry_account Aside.expireResult hroom
  · exact expiry_account Aside.expireTerminal hroom
  · exact expiry_account Aside.expireDeadLetter hroom

theorem syncTurn_account (cursor : ℕ) (w : World) (offset : ℕ) (hroom : 0 ≤ w.remaining) :
    Account w (syncTurn env queue cursor w offset) (turnDraws env queue cursor w offset) := by
  have hlt : (cursor + offset) % syncers.length < syncers.length := Nat.mod_lt _ (by decide)
  obtain ⟨sync, hsync⟩ : ∃ sync, syncers[(cursor + offset) % syncers.length]? = some sync :=
    ⟨_, List.getElem?_eq_getElem hlt⟩
  obtain ⟨g, hg⟩ : ∃ g, syncerDraws[(cursor + offset) % syncers.length]? = some g :=
    ⟨_, List.getElem?_eq_getElem (l := syncerDraws) hlt⟩
  unfold syncTurn turnDraws
  rw [hsync, hg]
  split
  · exact (Aside.refl w).account hroom
  · exact syncer_account hsync hg hroom

theorem syncAll_account (hroom : 0 ≤ w.remaining) : Account w (syncAll env queue w) (sweepDraws env queue w) :=
  (Account.loop (syncTurn_account _) (List.range syncers.length) hroom).aside ⟨rfl, rfl, rfl⟩

/-! ### Operations -/

theorem acknowledge_account {leaseToken : String} {effect : World → World} {g : World → List Draw}
    (heffect : Account w (effect w) (g w)) :
    Account w (acknowledge env queue leaseToken id effect w).2 (acknowledgeDraws env queue leaseToken id g w) := by
  have hroom : 0 ≤ w.remaining := by
    have := heffect.spends.nonneg
    have := heffect.spends.eq_sub
    omega
  unfold acknowledge acknowledgeDraws
  split
  · exact (Aside.refl w).account hroom
  · split
    · exact (Aside.refl w).account hroom
    · exact heffect

/-- What the draws of an operation say of it: a hold that was there before it and that no draw released is still there, and
its holder is in the continuation index, if it was there before or a release was called for it. -/
structure Op.Accounted (env : Env) (op : Op) (w : World) : Prop where
  spends : Spends Draw.limit Draw.size w.remaining (op.draws env w) (op.run env w).2.remaining
  holds : ∀ holder, ∀ x ∈ w.store.retains holder, x ∉ releasedHolds holder (op.draws env w) →
    x ∈ (op.run env w).2.store.retains holder ∧
      (ReleaseCalled holder (op.draws env w) ∨ w.store.Noted holder → (op.run env w).2.store.Noted holder)

/-- A part of the script that draws nothing and releases no hold, but may acquire one. -/
structure Acquires (w w' : World) : Prop where
  remaining : w'.remaining = w.remaining
  retains : ∀ holder, w.store.retains holder ⊆ w'.store.retains holder
  continuations : w'.store.continuations = w.store.continuations

theorem Aside.acquires (h : Aside w w') : Acquires w w' :=
  ⟨h.remaining, fun holder => by rw [h.retains], h.continuations⟩

theorem Acquires.aside (h : Acquires w w') (h' : Aside w' w'') : Acquires w w'' :=
  ⟨h'.remaining.trans h.remaining, fun holder => by
    rw [h'.retains]
    exact h.retains holder, h'.continuations.trans h.continuations⟩

theorem Aside.trans_acquires (h : Aside w w') (h' : Acquires w' w'') : Acquires w w'' :=
  ⟨h'.remaining.trans h.remaining, fun holder => by
    rw [← h.retains]
    exact h'.retains holder, h'.continuations.trans h.continuations⟩

theorem Op.accounted_of_acquires {op : Op} (w' : World) (h : Account w w' (op.draws env w))
    (h' : Acquires w' (op.run env w).2) : op.Accounted env w where
  spends := h'.remaining ▸ h.spends
  holds holder x hx hkept := by
    have hmem : x ∈ w'.store.retains holder := by
      rw [h.retains]
      exact Finset.mem_sdiff.mpr ⟨hx, hkept⟩
    refine ⟨h'.retains holder hmem, fun hbefore => ?_⟩
    have hnoted : w'.store.Noted holder := by
      by_cases hcalled : ReleaseCalled holder (op.draws env w)
      · exact h.noted holder hcalled (Finset.ne_empty_of_mem hmem)
      · unfold Store.Noted
        rw [h.unnoted holder hcalled]
        exact hbefore.resolve_left hcalled
    unfold Store.Noted at hnoted ⊢
    rwa [h'.continuations]

theorem Op.accounted_of_account {op : Op} (h : Account w (op.run env w).2 (op.draws env w)) : op.Accounted env w :=
  accounted_of_acquires _ h (Aside.refl _).acquires

theorem acquires_hold {holder x : TaskIdentity} {s : Store} (h : acquireRetentionHold holder x w.store = .ok s) :
    Acquires w { w with store := s } := by
  unfold acquireRetentionHold at h
  dsimp only at h
  split_ifs at h
  · obtain rfl := Except.ok.inj h
    exact (Aside.refl w).acquires
  · obtain rfl := Except.ok.inj h
    refine ⟨rfl, fun y => ?_, rfl⟩
    by_cases hy : y = holder
    · subst hy
      simp
    · simp [Function.update_of_ne hy]

theorem announce_aside (a : CreateArgs) (replacedTask : Option TaskRecord) : Aside w (announce env a replacedTask w).2 := by
  unfold announce
  dsimp only
  have hpublish : ∀ body, Aside w (publishEvent env a.queue a.id body none none w) := fun body =>
    (Aside.refl w).publishEvent body none none
  split <;> exact (hpublish _).moveToList _ _ true none

theorem createGeneration_acquires (a : CreateArgs) (replacedTask : Option TaskRecord) :
    Acquires w (createGeneration env a replacedTask w).2 := by
  have hwrite : Aside w (w.modify (writeRecord env a)) := (Aside.refl w).modify rfl rfl
  unfold createGeneration
  dsimp only
  split
  · exact (hwrite.trans (announce_aside a replacedTask)).acquires
  · split
    · next hacquire => exact (hwrite.trans_acquires (acquires_hold hacquire)).aside (announce_aside a replacedTask)
    · exact ((hwrite.deleteTask a.queue a.id false).modify rfl rfl).acquires

theorem offerSwept_acquires (a : CreateArgs) : Acquires w (offerSwept env a w).2 := by
  have hself : Acquires w w := (Aside.refl w).acquires
  unfold offerSwept
  dsimp only
  split
  · exact hself
  · split
    · exact hself
    · split
      · exact createGeneration_acquires a none
      · split
        · exact hself
        · split
          · unfold returnExisting
            split
            · exact hself
            · split
              · next hacquire => exact acquires_hold hacquire
              · exact hself
          · exact hself
          · split
            · exact hself
            · split
              · exact hself
              · exact (((Aside.refl w).deleteTask a.queue a.id false).modify rfl rfl).trans_acquires
                  (createGeneration_acquires a _)

theorem takeSwept_aside (leaseToken : String) (lockTimeout : ℚ) : Aside w (takeSwept env queue leaseToken lockTimeout w).2 := by
  unfold takeSwept
  split
  · exact .refl w
  · split
    · exact (Aside.refl w).moveToList _ _ false none
    · exact (((Aside.refl w).assertHistory queue _).moveToList _ _ false _).trans ⟨rfl, rfl, rfl⟩

theorem run_accounted (op : Op) (hroom : 0 ≤ w.remaining) : op.Accounted env w := by
  have hnone : ∀ {op : Op}, op.draws env w = [] → Aside w (op.run env w).2 → op.Accounted env w := fun hdraws h =>
    Op.accounted_of_account (hdraws ▸ h.account hroom)
  have hsweep : ∀ queue, Account w (syncAll env queue w) (sweepDraws env queue w) := fun queue => syncAll_account hroom
  cases op with
  | createTask a =>
    cases hfault : createFault a with
    | some message =>
      refine hnone (by simp [Op.draws, hfault]) ?_
      simp only [Op.run, createTask, hfault]
      exact .refl w
    | none =>
      refine Op.accounted_of_acquires (syncAll env a.queue w) ?_ ?_
      · simp only [Op.draws, hfault, if_true]
        exact hsweep a.queue
      · simp only [Op.run, createTask, hfault]
        exact offerSwept_acquires a
  | takeTask queue leaseToken lockTimeout =>
    by_cases hvalid : isPositiveSafeInteger lockTimeout = true
    · refine Op.accounted_of_account ?_
      simp only [Op.draws, Op.run, takeTask, hvalid, if_true, Bool.true_eq_false, if_false]
      exact (hsweep queue).aside (takeSwept_aside leaseToken _)
    · rw [Bool.not_eq_true] at hvalid
      refine hnone (by simp [Op.draws, hvalid]) ?_
      simp only [Op.run, takeTask, hvalid, if_true]
      exact .refl w
  | writeSuccess queue leaseToken id result =>
    exact Op.accounted_of_account
      ((hsweep queue).trans (acknowledge_account (completeTask_account result (hsweep queue).nonneg)))
  | writeError queue leaseToken id error retryAt =>
    by_cases hvalid : isRetryTime retryAt = true
    · refine Op.accounted_of_account ?_
      have hrun : (Op.run env w (.writeError queue leaseToken id error retryAt)).2 =
          (acknowledge env queue leaseToken id (failTask env queue id error (retryAt.getD (-1)) .handler)
            (syncAll env queue w)).2 := by
        rw [isRetryTime] at hvalid
        simp only [Op.run, writeError, hvalid, Bool.true_eq_false, if_false]
      rw [hrun, Op.draws, if_pos hvalid]
      exact (hsweep queue).trans (acknowledge_account (failTask_account _ _ _ (hsweep queue).nonneg))
    · refine hnone (by simp [Op.draws, hvalid]) ?_
      rw [isRetryTime, Bool.not_eq_true] at hvalid
      simp only [Op.run, writeError, hvalid, if_true]
      exact .refl w
  | extendLock queue leaseToken id lockTimeout =>
    refine hnone rfl ?_
    simp only [Op.run, extendLock]
    split
    · exact .refl w
    · split
      · exact .refl w
      · exact ((Aside.refl w).modify rfl rfl).moveToList _ _ false none
  | removeLock queue leaseToken id =>
    refine hnone rfl ?_
    simp only [Op.run, removeLock]
    split
    · exact .refl w
    · exact ((Aside.refl w).modify rfl rfl).moveToList _ _ false none
  | appendProgress queue id generation schemaId token data =>
    refine hnone rfl ?_
    simp only [Op.run, appendProgress]
    split
    · exact .refl w
    · split
      · exact (Aside.refl w).assertHistory queue id
      · exact ((Aside.refl w).assertHistory queue id).appendHistory _ none
  | readHistory queue id generation schemaId sequence position count =>
    refine hnone rfl ?_
    simp only [Op.run, readHistory]
    split
    · exact .refl w
    · split
      · exact (Aside.refl w).assertHistory queue id
      · split <;> exact (Aside.refl w).assertHistory queue id
  | removeTask queue id =>
    refine Op.accounted_of_account ?_
    simp only [Op.draws, Op.run, removeTask]
    have hidle := (hsweep queue).trans ((Aside.refl (syncAll env queue w)).account (hsweep queue).nonneg)
    split
    · exact hidle
    · split
      · exact hidle
      · split
        · exact hidle
        · exact (hsweep queue).trans
            ((releaseOwnedHolds_account _ (hsweep queue).nonneg).aside ((Aside.refl _).deleteTask queue id false))
  | forceRemoveTask queue id =>
    refine Op.accounted_of_account ?_
    simp only [Op.draws, Op.run, forceRemoveTask]
    split
    · exact (hsweep queue).trans ((Aside.refl (syncAll env queue w)).account (hsweep queue).nonneg)
    · have hunlock : Aside (syncAll env queue w) ((syncAll env queue w).modify (unlockTask queue id)) :=
        (Aside.refl _).modify rfl rfl
      have hrelease := (hunlock.account (hsweep queue).nonneg).trans (@releaseOwnedHolds_account env _
        ((syncAll env queue w).store.identity queue id) (hsweep queue).nonneg)
      exact (hsweep queue).trans (hrelease.aside ((Aside.eraseGeneration _ _).deleteTask queue id false))
  | maintain queue => exact Op.accounted_of_account (hsweep queue)
  | listTasks queue list offset limit =>
    refine Op.accounted_of_account ?_
    cases list <;> exact hsweep queue
  | getTask | getGeneration | getResult | eventCursors => exact hnone rfl (.refl w)
  | setSchedule queue name next => exact hnone rfl ⟨rfl, rfl, rfl⟩
  | consumeSchedule queue name current next =>
    refine hnone rfl ?_
    simp only [Op.run, consumeSchedule]
    split
    · exact .refl w
    · split
      · exact .refl w
      · split
        · exact ⟨rfl, rfl, rfl⟩
        · exact .refl w

end

end EffectMQ
