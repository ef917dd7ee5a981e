import EffectMQ.Lifecycle.Operations

/-!
# One invocation

An invocation that replies runs the sweep of its operation, if the operation has one and its arguments pass the
first checks, and then has one of the effects below on the store that the sweep left.
-/

namespace EffectMQ

open Redis

/-- The world an invocation starts in. -/
def World.begin (env : Env) (s : Store) : World := ⟨s, env.maintenanceBatchSize, none⟩

/-- The store that a maintenance sweep of a queue leaves. -/
def sweep (env : Env) (queue : String) (s : Store) : Store := (syncAll env queue (World.begin env s)).store

/-- A retry time that `writeError` accepts. -/
def isRetryTime (retryAt : Option ℚ) : Bool := retryAt.any fun t : ℚ => -1 ≤ t ∧ t ≤ (maxSafeInteger : ℚ)

namespace Op

/-- The arguments pass the checks of the script. -/
def Admitted : Op → Prop
  | .createTask a => createFault a = none
  | .takeTask _ _ lockTimeout => isPositiveSafeInteger lockTimeout = true
  | .writeError _ _ _ _ retryAt => isRetryTime retryAt = true
  | .extendLock _ _ _ lockTimeout => isPositiveSafeInteger lockTimeout = true
  | _ => True

/-- The store that the operation's own sweep leaves. -/
def swept (env : Env) (s : Store) : Op → Store
  | .createTask a => if createFault a = none then sweep env a.queue s else s
  | .takeTask queue _ lockTimeout => if isPositiveSafeInteger lockTimeout = true then sweep env queue s else s
  | .writeSuccess queue _ _ _ => sweep env queue s
  | .writeError queue _ _ _ retryAt => if isRetryTime retryAt = true then sweep env queue s else s
  | .removeTask queue _ => sweep env queue s
  | .forceRemoveTask queue _ => sweep env queue s
  | .maintain queue => sweep env queue s
  | .listTasks queue _ _ _ => sweep env queue s
  | _ => s

/-- The task and the token of a call that the lease is enough for. -/
def lease : Op → Option (TaskKey × String)
  | .writeSuccess queue leaseToken id _ => some ((queue, id), leaseToken)
  | .writeError queue leaseToken id _ _ => some ((queue, id), leaseToken)
  | .extendLock queue leaseToken id _ => some ((queue, id), leaseToken)
  | .removeLock queue leaseToken id => some ((queue, id), leaseToken)
  | _ => none

/-- The task and the token of a call that needs the lease. -/
def fence : Op → Option (TaskKey × String)
  | .appendProgress queue id _ _ leaseToken _ => some ((queue, id), leaseToken)
  | op => op.lease

end Op

/-- The replies that stand for a failure. -/
def Reply.IsFault : Reply → Prop
  | .error _ | .unavailable | .schema _ | .version _ | .disabled | .invalid | .expired _ _ => True
  | _ => False

/-- An operation that changes nothing: it does not create, it found nothing to lease or nothing to remove. -/
structure Op.IsQuiet (m : Store) (op : Op) (reply : Reply) : Prop where
  created : ∀ a, op ≠ .createTask a
  leased : ∀ queue leaseToken lockTimeout, op = .takeTask queue leaseToken lockTimeout → reply = .nil
  removed : ∀ queue id, op = .forceRemoveTask queue id → m.task (queue, id) = none

/-- What an operation makes of the store that its sweep left, with its reply. -/
inductive Effect (env : Env) (m : Store) : Op → Reply → Store → Prop
  | refused (op : Op) (reply : Reply) (hfault : reply.IsFault)
      (hlease : ∀ k leaseToken, op.lease = some (k, leaseToken) → op.Admitted →
        (m.view k).leaseholder env ≠ some leaseToken) : Effect env m op reply m
  | answered (op : Op) (reply : Reply) (hfence : op.fence = none) (hquiet : op.IsQuiet m reply) :
      Effect env m op reply m
  | offered {a : CreateArgs} {reply : Reply} {s : Store} (hvalid : createFault a = none)
      (h : Offered env a m reply s) : Effect env m (.createTask a) reply s
  | leased {queue leaseToken id : String} {lockTimeout : ℚ} {task : Option TaskRecord} {s : Store}
      (hhead : (m.lists queue).wait.head? = some id) (htask : task = s.task (queue, id))
      (hstep : EngineStep env none m (.task (queue, id) (.lease leaseToken lockTimeout)) none s) :
      Effect env m (.takeTask queue leaseToken (some lockTimeout)) (.leased leaseToken id task) s
  | succeeded {queue leaseToken id result : String} {s : Store}
      (howner : (m.view (queue, id)).leaseholder env = some leaseToken)
      {held : Bool} (hends : Ends env (queue, id) (.succeed leaseToken result held) m s) :
      Effect env m (.writeSuccess queue leaseToken id result) .nil s
  | failed {queue leaseToken id : String} {error : LuaValue} {retryAt : ℚ} {s : Store}
      (howner : (m.view (queue, id)).leaseholder env = some leaseToken)
      {a : TaskAction} (ha : a.IsFailure (.reported leaseToken) error retryAt) (hends : Ends env (queue, id) a m s) :
      Effect env m (.writeError queue leaseToken id error (some retryAt)) .nil s
  | renewed {queue leaseToken id : String} {lockTimeout : ℚ} {s : Store}
      (hstep : EngineStep env none m (.task (queue, id) (.renew leaseToken lockTimeout)) none s) :
      Effect env m (.extendLock queue leaseToken id (some lockTimeout)) .nil s
  | released {queue leaseToken id : String} {s : Store}
      (hstep : EngineStep env none m (.task (queue, id) (.release leaseToken)) none s) :
      Effect env m (.removeLock queue leaseToken id) .nil s
  | progressed {queue id schemaId leaseToken data : String} {generation : ℕ} {entry : StreamId} {s : Store}
      (hgeneration : ∀ r, m.task (queue, id) = some r → r.generation = generation)
      (hstep : EngineStep env none m (.task (queue, id) (.progress leaseToken data)) none s) :
      Effect env m (.appendProgress queue id generation schemaId leaseToken data) (.appended entry) s
  | removed {queue id : String} {s : Store} (hidle : (m.view (queue, id)).leaseholder env = none)
      (hheld : m.hasRetentionHolds (m.identity queue id) = false)
      (hpath : EnginePath env (EngineAction.IsRemoval (queue, id)) none m none s) :
      Effect env m (.removeTask queue id) .nil s
  | forced {queue id : String} {t s : Store} (hrevoke : EngineStep env none m (.task (queue, id) .revoke) none t)
      (hpath : EnginePath env (EngineAction.IsForcedRemoval (m.identity queue id)) none t none s) :
      Effect env m (.forceRemoveTask queue id) .nil s
  | scheduled (op : Op) (reply : Reply) (hop : (∃ queue name next, op = .setSchedule queue name next) ∨
        ∃ queue name current next, op = .consumeSchedule queue name current next) (hreply : ¬ reply.IsFault) {s : Store}
      (hstep : EngineStep env none m .tick none s) : Effect env m op reply s

variable {env : Env} {s : Store}

theorem sweep_path (hs : Sane env.now s) (queue : String) :
    EnginePath env EngineAction.IsSweep none s none (sweep env queue s) :=
  @syncAll_path env queue (World.begin env s) hs

theorem swept_path (hs : Sane env.now s) (op : Op) :
    EnginePath env EngineAction.IsSweep none s none (op.swept env s) := by
  cases op with
  | createTask | takeTask | writeError =>
    unfold Op.swept
    dsimp only
    split
    · exact sweep_path hs _
    · exact .refl
  | writeSuccess | removeTask | forceRemoveTask | maintain | listTasks => exact sweep_path hs _
  | extendLock | removeLock | appendProgress | readHistory | getTask | getGeneration | getResult | eventCursors
  | setSchedule | consumeSchedule => exact .refl

theorem exec_eq (env : Env) (op : Op) (s : Store) :
    exec env op s = (op.run env (World.begin env s)).2.raised.elim
      (.replied (op.run env (World.begin env s)).1 (op.run env (World.begin env s)).2.store)
      fun e => .raised e.message e.store := by
  unfold exec World.begin
  dsimp only
  cases (op.run env ⟨s, env.maintenanceBatchSize, none⟩).2.raised <;> rfl

theorem exec_replied {op : Op} {reply : Reply} {s' : Store} (h : exec env op s = .replied reply s') :
    (op.run env (World.begin env s)).1 = reply ∧ (op.run env (World.begin env s)).2.store = s' := by
  rw [exec_eq] at h
  cases hraised : (op.run env (World.begin env s)).2.raised with
  | some e =>
    rw [hraised] at h
    cases h
  | none =>
    rw [hraised] at h
    injection h with hreply hstore
    exact ⟨hreply, hstore⟩

theorem isPositiveSafeInteger_pos {value : Option ℚ} (h : isPositiveSafeInteger value = true) :
    ∃ v, value = some v ∧ 0 < v := by
  obtain ⟨v, rfl, hv⟩ := (Option.any_eq_true _ _).mp h
  simp only [decide_eq_true_eq] at hv
  exact ⟨v, rfl, Rat.num_pos.mp (by omega)⟩

theorem historyIdentity_isFault {queue id schemaId : String} {generation : ℕ} {fault : Reply}
    (h : historyIdentity s queue id generation schemaId = some fault) : fault.IsFault := by
  unfold historyIdentity at h
  cases hr : s.task (queue, id) with
  | none =>
    rw [hr] at h
    exact Option.some.inj h ▸ trivial
  | some r =>
    rw [hr] at h
    dsimp only at h
    split at h
    · exact Option.some.inj h ▸ trivial
    · split at h
      · exact Option.some.inj h ▸ trivial
      · split at h
        · exact Option.some.inj h ▸ trivial
        · split at h
          · exact Option.some.inj h ▸ trivial
          · exact absurd h (by simp)

theorem historyIdentity_eq_none {queue id schemaId : String} {generation : ℕ}
    (h : historyIdentity s queue id generation schemaId = none) :
    ∀ r, s.task (queue, id) = some r → r.generation = generation := by
  intro r hr
  unfold historyIdentity at h
  rw [hr] at h
  dsimp only at h
  by_contra hne
  rw [if_pos hne] at h
  exact absurd h (by simp)

section Run

variable (hs : Sane env.now s)

include hs

theorem createTask_effect (a : CreateArgs) :
    Effect env ((Op.createTask a).swept env s) (.createTask a) (createTask env a (World.begin env s)).1
      (createTask env a (World.begin env s)).2.store := by
  unfold createTask
  cases hfault : createFault a with
  | some message =>
    simp only [Op.swept, hfault, reduceCtorEq, ↓reduceIte]
    refine .refused _ _ trivial fun k leaseToken h => absurd h (by simp [Op.lease])
  | none =>
    simp only [Op.swept, hfault, ↓reduceIte]
    exact .offered hfault (@offerSwept_spec env a (syncAll env a.queue (World.begin env s))
      ((sweep_path hs a.queue).sane hs))

theorem takeTask_effect (queue leaseToken : String) (lockTimeout : Option ℚ) :
    Effect env ((Op.takeTask queue leaseToken lockTimeout).swept env s) (.takeTask queue leaseToken lockTimeout)
      (takeTask env queue leaseToken lockTimeout (World.begin env s)).1
      (takeTask env queue leaseToken lockTimeout (World.begin env s)).2.store := by
  unfold takeTask Op.swept
  by_cases hvalid : isPositiveSafeInteger lockTimeout = true
  · obtain ⟨ttl, rfl, hpos⟩ := isPositiveSafeInteger_pos hvalid
    simp only [hvalid, Bool.true_eq_false, ↓reduceIte, Option.getD_some]
    have hsane : Sane env.now (syncAll env queue (World.begin env s)).store := (sweep_path hs queue).sane hs
    rcases takeSwept_spec hsane leaseToken hpos with ⟨_, heq⟩ | ⟨id, task, hhead, hreply, htask, hstep⟩
    · rw [heq]
      exact .answered _ _ rfl ⟨by simp, by simp, by simp⟩
    · rw [hreply]
      exact .leased hhead htask hstep
  · rw [Bool.not_eq_true] at hvalid
    simp only [hvalid, Bool.false_eq_true, ↓reduceIte]
    exact .refused _ _ trivial fun k leaseToken h => absurd h (by simp [Op.lease])

theorem writeSuccess_effect (queue leaseToken id result : String) :
    Effect env ((Op.writeSuccess queue leaseToken id result).swept env s) (.writeSuccess queue leaseToken id result)
      (writeSuccess env queue leaseToken id result (World.begin env s)).1
      (writeSuccess env queue leaseToken id result (World.begin env s)).2.store := by
  have hsane : Sane env.now (syncAll env queue (World.begin env s)).store := (sweep_path hs queue).sane hs
  unfold writeSuccess Op.swept
  rcases @acknowledge_spec env queue id _ hsane leaseToken (completeTask env queue id result) with
    ⟨howner, heq⟩ | ⟨howner, message, heq⟩
  · rw [heq]
    exact .succeeded howner (completeTask_ends hsane howner result).choose_spec
  · rw [heq]
    refine .refused _ _ trivial fun k leaseToken' h _ => ?_
    obtain ⟨rfl, rfl⟩ := Prod.mk.inj (Option.some.inj h)
    exact howner

theorem writeError_effect (queue leaseToken id : String) (error : LuaValue) (retryAt : Option ℚ) :
    Effect env ((Op.writeError queue leaseToken id error retryAt).swept env s)
      (.writeError queue leaseToken id error retryAt)
      (writeError env queue leaseToken id error retryAt (World.begin env s)).1
      (writeError env queue leaseToken id error retryAt (World.begin env s)).2.store := by
  unfold writeError Op.swept
  change Effect env _ _ (if isRetryTime retryAt = false then _ else _ : Reply × World).1
    (if isRetryTime retryAt = false then _ else _ : Reply × World).2.store
  by_cases hvalid : isRetryTime retryAt = true
  · obtain ⟨t, rfl, _⟩ := (Option.any_eq_true _ _).mp hvalid
    simp only [hvalid, Bool.true_eq_false, ↓reduceIte, Option.getD_some]
    have hsane : Sane env.now (syncAll env queue (World.begin env s)).store := (sweep_path hs queue).sane hs
    rcases @acknowledge_spec env queue id _ hsane leaseToken (failTask env queue id error t .handler) with
      ⟨howner, heq⟩ | ⟨howner, message, heq⟩
    · rw [heq]
      obtain ⟨r, hrunning⟩ := running_of_leaseholder (hsane.views (queue, id)) howner
      obtain ⟨a, ha, hends⟩ := failTask_ends hsane hrunning (.reported leaseToken) howner
      exact .failed howner ha hends
    · rw [heq]
      refine .refused _ _ trivial fun k leaseToken' h _ => ?_
      obtain ⟨rfl, rfl⟩ := Prod.mk.inj (Option.some.inj h)
      exact howner
  · have hinvalid := Bool.eq_false_of_not_eq_true hvalid
    simp only [hinvalid, Bool.false_eq_true, ↓reduceIte]
    exact .refused _ _ trivial fun k leaseToken' _ hadmitted => absurd hadmitted hvalid

theorem extendLock_effect (queue leaseToken id : String) (lockTimeout : Option ℚ) :
    Effect env s (.extendLock queue leaseToken id lockTimeout)
      (extendLock env queue leaseToken id lockTimeout (World.begin env s)).1
      (extendLock env queue leaseToken id lockTimeout (World.begin env s)).2.store := by
  unfold extendLock
  by_cases hvalid : isPositiveSafeInteger lockTimeout = true
  · obtain ⟨ttl, rfl, hpos⟩ := isPositiveSafeInteger_pos hvalid
    simp only [hvalid, Bool.true_eq_false, ↓reduceIte, Option.getD_some]
    by_cases howner : (s.view (queue, id)).leaseholder env = some leaseToken
    · have hlocked : isLockedBy env (World.begin env s).store queue id leaseToken = true := decide_eq_true howner
      simp only [hlocked, Bool.true_eq_false, ↓reduceIte]
      exact .renewed (@renewLease_step env queue id (World.begin env s) hs leaseToken ttl howner hpos)
    · have hlocked : isLockedBy env (World.begin env s).store queue id leaseToken = false := decide_eq_false howner
      simp only [hlocked, ↓reduceIte]
      refine .refused _ _ trivial fun k leaseToken' h _ => ?_
      obtain ⟨rfl, rfl⟩ := Prod.mk.inj (Option.some.inj h)
      exact howner
  · have hinvalid := Bool.eq_false_of_not_eq_true hvalid
    simp only [hinvalid, ↓reduceIte]
    exact .refused _ _ trivial fun k leaseToken' _ hadmitted => absurd hadmitted hvalid

theorem removeLock_effect (queue leaseToken id : String) :
    Effect env s (.removeLock queue leaseToken id) (removeLock env queue leaseToken id (World.begin env s)).1
      (removeLock env queue leaseToken id (World.begin env s)).2.store := by
  unfold removeLock
  by_cases howner : (s.view (queue, id)).leaseholder env = some leaseToken
  · have hlocked : isLockedBy env (World.begin env s).store queue id leaseToken = true := decide_eq_true howner
    simp only [hlocked, Bool.true_eq_false, ↓reduceIte]
    exact .released (@release_step env queue id (World.begin env s) hs leaseToken howner)
  · have hlocked : isLockedBy env (World.begin env s).store queue id leaseToken = false := decide_eq_false howner
    simp only [hlocked, ↓reduceIte]
    refine .refused _ _ trivial fun k leaseToken' h _ => ?_
    obtain ⟨rfl, rfl⟩ := Prod.mk.inj (Option.some.inj h)
    exact howner

theorem appendProgress_effect (queue id : String) (generation : ℕ) (schemaId leaseToken data : String) :
    Effect env s (.appendProgress queue id generation schemaId leaseToken data)
      (appendProgress env queue id generation schemaId leaseToken data (World.begin env s)).1
      (appendProgress env queue id generation schemaId leaseToken data (World.begin env s)).2.store := by
  unfold appendProgress
  cases hidentity : historyIdentity (World.begin env s).store queue id generation schemaId with
  | some fault =>
    exact .refused _ _ (historyIdentity_isFault hidentity) fun k leaseToken' h => absurd h (by simp [Op.lease])
  | none =>
    simp only [assertHistory_store]
    by_cases howns : ownsProgress env (World.begin env s).store queue id leaseToken = true
    · simp only [howns, Bool.true_eq_false, ↓reduceIte]
      have howner : (s.view (queue, id)).leaseholder env = some leaseToken := by
        unfold ownsProgress at howns
        exact of_decide_eq_true (of_decide_eq_true howns).1
      exact .progressed (historyIdentity_eq_none hidentity)
        (@progress_step env queue id (World.begin env s) hs leaseToken howner data)
    · have hnot := Bool.eq_false_of_not_eq_true howns
      simp only [hnot, ↓reduceIte, assertHistory_store]
      exact .refused _ _ trivial fun k leaseToken' h => absurd h (by simp [Op.lease])

omit hs in
theorem readHistory_effect (queue id : String) (generation : ℕ) (schemaId : String) (sequence : Option ℕ)
    (position : Option StreamId) (count : Option ℚ) :
    Effect env s (.readHistory queue id generation schemaId sequence position count)
      (readHistory queue id generation schemaId sequence position count (World.begin env s)).1
      (readHistory queue id generation schemaId sequence position count (World.begin env s)).2.store := by
  have hstore : (readHistory queue id generation schemaId sequence position count (World.begin env s)).2.store = s := by
    unfold readHistory
    split
    · rfl
    · dsimp only
      split
      · exact assertHistory_store _ _ _
      · split <;> exact assertHistory_store _ _ _
  rw [hstore]
  exact .answered _ _ rfl ⟨by simp, by simp, by simp⟩

theorem removeTask_effect (queue id : String) :
    Effect env ((Op.removeTask queue id).swept env s) (.removeTask queue id)
      (removeTask env queue id (World.begin env s)).1 (removeTask env queue id (World.begin env s)).2.store := by
  have hsane : Sane env.now (syncAll env queue (World.begin env s)).store := (sweep_path hs queue).sane hs
  unfold removeTask Op.swept sweep
  dsimp only
  split
  · exact .answered _ _ rfl ⟨by simp, by simp, by simp⟩
  · next hidle =>
    split
    · exact .answered _ _ rfl ⟨by simp, by simp, by simp⟩
    · next hr =>
      split
      · exact .answered _ _ rfl ⟨by simp, by simp, by simp⟩
      · next hheld =>
        obtain ⟨r, hr⟩ := Option.ne_none_iff_exists'.mp hr
        have hleaseholder := Option.not_isSome_iff_eq_none.mp hidle
        exact .removed hleaseholder (Bool.eq_false_of_not_eq_true hheld)
          (removal_path hsane hleaseholder hr (Bool.eq_false_of_not_eq_true hheld))

theorem forceRemoveTask_effect (queue id : String) :
    Effect env ((Op.forceRemoveTask queue id).swept env s) (.forceRemoveTask queue id)
      (forceRemoveTask env queue id (World.begin env s)).1
      (forceRemoveTask env queue id (World.begin env s)).2.store := by
  have hsane : Sane env.now (syncAll env queue (World.begin env s)).store := (sweep_path hs queue).sane hs
  unfold forceRemoveTask Op.swept sweep
  dsimp only
  split
  · next hr =>
    refine .answered _ _ rfl ⟨by simp, by simp, fun queue' id' h => ?_⟩
    obtain ⟨rfl, rfl⟩ := Op.forceRemoveTask.inj h
    exact hr
  · next hr =>
    obtain ⟨r, hr⟩ := Option.ne_none_iff_exists'.mp hr
    obtain ⟨t, hrevoke, hpath⟩ := forcedRemoval_path hsane hr
    exact .forced hrevoke hpath

/-- An invocation is its sweep followed by one of the effects. -/
theorem run_effect (op : Op) :
    Effect env (op.swept env s) op (op.run env (World.begin env s)).1 (op.run env (World.begin env s)).2.store := by
  cases op with
  | createTask a => exact createTask_effect hs a
  | takeTask queue leaseToken lockTimeout => exact takeTask_effect hs queue leaseToken lockTimeout
  | writeSuccess queue leaseToken id result => exact writeSuccess_effect hs queue leaseToken id result
  | writeError queue leaseToken id error retryAt => exact writeError_effect hs queue leaseToken id error retryAt
  | extendLock queue leaseToken id lockTimeout => exact extendLock_effect hs queue leaseToken id lockTimeout
  | removeLock queue leaseToken id => exact removeLock_effect hs queue leaseToken id
  | appendProgress queue id generation schemaId leaseToken data =>
    exact appendProgress_effect hs queue id generation schemaId leaseToken data
  | readHistory queue id generation schemaId sequence position count =>
    exact readHistory_effect queue id generation schemaId sequence position count
  | removeTask queue id => exact removeTask_effect hs queue id
  | forceRemoveTask queue id => exact forceRemoveTask_effect hs queue id
  | listTasks queue list offset limit =>
    cases list <;> exact .answered _ _ rfl ⟨by simp, by simp, by simp⟩
  | maintain | getTask | getGeneration | getResult | eventCursors => exact .answered _ _ rfl ⟨by simp, by simp, by simp⟩
  | setSchedule queue name next =>
    exact .scheduled _ _ (Or.inl ⟨queue, name, next, rfl⟩) id (.tick s.maintenanceCursor _)
  | consumeSchedule queue name current next =>
    have hop : (∃ queue' name' next', Op.consumeSchedule queue name current next = .setSchedule queue' name' next') ∨
        ∃ queue' name' current' next', Op.consumeSchedule queue name current next =
          .consumeSchedule queue' name' current' next' := Or.inr ⟨queue, name, current, next, rfl⟩
    simp only [Op.run, consumeSchedule]
    split
    · exact .scheduled _ _ hop id (.tick s.maintenanceCursor s.schedule)
    · split
      · exact .scheduled _ _ hop id (.tick s.maintenanceCursor s.schedule)
      · split
        · exact .scheduled _ _ hop id (.tick s.maintenanceCursor _)
        · exact .scheduled _ _ hop id (.tick s.maintenanceCursor s.schedule)

end Run

theorem exec_effect (hs : Sane env.now s) {op : Op} {reply : Reply} {s' : Store}
    (h : exec env op s = .replied reply s') : Effect env (op.swept env s) op reply s' := by
  obtain ⟨rfl, rfl⟩ := exec_replied h
  exact run_effect hs op

end EffectMQ
