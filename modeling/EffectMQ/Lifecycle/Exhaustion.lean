import EffectMQ.Lifecycle.Pages
import EffectMQ.Lifecycle.Scenario

/-!
# Exhausted histories

A history takes entries until its sequence is the largest safe integer. The runs below fill one: from then on whatever
appends to it aborts, with the store of the moment of its check.
-/

namespace EffectMQ

open Redis Transition

/-! ### An aborted script -/

section

variable {env : Env} {queue id message : String} {w : World} {e : Raised}

/-- The first error is the one that counts. -/
theorem World.raised_raise (h : w.raised = some e) : (w.raise message).raised = some e := by
  rw [World.raise, h]
  rfl

theorem raised_assertHistory (h : w.raised = some e) : (assertHistory queue id w).raised = some e := by
  unfold assertHistory
  split
  · exact World.raised_raise h
  · exact h

theorem raised_publishEvent (h : w.raised = some e) (body : EventBody) (kind : Option FailureKind) (attempt : Option ℕ) :
    (publishEvent env queue id body kind attempt w).raised = some e := by
  have hhistory : (appendHistory env queue id (lifecycleData body kind) attempt w).raised = some e := by
    unfold appendHistory
    split
    · exact h
    · split
      · exact raised_assertHistory h
      · exact h
  exact hhistory

/-- A move aborts at its check or not at all. -/
theorem raised_moveToList (h : (assertHistory queue id w).raised = some e) (list : Option TaskList) (readyAt : ℚ)
    (known : Bool) (attempt : Option ℕ) : (moveToList env queue id list readyAt known attempt w).raised = some e := by
  unfold moveToList
  dsimp only
  split
  · exact h
  · refine raised_publishEvent ?_ _ _ _
    exact h

/-- A check that fails is the first error of a script that has not aborted. -/
theorem assertHistory_of_fault (h : historyFault w.store queue id = some message) (hlive : w.raised = none) :
    (assertHistory queue id w).raised = some ⟨message, w.store⟩ := by
  unfold assertHistory
  rw [h]
  dsimp only [World.raise]
  rw [hlive]
  rfl

/-- A stall that is retried at once aborts at its first check, before it changes anything. -/
theorem failTask_of_fault (h : historyFault w.store queue id = some message) (hlive : w.raised = none)
    (error : LuaValue) (hplain : error.errorTag ≠ some canceledTag) :
    (failTask env queue id error 0 .stall w).raised = some ⟨message, w.store⟩ := by
  have hrecorded : (recordFailure env queue id error (retryTime 0) .stall w).raised = some ⟨message, w.store⟩ := by
    unfold recordFailure
    refine raised_publishEvent ?_ _ _ _
    exact assertHistory_of_fault h hlive
  have hretry : willRetry error (retryTime 0) = true := by simp [willRetry, hplain, retryTime]
  unfold failTask
  dsimp only
  rw [if_pos hretry]
  split
  · exact raised_moveToList (raised_assertHistory hrecorded) _ _ _ _
  · exact raised_moveToList (raised_assertHistory hrecorded) _ _ _ _

end

/-! ### A history that fills up -/

theorem exec_appendProgress {env : Env} {s : Store} {x : TaskIdentity} {r : TaskRecord} {token : String}
    (hr : s.current x = some r) (hversion : r.protocolVersion = 1) (henabled : r.history.enabled = true)
    (howns : ownsProgress env s x.queue x.id token = true) (data : String) :
    exec env (.appendProgress x.queue x.id x.generation r.schemaId token data) s =
      match historyFault s x.queue x.id with
      | some message => .raised message s
      | none => .replied (.appended (lastId ((pushHistory env x.queue x.id r (.progress data) none s).history x)))
        (pushHistory env x.queue x.id r (.progress data) none s) := by
  obtain ⟨hrecord, hgeneration⟩ := current_eq_some_iff.mp hr
  have hidentity : historyIdentity s x.queue x.id x.generation r.schemaId = none := by
    simp [historyIdentity, hrecord, hgeneration, hversion, henabled]
  simp only [exec, Op.run, appendProgress, hidentity, assertHistory_store, howns, Bool.true_eq_false, ↓reduceIte,
    appendHistory, hrecord, henabled]
  cases hfault : historyFault s x.queue x.id with
  | none => simp [assertHistory, hfault, World.modify]
  | some message => simp [assertHistory, hfault, World.raise, World.modify]

/-- A queue that has nothing but an active lease, until clock 102, and whose next sweep ends with the leases. -/
def OnlyLeased (s : Store) : Prop :=
  s.lock ("queue", "a") = some ⟨"token", 102⟩ ∧ (s.lists "queue").active.entries = [("a", 102)] ∧
    (s.lists "queue").scheduled.entries = [] ∧ (s.continuations "queue").entries = [] ∧
    (s.expiry "queue").tasks.entries = [] ∧ (s.expiry "queue").results.entries = [] ∧
    (s.expiry "queue").terminal.entries = [] ∧ (s.expiry "queue").deadLetterExpiry.entries = [] ∧
    s.maintenanceCursor "queue" = 2

instance (s : Store) : Decidable (OnlyLeased s) := by
  unfold OnlyLeased
  infer_instance

/-- A leased task with an unlimited history of some length. -/
structure Filling (n : ℕ) (s : Store) (r : TaskRecord) : Prop where
  current : s.current ⟨"queue", "a", 1⟩ = some r
  schemaId : r.schemaId = "queue"
  version : r.protocolVersion = 1
  enabled : r.history.enabled = true
  unlimited : r.history.maxEntries = 0
  sequence : r.history.sequence = n
  owns : ownsProgress (.at 2) s "queue" "a" "token" = true
  stalls : r.stalledAttemptCount = 0 ∧ r.maxStalledCount = 1
  leased : OnlyLeased s

theorem Filling.step {n : ℕ} {s : Store} {r : TaskRecord} (h : Filling n s r) (hsound : s.HistorySound)
    (hroom : n < maxSafeInteger) :
    ∃ entry s' r', exec (.at 2) (.appendProgress "queue" "a" 1 "queue" "token" "") s = .replied (.appended entry) s' ∧
      Filling (n + 1) s' r' := by
  have hfault := historyFault_eq_none hsound h.current (h.sequence.trans_lt hroom)
  have hexec := exec_appendProgress h.current h.version h.enabled h.owns ""
  rw [h.schemaId, hfault] at hexec
  obtain ⟨hrecord, hgeneration⟩ := current_eq_some_iff.mp h.current
  generalize hs' : pushHistory (.at 2) "queue" "a" r (.progress "") none s = s' at hexec
  have htask : s'.task ("queue", "a") =
      some { r with history := { r.history with sequence := r.history.sequence + 1 } } := by
    rw [← hs', pushHistory]
    dsimp only
    rw [if_neg (by rw [h.unlimited]; exact fun hlimit => lt_irrefl 0 hlimit.1)]
    dsimp only [Store.modifyTask]
    rw [Function.update_self, show s.task ("queue", "a") = some r from hrecord, Option.map_some]
  have hbeside : s'.lock = s.lock ∧ s'.lists = s.lists ∧ s'.expiry = s.expiry ∧ s'.continuations = s.continuations ∧
      s'.maintenanceCursor = s.maintenanceCursor := by
    rw [← hs', pushHistory]
    simp only [h.unlimited, lt_irrefl, false_and, ↓reduceIte, Store.modifyTask, and_self]
  obtain ⟨hlock, hlists, hexpiry, hcontinuations, hcursor⟩ := hbeside
  refine ⟨_, s', _, hexec, current_eq_some_iff.mpr ⟨htask, hgeneration⟩, h.schemaId, h.version, h.enabled,
    h.unlimited, congrArg (· + 1) h.sequence, ?_, h.stalls, ?_⟩
  · have howns := h.owns
    unfold ownsProgress isLockedBy getLockId at howns ⊢
    rw [hrecord] at howns
    rw [hlock, hlists, htask]
    exact howns
  · have hleased := h.leased
    unfold OnlyLeased at hleased ⊢
    rwa [hlock, hlists, hexpiry, hcontinuations, hcursor]

/-- The operations that fill a history: an offer, a lease, and one progress entry after another. -/
def filling (n : ℕ) : List Op :=
  [.createTask { CreateArgs.default "queue" "a" with historyEnabled := true },
    .takeTask "queue" "token" (some 100)] ++
    List.replicate n (.appendProgress "queue" "a" 1 "queue" "token" "")

/-- The first two operations, played. -/
def fillingStarts (calls : List Call) (e : Engine) : Bool :=
  calls.map Call.op = filling 0 ∧ e.clock = 2 ∧ ownsProgress (.at 2) e.store "queue" "a" "token" = true ∧
    OnlyLeased e.store ∧ (e.store.current ⟨"queue", "a", 1⟩).any fun r => r.schemaId = "queue" ∧ r.protocolVersion = 1 ∧
      r.history.enabled = true ∧ r.history.maxEntries = 0 ∧ r.history.sequence = 3 ∧ r.stalledAttemptCount = 0 ∧
      r.maxStalledCount = 1

theorem filling_run (n : ℕ) (hn : 3 + n ≤ maxSafeInteger) :
    ∃ calls e r, engine.Run calls e ∧ calls.map Call.op = filling n ∧ e.clock = 2 ∧ Filling (3 + n) e.store r := by
  induction n with
  | zero =>
    obtain ⟨calls, e, hrun, hstarts⟩ := @play_run [(.at 1, .createTask { CreateArgs.default "queue" "a" with
      historyEnabled := true }), (.at 2, .takeTask "queue" "token" (some 100))] fillingStarts (by decide +kernel)
    obtain ⟨hops, hclock, howns, hleased, hany⟩ := of_decide_eq_true hstarts
    obtain ⟨r, hr, hfields⟩ := (Option.any_eq_true _ _).mp hany
    obtain ⟨hschemaId, hversion, henabled, hunlimited, hsequence, hstalls⟩ := of_decide_eq_true hfields
    exact ⟨calls, e, r, hrun, hops, hclock, hr, hschemaId, hversion, henabled, hunlimited, hsequence, howns, hstalls,
      hleased⟩
  | succ n ih =>
    obtain ⟨calls, e, r, hrun, hops, hclock, hfilling⟩ := ih (by omega)
    obtain ⟨entry, s', r', hexec, hnext⟩ := hfilling.step (run_historySound hrun) (by omega)
    refine ⟨calls ++ [⟨.at 2, _, .appended entry⟩], ⟨2, s'⟩, r', hrun.snoc ⟨hclock.le, rfl, hexec⟩, ?_, rfl, hnext⟩
    rw [List.map_append, hops, filling, filling, List.replicate_succ', ← List.append_assoc]
    rfl

/-- A run after which the history has used up the safe integers. -/
theorem filled_run : ∃ calls e r, engine.Run calls e ∧ calls.map Call.op = filling (maxSafeInteger - 3) ∧ e.clock = 2 ∧
    Filling maxSafeInteger e.store r ∧ historyFault e.store "queue" "a" = some "CORRUPT_HISTORY invalid sequence" := by
  obtain ⟨calls, e, r, hrun, hops, hclock, hfilling⟩ := filling_run (maxSafeInteger - 3) (by decide)
  rw [show 3 + (maxSafeInteger - 3) = maxSafeInteger by decide] at hfilling
  exact ⟨calls, e, r, hrun, hops, hclock, hfilling,
    historyFault_of_full hfilling.current hfilling.enabled hfilling.sequence.ge⟩

end EffectMQ
