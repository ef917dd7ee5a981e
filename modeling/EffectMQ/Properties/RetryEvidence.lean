import EffectMQ.Lifecycle.Evidence
import EffectMQ.Properties.Retries

/-!
# What a retry is decided on

The error list of a record is the end of what failed, handlers and stalls mixed. `fail` takes the handler failures
out of it by their tags and counts them against the record: they are all there, or the task is not retried. The
lease makes the snapshot that it looks at current whenever its report is accepted.
-/

namespace EffectMQ

open Redis Transition

/-- The handler failures among failures, as entries of the error list. -/
def handlerFailures (l : List AttemptFailure) : List ErrorEntry :=
  (l.filter fun x => x.kind = .handler).map AttemptFailure.entry

/-- The failures that a bounded list has dropped. -/
def truncated (maxErrorEntries : ℕ) (l : List AttemptFailure) : List AttemptFailure :=
  l.take (l.length - maxErrorEntries)

theorem handlerFailures_append (l l' : List AttemptFailure) :
    handlerFailures (l ++ l') = handlerFailures l ++ handlerFailures l' := by
  simp [handlerFailures]

theorem truncated_append_rtake (n : ℕ) (l : List AttemptFailure) : truncated n l ++ l.rtake n = l := List.take_append_drop _ l

section

variable {E : Type}

/-- Failures keep the tags of the engine through the storage: a reported failure has such a tag exactly if what is read
back has it, and a stall is read back with one. -/
structure TaskQueue.StoresTags (queue : TaskQueue E) : Prop where
  reported : ∀ failure encodedFailure error, queue.encodeFailure failure = some encodedFailure →
    queue.decodeFailure (.string encodedFailure) = some error →
    queue.hasBuiltInErrorTag error = queue.hasBuiltInErrorTag failure
  stalled : ∀ clock error, queue.decodeFailure (stalledError clock) = some error → queue.hasBuiltInErrorTag error = true

/-- A stall, or a failure that `fail` may have retried. -/
structure TaskQueue.Retryable (queue : TaskQueue E) (x : AttemptFailure) : Prop where
  handler : x.kind = .handler → ∃ failure encodedFailure, queue.encodeFailure failure = some encodedFailure ∧
    queue.hasBuiltInErrorTag failure = false ∧ x.entry.error = .string encodedFailure
  stall : x.kind = .stall → ∃ clock, x.entry.error = stalledError clock

namespace TaskQueue

variable {queue : TaskQueue E} {l : List AttemptFailure} {r : TaskRecord} {leaseToken id : String}
  {attempt : TaskAttempt E} {failedAt : ℕ} {failure : E}

/-- The tag tells the handler failures from the stalls. -/
theorem Retryable.tag {x : AttemptFailure} (h : queue.Retryable x) (hstores : queue.StoresTags)
    (hkind : x.kind = .handler ∨ x.kind = .stall) {error : E} (hdecode : queue.decodeFailure x.entry.error = some error) :
    (!queue.hasBuiltInErrorTag error) = decide (x.kind = .handler) := by
  rcases hkind with hhandler | hstall
  · obtain ⟨failure, encodedFailure, hencode, htag, herror⟩ := h.handler hhandler
    rw [herror] at hdecode
    rw [hstores.reported failure encodedFailure error hencode hdecode, htag, hhandler]
    rfl
  · obtain ⟨clock, herror⟩ := h.stall hstall
    rw [herror] at hdecode
    rw [hstores.stalled clock error hdecode, hstall]
    rfl

theorem decodeErrors_handlerFailures {errors : List (ℕ × E)}
    (htag : ∀ x ∈ l, ∀ error, queue.decodeFailure x.entry.error = some error →
      (!queue.hasBuiltInErrorTag error) = decide (x.kind = .handler))
    (h : queue.decodeErrors (l.map AttemptFailure.entry) = some errors) :
    queue.decodeErrors (handlerFailures l) = some (errors.filter fun e => !queue.hasBuiltInErrorTag e.2) := by
  induction l generalizing errors with
  | nil =>
    obtain rfl := Option.some.inj h
    rfl
  | cons x l ih =>
    obtain ⟨error, rest, hdecode, hrest, rfl⟩ := decodeErrors_cons_eq_some h
    have hrest' := ih (fun y hy => htag y (List.mem_cons_of_mem x hy)) hrest
    have htag' := htag x List.mem_cons_self error hdecode
    by_cases hkind : x.kind = .handler
    · have hcons : handlerFailures (x :: l) = x.entry :: handlerFailures l := by simp [handlerFailures, hkind]
      rw [hcons, List.filter_cons_of_pos (by simpa [hkind] using htag')]
      exact decodeErrors_cons hdecode hrest'
    · have hcons : handlerFailures (x :: l) = handlerFailures l := by simp [handlerFailures, hkind]
      rw [hcons, List.filter_cons_of_neg (by simpa [hkind] using htag')]
      exact hrest'

/-- The handler failures that an attempt knows of are those that its error list has kept. -/
theorem handlerErrors_eq (hstores : queue.StoresTags) (h : r.Evidenced queue.Retryable l) (ho : r.outcome = none)
    (hdecode : queue.decodeTask leaseToken id r = some attempt) :
    queue.decodeErrors (handlerFailures (l.rtake r.maxErrorEntries)) = some (queue.handlerErrors attempt) := by
  have herrors := decodeErrors_of_decodeTask hdecode
  have hmap : (l.map AttemptFailure.entry).rtake r.maxErrorEntries =
      (l.rtake r.maxErrorEntries).map AttemptFailure.entry := by
    rw [List.rtake, List.rtake, List.map_drop, List.length_map]
  rw [h.errors, hmap] at herrors
  refine decodeErrors_handlerFailures (fun x hx error herror => ?_) herrors
  have hx : x ∈ l := List.mem_of_mem_drop hx
  exact (h.live ho x hx).tag hstores (h.kinds x hx) herror

/-- The count of a record is the number of the handler failures dropped and kept. -/
theorem handlerFailureCount_eq (h : r.Evidenced queue.Retryable l) :
    r.handlerFailureCount = (handlerFailures (truncated r.maxErrorEntries l)).length +
      (handlerFailures (l.rtake r.maxErrorEntries)).length := by
  have hcount : r.handlerFailureCount = (handlerFailures l).length := by
    rw [h.handlers, handlerFailures, List.length_map, ← List.countP_eq_length_filter, List.count, List.countP_map]
    exact List.countP_congr fun x _ => by simp
  rw [hcount, ← List.length_append, ← handlerFailures_append, truncated_append_rtake]

/-- What `fail` replays is complete. -/
theorem replayed_eq_some (hstores : queue.StoresTags) (h : r.Evidenced queue.Retryable l) (ho : r.outcome = none)
    (hdecode : queue.decodeTask leaseToken id r = some attempt) {errors : List (ℕ × E)}
    (hreplayed : queue.replayed attempt failedAt failure = some errors) :
    ∃ earlier, queue.decodeErrors (handlerFailures l) = some earlier ∧ errors = earlier ++ [(failedAt, failure)] := by
  have hkept := handlerErrors_eq hstores h ho hdecode
  have hlength := length_decodeErrors hkept
  have hcount := handlerFailureCount_eq h
  obtain ⟨_, _, _, hattempt⟩ := decodeTask_eq_some hdecode
  unfold replayed at hreplayed
  split at hreplayed
  · next hcomplete =>
    have hnone : handlerFailures (truncated r.maxErrorEntries l) = [] := by
      have hle := hcomplete.2
      exact List.eq_nil_of_length_eq_zero (by omega)
    have hall : handlerFailures l = handlerFailures (l.rtake r.maxErrorEntries) := by
      rw [← truncated_append_rtake r.maxErrorEntries l, handlerFailures_append, hnone, List.nil_append,
        truncated_append_rtake]
    exact ⟨queue.handlerErrors attempt, by rw [hall, hkept], (Option.some.inj hreplayed).symm⟩
  · exact absurd hreplayed (by simp)

/-- Where a handler failure was dropped, `fail` replays nothing. -/
theorem replayed_eq_none (failedAt : ℕ) (failure : E) (hstores : queue.StoresTags) (h : r.Evidenced queue.Retryable l) (ho : r.outcome = none)
    (hdecode : queue.decodeTask leaseToken id r = some attempt)
    (hdropped : handlerFailures (truncated r.maxErrorEntries l) ≠ []) :
    queue.replayed attempt failedAt failure = none := by
  have hlength := length_decodeErrors (handlerErrors_eq hstores h ho hdecode)
  have hcount := handlerFailureCount_eq h
  obtain ⟨_, _, _, hattempt⟩ := decodeTask_eq_some hdecode
  have hpos := List.length_pos_iff.mpr hdropped
  exact if_neg fun hcomplete => absurd hcomplete.2 (by omega)

end TaskQueue

/-! ### The evidence of a run -/

/-- A failure that does not settle is a retry. -/
theorem TaskAction.failure_eq_some {env : Env} {a : TaskAction} {x : AttemptFailure} (h : a.failure env = some x)
    (hsettles : a.settles = none) : ∃ cause error retryAt, a = .retry cause error retryAt ∧
      x = ⟨⟨error, env.clock, retryTime retryAt⟩, cause.kind⟩ := by
  cases a with
  | retry cause error retryAt => exact ⟨cause, error, retryAt, rfl, (Option.some.inj h).symm⟩
  | fail => exact absurd hsettles (by simp [TaskAction.settles])
  | _ => exact absurd h (by simp [TaskAction.failure])

/-- A stall is always retryable, and a reported failure is if what it reports is. -/
theorem recordsOnly_retryable {env : Env} {k : TaskKey} {queue : TaskQueue E} {P : EngineAction → Prop}
    (hreported : ∀ act leaseToken error retryAt, P act →
      act.on k = some (.retry (.reported leaseToken) error retryAt) → willRetry error (retryTime retryAt) = true →
      ∃ failure encodedFailure, queue.encodeFailure failure = some encodedFailure ∧
        queue.hasBuiltInErrorTag failure = false ∧ error = .string encodedFailure) :
    RecordsOnly env k queue.Retryable P := by
  intro act a v v' x hact hon htask hx hsettles
  obtain ⟨cause, error, retryAt, rfl, rfl⟩ := TaskAction.failure_eq_some hx hsettles
  obtain ⟨_, hauthorized, hretry⟩ := htask.1
  cases cause with
  | reported leaseToken =>
    exact ⟨fun _ => hreported act leaseToken error retryAt hact hon hretry, fun hstall => absurd hstall (by simp [Cause.kind])⟩
  | stalled => exact ⟨fun hhandler => absurd hhandler (by simp [Cause.kind]), fun _ => ⟨env.clock, hauthorized.2.1⟩⟩

variable {calls : List Call} {e e' : Engine} {c : Call} {k : TaskKey} {queue : TaskQueue E}

/-- The evidence of a task whose failures are reported through `fail`. -/
theorem run_retryable (queue : TaskQueue E) (h : engine.Run calls e) (hreports : queue.ReportsAll k calls) :
    (e.store.view k).Evidenced queue.Retryable fun g => failures k g calls := by
  revert hreports
  refine h.induction (P := fun calls e => queue.ReportsAll k calls →
    (e.store.view k).Evidenced queue.Retryable fun g => failures k g calls) ?_ ?_
  · intro e he _
    rw [he]
    exact evidenced_empty _ k
  · intro calls e c e' hrun ih hstep hreports
    have hs : Sane c.env.now e.store := (run_sane hrun).mono (Nat.cast_le.mpr hstep.1)
    obtain ⟨hbefore, hlast⟩ := (TaskQueue.reportsAll_snoc calls).mp hreports
    have hevidenced := ih hbefore
    simp only [failures_snoc hrun]
    by_cases hfails : c.Fails k
    · obtain ⟨_, _, leaseToken, r, attempt, failedAt, failure, fault, _, hdecode, hfail⟩ := hlast hfails
      obtain ⟨encodedFailure, retryAt, _, hencode, hop, hcannot, _⟩ := ends_of_reported hrun hstep hfails hdecode hfail
      refine step_evidenced hs hstep (exec_path hs hstep.2.2) hevidenced (recordsOnly_retryable ?_)
      intro act leaseToken' error retryAt' hact hon hretry
      have hop' := hop.symm.trans (hact.of_reported hon (Or.inl rfl))
      obtain ⟨_, rfl, rfl⟩ : leaseToken = leaseToken' ∧ LuaValue.string encodedFailure = error ∧ retryAt = retryAt' := by
        simpa using hop'
      refine ⟨failure, encodedFailure, hencode, Bool.eq_false_iff.mpr fun htag => ?_, rfl⟩
      rw [hcannot (TaskQueue.canRetry_of_builtIn attempt htag)] at hretry
      simp [willRetry, retryTime] at hretry
    · -- a report that was not accepted leaves what its sweep left
      by_cases hop : ∃ leaseToken error retryAt, c.op = .writeError k.1 leaseToken k.2 error retryAt
      · have hreply : c.reply ≠ .nil := fun hnil => hfails ⟨hnil, hop⟩
        have heffect := exec_effect hs hstep.2.2
        have hpath := swept_path hs c.op
        obtain ⟨leaseToken, error, retryAt, hop⟩ := hop
        generalize c.op.swept c.env e.store = m at heffect hpath
        rw [hop] at heffect
        rw [← heffect.eq_of_not_nil hreply] at hpath
        refine step_evidenced hs hstep hpath hevidenced (recordsOnly_retryable ?_)
        intro act leaseToken' error' retryAt' hact hon _
        exact absurd ⟨leaseToken', error', retryAt', Or.inl rfl⟩ (hact.not_reportsFailure hon)
      · refine step_evidenced hs hstep (exec_path hs hstep.2.2) hevidenced (recordsOnly_retryable ?_)
        intro act leaseToken' error' retryAt' hact hon _
        exact absurd ⟨_, _, _, hact.of_reported hon (Or.inl rfl)⟩ hop

theorem TaskRecord.Evidenced.length_eq {good : AttemptFailure → Prop} {l : List AttemptFailure} {r : TaskRecord}
    (h : r.Evidenced good l) : l.length = r.handlerFailureCount + r.stalledAttemptCount := by
  have hkinds : ∀ l : List AttemptFailure, (∀ x ∈ l, x.kind = .handler ∨ x.kind = .stall) →
      l.length = (l.map AttemptFailure.kind).count .handler + (l.map AttemptFailure.kind).count .stall := by
    intro l hl
    induction l with
    | nil => rfl
    | cons x l ih =>
      have hrest := ih fun y hy => hl y (List.mem_cons_of_mem x hy)
      rcases hl x List.mem_cons_self with hkind | hkind <;> simp [hkind, hrest] <;> omega
  rw [hkinds l h.kinds, h.handlers, h.stalls]

/-- Nothing failed since the attempt was taken whose lease is alive. -/
theorem failures_current (h : engine.Run calls e) (hfresh : FreshTokens calls) {env : Env} (hclock : e.clock ≤ env.clock)
    {leaseToken : String} (howns : Owns k calls leaseToken env.now) {before after : List Call} {d : Call}
    (hcalls : calls = before ++ d :: after) {r : TaskRecord} (htook : d.Took k leaseToken r) :
    failures k r.generation calls = failures k r.generation (before ++ [d]) := by
  have hs : Sane env.now e.store := (run_sane h).mono (Nat.cast_le.mpr hclock)
  have hd : d ∈ calls := by rw [hcalls]; simp
  obtain ⟨r', hrunning', hadvances, hhandlers, hstalls⟩ :=
    snapshot_current h hfresh hclock (.removeTask k.1 k.2) howns hd htook
  have hevidenced' := ((swept_path hs (.removeTask k.1 k.2)).evidenced hs (run_evidenced h k)
    fun _ _ _ _ _ _ _ _ _ _ => trivial).2.record r' hrunning'.record
  have hlength' := hevidenced'.length_eq
  rw [hadvances.sameOffer.generation, List.length_append] at hlength'
  -- what the snapshot counts are the failures before it
  rw [hcalls, ← List.singleton_append, ← List.append_assoc] at h
  obtain ⟨e₁, hrun₁, hpath⟩ := h.split
  obtain ⟨e₀, hrun₀, hpath₀⟩ := hrun₁.split
  obtain ⟨t, ht, hstep⟩ := System.Path.of_snoc (l := []) hpath₀
  rw [System.Path.eq_of_nil ht] at hstep
  have hlength := ((run_evidenced hrun₁ k).record r (htook.running (run_sane hrun₀) hstep).record).length_eq
  have happend := failures_append hrun₁ k r.generation after
  rw [List.append_assoc, List.singleton_append, ← hcalls] at happend
  rw [happend, List.length_append] at hlength'
  have hnone : failuresFrom k r.generation e₁.store after = [] := List.eq_nil_of_length_eq_zero (by omega)
  rw [happend, hnone, List.append_nil]

/-- A generation that is settled as a failure. -/
structure FailedFor (k : TaskKey) (g : ℕ) (s : Store) : Prop where
  outcome : (s.view k).terminalOutcomes g = [.failure]
  record : ∀ r, s.current ⟨k.1, k.2, g⟩ = some r → r.outcome = some .failure

/-- An accepted report without a retry time settles the generation. -/
theorem failedFor_of_reported (h : engine.Run calls e) (hfresh : FreshTokens calls) (hstep : engine.step e c e')
    {leaseToken : String} {d : Call} (hd : d ∈ calls) {r : TaskRecord} (htook : d.Took k leaseToken r)
    (howns : Owns k calls leaseToken c.env.now) {a : TaskAction} {error : LuaValue}
    (ha : a.IsFailure (.reported leaseToken) error (-1)) (hends : Ends c.env k a (c.op.swept c.env e.store) e'.store) :
    FailedFor k r.generation e'.store := by
  have hs : Sane c.env.now e.store := (run_sane h).mono (Nat.cast_le.mpr hstep.1)
  have hsweep := swept_path hs c.op
  obtain ⟨r', hrunning, hadvances, _⟩ := snapshot_current h hfresh hstep.1 c.op howns hd htook
  have hbook : ((c.op.swept c.env e.store).view k).Book r'.generation :=
    hsweep.preserves (I := fun _ s => (s.view k).Book r'.generation) hs (run_book h k r'.generation)
      fun _ _ _ _ _ hs hbook hstep _ => hstep.book hs hbook
  have hsettles : a.settles = some .failure := by
    rcases ha with rfl | ⟨held, rfl⟩
    · obtain ⟨_, haction, _⟩ := hends
      have hretry := haction.view_task.1.1.2.2
      simp [willRetry, retryTime] at hretry
    · rfl
  obtain ⟨houtcome, hrecord⟩ := hends.terminalOutcomes (hsweep.sane hs) hbook hrunning hsettles
  rw [hadvances.sameOffer.generation] at houtcome hrecord
  exact ⟨houtcome, hrecord⟩

end

/-- In every run the error list of a stored generation is the end of its failures and stalls, as long as its bound. If
the failures of an id are reported through `fail`, what `fail` feeds to the retry schedule are the handler failures
before its attempt was taken, then the current one. If its report is accepted, nothing has failed since; and if a
handler failure was dropped from the list, the report of a failure that could be retried settles the task. -/
theorem run_retryEvidence {calls : List Call} {e : Engine} (h : engine.Run calls e) :
    (∀ k r, e.store.task k = some r →
      r.errors <:+ (failures k r.generation calls).map AttemptFailure.entry ∧
      r.errors.length = min (failures k r.generation calls).length r.maxErrorEntries) ∧
    ∀ {E : Type} (queue : TaskQueue E) (k : TaskKey), queue.StoresTags → FreshTokens calls → queue.ReportsAll k calls →
      ∀ before d after leaseToken r attempt failedAt failure, calls = before ++ d :: after → d.Took k leaseToken r →
        queue.decodeTask leaseToken k.2 r = some attempt →
        (∀ errors, queue.replayed attempt failedAt failure = some errors → ∃ earlier,
          queue.decodeErrors (handlerFailures (failures k r.generation (before ++ [d]))) = some earlier ∧
          errors = earlier ++ [(failedAt, failure)]) ∧
        ∀ c e' fault, engine.step e c e' → c.Fails k → queue.fail attempt failedAt failure = .wrote c.op fault →
          failures k r.generation calls = failures k r.generation (before ++ [d]) ∧
          ((queue.canRetry attempt failure).isSome →
            handlerFailures (truncated r.maxErrorEntries (failures k r.generation calls)) ≠ [] →
            fault = some TaskQueue.truncatedHistory ∧ FailedFor k r.generation e'.store) := by
  refine ⟨fun k r hr => ?_, ?_⟩
  · have herrors := ((run_evidenced h k).record r hr).errors
    rw [herrors]
    refine ⟨List.drop_suffix _ _, ?_⟩
    rw [List.rtake, List.length_drop, List.length_map]
    omega
  · intro E queue k hstores hfresh hreports before d after leaseToken r attempt failedAt failure hcalls htook hdecode
    have hd : d ∈ calls := by rw [hcalls]; simp
    -- the evidence at the moment of the snapshot
    have hrun := h
    rw [hcalls, ← List.singleton_append, ← List.append_assoc] at hrun
    obtain ⟨e₁, hrun₁, _⟩ := hrun.split
    obtain ⟨e₀, hrun₀, hpath₀⟩ := hrun₁.split
    obtain ⟨t, ht, hstep₀⟩ := System.Path.of_snoc (l := []) hpath₀
    rw [System.Path.eq_of_nil ht] at hstep₀
    have hrunning := htook.running (run_sane hrun₀) hstep₀
    have hevidenced := (run_retryable queue hrun₁ fun before' c after' heq =>
      hreports before' c (after' ++ after) (by rw [hcalls, ← List.singleton_append, ← List.append_assoc, heq]; simp)).record
        r hrunning.record
    refine ⟨fun errors hreplayed => TaskQueue.replayed_eq_some hstores hevidenced hrunning.outcome hdecode hreplayed, ?_⟩
    intro c e' fault hstep hfails hfail
    obtain ⟨encodedFailure, retryAt, a, hencode, hop, _, howns, ha, hends⟩ := ends_of_reported h hstep hfails hdecode hfail
    have hcurrent := failures_current h hfresh hstep.1 howns hcalls htook
    refine ⟨hcurrent, fun hcan hdropped => ?_⟩
    rw [hcurrent] at hdropped
    have hnone := TaskQueue.replayed_eq_none failedAt failure hstores hevidenced
      hrunning.outcome hdecode hdropped
    obtain ⟨schedule, hschedule⟩ := Option.isSome_iff_exists.mp hcan
    rw [TaskQueue.fail_eq, hencode, hschedule, hnone] at hfail
    have hwrite : queue.writeError attempt encodedFailure none (some TaskQueue.truncatedHistory) = .wrote c.op fault := hfail
    obtain ⟨hterminal, hfault⟩ := TaskQueue.writeError_eq_wrote hwrite
    obtain rfl : retryAt = -1 := by
      rw [hop] at hterminal
      simpa using (Op.writeError.inj hterminal).2.2.2.2
    exact ⟨hfault, failedFor_of_reported h hfresh hstep hd htook howns ha hends⟩

/-- A queue of string failures that retries at once, without end. A stall is read back as its tag. -/
def TaskQueue.tenacious (name : String) : TaskQueue String where
  name := name
  schemaId := name
  maxRetries := ⊤
  retrySchedule := some ⟨Unit, (), fun _ _ _ => .ok ((), .span 0)⟩
  errorTag error := if error = stalledTag then some stalledTag else none
  encodeFailure := some
  decodeFailure error := match error with
    | .string s => some s
    | .table tag _ => tag
    | _ => none

theorem TaskQueue.storesTags_tenacious (name : String) : (TaskQueue.tenacious name).StoresTags where
  reported failure encodedFailure error hencode hdecode := by
    obtain rfl := Option.some.inj hencode
    obtain rfl := Option.some.inj hdecode
    rfl
  stalled clock error hdecode := by
    obtain rfl := Option.some.inj hdecode
    rfl

/-- What a report of the tenacious queue comes to while the history is complete. -/
theorem TaskQueue.fail_tenacious {name : String} {attempt : TaskAttempt String} {failedAt : ℕ} {failure : String}
    (hretries : attempt.maxRetries = -1) (hfailure : failure ≠ stalledTag)
    (hcount : attempt.handlerFailureCount = 0) (herrors : (TaskQueue.tenacious name).handlerErrors attempt = [])
    (hfailedAt : failedAt ≤ maxSafeInteger) :
    (TaskQueue.tenacious name).replayed attempt failedAt failure = some [(failedAt, failure)] ∧
      (TaskQueue.tenacious name).fail attempt failedAt failure =
        .wrote (.writeError name attempt.leaseToken attempt.id (.string failure) (some failedAt)) none := by
  have hcan : (TaskQueue.tenacious name).canRetry attempt failure = (TaskQueue.tenacious name).retrySchedule := by
    simp [canRetry, tenacious, cap, hretries, hcount, hasBuiltInErrorTag, hfailure]
  have hreplayed : (TaskQueue.tenacious name).replayed attempt failedAt failure = some [(failedAt, failure)] := by
    rw [replayed, hcan, herrors, hcount]
    rfl
  refine ⟨hreplayed, ?_⟩
  rw [fail_eq, hreplayed, hcan]
  have hle : (failedAt : ℚ) ≤ (maxSafeInteger : ℚ) := Nat.cast_le.mpr hfailedAt
  have hpos : (0 : ℚ) ≤ failedAt := Nat.cast_nonneg failedAt
  simp only [tenacious, RetrySchedule.nextRunAt, RetrySchedule.runFrom, NNRat.coe_zero, add_zero, not_lt.mpr hle,
    if_false, writeError, Option.getD_some, abs_of_nonneg hpos, false_or]
  rw [if_neg (by linarith)]

/-- An offer of a task that keeps one error entry. -/
def CreateArgs.forgetful (queue id : String) : CreateArgs :=
  { CreateArgs.default queue id with maxErrorEntries := some 1 }

/-- What the run of the next theorem shows of its calls. -/
def showsTruncated (calls : List Call) (reply : Reply) : Bool :=
  match calls with
  | [⟨_, op₁, _⟩, ⟨_, op₂, .leased "one" "a" (some r₂)⟩, ⟨_, op₃, _⟩, ⟨_, op₄, _⟩,
      ⟨_, op₅, .leased "three" "a" (some r₅)⟩] =>
    decide (op₁ = .createTask (.forgetful "mail" "a") ∧ op₂ = .takeTask "mail" "one" (some 10) ∧
      op₃ = .writeError "mail" "one" "a" (.string "lost") (some 3) ∧ op₄ = .takeTask "mail" "two" (some 10) ∧ op₅ = .takeTask "mail" "three" (some 1000) ∧ reply = .nil) &&
    decide (r₂.protocolVersion = 1 ∧ r₂.schemaId = "mail" ∧ r₂.errors = [] ∧ r₂.maxRetries = -1 ∧
      r₂.handlerFailureCount = 0) &&
    decide (r₅.generation = 1 ∧ r₅.protocolVersion = 1 ∧ r₅.schemaId = "mail" ∧
      r₅.errors = [⟨stalledError 20, 20, some 0⟩] ∧ r₅.maxRetries = -1 ∧ r₅.handlerFailureCount = 1 ∧
      r₅.maxErrorEntries = 1) &&
    decide (failures ("mail", "a") 1 calls =
      [⟨⟨.string "lost", 3, some 3⟩, .handler⟩, ⟨⟨stalledError 20, 20, some 0⟩, .stall⟩])
  | _ => false

/-- A task that keeps one error entry: the stall takes the place of the failure before it, so the next failure
settles it. -/
theorem run_retryEvidence_truncated : ∃ calls e c e', engine.Run calls e ∧ engine.step e c e' ∧
    c.op = .writeError "mail" "three" "a" (.string "again") (some (-1)) ∧ FailedFor ("mail", "a") 1 e'.store := by
  obtain ⟨calls, e, reply, s', h, hstep, hplayed⟩ := @play_step
    [(.at 1, .createTask (.forgetful "mail" "a")), (.at 2, .takeTask "mail" "one" (some 10)),
      (.at 3, .writeError "mail" "one" "a" (.string "lost") (some 3)), (.at 4, .takeTask "mail" "two" (some 10)),
      (.at 20, .takeTask "mail" "three" (some 1000))]
    (.at 21) (.writeError "mail" "three" "a" (.string "again") (some (-1)))
    (fun calls _ reply _ => showsTruncated calls reply)
    (by decide +kernel)
  unfold showsTruncated at hplayed
  split at hplayed
  case h_2 => exact absurd hplayed (by simp)
  case h_1 env₁ op₁ reply₁ env₂ op₂ r₂ env₃ op₃ reply₃ env₄ op₄ reply₄ env₅ op₅ r₅ =>
    simp only [Bool.and_eq_true, decide_eq_true_eq] at hplayed
    obtain ⟨⟨⟨⟨rfl, rfl, rfl, rfl, rfl, rfl⟩, hprotocol₂, hschema₂, herrors₂, hretries₂, hcount₂⟩,
      hgeneration₅, hprotocol₅, hschema₅, herrors₅, hretries₅, hcount₅, hmax₅⟩, hfailures⟩ := hplayed
    have hattempt₂ : (TaskQueue.tenacious "mail").decodeTask "one" "a" r₂ =
        some ⟨"one", "a", r₂.createdAt, r₂.delay, r₂.maxRetries, r₂.handlerFailureCount, []⟩ := by
      simp [TaskQueue.decodeTask, hprotocol₂, hschema₂, herrors₂, TaskQueue.tenacious]
    have hattempt₅ : (TaskQueue.tenacious "mail").decodeTask "three" "a" r₅ =
        some ⟨"three", "a", r₅.createdAt, r₅.delay, r₅.maxRetries, r₅.handlerFailureCount, [(20, stalledTag)]⟩ := by
      simp [TaskQueue.decodeTask, hprotocol₅, hschema₅, herrors₅, TaskQueue.tenacious, stalledError]
    have hevidence := (run_retryEvidence h).2 (TaskQueue.tenacious "mail") ("mail", "a")
      (TaskQueue.storesTags_tenacious "mail") (by simp [FreshTokens, Call.takeToken])
    specialize hevidence ((TaskQueue.reportsAll_snoc [_, _, _, _]).mpr ⟨(TaskQueue.reportsAll_snoc [_, _, _]).mpr
      ⟨(TaskQueue.reportsAll_snoc [_, _]).mpr ⟨TaskQueue.reportsAll_of_not_fails (by simp [Call.Fails]), fun _ =>
        ⟨_, List.mem_cons_of_mem _ List.mem_cons_self, "one", r₂, _, 3, "lost", none, ⟨⟨_, rfl⟩, rfl⟩, hattempt₂,
          (TaskQueue.fail_tenacious hretries₂ (by decide) hcount₂ rfl (by decide)).2⟩⟩, by simp [Call.Fails]⟩,
      by simp [Call.Fails]⟩)
    obtain ⟨_, hreported⟩ := hevidence [_, _, _, _] _ [] "three" r₅ _ 21 "again" rfl ⟨⟨_, rfl⟩, rfl⟩ hattempt₅
    have hcan : (TaskQueue.tenacious "mail").canRetry ⟨"three", "a", r₅.createdAt, r₅.delay, r₅.maxRetries,
        r₅.handlerFailureCount, [(20, stalledTag)]⟩ "again" = (TaskQueue.tenacious "mail").retrySchedule := by
      simp [TaskQueue.canRetry, TaskQueue.tenacious, TaskQueue.cap, hretries₅, hcount₅, TaskQueue.hasBuiltInErrorTag,
        stalledTag]
    have hdropped : handlerFailures (truncated r₅.maxErrorEntries [⟨⟨.string "lost", 3, some 3⟩, .handler⟩,
        ⟨⟨stalledError 20, 20, some 0⟩, .stall⟩]) ≠ [] := by
      rw [hmax₅]
      decide
    have hsettled := hreported _ _ (some TaskQueue.truncatedHistory) hstep ⟨rfl, "three", .string "again", some (-1), rfl⟩ ?_
    · rw [hgeneration₅, hfailures] at hsettled
      exact ⟨_, e, _, _, h, hstep, rfl, (hsettled.2 (by rw [hcan]; rfl) hdropped).2⟩
    · rw [TaskQueue.fail_eq, hcan, TaskQueue.replayed, hcan, if_neg]
      · simp [TaskQueue.tenacious, TaskQueue.writeError, maxSafeInteger]
      · rintro ⟨_, hle⟩
        have hlost : r₅.handlerFailureCount ≤ 0 := hle
        omega

/-- What the run of the next theorem shows of its calls. -/
def showsOmitted (calls : List Call) : Bool :=
  match calls with
  | [⟨_, op₁, _⟩, ⟨_, op₂, .leased "one" "a" (some r₁)⟩, ⟨_, op₃, .leased "two" "a" (some r₂)⟩, ⟨_, op₄, reply⟩] =>
    decide (op₁ = .createTask (.default "mail" "a") ∧ op₂ = .takeTask "mail" "one" (some 10) ∧
      op₃ = .takeTask "mail" "two" (some 1000) ∧ reply = .nil ∧
      op₄ = .writeError "mail" "two" "a" (.string "lost") (some 30)) &&
    decide (r₁.generation = 1 ∧ r₁.protocolVersion = 1 ∧ r₁.schemaId = "mail" ∧ r₁.errors = [] ∧
      r₁.maxRetries = -1 ∧ r₁.handlerFailureCount = 0) &&
    decide (r₂.protocolVersion = 1 ∧ r₂.schemaId = "mail" ∧ r₂.errors = [⟨stalledError 20, 20, some 0⟩] ∧
      r₂.maxRetries = -1 ∧ r₂.handlerFailureCount = 0) &&
    decide (failures ("mail", "a") 1 calls =
      [⟨⟨stalledError 20, 20, some 0⟩, .stall⟩, ⟨⟨.string "lost", 30, some 30⟩, .handler⟩])
  | _ => false

/-- A worker whose lease ran out still replays what it saw: the failure that the next worker reported is left out. -/
theorem stale_replay_omits : ∃ calls e d leaseToken r attempt failedAt failure errors, engine.Run calls e ∧
    FreshTokens calls ∧ (TaskQueue.tenacious "mail").ReportsAll ("mail", "a") calls ∧ d ∈ calls ∧
    d.Took ("mail", "a") leaseToken r ∧ (TaskQueue.tenacious "mail").decodeTask leaseToken "a" r = some attempt ∧
    (TaskQueue.tenacious "mail").replayed attempt failedAt failure = some errors ∧
    ¬ ∃ earlier, (TaskQueue.tenacious "mail").decodeErrors
        (handlerFailures (failures ("mail", "a") r.generation calls)) = some earlier ∧
      errors = earlier ++ [(failedAt, failure)] := by
  obtain ⟨calls, e, h, hplayed⟩ := @play_run
    [(.at 1, .createTask (.default "mail" "a")), (.at 2, .takeTask "mail" "one" (some 10)),
      (.at 20, .takeTask "mail" "two" (some 1000)), (.at 30, .writeError "mail" "two" "a" (.string "lost") (some 30))]
    (fun calls _ => showsOmitted calls)
    (by decide +kernel)
  unfold showsOmitted at hplayed
  split at hplayed
  case h_2 => exact absurd hplayed (by simp)
  case h_1 env₁ op₁ reply₁ env₂ op₂ r₁ env₃ op₃ r₂ env₄ op₄ reply =>
    simp only [Bool.and_eq_true, decide_eq_true_eq] at hplayed
    obtain ⟨⟨⟨⟨rfl, rfl, rfl, rfl, rfl⟩, hgeneration₁, hprotocol₁, hschema₁, herrors₁, hretries₁, hcount₁⟩,
      hprotocol₂, hschema₂, herrors₂, hretries₂, hcount₂⟩, hfailures⟩ := hplayed
    have hattempt₁ : (TaskQueue.tenacious "mail").decodeTask "one" "a" r₁ =
        some ⟨"one", "a", r₁.createdAt, r₁.delay, r₁.maxRetries, r₁.handlerFailureCount, []⟩ := by
      simp [TaskQueue.decodeTask, hprotocol₁, hschema₁, herrors₁, TaskQueue.tenacious]
    have hattempt₂ : (TaskQueue.tenacious "mail").decodeTask "two" "a" r₂ =
        some ⟨"two", "a", r₂.createdAt, r₂.delay, r₂.maxRetries, r₂.handlerFailureCount, [(20, stalledTag)]⟩ := by
      simp [TaskQueue.decodeTask, hprotocol₂, hschema₂, herrors₂, TaskQueue.tenacious, stalledError]
    refine ⟨_, e, _, "one", r₁, _, 40, "late", [(40, "late")], h, ?_, ?_, List.mem_cons_of_mem _ List.mem_cons_self,
      ⟨⟨_, rfl⟩, rfl⟩, hattempt₁, ?_, ?_⟩
    · simp [FreshTokens, Call.takeToken]
    · refine (TaskQueue.reportsAll_snoc [_, _, _]).mpr
        ⟨TaskQueue.reportsAll_of_not_fails (by simp [Call.Fails]), fun _ => ?_⟩
      exact ⟨_, List.mem_cons_of_mem _ (List.mem_cons_of_mem _ List.mem_cons_self), "two", r₂, _, 30, "lost", none, ⟨⟨_, rfl⟩, rfl⟩, hattempt₂,
        (TaskQueue.fail_tenacious hretries₂ (by decide) hcount₂ rfl (by decide)).2⟩
    · exact (TaskQueue.fail_tenacious hretries₁ (by decide) hcount₁ rfl (by decide)).1
    · rw [hgeneration₁, hfailures]
      rintro ⟨earlier, hearlier, heq⟩
      obtain rfl := Option.some.inj hearlier
      exact absurd heq (by decide)

end EffectMQ
