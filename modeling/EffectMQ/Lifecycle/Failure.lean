import EffectMQ.Lifecycle.Notes

/-!
# The end of a failed attempt

What a failure leaves of its task, up to the end of the releases that a settlement calls for: the entry in the error
list, the event, the history entry and, when it settles, the result.
-/

namespace EffectMQ

open Redis

/-- The step of a failure, and what the releases after it leave. -/
structure FailsInto (env : Env) (m : Store) (k : TaskKey) (r : TaskRecord) (cause : Cause) (error : LuaValue)
    (retryAt : ℚ) (a : TaskAction) (b : Busy) (t s : Store) : Prop where
  sane : Sane env.now m
  running : (m.view k).Running r
  failure : a.IsFailure cause error retryAt
  step : EngineStep env none m (.task k a) b t
  release : ∃ b', EnginePath env EngineAction.IsRelease b t b' s

/-- The event of a failure of a record. -/
def TaskRecord.failureBody (r : TaskRecord) (error : LuaValue) (kind : FailureKind) (terminal : Bool)
    (retryAt : Option ℚ) : EventBody :=
  .failed error r.onFailurePolicy kind r.attempt terminal retryAt

theorem getLast?_appendError {maxErrorEntries : ℕ} (hpos : 0 < maxErrorEntries) (errors : List ErrorEntry)
    (e : ErrorEntry) : (appendError maxErrorEntries errors e).getLast? = some e := by
  rw [appendError, if_neg hpos.ne']
  exact List.getLast?_concat

namespace FailsInto

variable {env : Env} {m t s : Store} {k : TaskKey} {r : TaskRecord} {cause : Cause} {error : LuaValue} {retryAt : ℚ}
  {a : TaskAction} {b : Busy}

theorem task (h : FailsInto env m k r cause error retryAt a b t s) : TaskStep env k.2 (m.view k) a (t.view k) :=
  h.step.view_task.1

theorem sane_after (h : FailsInto env m k r cause error retryAt a b t s) : Sane env.now t := h.step.sane h.sane

theorem sane_last (h : FailsInto env m k r cause error retryAt a b t s) : Sane env.now s := by
  obtain ⟨b', hpath⟩ := h.release
  exact hpath.sane h.sane_after

/-- A failure settles exactly when it will not be retried. -/
theorem settles (h : FailsInto env m k r cause error retryAt a b t s) :
    a.settles = if willRetry error (retryTime retryAt) = true then none else some .failure := by
  rcases h.failure with rfl | ⟨held, rfl⟩
  · rw [if_pos h.task.1.2.2]
    rfl
  · rw [if_neg (by rw [h.task.1.2.2]; simp)]
    rfl

/-- The record that the step leaves, if it leaves one. -/
theorem next (h : FailsInto env m k r cause error retryAt a b t s) {r' : TaskRecord} (hr' : a.next env r = some r') :
    r'.generation = r.generation ∧ r'.outcome = a.settles ∧
      r'.errors = appendError r.maxErrorEntries r.errors ⟨error, env.clock, retryTime retryAt⟩ ∧ r'.stamp = r.stamp := by
  have hgeneration := TaskRecord.generation_failed env r error (retryTime retryAt) cause.kind
  have hstamp := TaskRecord.stamp_failed env r error (retryTime retryAt) cause.kind
  have herrors : (r.failed env error (retryTime retryAt) cause.kind).errors =
      appendError r.maxErrorEntries r.errors ⟨error, env.clock, retryTime retryAt⟩ := by
    unfold TaskRecord.failed
    split <;> rfl
  rcases h.failure with rfl | ⟨held, rfl⟩
  · obtain rfl := Option.some.inj hr'
    have houtcome := (TaskRecord.outcome_failed env r error (retryTime retryAt) cause.kind).trans h.running.outcome
    exact ⟨hgeneration, houtcome, herrors, hstamp⟩
  · obtain rfl := TaskRecord.placed_eq_some hr'
    exact ⟨hgeneration, rfl, herrors, hstamp⟩

theorem bodies (h : FailsInto env m k r cause error retryAt a b t s) :
    ∃ rest : List EventBody, (∀ body ∈ rest, body.IsMove) ∧ a.bodies env r =
      r.failureBody error cause.kind (!willRetry error (retryTime retryAt)) (retryTime retryAt) :: rest := by
  have hwill := h.task.1
  rcases h.failure with rfl | ⟨held, rfl⟩
  · exact ⟨_, fun body hbody => isMove_of_moves hbody, by rw [hwill.2.2]; rfl⟩
  · exact ⟨_, fun body hbody => isMove_of_moves hbody, by rw [hwill.2.2]; rfl⟩

/-- After a failure the task has its record, or the failure settled it and its record went. -/
theorem record_or (h : FailsInto env m k r cause error retryAt a b t s) :
    (∃ r', (t.view k).record = some r') ∨
      ((t.view k).record = none ∧ a.settles = some .failure ∧ (s.view k) = (t.view k)) := by
  obtain ⟨history, hrecord⟩ := (h.task.accounted (h.sane.views k) h.running.record).record
  cases hnext : a.next env r with
  | some r' =>
    rw [hnext] at hrecord
    exact Or.inl ⟨_, hrecord⟩
  | none =>
    rw [hnext] at hrecord
    have hsettles : a.settles = some .failure := by
      rcases h.failure with rfl | ⟨held, rfl⟩
      · exact absurd hnext (by simp [TaskAction.next])
      · rfl
    obtain ⟨b', hpath⟩ := h.release
    exact Or.inr ⟨hrecord, hsettles, release_view_eq hpath fun r' hr' => absurd (hrecord.symm.trans hr') (by simp)⟩

/-- What the records show after a failure. -/
theorem record (h : FailsInto env m k r cause error retryAt a b t s) {r' : TaskRecord}
    (hr' : (s.view k).record = some r') :
    r'.generation = r.generation ∧ r'.outcome = a.settles ∧
      r'.errors = appendError r.maxErrorEntries r.errors ⟨error, env.clock, retryTime retryAt⟩ := by
  obtain ⟨history, hrecord⟩ := (h.task.accounted (h.sane.views k) h.running.record).record
  rcases h.record_or with ⟨r₁, hr₁⟩ | ⟨hnone, _, hview⟩
  · obtain ⟨b', hpath⟩ := h.release
    obtain ⟨currentList, history', hr'⟩ := (release_refiled hpath h.sane_after hr₁).record r' hr'
    rw [hr₁] at hrecord
    obtain ⟨r₂, hr₂, heq⟩ := Option.map_eq_some_iff.mp hrecord.symm
    obtain ⟨hgeneration, houtcome, herrors, _⟩ := h.next hr₂
    rw [hr', ← heq]
    exact ⟨hgeneration, houtcome, herrors⟩
  · rw [hview, hnone] at hr'
    exact absurd hr' (by simp)

theorem event (h : FailsInto env m k r cause error retryAt a b t s) :
    ∃ rest : List EventBody, (∀ body ∈ rest, body.IsMove) ∧ (s.view k).log = (m.view k).log ++
      (r.failureBody error cause.kind (!willRetry error (retryTime retryAt)) (retryTime retryAt) :: rest).map
        (r.stamp k.2) := by
  obtain ⟨rest, hrest, hbodies⟩ := h.bodies
  have haccounted := h.task.accounted (h.sane.views k) h.running.record
  have hlog := haccounted.log
  rw [hbodies] at hlog
  rcases h.record_or with ⟨r₁, hr₁⟩ | ⟨_, _, hview⟩
  · obtain ⟨b', hpath⟩ := h.release
    obtain ⟨more, hmore, hlog'⟩ := (release_refiled hpath h.sane_after hr₁).log
    obtain ⟨r₂, history, hr₂, hr₁'⟩ := h.task.record_next (h.sane.views k) h.running.record hr₁
    have hstamp : r₁.stamp = r.stamp := by
      rw [hr₁', TaskRecord.stamp_withHistory]
      exact (h.next hr₂).2.2.2
    refine ⟨rest ++ more, fun body hbody => ?_, ?_⟩
    · exact (List.mem_append.mp hbody).elim (hrest body) (hmore body)
    · rw [hlog', hlog, hstamp]
      simp
  · exact ⟨rest, hrest, by rw [hview, hlog]⟩

theorem notes (h : FailsInto env m k r cause error retryAt a b t s) {r' : TaskRecord}
    (hr' : (s.view k).record = some r') :
    ∃ rest : List Note, (∀ note ∈ rest, note.1.IsMove) ∧ (m.view k).Inscribes r
      ((r.failureBody error cause.kind (!willRetry error (retryTime retryAt)) (retryTime retryAt)).note r.attempt ::
        rest) (s.view k) r' := by
  obtain ⟨rest, hrest, hbodies⟩ := h.bodies
  rcases h.record_or with ⟨r₁, hr₁⟩ | ⟨hnone, _, hview⟩
  · obtain ⟨b', hpath⟩ := h.release
    obtain ⟨more, hmore, hinscribes⟩ := (release_refiled hpath h.sane_after hr₁).notes r' hr'
    obtain ⟨r₂, hfirst⟩ := h.task.inscribes (h.sane.views k) h.running.record (by rw [hr₁]; simp)
    obtain rfl := Option.some.inj (hr₁.symm.trans hfirst.after)
    have hnotes : a.notes env r = (a.bodies env r).map (EventBody.note r.attempt) := by
      rcases h.failure with rfl | ⟨held, rfl⟩ <;> rfl
    rw [hnotes, hbodies, List.map_cons] at hfirst
    refine ⟨rest.map (EventBody.note r.attempt) ++ more, fun note hnote => ?_, hfirst.trans hinscribes⟩
    rcases List.mem_append.mp hnote with hnote | hnote
    · obtain ⟨body, hbody, rfl⟩ := List.mem_map.mp hnote
      exact (hrest body hbody).note _
    · exact hmore note hnote
  · rw [hview, hnone] at hr'
    exact absurd hr' (by simp)

/-- The result that a settling failure leaves. -/
theorem result (h : FailsInto env m k r cause error retryAt a b t s) :
    (s.view k).result = (t.view k).result := by
  rcases h.record_or with ⟨r₁, hr₁⟩ | ⟨_, _, hview⟩
  · obtain ⟨b', hpath⟩ := h.release
    exact (release_refiled hpath h.sane_after hr₁).result
  · rw [hview]

end FailsInto

end EffectMQ
