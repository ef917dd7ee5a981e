import EffectMQ.Lifecycle.Failure
import EffectMQ.Lifecycle.Moment
import EffectMQ.Lifecycle.Scenario

/-!
# Failure routing

A failed attempt leaves its generation scheduled, waiting or settled, and says in its error entry, its event and its
history entry when it runs again. For a stall the four always agree. For a reported failure they agree unless a
cancellation arrives with a retry time, which is then recorded for a task that has settled, or a retry time lies
between the sentinel and zero, or it has more digits than the history entry keeps of it.
-/

namespace EffectMQ

open Redis Transition

/-- Where a failure leaves a generation. -/
inductive Situation
  | scheduled (readyAt : ℚ)
  | waiting
  | settled
deriving DecidableEq

/-- A generation after its failure, which found the store `m` and left the store `s`. -/
def Situation.Holds (env : Env) (m s : Store) (x : TaskIdentity) : Situation → Prop
  | .scheduled readyAt =>
    (∃ r, s.current x = some r ∧ r.outcome = none) ∧ (s.lists x.queue).scheduled.score x.id = some readyAt
  | .waiting => (∃ r, s.current x = some r ∧ r.outcome = none) ∧ s.line x.queue = m.line x.queue ++ [x.id]
  | .settled =>
    (∃ t, s.result x = some t ∧ t.outcome = .failure ∧ t.settledAt = env.clock) ∧
      ∀ r, s.current x = some r → r.outcome = some .failure

/-- Where a failure with a retry time, or without one, is to leave its generation. -/
def routed (env : Env) (error : LuaValue) (retryAt : Option ℚ) : Situation :=
  if error.errorTag = some canceledTag then .settled
  else match retryAt with
    | none => .settled
    | some t => if env.now < t then .scheduled t else .waiting

/-- The retry time that the records of a failure are to carry. -/
def Situation.carries (retryAt : Option ℚ) : Situation → Option ℚ
  | .settled => none
  | _ => retryAt

/-- The history of a generation tells of a failure and its retry time, up to its limit, and of moves after it. -/
def FailureNoted (m s : Store) (x : TaskIdentity) (r : TaskRecord) (error : LuaValue) (kind : FailureKind)
    (situation : Situation) (noted : Option ℚ) : Prop :=
  ∀ r', s.current x = some r' → ∃ rest : List Note, (∀ note ∈ rest, note.1.IsMove) ∧
    Inscribed (r.history, m.history x)
      ((.failed r.onFailurePolicy (historyKind error kind) (decide (situation = .settled)) noted, r.attempt) :: rest)
      (r'.history, s.history x)

/-- A failure left its generation in one situation; its error entry and its event carry a retry time, and its history entry
carries one. -/
structure FailedInto (env : Env) (m s : Store) (x : TaskIdentity) (r : TaskRecord) (error : LuaValue)
    (kind : FailureKind) (situation : Situation) (retryAt noted : Option ℚ) : Prop where
  routes : ∀ other : Situation, other.Holds env m s x ↔ other = situation
  errors : ∀ r', s.current x = some r' → 0 < r.maxErrorEntries →
    r'.errors.getLast? = some ⟨error, env.clock, retryAt⟩
  event : ∃ rest : List EventBody, (∀ body ∈ rest, body.IsMove) ∧ s.log x.queue x.id = m.log x.queue x.id ++
    (r.failureBody error kind (decide (situation = .settled)) retryAt :: rest).map (r.stamp x.id)
  history : FailureNoted m s x r error kind situation noted

/-- Routing and records agree for a failure that came with a retry time, or without one. -/
def FailureAgrees (env : Env) (m s : Store) (x : TaskIdentity) (r : TaskRecord) (error : LuaValue)
    (kind : FailureKind) (retryAt : Option ℚ) : Prop :=
  FailedInto env m s x r error kind (routed env error retryAt) ((routed env error retryAt).carries retryAt)
    ((routed env error retryAt).carries retryAt)

variable {env : Env} {m t s : Store} {k : TaskKey} {x : TaskIdentity} {r : TaskRecord} {cause : Cause} {error : LuaValue}
  {kind : FailureKind} {retryAt : ℚ} {a : TaskAction} {b : Busy}

theorem FailedInto.unique {situation situation' : Situation} {retryAt retryAt' noted noted' : Option ℚ}
    (h : FailedInto env m s x r error kind situation retryAt noted)
    (h' : FailedInto env m s x r error kind situation' retryAt' noted') :
    situation' = situation ∧ retryAt' = retryAt := by
  refine ⟨(h.routes situation').mp ((h'.routes situation').mpr rfl), ?_⟩
  obtain ⟨rest, _, hlog⟩ := h.event
  obtain ⟨rest', _, hlog'⟩ := h'.event
  have hbody := congrArg List.head? (List.append_cancel_left (hlog'.symm.trans hlog))
  simp only [List.map_cons, List.head?_cons, TaskRecord.stamp, TaskRecord.failureBody, Option.some.injEq, Event.mk.injEq,
    EventBody.failed.injEq] at hbody
  tauto

section

variable {situation situation' : Situation} {readyAt : ℚ}

theorem Situation.Holds.place_of_scheduled (h : (Situation.scheduled readyAt).Holds env m s x) (hs : Sane env.now s) :
    (s.view (x.queue, x.id)).place = some .scheduled := by
  have hscore : (s.view (x.queue, x.id)).score .scheduled = some readyAt := h.2
  exact (((hs.views (x.queue, x.id)).listed.score .scheduled).mp (by rw [hscore]; rfl)).1

theorem Situation.Holds.place_of_waiting (h : Situation.waiting.Holds env m s x) (hs : Sane env.now s) :
    (s.view (x.queue, x.id)).place = some .wait := by
  refine hs.mem_line.mp ?_
  rw [h.2]
  simp

theorem Situation.Holds.not_settled (h : Situation.settled.Holds env m s x) :
    ¬ ∃ r, s.current x = some r ∧ r.outcome = none := by
  rintro ⟨r, hr, ho⟩
  exact absurd (h.2 r hr) (by simp [ho])

/-- A generation is in one situation at most. -/
theorem Situation.Holds.unique (h : situation.Holds env m s x) (h' : situation'.Holds env m s x) (hs : Sane env.now s) :
    situation' = situation := by
  cases situation with
  | settled =>
    cases situation' with
    | settled => rfl
    | scheduled | waiting => exact absurd h'.1 h.not_settled
  | scheduled readyAt =>
    cases situation' with
    | settled => exact absurd h.1 h'.not_settled
    | scheduled readyAt' => rw [Option.some.inj (h'.2.symm.trans h.2)]
    | waiting => exact absurd ((h.place_of_scheduled hs).symm.trans (h'.place_of_waiting hs)) (by simp)
  | waiting =>
    cases situation' with
    | settled => exact absurd h.1 h'.not_settled
    | scheduled readyAt' => exact absurd ((h'.place_of_scheduled hs).symm.trans (h.place_of_waiting hs)) (by simp)
    | waiting => rfl

end

theorem willRetry_eq (env : Env) (error : LuaValue) (retryAt : Option ℚ) :
    (!willRetry error retryAt) = decide (routed env error retryAt = .settled) := by
  unfold willRetry routed
  split
  · next hcanceled => simp [hcanceled]
  · next hcanceled =>
    cases retryAt with
    | none => simp
    | some t =>
      dsimp only
      split <;> simp [hcanceled]

theorem current_of_view_record {r' : TaskRecord} (hr' : (s.view (x.queue, x.id)).record = some r')
    (hgeneration : r'.generation = x.generation) : s.current x = some r' :=
  current_eq_some_iff.mpr ⟨hr', hgeneration⟩

theorem moves_of_ne {list : Option TaskList} (h : r.place ≠ list) :
    ∃ body : EventBody, r.moves list = [body] ∧ body.IsMove :=
  ⟨_, if_neg h, trivial⟩

namespace FailsInto

variable (h : FailsInto env m (x.queue, x.id) r cause error retryAt a b t s) (hgeneration : r.generation = x.generation)

include h hgeneration

omit hgeneration in
theorem action_of_retry (hwill : willRetry error (retryTime retryAt) = true) : a = .retry cause error retryAt := by
  have hsettles := h.settles
  rw [if_pos hwill] at hsettles
  rcases h.failure with ha | ⟨held, rfl⟩
  · exact ha
  · exact absurd hsettles (by simp [TaskAction.settles])

omit h hgeneration in
theorem retry_of_will (hwill : willRetry error (retryTime retryAt) = true) :
    error.errorTag ≠ some canceledTag ∧ retryTime retryAt = some retryAt := by
  simp only [willRetry, decide_eq_true_eq] at hwill
  refine ⟨hwill.1, ?_⟩
  unfold retryTime at hwill ⊢
  split at hwill
  · exact absurd hwill.2 (by simp)
  · next hpos => rw [if_neg hpos]

/-- A retried attempt leaves its record open, and no release follows. -/
theorem stays_of_retry (hwill : willRetry error (retryTime retryAt) = true) :
    ∃ r', (t.view (x.queue, x.id)).record = some r' ∧ s.view (x.queue, x.id) = t.view (x.queue, x.id) ∧
      s.current x = some r' ∧ r'.outcome = none ∧ r'.place = some (TaskRecord.retryList env retryAt) := by
  obtain rfl := h.action_of_retry hwill
  obtain ⟨b', hpath⟩ := h.release
  obtain ⟨r', hr'⟩ : ∃ r', (t.view (x.queue, x.id)).record = some r' := by
    rcases h.record_or with hr' | ⟨_, hfail, _⟩
    · exact hr'
    · exact absurd hfail (by simp [TaskAction.settles])
  obtain ⟨r₂, history, hr₂, hrecord⟩ := h.task.record_next (h.sane.views _) h.running.record hr'
  obtain ⟨hnext, houtcome, _⟩ := h.next hr₂
  obtain rfl := Option.some.inj hr₂
  have ho : r'.outcome = none := by rw [hrecord]; exact houtcome
  have hview : s.view (x.queue, x.id) = t.view (x.queue, x.id) := release_view_eq hpath fun r₃ hr₃ => by
    obtain rfl := Option.some.inj (hr'.symm.trans hr₃)
    exact ho
  have hstored : (s.view (x.queue, x.id)).record = some r' := by rw [hview, hr']
  refine ⟨r', hr', hview, current_of_view_record hstored ?_, ho, ?_⟩
  · rw [hrecord]
    exact hnext.trans hgeneration
  · rw [hrecord]
    rfl

/-- A retried attempt is scheduled for its time, or at the end of the line when the time has come. -/
theorem holds_of_retry (hwill : willRetry error (retryTime retryAt) = true) :
    (routed env error (retryTime retryAt)).Holds env m s x := by
  obtain ⟨r', hr', hview, hcurrent', ho, hplace'⟩ := h.stays_of_retry hgeneration hwill
  obtain rfl := h.action_of_retry hwill
  obtain ⟨b', hpath⟩ := h.release
  have hcurrent : ∃ r', s.current x = some r' ∧ r'.outcome = none := ⟨r', hcurrent', ho⟩
  have hretry := retry_of_will hwill
  have hplace : (s.view (x.queue, x.id)).place = some (TaskRecord.retryList env retryAt) := by
    rw [hview, TaskView.place_of_record hr', hplace']
  have happly : t.view (x.queue, x.id) = (TaskAction.retry cause error retryAt).apply env x.id (m.view (x.queue, x.id)) :=
    h.task.2
  unfold routed
  rw [if_neg hretry.1, hretry.2]
  dsimp only
  by_cases hlater : env.now < retryAt
  · rw [if_pos hlater]
    refine ⟨hcurrent, ?_⟩
    have hscore : (s.view (x.queue, x.id)).score .scheduled = some retryAt := by
      rw [hview, happly]
      simp only [TaskAction.apply, hlater, ↓reduceIte, TaskView.score_move, ne_eq, reduceCtorEq, not_false_eq_true,
        and_true, entryScore]
    exact hscore
  · rw [if_neg hlater]
    refine ⟨hcurrent, ?_⟩
    rw [TaskRecord.retryList, if_neg hlater, hview] at hplace
    have hafter : x.id ∈ t.line x.queue := h.sane_after.mem_line.mpr hplace
    have hbefore : x.id ∉ m.line x.queue := by
      intro hmem
      have hactive := TaskView.place_of_record h.running.record
      rw [h.running.place, h.sane.mem_line.mp hmem] at hactive
      exact absurd hactive (by simp)
    rw [release_line hpath h.sane_after]
    rcases h.step.line h.sane x.queue with heq | ⟨id, hserves, _, _⟩ | ⟨id, _, _, heq⟩
    · rw [heq] at hafter
      exact absurd hafter hbefore
    · rcases hserves with ⟨_, _, heq⟩ | heq | ⟨_, heq⟩ <;> exact absurd heq (by simp)
    · rw [heq] at hafter
      obtain rfl := List.mem_singleton.mp ((List.mem_append.mp hafter).resolve_left hbefore)
      exact heq

/-- A failure that is not retried settles the generation. -/
theorem holds_of_terminal (hwill : willRetry error (retryTime retryAt) = false) :
    Situation.settled.Holds env m s x := by
  have hsettles := h.settles
  rw [if_neg (by rw [hwill]; simp)] at hsettles
  obtain ⟨result, hresult, houtcome, hsettledAt⟩ := h.task.result_of_settles h.running.record hsettles
  refine ⟨⟨result, ?_, houtcome, hsettledAt⟩, fun r' hr' => ?_⟩
  · have hlast : (s.view (x.queue, x.id)).result x.generation = some result := by
      rw [h.result, hresult, hgeneration, Function.update_self]
    exact hlast
  · have hrecord : (s.view (x.queue, x.id)).record = some r' := (current_eq_some_iff.mp hr').1
    rw [(h.record hrecord).2.1, hsettles]

theorem holds_routed : (routed env error (retryTime retryAt)).Holds env m s x := by
  by_cases hwill : willRetry error (retryTime retryAt) = true
  · exact h.holds_of_retry hgeneration hwill
  · rw [Bool.not_eq_true] at hwill
    have hterminal := willRetry_eq env error (retryTime retryAt)
    rw [hwill] at hterminal
    have hroute : routed env error (retryTime retryAt) = .settled := by simpa using hterminal.symm
    rw [hroute]
    exact h.holds_of_terminal hgeneration hwill

/-- The history of a retried attempt tells of its failure and of one move. -/
theorem inscribed_of_retry (hwill : willRetry error (retryTime retryAt) = true) :
    ∃ r' move, s.current x = some r' ∧ move.1.IsMove ∧ Inscribed (r.history, m.history x)
      [(.failed r.onFailurePolicy (historyKind error cause.kind) false (some (cjsonNumber retryAt)), r.attempt), move]
      (r'.history, s.history x) := by
  obtain ⟨r', hr', hview, hcurrent, _, _⟩ := h.stays_of_retry hgeneration hwill
  obtain ⟨r₁, hinscribes⟩ := h.task.inscribes (h.sane.views _) h.running.record (by rw [hr']; simp)
  obtain rfl := Option.some.inj (hr'.symm.trans hinscribes.after)
  obtain rfl := h.action_of_retry hwill
  have hmoved : (r.failed env error (retryTime retryAt) cause.kind).place ≠
      some (TaskRecord.retryList env retryAt) := by
    rw [TaskRecord.place_failed, h.running.place, TaskRecord.retryList]
    split <;> simp
  obtain ⟨body, hbody, hmove⟩ := moves_of_ne hmoved
  have hnotes : (TaskAction.retry cause error retryAt).notes env r =
      [(.failed r.onFailurePolicy (historyKind error cause.kind) false (some (cjsonNumber retryAt)), r.attempt),
        body.note r.attempt] := by
    change ((TaskAction.retry cause error retryAt).bodies env r).map (EventBody.note r.attempt) = _
    rw [TaskAction.bodies, hbody, (retry_of_will hwill).2]
    rfl
  have hhistory := hinscribes.history
  have hsame : s.history x = (t.view (x.queue, x.id)).history x.generation := by rw [← hview]; rfl
  rw [hnotes, hgeneration] at hhistory
  refine ⟨r', body.note r.attempt, hcurrent, hmove.note _, ?_⟩
  rw [hsame]
  exact hhistory

/-- A failure leaves its generation in one situation, with the records of the normalised retry time; the history has it as
`cjson` writes it. -/
theorem failedInto :
    FailedInto env m s x r error cause.kind (routed env error (retryTime retryAt)) (retryTime retryAt)
      ((retryTime retryAt).map cjsonNumber) where
  routes other :=
    ⟨fun hother => (h.holds_routed hgeneration).unique hother h.sane_last, fun heq => heq ▸ h.holds_routed hgeneration⟩
  errors r' hr' hpos := by
    have hrecord : (s.view (x.queue, x.id)).record = some r' := (current_eq_some_iff.mp hr').1
    rw [(h.record hrecord).2.2]
    exact getLast?_appendError hpos _ _
  event := by
    rw [← willRetry_eq env]
    exact h.event
  history r' hr' := by
    have hrecord : (s.view (x.queue, x.id)).record = some r' := (current_eq_some_iff.mp hr').1
    obtain ⟨rest, hrest, hinscribes⟩ := h.notes hrecord
    refine ⟨rest, hrest, ?_⟩
    rw [← willRetry_eq env]
    have hhistory := hinscribes.history
    rw [hgeneration] at hhistory
    exact hhistory

end FailsInto

/-- The retry time that a report names: `-1` stands for none. -/
def namedRetry (retryAt : ℚ) : Option ℚ := if retryAt = -1 then none else some retryAt

/-- A history that has an entry and the next one. -/
def HistoryFields.KeepsTwo (history : HistoryFields) : Prop := history.enabled = true ∧ history.maxEntries ≠ 1

/-- A report to a record is unambiguous: a cancellation names no retry time, and any other failure names none or a clock
value, which `cjson` keeps, as it does every whole one of fourteen digits, if the history has the entry with the move that
follows. -/
def PlainReport (r : TaskRecord) (error : LuaValue) (retryAt : ℚ) : Prop :=
  if error.errorTag = some canceledTag then retryAt < 0
  else retryAt = -1 ∨ 0 ≤ retryAt ∧ (r.history.KeepsTwo → cjsonNumber retryAt = retryAt)

/-- The history has the retry time of a retried attempt unless `cjson` changes it and the entry stays. -/
theorem FailsInto.noted_iff (h : FailsInto env m (x.queue, x.id) r cause error retryAt a b t s)
    (hgeneration : r.generation = x.generation) (hwill : willRetry error (retryTime retryAt) = true) :
    FailureNoted m s x r error cause.kind (routed env error (retryTime retryAt)) (some retryAt) ↔
      (r.history.KeepsTwo → cjsonNumber retryAt = retryAt) := by
  obtain ⟨r', move, hr', hmove, hinscribed⟩ := h.inscribed_of_retry hgeneration hwill
  have hopen : decide (routed env error (retryTime retryAt) = .settled) = false := by
    rw [← willRetry_eq env, hwill]
    rfl
  unfold FailureNoted
  rw [hopen]
  refine ⟨fun hnoted hkeeps => ?_, fun hkept r₁ hr₁ => ?_⟩
  · obtain ⟨rest, hrest, hinscribed'⟩ := hnoted r' hr'
    have hsame := hinscribed.report_unique hinscribed' hkeeps.1 hkeeps.2 not_false not_false hmove hrest
    simpa using hsame.symm
  · obtain rfl := Option.some.inj (hr'.symm.trans hr₁)
    refine ⟨[move], by simpa using hmove, ?_⟩
    by_cases hkeeps : r.history.KeepsTwo
    · rw [← hkept hkeeps]
      rwa [hkept hkeeps] at hinscribed ⊢
    · refine hinscribed.report_lost ?_ _
      unfold HistoryFields.KeepsTwo at hkeeps
      cases hon : r.history.enabled with
      | false => exact Or.inl rfl
      | true => exact Or.inr (by simpa [hon] using hkeeps)

/-- The records of a report agree with its routing exactly when the report is unambiguous. -/
theorem FailsInto.agrees_iff (h : FailsInto env m (x.queue, x.id) r cause error retryAt a b t s)
    (hgeneration : r.generation = x.generation) :
    FailureAgrees env m s x r error cause.kind (namedRetry retryAt) ↔ PlainReport r error retryAt := by
  have hinto := h.failedInto hgeneration
  have hmatch : FailureAgrees env m s x r error cause.kind (namedRetry retryAt) ↔
      (routed env error (namedRetry retryAt) = routed env error (retryTime retryAt) ∧
        (routed env error (namedRetry retryAt)).carries (namedRetry retryAt) = retryTime retryAt) ∧
        FailureNoted m s x r error cause.kind (routed env error (retryTime retryAt)) (retryTime retryAt) := by
    refine ⟨fun hagrees => ?_, fun ⟨⟨hroute, hcarries⟩, hnoted⟩ => ?_⟩
    · obtain ⟨hroute, hcarries⟩ := hinto.unique hagrees
      have hnoted := hagrees.history
      rw [hcarries, hroute] at hnoted
      exact ⟨⟨hroute, hcarries⟩, hnoted⟩
    · unfold FailureAgrees
      rw [hcarries, hroute]
      exact { hinto with history := hnoted }
  rw [hmatch]
  have hnow : (0 : ℚ) ≤ env.now := Nat.cast_nonneg _
  have hnone : retryTime retryAt = none →
      FailureNoted m s x r error cause.kind (routed env error (retryTime retryAt)) (retryTime retryAt) := fun hnone => by
    have hhistory := hinto.history
    rwa [hnone, Option.map_none, ← hnone] at hhistory
  unfold PlainReport
  by_cases hcanceled : error.errorTag = some canceledTag
  · have hroutes : ∀ time, routed env error time = .settled := fun time => if_pos hcanceled
    rw [if_pos hcanceled]
    simp only [hroutes, true_and, Situation.carries]
    unfold retryTime at hnone ⊢
    by_cases hneg : retryAt < 0
    · simpa [hneg, hroutes] using hnone
    · simp [hneg]
  rw [if_neg hcanceled]
  by_cases hsentinel : retryAt = -1
  · subst hsentinel
    have htime : retryTime (-1) = none := if_pos (by norm_num)
    simpa [htime, namedRetry, routed, hcanceled, Situation.carries] using hnone htime
  by_cases hneg : retryAt < 0
  · have hpast : ¬ env.now < retryAt := by linarith
    simp [routed, namedRetry, retryTime, hcanceled, hsentinel, hneg, hpast, not_le.mpr hneg]
  · have htime : retryTime retryAt = some retryAt := if_neg hneg
    have hwill : willRetry error (retryTime retryAt) = true := by simp [willRetry, hcanceled, htime]
    have hcarries : (routed env error (some retryAt)).carries (some retryAt) = some retryAt := by
      unfold routed
      rw [if_neg hcanceled]
      dsimp only
      split <;> rfl
    have hnoted := h.noted_iff hgeneration hwill
    rw [htime] at hnoted
    rw [namedRetry, if_neg hsentinel, htime, hcarries, hnoted]
    simp [hsentinel, not_lt.mp hneg]

/-- The retry time of a stall: at once, within the stall limit. -/
def stallRetry (r : TaskRecord) : Option ℚ := if r.maxStalledCount < r.stalledAttemptCount + 1 then none else some 0

/-- A stall is never ambiguous. -/
theorem FailsInto.agrees_of_stalled (h : FailsInto env m (x.queue, x.id) r .stalled error retryAt a b t s)
    (hgeneration : r.generation = x.generation) : FailureAgrees env m s x r error .stall (stallRetry r) := by
  have hinto := h.failedInto hgeneration
  obtain ⟨herror, hretry⟩ : error = stalledError env.clock ∧ retryAt = (m.view (x.queue, x.id)).stallTime := by
    have henabled := h.task.1
    rcases h.failure with rfl | ⟨held, rfl⟩ <;> exact henabled.2.1.2
  have htime : retryTime retryAt = stallRetry r := by
    rw [hretry, TaskView.stallTime, h.running.record]
    unfold retryTime stallRetry
    simp only [Option.map_some, Option.getD_some]
    split <;> norm_num
  have hplain : error.errorTag ≠ some canceledTag := by
    rw [herror]
    simp [stalledError, LuaValue.errorTag, stalledTag, canceledTag]
  rw [htime] at hinto
  have hnoted : (stallRetry r).map cjsonNumber = stallRetry r := by
    unfold stallRetry
    split
    · rfl
    · exact congrArg some (by exact_mod_cast cjsonNumber_natCast (n := 0) (by norm_num))
  have hcarries : (routed env error (stallRetry r)).carries (stallRetry r) = stallRetry r := by
    unfold routed
    rw [if_neg hplain]
    cases stallRetry r with
    | none => rfl
    | some time =>
      dsimp only
      split <;> rfl
  rw [hnoted] at hinto
  unfold FailureAgrees
  rw [hcarries]
  exact hinto

/-- The step of an accepted report. -/
theorem Effect.failsInto (hs : Sane env.now m) {queue leaseToken id : String}
    (h : Effect env m (.writeError queue leaseToken id error (some retryAt)) .nil s) :
    ∃ r a b t, FailsInto env m (queue, id) r (.reported leaseToken) error retryAt a b t s := by
  generalize hreply : Reply.nil = reply at h
  cases h with
  | refused op _ hfault _ =>
    subst hreply
    exact absurd hfault not_false
  | answered op _ hfence _ => exact absurd hfence (by simp [Op.fence, Op.lease])
  | scheduled op _ hop _ _ =>
    rcases hop with ⟨_, _, _, heq⟩ | ⟨_, _, _, _, heq⟩ <;> exact absurd heq (by simp)
  | failed howner ha hends =>
    obtain ⟨r, hrunning⟩ := running_of_leaseholder (hs.views (queue, id)) howner
    obtain ⟨t, hstep, hrelease⟩ := hends
    exact ⟨r, _, _, t, hs, hrunning, ha, hstep, _, hrelease⟩

/-- In every run, an accepted report routes its task as its records say exactly when it is unambiguous, and every stall
does. -/
theorem run_failureRouting {calls : List Call} {e e' : Engine} {c : Call} (h : engine.Run calls e)
    (hstep : engine.step e c e') :
    (∀ queue leaseToken id error retryAt, c.op = .writeError queue leaseToken id error (some retryAt) →
      c.reply = .nil → ∃ r, ((c.op.swept c.env e.store).view (queue, id)).Running r ∧
        (FailureAgrees c.env (c.op.swept c.env e.store) e'.store ⟨queue, id, r.generation⟩ r error .handler
          (namedRetry retryAt) ↔ PlainReport r error retryAt)) ∧
    ∀ b m k a error retryAt b' t, Occurs (calls ++ [c]) c b m (.task k a) b' t → a.IsFailure .stalled error retryAt →
      ∃ r, (m.view k).Running r ∧ error = stalledError c.env.clock ∧
        ∀ b'' s, EnginePath c.env EngineAction.IsRelease b' t b'' s →
          FailureAgrees c.env m s ⟨k.1, k.2, r.generation⟩ r error .stall (stallRetry r) := by
  have hs : Sane c.env.now e.store := (run_sane h).mono (Nat.cast_le.mpr hstep.1)
  refine ⟨fun queue leaseToken id error retryAt hop hreply => ?_, fun b m k a error retryAt b' t hoccurs ha => ?_⟩
  · have heffect := exec_effect hs hstep.2.2
    rw [hreply, hop] at heffect
    rw [hop]
    obtain ⟨r, a, b, t, hfails⟩ := heffect.failsInto ((swept_path hs _).sane hs)
    exact ⟨r, hfails.running, hfails.agrees_iff (x := ⟨queue, id, r.generation⟩) rfl⟩
  · have htask := hoccurs.step
    obtain rfl : b = none := by
      cases htask
      rfl
    have henabled := htask.view_task.1.1
    obtain ⟨⟨r, hrunning⟩, herror⟩ : (∃ r, (m.view k).Running r) ∧ error = stalledError c.env.clock := by
      rcases ha with rfl | ⟨held, rfl⟩ <;> exact ⟨henabled.1, henabled.2.1.2.1⟩
    refine ⟨r, hrunning, herror, fun b'' s hrelease => ?_⟩
    have hfails : FailsInto c.env m k r .stalled error retryAt a b' t s :=
      ⟨hoccurs.sane, hrunning, ha, htask, b'', hrelease⟩
    exact hfails.agrees_of_stalled (x := ⟨k.1, k.2, r.generation⟩) rfl

/-- A leased task with a retry time a minute ahead. -/
theorem run_failureRouting_scheduled : ∃ calls e c e', engine.Run calls e ∧ engine.step e c e' ∧
    ∃ r, ((c.op.swept c.env e.store).view ("mail", "a")).Running r ∧ FailureAgrees c.env (c.op.swept c.env e.store)
      e'.store ⟨"mail", "a", r.generation⟩ r (.string "lost") .handler (some 60000) := by
  obtain ⟨calls, e, reply, s, hrun, hstep, hreply⟩ := @play_step
    [(.at 1, .createTask (.default "mail" "a")), (.at 2, .takeTask "mail" "token" (some 30000))]
    (.at 3) (.writeError "mail" "token" "a" (.string "lost") (some 60000)) (fun _ _ reply _ => decide (reply = .nil))
    (by decide +kernel)
  obtain ⟨r, hrunning, hagrees⟩ := (run_failureRouting hrun hstep).1 "mail" "token" "a" (.string "lost") 60000 rfl
    (of_decide_eq_true hreply)
  refine ⟨calls, e, _, _, hrun, hstep, r, hrunning, hagrees.mpr ?_⟩
  rw [PlainReport, if_neg (by simp [LuaValue.errorTag])]
  exact Or.inr ⟨by norm_num, fun _ => by exact_mod_cast cjsonNumber_natCast (n := 60000) (by norm_num)⟩

/-- A cancellation with a retry time settles the task, and its records still name that time. -/
theorem canceled_names_retry : ∃ calls e c e', engine.Run calls e ∧ engine.step e c e' ∧
    c.op = .writeError "mail" "token" "a" (.table (some canceledTag) "") (some 60000) ∧ c.reply = .nil ∧
    ∃ r, ((c.op.swept c.env e.store).view ("mail", "a")).Running r ∧ ¬ FailureAgrees c.env (c.op.swept c.env e.store)
      e'.store ⟨"mail", "a", r.generation⟩ r (.table (some canceledTag) "") .handler (some 60000) := by
  obtain ⟨calls, e, reply, s, hrun, hstep, hreply⟩ := @play_step
    [(.at 1, .createTask (.default "mail" "a")), (.at 2, .takeTask "mail" "token" (some 30000))]
    (.at 3) (.writeError "mail" "token" "a" (.table (some canceledTag) "") (some 60000))
    (fun _ _ reply _ => decide (reply = .nil)) (by decide +kernel)
  obtain rfl := of_decide_eq_true hreply
  have hs : Sane (Env.at 3).now e.store := (run_sane hrun).mono (Nat.cast_le.mpr hstep.1)
  obtain ⟨r, a, b, t, hfails⟩ := (exec_effect hs hstep.2.2).failsInto ((swept_path hs _).sane hs)
  refine ⟨calls, e, _, _, hrun, hstep, rfl, rfl, r, hfails.running, fun hagrees => ?_⟩
  have hplain := (hfails.agrees_iff (x := ⟨"mail", "a", r.generation⟩) rfl).mp hagrees
  norm_num [PlainReport, LuaValue.errorTag] at hplain

end EffectMQ
