import EffectMQ.Lifecycle.Events
import EffectMQ.Properties.OutcomeCopies

/-!
# The verdict on a generation

What the terminal event of a generation says: the success value, or the failure. A generation has one verdict at most, and
its record and its result show no other, in every state of a run.
-/

namespace EffectMQ

open Redis Transition

inductive Verdict
  | success (value : String)
  | failure (error : LuaValue)
deriving DecidableEq

def Verdict.outcome : Verdict → Outcome
  | .success _ => .success
  | .failure _ => .failure

/-- A settled record shows a verdict: a failure in its last error entry, if there is one. -/
def Verdict.OfRecord (r : TaskRecord) : Verdict → Prop
  | .success value => r.outcome = some .success ∧ r.success = some value
  | .failure error => r.outcome = some .failure ∧ ∀ entry, r.errors.getLast? = some entry → entry.error = error

/-- A result shows a verdict. -/
def Verdict.OfResult (t : TerminalResult) : Verdict → Prop
  | .success value => t.outcome = .success ∧ t.success = some value
  | .failure error => t.outcome = .failure ∧ ∀ failure, t.failure = some failure → failure = error

/-- The verdict that an event announces about a generation. -/
def Event.verdict (g : ℕ) (e : Event) : Option Verdict :=
  if e.generation = g then
    match e.body with
    | .completed success _ => some (.success success)
    | .failed error _ _ _ true _ => some (.failure error)
    | _ => none
  else none

theorem Event.terminalOutcome_eq (g : ℕ) (e : Event) : e.terminalOutcome g = (e.verdict g).map Verdict.outcome := by
  unfold terminalOutcome verdict
  split
  · cases e.body with
    | failed _ _ _ _ terminal _ => cases terminal <;> rfl
    | created | updated | moved | completed => rfl
  · rfl

def TaskAction.verdict : TaskAction → Option Verdict
  | .succeed _ result _ => some (.success result)
  | .fail _ error _ _ => some (.failure error)
  | _ => none

theorem TaskAction.settles_eq (a : TaskAction) : a.settles = a.verdict.map Verdict.outcome := by
  cases a <;> rfl

namespace TaskView

/-- The verdicts on a generation, in order. -/
def verdicts (g : ℕ) (v : TaskView) : List Verdict := v.log.filterMap (Event.verdict g)

theorem terminalOutcomes_eq (g : ℕ) (v : TaskView) : v.terminalOutcomes g = (v.verdicts g).map Verdict.outcome := by
  rw [terminalOutcomes, verdicts, List.map_filterMap]
  exact List.filterMap_congr fun e _ => e.terminalOutcome_eq g

/-- The record and the result of a generation show its verdict. -/
structure Attests (g : ℕ) (v : TaskView) : Prop where
  record : ∀ r, v.record = some r → r.generation = g → r.outcome.isSome → ∃ w, v.verdicts g = [w] ∧ w.OfRecord r
  result : ∀ t, v.result g = some t → t.generation = g ∧ ∃ w, v.verdicts g = [w] ∧ w.OfResult t

end TaskView

section

variable {env : Env} {id : String} {g : ℕ} {v v' : TaskView} {r r' : TaskRecord} {a : TaskAction}

theorem verdict_moves (r r' : TaskRecord) (list : Option TaskList) (id : String) (g : ℕ) :
    ((r'.moves list).map (r.stamp id)).filterMap (Event.verdict g) = [] := by
  unfold TaskRecord.moves
  split <;> simp [Event.verdict, TaskRecord.stamp]

/-- The verdicts among the events of a step. -/
theorem verdict_bodies (env : Env) (r : TaskRecord) (a : TaskAction) (id : String) (g : ℕ) :
    ((a.bodies env r).map (r.stamp id)).filterMap (Event.verdict g) =
      if r.generation = g then a.verdict.toList else [] := by
  have hmoves := verdict_moves r
  cases a with
  | succeed | fail =>
    rw [TaskAction.bodies, List.map_cons, List.filterMap_cons, hmoves]
    by_cases hg : r.generation = g <;> simp [Event.verdict, TaskRecord.stamp, TaskAction.verdict, hg]
  | retry =>
    rw [TaskAction.bodies, List.map_cons, List.filterMap_cons, hmoves]
    by_cases hg : r.generation = g <;> simp [Event.verdict, TaskRecord.stamp, TaskAction.verdict, hg]
  | refile =>
    rw [TaskAction.bodies]
    cases r.outcome with
    | none => simp [TaskAction.verdict]
    | some outcome =>
      simp only [TaskAction.verdict, Option.toList_none, ite_self]
      exact hmoves _ _ id g
  | promote | lease | renew | release | replace | expireTask | remove | forget =>
    simp only [TaskAction.verdict, Option.toList_none, ite_self]
    exact hmoves _ _ id g
  | create | progress | dropDate | holdDate | expireResult | expireTerminal | expireDeadLetter | revoke =>
    simp [TaskAction.verdict, TaskAction.bodies]

theorem TaskStep.verdicts (hstep : TaskStep env id v a v') (hv : v.Consistent env.now) (h : v.record = some r) (g : ℕ) :
    v'.verdicts g = v.verdicts g ++ if r.generation = g then a.verdict.toList else [] := by
  rw [TaskView.verdicts, (hstep.accounted hv h).log, List.filterMap_append, verdict_bodies]
  rfl

theorem verdicts_created {args : CreateArgs} {replacedTask : Option TaskRecord}
    (hstep : TaskStep env id v (.create args replacedTask) v') (g : ℕ) : v'.verdicts g = v.verdicts g := by
  rw [TaskView.verdicts, hstep.created.2.2, List.filterMap_append]
  cases replacedTask <;> simp [TaskAction.createBodies, Event.verdict, TaskRecord.stamp, TaskView.verdicts]

theorem errors_exhausted {error : LuaValue} {retryAt : Option ℚ} {kind : FailureKind} {entry : ErrorEntry}
    (h : (r.exhausted env error retryAt kind).errors.getLast? = some entry) : entry.error = error := by
  have herrors : (r.exhausted env error retryAt kind).errors =
      appendError r.maxErrorEntries r.errors ⟨error, env.clock, retryAt⟩ := by
    unfold TaskRecord.exhausted TaskRecord.failed
    split <;> rfl
  rw [herrors] at h
  by_cases hpos : 0 < r.maxErrorEntries
  · rw [getLast?_appendError hpos] at h
    rw [← Option.some.inj h]
  · rw [appendError, if_pos (Nat.eq_zero_of_not_pos hpos)] at h
    cases h

/-- The record and the result of a generation that a step settles. -/
theorem TaskStep.attests_of_verdict (hstep : TaskStep env id v a v') (hv : v.Consistent env.now) (hbook : v.Book g)
    (hrunning : v.Running r) (hg : r.generation = g) {w : Verdict} (hw : a.verdict = some w) : v'.Attests g := by
  have hempty : v.verdicts g = [] := by
    have h := hbook.outcome r hrunning.record hg
    rw [hrunning.outcome, TaskView.terminalOutcomes_eq] at h
    exact List.map_eq_nil_iff.mp h
  have hverdicts : v'.verdicts g = [w] := by
    rw [hstep.verdicts hv hrunning.record g, hempty, if_pos hg, hw]
    rfl
  have hold := hbook.result_of_running hrunning hg
  subst hg
  refine ⟨fun r' hr' _ _ => ⟨w, hverdicts, ?_⟩, fun t ht => ?_⟩
  · obtain ⟨r'', history, hnext, rfl⟩ := hstep.record_next hv hrunning.record hr'
    cases a with
    | succeed leaseToken result held =>
      obtain rfl := Option.some.inj hw
      obtain rfl := TaskRecord.placed_eq_some hnext
      exact ⟨rfl, rfl⟩
    | fail cause error retryAt held =>
      obtain rfl := Option.some.inj hw
      obtain rfl := TaskRecord.placed_eq_some hnext
      refine ⟨rfl, fun entry hentry => ?_⟩
      have hlast : (r.exhausted env error (retryTime retryAt) cause.kind).errors.getLast? = some entry := hentry
      exact errors_exhausted hlast
    | create | promote | lease | renew | release | retry | progress | refile | replace | expireTask | dropDate | holdDate
    | expireResult | expireTerminal | expireDeadLetter | remove | revoke | forget => cases hw
  · obtain ⟨henabled, rfl⟩ := hstep
    cases a with
    | succeed leaseToken result held =>
      obtain rfl := Option.some.inj hw
      obtain ⟨history, hrecord⟩ := TaskView.record_succeed env id hrunning.record result
      have hresult := congrFun (TaskView.result_settle env id hrecord .nil held) r.generation
      have ht' := hresult.symm.trans ht
      rw [show ((r.succeeded env result).withHistory history).generation = r.generation from rfl, Function.update_self] at ht'
      rw [← Option.some.inj ht']
      exact ⟨rfl, _, hverdicts, rfl, rfl⟩
    | fail cause error retryAt held =>
      obtain rfl := Option.some.inj hw
      obtain ⟨history, hfailed⟩ := TaskView.record_recordFailure env id hrunning.record error (retryTime retryAt) cause.kind
      have hset : ((TaskAction.failed env id cause error retryAt v).set env fun r => { r with outcome := some .failure }).record =
          some ((r.exhausted env error (retryTime retryAt) cause.kind).withHistory history) :=
        congrArg (Option.map _) hfailed
      have hresult := congrFun (TaskView.result_settle env id hset error held) r.generation
      have ht' := hresult.symm.trans ht
      have hgeneration : ((r.exhausted env error (retryTime retryAt) cause.kind).withHistory history).generation =
        r.generation := TaskRecord.generation_failed env r error (retryTime retryAt) cause.kind
      have hbefore : ((TaskAction.failed env id cause error retryAt v).set env fun r =>
          { r with outcome := some .failure }).result r.generation = none := hold
      rw [hgeneration, Function.update_self, hbefore] at ht'
      rw [← Option.some.inj ht']
      refine ⟨hgeneration, _, hverdicts, rfl, fun failure hfailure => ?_⟩
      have hterminal : terminalFailureOf ((r.exhausted env error (retryTime retryAt) cause.kind).withHistory history) error =
          some failure := by
        have h : (terminalFailureOf ((r.exhausted env error (retryTime retryAt) cause.kind).withHistory history) error <|>
          none) = some failure := hfailure
        simpa using h
      unfold terminalFailureOf at hterminal
      split at hterminal
      · obtain ⟨hlast, _⟩ := Option.filter_eq_some_iff.mp hterminal
        obtain ⟨entry, hentry, rfl⟩ := Option.map_eq_some_iff.mp hlast
        have hlast : (r.exhausted env error (retryTime retryAt) cause.kind).errors.getLast? = some entry := hentry
        exact errors_exhausted hlast
      · exact (Option.some.inj hterminal).symm
    | create | promote | lease | renew | release | retry | progress | refile | replace | expireTask | dropDate | holdDate
    | expireResult | expireTerminal | expireDeadLetter | remove | revoke | forget => cases hw

/-- A step keeps the attestation of every generation. -/
theorem TaskStep.attests (hstep : TaskStep env id v a v') (hv : v.Consistent env.now) (hbook : v.Book g)
    (h : v.Attests g) : v'.Attests g := by
  by_cases hsettles : (∃ r, v.Running r ∧ r.generation = g) ∧ ∃ w, a.verdict = some w
  · obtain ⟨⟨r, hrunning, hg⟩, w, hw⟩ := hsettles
    exact hstep.attests_of_verdict hv hbook hrunning hg hw
  -- nothing is said of the generation in this step
  have hverdicts : v'.verdicts g = v.verdicts g := by
    by_cases hcreate : ∃ args replacedTask, a = .create args replacedTask
    · obtain ⟨args, replacedTask, rfl⟩ := hcreate
      exact verdicts_created hstep g
    cases hr : v.record with
    | none =>
      rw [TaskView.verdicts, (hstep.unrecorded hv hr fun args replacedTask heq => hcreate ⟨args, replacedTask, heq⟩).2,
        TaskView.verdicts]
    | some r =>
      rw [hstep.verdicts hv hr g]
      split
      · next hg =>
        cases hw : a.verdict with
        | none => simp
        | some w =>
          have hsettled : a.settles = some w.outcome := by rw [a.settles_eq, hw]; rfl
          obtain ⟨r', hrunning⟩ := hstep.running_of_settles hsettled
          obtain rfl := Option.some.inj (hr.symm.trans hrunning.record)
          exact absurd ⟨⟨r, hrunning, hg⟩, w, hw⟩ hsettles
      · simp
  refine ⟨fun r' hr' hg ho => ?_, fun t ht => ?_⟩
  · rcases hstep.record_of_generation hv hr' with ⟨r, hr, hgeneration, houtcome⟩ | ⟨_, _, houtcome⟩
    · have hquiet : a.settles = none := by
        by_contra hne
        obtain ⟨outcome, hsome⟩ := Option.ne_none_iff_exists'.mp hne
        obtain ⟨r₀, hrunning⟩ := hstep.running_of_settles hsome
        obtain rfl := Option.some.inj (hr.symm.trans hrunning.record)
        rw [a.settles_eq] at hsome
        obtain ⟨w, hw, _⟩ := Option.map_eq_some_iff.mp hsome
        exact hsettles ⟨⟨r, hrunning, hgeneration.symm.trans hg⟩, w, hw⟩
      have houtcome : r'.outcome = r.outcome := by simpa [hquiet] using houtcome
      have hfrozen := hstep.frozen hv hr (houtcome ▸ ho) hr'
      obtain ⟨w, hw, hshown⟩ := h.record r hr (hgeneration.symm.trans hg) (houtcome ▸ ho)
      refine ⟨w, hverdicts.trans hw, ?_⟩
      cases w with
      | success value => exact ⟨hfrozen.1.trans hshown.1, hfrozen.2.2.2.2.2.trans hshown.2⟩
      | failure error =>
        refine ⟨hfrozen.1.trans hshown.1, ?_⟩
        rw [hfrozen.2.2.2.2.1]
        exact hshown.2
    · rw [houtcome] at ho
      cases ho
  · rcases hstep.settlement_or hv hbook with hsettled | ⟨_, heq | ⟨_, hnone⟩⟩
    · obtain ⟨t', _, hafter, _⟩ := hsettled.after
      have hbefore := hsettled.before.1
      rw [TaskView.terminalOutcomes_eq] at hafter hbefore
      rw [hverdicts, hbefore] at hafter
      cases hafter
    · obtain ⟨hgeneration, w, hw, hshown⟩ := h.result t (heq ▸ ht)
      exact ⟨hgeneration, w, hverdicts.trans hw, hshown⟩
    · exact absurd (hnone.symm.trans ht) (by simp)

end

/-! ### Runs -/

theorem attests_empty (k : TaskKey) (g : ℕ) : (Store.empty.view k).Attests g where
  record r hr := absurd hr (by simp [Store.view, Store.empty])
  result t ht := absurd ht (by simp [Store.view, Store.empty])

/-- In every state of a run the record and the result of a generation show its verdict. -/
theorem run_attests {calls : List Call} {e : Engine} (h : engine.Run calls e) (k : TaskKey) (g : ℕ) :
    (e.store.view k).Attests g := by
  refine (run_preserves h (I := fun _ s => (s.view k).Book g ∧ (s.view k).Attests g)
    ⟨book_empty k g, attests_empty k g⟩ ?_).2
  intro env b s act b' s' hs hI hstep
  refine ⟨hstep.book hs hI.1, ?_⟩
  rcases hstep.view k with ⟨_, hview⟩ | ⟨a, _, htask⟩
  · rw [hview]
    exact hI.2
  · exact htask.attests (hs.views k) hI.1 hI.2

/-- There is one verdict at most. -/
theorem run_verdicts_length {calls : List Call} {e : Engine} (h : engine.Run calls e) (k : TaskKey) (g : ℕ) :
    ((e.store.view k).verdicts g).length ≤ 1 := by
  have honce := (run_book h k g).once
  rwa [TaskView.terminalOutcomes_eq, List.length_map] at honce

theorem path_log {calls calls' : List Call} {e e' : Engine} (h : engine.Run calls e) (h' : engine.Path e calls' e')
    (k : TaskKey) : (e.store.view k).log <+: (e'.store.view k).log := by
  obtain ⟨rest, hrest⟩ := (path_published h h').continued k.1
  refine ⟨(rest.map Prod.snd).filter fun event => event.taskId = k.2, ?_⟩
  simp only [Store.view, Store.log]
  rw [← List.filter_append, ← List.map_append, hrest]

/-- A verdict stands for the rest of a run. -/
theorem path_verdicts {calls calls' : List Call} {e e' : Engine} (h : engine.Run calls e) (h' : engine.Path e calls' e')
    {k : TaskKey} {g : ℕ} {w : Verdict} (hw : (e.store.view k).verdicts g = [w]) : (e'.store.view k).verdicts g = [w] := by
  obtain ⟨rest, hrest⟩ : (e.store.view k).verdicts g <+: (e'.store.view k).verdicts g := (path_log h h' k).filterMap _
  have hlength := run_verdicts_length (h.extend h') k g
  rw [← hrest, hw] at hlength ⊢
  cases rest with
  | nil => rfl
  | cons => simp at hlength

end EffectMQ
