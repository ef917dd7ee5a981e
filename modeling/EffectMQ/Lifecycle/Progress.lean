import EffectMQ.Lifecycle.Notes
import EffectMQ.Lifecycle.Timely
import EffectMQ.Transition.Attempts

/-!
# The history as a log of attempts

The entries of a history that nothing is trimmed from tell of the attempts of the task: the move into the active list
starts one, a failure or a move out of it ends one, and the entry of the outcome ends the task.
-/

namespace EffectMQ

open Redis Transition

/-- What an entry tells of the attempts of its task. -/
def HistoryData.kind : HistoryData → LogKind
  | .progress _ => .work
  | .moved _ _ _ (some .leased) => .start
  | .moved (some .active) _ _ _ => .stop
  | .completed _ | .failed _ _ true _ => .finish
  | .failed _ _ false _ => .stop
  | _ => .remark

def Note.told (note : Note) : LogKind × ℕ := (note.1.kind, note.2)

/-- Where a record says that its task stands. -/
def TaskRecord.phase (r : TaskRecord) : Phase :=
  if r.outcome.isSome then .done else if r.place = some .active then .busy else .idle

/-- The whole history of a stored generation is a log of its attempts. -/
def TaskView.Told (v : TaskView) : Prop :=
  ∀ r, v.record = some r → r.history.enabled = true → r.history.maxEntries = 0 →
    AttemptLog ((v.history r.generation).map fun e => Note.told e.2.note) r.phase r.attempt

variable {env : Env} {id : String} {v v' : TaskView} {r r' : TaskRecord} {a : TaskAction}

theorem phase_of_running (h : v.Running r) : r.phase = .busy := by
  rw [TaskRecord.phase, h.outcome, h.place]
  rfl

theorem phase_of_settled (h : r.outcome.isSome) : r.phase = .done := if_pos h

theorem phase_idle (ho : r.outcome = none) (hplace : r.place ≠ some .active) : r.phase = .idle := by
  rw [TaskRecord.phase, ho, if_neg (by simp), if_neg hplace]

@[simp] theorem phase_withHistory (history : HistoryFields) : (r.withHistory history).phase = r.phase := rfl

/-- A move that does not go to the active list leaves a job that is not under way as it is. -/
theorem log_moves {l : List (LogKind × ℕ)} {p : Phase} {n : ℕ} (h : AttemptLog l p n) (hp : p ≠ .busy)
    (r₁ : TaskRecord) {list : Option TaskList} (hlist : list ≠ some .active) :
    AttemptLog (l ++ (r₁.moves list).map fun body => Note.told (body.note n)) p n := by
  unfold TaskRecord.moves
  split
  · rw [List.map_nil, List.append_nil]
    exact h
  · refine h.remark hp ?_
    have hstate : r₁.state list ≠ some .leased := by
      unfold TaskRecord.state
      split <;> first | (split <;> simp) | (cases r₁.outcome with | none => simp | some o => cases o <;> simp) | simp_all
    simp only [EventBody.note, lifecycleData, HistoryData.kind]
    split <;> simp_all

/-- A move out of the active list ends the attempt, unless it has ended already. -/
theorem log_leaves {l : List (LogKind × ℕ)} {n : ℕ} (h : AttemptLog l .busy n) {r₁ : TaskRecord}
    (hplace : r₁.place = some .active) {list : Option TaskList} (hlist : list ≠ some .active) :
    AttemptLog (l ++ (r₁.moves list).map fun body => Note.told (body.note n)) .idle n := by
  have hmove : r₁.moves list = [.moved (some .active) list (r₁.state (some .active)) (r₁.state list) r₁.attempt
      r₁.handlerFailureCount r₁.stalledAttemptCount] := by
    rw [TaskRecord.moves, hplace, if_neg (Ne.symm hlist)]
  have hstate : r₁.state list ≠ some .leased := by
    unfold TaskRecord.state
    split <;> first | (split <;> simp) | (cases r₁.outcome with | none => simp | some o => cases o <;> simp) | simp_all
  have hkind : Note.told ((EventBody.moved (some .active) list (r₁.state (some .active)) (r₁.state list) r₁.attempt
      r₁.handlerFailureCount r₁.stalledAttemptCount).note n) = (.stop, n) := by
    simp only [Note.told, EventBody.note, lifecycleData, HistoryData.kind]
  rw [hmove, List.map_singleton, hkind]
  exact h.stop

/-- Leases and progress apart, the entries carry the attempt of the record. -/
theorem notes_of_bodies (hlease : ∀ leaseToken lockTimeout, a ≠ .lease leaseToken lockTimeout)
    (hprogress : ∀ leaseToken data, a ≠ .progress leaseToken data) :
    a.notes env r = (a.bodies env r).map (EventBody.note r.attempt) := by
  cases a with
  | lease leaseToken lockTimeout => exact absurd rfl (hlease leaseToken lockTimeout)
  | progress leaseToken data => exact absurd rfl (hprogress leaseToken data)
  | _ => rfl

/-- What an action appends continues the log, to the phase that the next record shows. -/
theorem log_next (hstep : TaskStep env id v a v') (hv : v.Consistent env.now) (h : v.record = some r)
    (hnext : a.next env r = some r') {l : List (LogKind × ℕ)} (hlog : AttemptLog l r.phase r.attempt) :
    AttemptLog (l ++ (a.notes env r).map Note.told) r'.phase r'.attempt := by
  have henabled := hstep.1
  have hrunning : (∃ r', v.Running r') → v.Running r := by
    rintro ⟨r₁, hrun⟩
    obtain rfl := Option.some.inj (h.symm.trans hrun.record)
    exact hrun
  have hsame : a.notes env r = [] → a.next env r = some r →
      AttemptLog (l ++ (a.notes env r).map Note.told) r'.phase r'.attempt := by
    intro hnotes hsame
    obtain rfl := Option.some.inj (hnext.symm.trans hsame)
    rw [hnotes, List.map_nil, List.append_nil]
    exact hlog
  have hbodies : ∀ {bodies : List EventBody} (n : ℕ), (bodies.map (EventBody.note n)).map Note.told =
      bodies.map fun body => Note.told (body.note n) := fun n => List.map_map
  cases a with
  | create => exact absurd (h.symm.trans henabled) (by simp)
  | promote =>
    obtain rfl := Option.some.inj hnext
    obtain ⟨r₁, hr₁, hplace⟩ := henabled.1
    obtain rfl := Option.some.inj (h.symm.trans hr₁)
    have ho : r.outcome = none := (hv.placed r h).outcome_eq_none (Or.inr (Or.inl hplace))
    have hidle : (r.listed (some .wait)).phase = .idle := phase_idle ho (by simp [TaskRecord.listed, TaskRecord.place])
    rw [phase_idle ho (by simp [hplace])] at hlog
    rw [hidle, notes_of_bodies (by simp) (by simp), TaskAction.bodies, hbodies]
    exact log_moves hlog (by simp) r (by simp)
  | lease leaseToken lockTimeout =>
    obtain rfl := Option.some.inj hnext
    obtain ⟨r₁, hr₁, hplace⟩ := henabled.1
    obtain rfl := Option.some.inj (h.symm.trans hr₁)
    have ho : r.outcome = none := (hv.placed r h).outcome_eq_none (Or.inl hplace)
    have hbusy : ({ r.listed (some .active) with attempt := r.attempt + 1 } : TaskRecord).phase = .busy := by
      simp [TaskRecord.phase, TaskRecord.listed, TaskRecord.place, ho]
    rw [phase_idle ho (by simp [hplace])] at hlog
    rw [hbusy, TaskAction.notes, TaskAction.bodies, hbodies, TaskRecord.moves, hplace, if_neg (by simp)]
    exact hlog.start
  | renew leaseToken lockTimeout =>
    have hrun := hrunning henabled.1
    obtain rfl := Option.some.inj hnext
    have hphase : (r.listed (some .active)).phase = r.phase := by
      rw [TaskRecord.phase, TaskRecord.phase, hrun.place]
      rfl
    rw [hphase, notes_of_bodies (by simp) (by simp), TaskAction.bodies, TaskRecord.moves, if_pos hrun.place, List.map_nil, List.map_nil,
      List.append_nil]
    exact hlog
  | release leaseToken =>
    have hrun := hrunning henabled.1
    obtain rfl := Option.some.inj hnext
    have hidle : (r.listed (some .wait)).phase = .idle :=
      phase_idle hrun.outcome (by simp [TaskRecord.listed, TaskRecord.place])
    rw [phase_of_running hrun] at hlog
    rw [hidle, notes_of_bodies (by simp) (by simp), TaskAction.bodies, hbodies]
    exact log_leaves hlog hrun.place (by simp)
  | retry cause error retryAt =>
    have hrun := hrunning henabled.1
    obtain rfl := Option.some.inj hnext
    have hlist : some (TaskRecord.retryList env retryAt) ≠ some .active := by
      unfold TaskRecord.retryList
      split <;> simp
    have hidle : ((r.failed env error (retryTime retryAt) cause.kind).listed
        (some (TaskRecord.retryList env retryAt))).phase = .idle :=
      phase_idle ((TaskRecord.outcome_failed env r error (retryTime retryAt) cause.kind).trans hrun.outcome) hlist
    have hattempt : ((r.failed env error (retryTime retryAt) cause.kind).listed
        (some (TaskRecord.retryList env retryAt))).attempt = r.attempt :=
      TaskRecord.attempt_failed env r error (retryTime retryAt) cause.kind
    rw [phase_of_running hrun] at hlog
    rw [hidle, hattempt, notes_of_bodies (by simp) (by simp), TaskAction.bodies, hbodies, List.map_cons]
    have hrest := log_moves hlog.stop (by simp) (r.failed env error (retryTime retryAt) cause.kind) hlist
    rwa [List.append_assoc] at hrest
  | fail cause error retryAt held =>
    have hrun := hrunning henabled.1
    obtain rfl := TaskRecord.placed_eq_some hnext
    have hattempt : ((r.exhausted env error (retryTime retryAt) cause.kind).listed r.onFailurePolicy.list).attempt =
        r.attempt := TaskRecord.attempt_failed env r error (retryTime retryAt) cause.kind
    rw [phase_of_running hrun] at hlog
    rw [phase_of_settled rfl, hattempt, notes_of_bodies (by simp) (by simp), TaskAction.bodies, hbodies, List.map_cons]
    have hrest := log_moves hlog.finish (by simp) (r.exhausted env error (retryTime retryAt) cause.kind)
      (policy_place r.onFailurePolicy (Or.inr (Or.inl rfl)))
    rwa [List.append_assoc] at hrest
  | succeed leaseToken result held =>
    have hrun := hrunning henabled.1
    obtain rfl := TaskRecord.placed_eq_some hnext
    have hattempt : ((r.succeeded env result).listed r.onSuccessPolicy.list).attempt = r.attempt := rfl
    rw [phase_of_running hrun] at hlog
    rw [phase_of_settled rfl, hattempt, notes_of_bodies (by simp) (by simp), TaskAction.bodies, hbodies, List.map_cons]
    have hrest := log_moves hlog.finish (by simp) (r.succeeded env result) (policy_place r.onSuccessPolicy (Or.inr (Or.inl rfl)))
    rwa [List.append_assoc] at hrest
  | progress leaseToken data =>
    have hrun := hrunning henabled.1
    obtain rfl := Option.some.inj hnext
    rw [phase_of_running hrun] at hlog ⊢
    exact hlog.work
  | refile =>
    obtain ⟨r₁, hsettled⟩ := henabled
    obtain rfl := Option.some.inj (h.symm.trans hsettled.record)
    obtain ⟨outcome, ho⟩ := Option.isSome_iff_exists.mp hsettled.outcome
    simp only [TaskAction.next, ho, Option.elim_some] at hnext
    obtain rfl := TaskRecord.placed_eq_some hnext
    have hdone : (r.listed (r.policy outcome).list).phase = .done := phase_of_settled hsettled.outcome
    rw [phase_of_settled hsettled.outcome] at hlog
    rw [hdone, notes_of_bodies (by simp) (by simp), TaskAction.bodies, ho, Option.elim_some, hbodies]
    exact log_moves hlog (by simp) r (policy_place _ (Or.inr (Or.inl rfl)))
  | replace | expireTask | remove | forget => exact absurd hnext (by simp [TaskAction.next])
  | dropDate | holdDate | expireDeadLetter | revoke | expireResult => exact hsame rfl rfl
  | expireTerminal g =>
    simp only [TaskAction.next] at hnext
    obtain rfl := Option.some.inj hnext
    have hkeeps : (if r.generation = g then r.unindexed else r).phase = r.phase ∧
        (if r.generation = g then r.unindexed else r).attempt = r.attempt := by
      unfold TaskRecord.unindexed
      split
      · split
        · next hplace =>
          have ho : r.outcome.isSome := by
            by_contra hnone
            rcases (hv.placed r h).runnable (Option.not_isSome_iff_eq_none.mp hnone) with hlive | hlive | hlive <;>
              simp [hlive] at hplace
          exact ⟨(phase_of_settled (r := r.listed none) ho).trans (phase_of_settled ho).symm, rfl⟩
        · exact ⟨rfl, rfl⟩
      · exact ⟨rfl, rfl⟩
    have hnotes : (TaskAction.expireTerminal g).notes env r = [] := rfl
    rw [hkeeps.1, hkeeps.2, hnotes, List.map_nil, List.append_nil]
    exact hlog

/-- The two entries of an announcement. -/
theorem TaskView.Inscribes.announce (env : Env) (id : String) (h : v.record = some r) (args : CreateArgs) (replacedTask : Option TaskRecord) :
    ∃ r', v.Inscribes r ((v.announcement env args replacedTask).note r.attempt ::
      (r.moves (some (TaskAction.firstList args))).map (EventBody.note r.attempt)) (v.announce env id args replacedTask) r' := by
  obtain ⟨history, hpublish⟩ := TaskView.Inscribes.publish env id h (v.announcement env args replacedTask) none none
  have hnote : (v.announcement env args replacedTask).note r.attempt =
      (lifecycleData (v.announcement env args replacedTask) none, r.attempt) := by
    unfold TaskView.announcement
    cases replacedTask <;> rfl
  unfold TaskView.announce TaskAction.firstList
  rw [hnote]
  by_cases hdelay : 0 < args.delay.getD 0
  · rw [if_pos hdelay, if_pos hdelay]
    obtain ⟨history', hmove⟩ := TaskView.Inscribes.move env id hpublish.after (some .scheduled)
      (double (env.now + args.delay.getD 0)) none
    exact ⟨_, hpublish.trans hmove⟩
  · rw [if_neg hdelay, if_neg hdelay]
    obtain ⟨history', hmove⟩ := TaskView.Inscribes.move env id hpublish.after (some .wait) 0 none
    exact ⟨_, hpublish.trans hmove⟩

/-- A creation starts a log with two remarks. -/
theorem log_of_created {args : CreateArgs} {replacedTask : Option TaskRecord}
    (hstep : TaskStep env id v (.create args replacedTask) v') (hv : v.Consistent env.now) (h : v'.record = some r)
    (henabled : r.history.enabled = true) (hlimit : r.history.maxEntries = 0) :
    AttemptLog ((v'.history r.generation).map fun e => Note.told e.2.note) r.phase r.attempt := by
  obtain ⟨⟨history, hrecord⟩, _, _⟩ := hstep.created
  obtain rfl := Option.some.inj (h.symm.trans hrecord)
  have hfresh : (v.create env args).history (v.counter + 1) = [] := (hv.fresh _ (Nat.lt_succ_self _)).2.2
  have hcreate : (v.create env args).record = some (newRecord env args (v.counter + 1)) := rfl
  obtain ⟨r', hall⟩ := TaskView.Inscribes.announce env id hcreate args replacedTask
  rw [show (v.create env args).announce env id args replacedTask = v' from hstep.2.symm] at hall
  obtain rfl := Option.some.inj (hall.after.symm.trans h)
  have hnotes := hall.history.unlimited (hall.history.2.1.symm.trans hlimit) (hall.history.1.symm.trans henabled)
  change (v'.history (v.counter + 1)).map (fun e => e.2.note) =
    ((v.create env args).history (v.counter + 1)).map (fun e => e.2.note) ++ _ at hnotes
  rw [hfresh, List.map_nil, List.nil_append] at hnotes
  have htold := congrArg (List.map Note.told) hnotes
  rw [List.map_map, List.map_cons, List.map_map] at htold
  have hlist : some (TaskAction.firstList args) ≠ some .active := by
    unfold TaskAction.firstList
    split <;> simp
  have hphase : (((newRecord env args (v.counter + 1)).listed (some (TaskAction.firstList args))).withHistory
      history).phase = .idle := phase_idle rfl hlist
  have hfirst : AttemptLog [(LogKind.remark, 0)] .idle 0 := AttemptLog.nil.remark (by simp) (Or.inl rfl)
  have hkind : Note.told (((v.create env args).announcement env args replacedTask).note 0) = (.remark, 0) := by
    unfold TaskView.announcement
    cases replacedTask <;> rfl
  have hrest := log_moves hfirst (by simp) (newRecord env args (v.counter + 1)) hlist
  rw [hphase]
  change AttemptLog ((v'.history (v.counter + 1)).map (Note.told ∘ fun e => e.2.note)) .idle 0
  rw [htold]
  change AttemptLog (Note.told (((v.create env args).announcement env args replacedTask).note 0) :: _) .idle 0
  rw [hkind]
  exact hrest

/-- A step continues the log of a stored generation, and starts that of a created one. -/
theorem TaskStep.told (hstep : TaskStep env id v a v') (hv : v.Consistent env.now) (h : v.Told) : v'.Told := by
  intro r' hr' henabled hlimit
  cases hr : v.record with
  | none =>
    by_cases hcreate : ∃ args replacedTask, a = .create args replacedTask
    · obtain ⟨args, replacedTask, rfl⟩ := hcreate
      exact log_of_created hstep hv hr' henabled hlimit
    · obtain ⟨hnone, _⟩ := hstep.unrecorded hv hr fun args replacedTask heq => hcreate ⟨args, replacedTask, heq⟩
      exact absurd (hnone.symm.trans hr') (by simp)
  | some r =>
    obtain ⟨r₁, hinscribes⟩ := hstep.inscribes hv hr (by rw [hr']; simp)
    obtain rfl := Option.some.inj (hr'.symm.trans hinscribes.after)
    obtain ⟨r₂, history, hnext, hr₂⟩ := hstep.record_next hv hr hr'
    have hon := hinscribes.history.1.symm.trans henabled
    have hfree := hinscribes.history.2.1.symm.trans hlimit
    have hnotes := congrArg (List.map Note.told) (hinscribes.history.unlimited hfree hon)
    rw [List.map_append, List.map_map, List.map_map] at hnotes
    have hlog := log_next hstep hv hr hnext (h r hr hon hfree)
    rw [hinscribes.generation]
    change AttemptLog (List.map (Note.told ∘ fun e => e.2.note) (v'.history r.generation)) _ _
    rw [hnotes, hr₂, phase_withHistory]
    exact hlog

theorem EngineStep.told {b b' : Busy} {s s' : Store} {act : EngineAction} (hstep : EngineStep env b s act b' s')
    (hs : Sane env.now s) {k : TaskKey} (h : (s.view k).Told) : (s'.view k).Told := by
  rcases hstep.view k with ⟨_, hview⟩ | ⟨a, _, htask⟩
  · rw [hview]
    exact h
  · exact htask.told (hs.views k) h

theorem run_told {calls : List Call} {e : Engine} (h : engine.Run calls e) (k : TaskKey) : (e.store.view k).Told :=
  run_preserves h (I := fun _ s => (s.view k).Told) (fun r hr => absurd hr (by simp [Store.view, Store.empty]))
    fun _ _ _ _ _ _ hs htold hstep => hstep.told hs htold

end EffectMQ
