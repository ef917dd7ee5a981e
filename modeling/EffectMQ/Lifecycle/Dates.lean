import EffectMQ.Lifecycle.Advance

/-!
# The expiry dates of a generation

Settling dates a generation; afterwards a date stays, goes, or is put off while it is due and the generation is
held.
-/

namespace EffectMQ

open Redis

/-- The dates of a generation whose record is gone. -/
def Dates.disposed (d : Dates) : Dates := { d with task := .none, terminal := .none }

/-- The dates that the settlement of a record sets. -/
def TaskRecord.dated (env : Env) (r : TaskRecord) (d : Dates) : Dates where
  task := some (env.now + r.taskRecordRetentionMs)
  result := some (env.now + r.resultRetentionMs)
  terminal :=
    if r.policy (r.outcome.getD .failure) = .markAsSuccess ∨ r.policy (r.outcome.getD .failure) = .markAsFailure
    then some (env.now + r.terminalIndexRetentionMs) else d.terminal
  deadLetter := if r.outcome.getD .failure = .success then d.deadLetter else some env.now
  deadLetterExpiry :=
    if r.outcome.getD .failure = .success then d.deadLetterExpiry else some (env.now + r.deadLetterRetentionMs)

namespace TaskView

variable (env : Env) (id : String) {v : TaskView} {r : TaskRecord}

theorem dates_delete (h : v.record = some r) :
    (v.delete env id).dates = Function.update v.dates r.generation (v.dates r.generation).disposed := by
  obtain ⟨history, hrecord⟩ := record_move env id none none 0 h
  simp only [delete, drop, hrecord, dates_move]
  rfl

theorem dates_delete_none (h : v.record = none) : (v.delete env id).dates = v.dates := by
  simp only [delete, drop, record_move_none env id none none 0 h, dates_move]

/-- The dates after a completion policy. -/
theorem dates_applyPolicy {outcome : Outcome} (h : v.record = some r) (ho : r.outcome = some outcome) (held : Bool) :
    (v.applyPolicy env id held).dates =
      if r.policy outcome = .delete ∧ held = false then
        Function.update v.dates r.generation (v.dates r.generation).disposed
      else v.dates := by
  rw [applyPolicy_of_settled env h ho]
  split
  · obtain ⟨history, hrecord⟩ := record_move env id none none 0 h
    rw [dates_delete env id hrecord, dates_move]
  · rw [dates_move]

theorem dates_settle {outcome : Outcome} (h : v.record = some r) (ho : r.outcome = some outcome)
    (terminalFailure : LuaValue) (held : Bool) :
    (v.settle env id terminalFailure held).dates = Function.update v.dates r.generation
      (if r.policy outcome = .delete ∧ held = false then (r.dated env (v.dates r.generation)).disposed
        else r.dated env (v.dates r.generation)) := by
  have hrecord := ((record_retention env).trans (record_persist env terminalFailure)).trans h
  have hdates : ((v.persist env terminalFailure).retention env).dates =
      Function.update v.dates r.generation (r.dated env (v.dates r.generation)) := by
    simp [retention, persist, h, setDates, TaskRecord.dated]
  rw [settle, dates_applyPolicy env id hrecord ho held, hdates]
  split <;> simp

end TaskView

theorem TaskView.record_exhausted (env : Env) (id : String) {v : TaskView} {r : TaskRecord} (h : v.record = some r)
    (cause : Cause) (error : LuaValue) (retryAt : ℚ) :
    ∃ history, ((TaskAction.failed env id cause error retryAt v).set env
      fun r => { r with outcome := some .failure }).record =
        some ((r.exhausted env error (retryTime retryAt) cause.kind).withHistory history) := by
  obtain ⟨history, hfailed⟩ := record_recordFailure env id h error (retryTime retryAt) cause.kind
  exact ⟨history, by rw [set, modify, TaskAction.failed, hfailed]; rfl⟩

/-- A date after a step that settles nothing: it stays, it goes, or it was due and is put off. -/
def Postponed (now : ℚ) (date date' : Option ℚ) : Prop :=
  date' = date ∨ date' = none ∨ ∃ t, date = some t ∧ t ≤ now ∧ date' = some (now + 1000)

theorem Postponed.le {now bound : ℚ} {date date' : Option ℚ} (h : Postponed now date date')
    (hbound : ∀ t, date = some t → bound ≤ t) : ∀ t, date' = some t → bound ≤ t := by
  intro t ht
  rcases h with rfl | rfl | ⟨t₀, hdate, hdue, rfl⟩
  · exact hbound t ht
  · exact absurd ht (by simp)
  · obtain rfl := Option.some.inj ht
    have hle := hbound t₀ hdate
    linarith

structure Dates.Later (now : ℚ) (d d' : Dates) : Prop where
  task : Postponed now d.task d'.task
  result : Postponed now d.result d'.result
  terminal : Postponed now d.terminal d'.terminal
  deadLetters : (d'.deadLetter = d.deadLetter ∧ d'.deadLetterExpiry = d.deadLetterExpiry) ∨
    (d'.deadLetter = .none ∧ d'.deadLetterExpiry = .none)

theorem Dates.Later.refl (now : ℚ) (d : Dates) : d.Later now d := ⟨Or.inl rfl, Or.inl rfl, Or.inl rfl, Or.inl ⟨rfl, rfl⟩⟩

theorem Dates.later_disposed (now : ℚ) (d : Dates) : d.Later now d.disposed :=
  ⟨Or.inr (Or.inl rfl), Or.inl rfl, Or.inr (Or.inl rfl), Or.inl ⟨rfl, rfl⟩⟩

section

variable {env : Env} {id : String} {v v' : TaskView} {a : TaskAction} {r : TaskRecord} {g : ℕ}

theorem Dates.later_update {dates : ℕ → Dates} {g' : ℕ} {d : Dates} (hd : g = g' → (dates g').Later env.now d) :
    (dates g).Later env.now (Function.update dates g' d g) := by
  by_cases hg : g = g'
  · subst hg
    rw [Function.update_self]
    exact hd rfl
  · rw [Function.update_of_ne hg]
    exact .refl _ _

theorem TaskView.later_delete (v : TaskView) : (v.dates g).Later env.now ((v.delete env id).dates g) := by
  cases h : v.record with
  | none =>
    rw [dates_delete_none env id h]
    exact .refl _ _
  | some r =>
    rw [dates_delete env id h]
    exact Dates.later_update fun _ => Dates.later_disposed _ _

/-- A step that does not settle a generation puts its dates off at most. -/
theorem TaskStep.later (hstep : TaskStep env id v a v')
    (hother : ∀ r, v.record = some r → r.generation = g → a.settles = none) :
    (v.dates g).Later env.now (v'.dates g) := by
  obtain ⟨henabled, rfl⟩ := hstep
  have hdates : v.dates = (a.apply env id v).dates → (v.dates g).Later env.now ((a.apply env id v).dates g) :=
    fun h => h ▸ .refl _ _
  cases a with
  | create args replacedTask =>
    refine hdates ?_
    simp only [TaskAction.apply, TaskView.announce]
    split <;> simp [TaskView.create]
  | promote | release => exact hdates (by simp [TaskAction.apply, TaskView.unlock])
  | lease => exact hdates (by simp [TaskAction.apply, TaskView.lease, TaskView.modify])
  | renew => exact hdates (by simp [TaskAction.apply, TaskView.renew])
  | progress => exact hdates rfl
  | retry cause error retryAt =>
    refine hdates ?_
    simp only [TaskAction.apply]
    split <;> simp [TaskAction.failed, TaskView.recordFailure, TaskView.appendTaskError, TaskView.set, TaskView.modify,
      TaskView.countFailure, TaskView.unlock]
  | succeed leaseToken result held =>
    obtain ⟨⟨r, hrunning⟩, _⟩ := henabled
    obtain ⟨history, hrecord⟩ := TaskView.record_succeed env id hrunning.record result
    rw [TaskAction.apply, TaskView.dates_settle env id hrecord rfl]
    exact Dates.later_update fun hg => absurd (hother r hrunning.record hg.symm) (by simp [TaskAction.settles])
  | fail cause error retryAt held =>
    obtain ⟨⟨r, hrunning⟩, _⟩ := henabled
    obtain ⟨history, hrecord⟩ := TaskView.record_exhausted env id hrunning.record cause error retryAt
    rw [TaskAction.apply, TaskView.dates_settle env id hrecord rfl]
    refine Dates.later_update fun hg => absurd (hother r hrunning.record ?_) (by simp [TaskAction.settles])
    exact (TaskRecord.generation_failed env r error (retryTime retryAt) cause.kind).symm.trans hg.symm
  | refile =>
    obtain ⟨r, hsettled⟩ := henabled
    obtain ⟨outcome, ho⟩ := Option.isSome_iff_exists.mp hsettled.outcome
    rw [TaskAction.apply, TaskView.dates_applyPolicy env id hsettled.record ho]
    split
    · exact Dates.later_update fun _ => Dates.later_disposed _ _
    · exact .refl _ _
  | replace | expireTask | remove => exact v.later_delete
  | dropDate g' => exact Dates.later_update fun _ => ⟨Or.inr (Or.inl rfl), Or.inl rfl, Or.inl rfl, Or.inl ⟨rfl, rfl⟩⟩
  | holdDate g' =>
    obtain ⟨t, ht, hdue⟩ := henabled.2
    exact Dates.later_update fun _ => ⟨Or.inr (Or.inr ⟨t, ht, hdue, rfl⟩), Or.inl rfl, Or.inl rfl, Or.inl ⟨rfl, rfl⟩⟩
  | expireResult g' held =>
    obtain ⟨t, ht, hdue⟩ := henabled
    simp only [TaskAction.apply, TaskView.expireResult]
    split
    · exact Dates.later_update fun _ => ⟨Or.inl rfl, Or.inr (Or.inr ⟨t, ht, hdue, rfl⟩), Or.inl rfl, Or.inl ⟨rfl, rfl⟩⟩
    · exact Dates.later_update fun _ => ⟨Or.inl rfl, Or.inr (Or.inl rfl), Or.inl rfl, Or.inl ⟨rfl, rfl⟩⟩
  | expireTerminal g' =>
    simp only [TaskAction.apply, TaskView.expireTerminal]
    split <;> exact Dates.later_update fun _ => ⟨Or.inl rfl, Or.inl rfl, Or.inr (Or.inl rfl), Or.inl ⟨rfl, rfl⟩⟩
  | expireDeadLetter g' =>
    exact Dates.later_update fun _ => ⟨Or.inl rfl, Or.inl rfl, Or.inl rfl, Or.inr ⟨rfl, rfl⟩⟩
  | revoke => exact hdates rfl
  | forget g' =>
    have herased : (v.dates g).Later env.now ((v.erase g').dates g) :=
      Dates.later_update fun _ => ⟨Or.inr (Or.inl rfl), Or.inr (Or.inl rfl), Or.inr (Or.inl rfl), Or.inr ⟨rfl, rfl⟩⟩
    cases hr : v.record with
    | none =>
      rw [TaskAction.apply, TaskView.dates_delete_none env id (v := v.erase g') hr]
      exact herased
    | some r =>
      obtain rfl := henabled.1 r hr
      rw [TaskAction.apply, TaskView.dates_delete env id (v := v.erase r.generation) hr]
      have hnone : ((v.erase r.generation).dates r.generation).disposed = Dates.none := by
        simp [TaskView.erase, TaskView.setDates, Dates.disposed, Dates.none]
      rw [hnone]
      have heq : Function.update (v.erase r.generation).dates r.generation Dates.none =
          (v.erase r.generation).dates := by
        simp [TaskView.erase, TaskView.setDates]
      rw [heq]
      exact herased

/-- The dates that a settlement leaves. -/
theorem TaskStep.dates_of_settles (hstep : TaskStep env id v a v') (h : v.record = some r) {outcome : Outcome}
    (hsettles : a.settles = some outcome) :
    ∃ r', r.Advances r' ∧ r'.outcome = some outcome ∧
      (v'.dates r.generation = r'.dated env (v.dates r.generation) ∨
        v'.dates r.generation = (r'.dated env (v.dates r.generation)).disposed) := by
  have hcases : ∀ (w : TaskView) (r' : TaskRecord) (terminalFailure : LuaValue) (held : Bool), w.record = some r' →
      r'.outcome = some outcome → r'.generation = r.generation → w.dates = v.dates →
      (w.settle env id terminalFailure held).dates r.generation = r'.dated env (v.dates r.generation) ∨
        (w.settle env id terminalFailure held).dates r.generation = (r'.dated env (v.dates r.generation)).disposed := by
    intro w r' terminalFailure held hw ho hg hdates
    rw [TaskView.dates_settle env id hw ho, hg, hdates, Function.update_self]
    split
    · exact Or.inr rfl
    · exact Or.inl rfl
  obtain ⟨henabled, rfl⟩ := hstep
  cases a with
  | succeed leaseToken result held =>
    obtain rfl := Option.some.inj hsettles
    obtain ⟨history, hrecord⟩ := TaskView.record_succeed env id h result
    have hadvances : r.Advances (r.succeeded env result) :=
      .of_eq ⟨rfl, rfl, rfl, rfl, rfl, rfl, rfl⟩ rfl rfl rfl rfl rfl rfl rfl rfl rfl
    exact ⟨_, hadvances.withHistory history, rfl, hcases _ _ .nil held hrecord rfl rfl rfl⟩
  | fail cause error retryAt held =>
    obtain rfl := Option.some.inj hsettles
    obtain ⟨history, hrecord⟩ := TaskView.record_exhausted env id h cause error retryAt
    have hadvances : r.Advances (r.exhausted env error (retryTime retryAt) cause.kind) :=
      { TaskRecord.Advances.failed env r error (retryTime retryAt) cause.kind with
        sameOffer := { r.sameOffer_failed env error (retryTime retryAt) cause.kind with } }
    exact ⟨_, hadvances.withHistory history, rfl,
      hcases _ _ error held hrecord rfl hadvances.sameOffer.generation rfl⟩
  | create | promote | lease | renew | release | retry | progress | refile | replace | expireTask | dropDate | holdDate
  | expireResult | expireTerminal | expireDeadLetter | remove | revoke | forget =>
    exact absurd hsettles (by simp [TaskAction.settles])

/-- The actions that take a record away. -/
theorem TaskAction.lost_cases (h : a.next env r = none) :
    a = .replace ∨ a = .expireTask ∨ a = .remove ∨ (∃ g, a = .forget g) ∨
      (∃ outcome, (a.settles <|> r.outcome) = some outcome ∧ r.policy outcome = .delete) := by
  have hplaced : ∀ {r' : TaskRecord} {policy : CompletionPolicy} {held : Bool}, r'.placed policy held = none →
      policy = .delete := by
    intro r' policy held h
    unfold TaskRecord.placed at h
    split at h
    · next hdelete => exact hdelete.1
    · exact absurd h (by simp)
  cases a with
  | replace => exact Or.inl rfl
  | expireTask => exact Or.inr (Or.inl rfl)
  | remove => exact Or.inr (Or.inr (Or.inl rfl))
  | forget g => exact Or.inr (Or.inr (Or.inr (Or.inl ⟨g, rfl⟩)))
  | succeed leaseToken result held => exact Or.inr (Or.inr (Or.inr (Or.inr ⟨.success, rfl, hplaced h⟩)))
  | fail cause error retryAt held => exact Or.inr (Or.inr (Or.inr (Or.inr ⟨.failure, rfl, hplaced h⟩)))
  | refile =>
    cases ho : r.outcome with
    | none => simp [TaskAction.next, ho] at h
    | some outcome =>
      simp only [TaskAction.next, ho, Option.elim_some] at h
      exact Or.inr (Or.inr (Or.inr (Or.inr ⟨outcome, rfl, hplaced h⟩)))
  | create | promote | lease | renew | release | retry | progress | dropDate | holdDate | expireResult | expireTerminal
  | expireDeadLetter | revoke => exact absurd h (by simp [TaskAction.next])

end

end EffectMQ
