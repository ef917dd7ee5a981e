import EffectMQ.Lifecycle.Task

/-!
# Consistent views

What holds of the view of an id between two steps: it is listed where its record says, a record without an
outcome is runnable, a settled one is where its policy put it or nowhere, a lease that has not run out belongs to
a running attempt with the same deadline, and nothing exists under a generation not yet allocated.
-/

namespace EffectMQ

open Redis

/-- A record without an outcome is in a runnable list, a settled one is not. -/
structure TaskRecord.Placed (r : TaskRecord) : Prop where
  named : r.currentList.isSome
  runnable : r.outcome = none → r.place = some .wait ∨ r.place = some .scheduled ∨ r.place = some .active
  settled : ∀ outcome, r.outcome = some outcome → r.place = none ∨ r.place = (r.policy outcome).list

namespace TaskView

/-- A lease that has not run out belongs to a running attempt and ends with its active entry. -/
def LeaseSound (now : ℚ) (v : TaskView) : Prop :=
  ∀ l, v.lock = some l → now ≤ l.expiresAt → ∃ r, v.Running r ∧ v.score .active = some l.expiresAt

structure Consistent (now : ℚ) (v : TaskView) : Prop where
  listed : v.Listed
  created : v.createdAt.isSome = v.record.isSome
  placed : ∀ r, v.record = some r → r.Placed
  lease : v.LeaseSound now
  generation : ∀ r, v.record = some r → r.generation = v.counter ∧ 0 < v.counter
  fresh : ∀ g, v.counter < g → v.result g = none ∧ v.dates g = Dates.none ∧ v.history g = []

/-- Of the generations, only `g` changed. -/
structure Within (g : ℕ) (v v' : TaskView) : Prop where
  result : ∀ g', g' ≠ g → v'.result g' = v.result g'
  dates : ∀ g', g' ≠ g → v'.dates g' = v.dates g'
  history : ∀ g', g' ≠ g → v'.history g' = v.history g'

variable (env : Env) (id : String) {now : ℚ} {g : ℕ} {v v' v'' : TaskView} {r r' : TaskRecord}

namespace Within

theorem refl (g : ℕ) (v : TaskView) : Within g v v := ⟨fun _ _ => rfl, fun _ _ => rfl, fun _ _ => rfl⟩

theorem trans (h : Within g v v') (h' : Within g v' v'') : Within g v v'' where
  result g' hg := (h'.result g' hg).trans (h.result g' hg)
  dates g' hg := (h'.dates g' hg).trans (h.dates g' hg)
  history g' hg := (h'.history g' hg).trans (h.history g' hg)

theorem of_eq (hresult : v'.result = v.result) (hdates : v'.dates = v.dates) (hhistory : v'.history = v.history) :
    Within g v v' :=
  ⟨fun _ _ => by rw [hresult], fun _ _ => by rw [hdates], fun _ _ => by rw [hhistory]⟩

theorem push (hr : v.record = some r) (hg : r.generation = g) (data : HistoryData) (attempt : Option ℕ) :
    Within g v (v.push env id data attempt) where
  result _ _ := rfl
  dates _ _ := rfl
  history g' hne := by simp [TaskView.push, hr, hg, hne]

theorem publish (hr : v.record = some r) (hg : r.generation = g) (body : EventBody)
    (failureKind : Option FailureKind) (attempt : Option ℕ) :
    Within g v (v.publish env id body failureKind attempt) :=
  (push env id hr hg (lifecycleData body failureKind) attempt).trans (of_eq rfl rfl rfl)

theorem relist (list : Option TaskList) (readyAt : ℚ) : Within g v (v.relist env list readyAt) := of_eq rfl rfl rfl

theorem move (hr : v.record = some r) (hg : r.generation = g) (list : Option TaskList) (readyAt : ℚ)
    (attempt : Option ℕ) : Within g v (v.move env id list readyAt attempt) := by
  unfold TaskView.move
  split
  · exact relist env list readyAt
  · have hrelist : (v.relist env list readyAt).record = some { r with currentList := some list } := by
      simp [TaskView.relist, hr]
    exact (relist env list readyAt).trans (publish env id hrelist hg _ none attempt)

theorem drop (hr : v.record = some r) (hg : r.generation = g) : Within g v v.drop where
  result _ _ := rfl
  dates g' hne := by simp [TaskView.drop, hr, hg, hne]
  history g' hne := by simp [TaskView.drop, hr, hg, hne]

theorem delete (hr : v.record = some r) (hg : r.generation = g) : Within g v (v.delete env id) := by
  obtain ⟨history, hrecord⟩ := record_move env id none none 0 hr
  exact (move env id hr hg none 0 none).trans (drop hrecord hg)

theorem setDates (g : ℕ) (f : Dates → Dates) : Within g v (v.setDates g f) where
  result _ _ := rfl
  dates g' hg := by simp [TaskView.setDates, hg]
  history _ _ := rfl

theorem persist (hr : v.record = some r) (hg : r.generation = g) (terminalFailure : LuaValue) :
    Within g v (v.persist env terminalFailure) := by
  subst hg
  unfold TaskView.persist
  simp only [hr]
  refine ⟨fun g' hg => ?_, fun g' hg => ?_, fun _ _ => rfl⟩
  · simp [hg]
  · simp [TaskView.setDates, hg]

theorem retention (hr : v.record = some r) (hg : r.generation = g) : Within g v (v.retention env) := by
  subst hg
  unfold TaskView.retention
  simp only [hr]
  exact setDates _ _

theorem applyPolicy (hr : v.record = some r) (hg : r.generation = g) (held : Bool) :
    Within g v (v.applyPolicy env id held) := by
  cases ho : r.outcome with
  | none =>
    rw [TaskView.applyPolicy, hr]
    simp only [ho]
    exact refl _ _
  | some outcome =>
    rw [applyPolicy_of_settled env hr ho]
    split
    · obtain ⟨history, hrecord⟩ := record_move env id none none 0 hr
      exact (move env id hr hg none 0 none).trans (delete env id hrecord hg)
    · exact move env id hr hg _ 0 none

theorem recordFailure (hr : v.record = some r) (hg : r.generation = g) (error : LuaValue) (retryAt : Option ℚ)
    (kind : FailureKind) : Within g v (v.recordFailure env id error retryAt kind) := by
  have hrecord := record_appendTaskError env hr error retryAt kind
  have hpublish := publish env id hrecord ((TaskRecord.generation_failed _ _ _ _ _).trans hg)
    (((v.countFailure kind).appendTaskError env error retryAt).failedEvent error retryAt kind)
    (some (if error.errorTag = some canceledTag then .canceled else kind)) none
  exact (of_eq rfl rfl rfl : Within g v ((v.countFailure kind).appendTaskError env error retryAt)).trans hpublish

end Within

/-! ### What preserves consistency -/

theorem LeaseSound.of_unlocked (h : v.lock = none) : v.LeaseSound now := fun l hl => by
  rw [h] at hl
  exact absurd hl (by simp)

/-- A lease is only sound at a later clock if it was sound before. -/
theorem Consistent.mono {now' : ℚ} (h : v.Consistent now) (hle : now ≤ now') : v.Consistent now' :=
  { h with lease := fun l hl halive => h.lease l hl (hle.trans halive) }

/-- A runnable or settled record without a live lease has no live lease. -/
theorem Consistent.no_lease (h : v.Consistent now) (hidle : ∀ r, ¬ v.Running r) (l : Lock) (hl : v.lock = some l) :
    l.expiresAt < now := by
  by_contra hlt
  obtain ⟨r, hr, _⟩ := h.lease l hl (not_lt.mp hlt)
  exact hidle r hr

/-- The record of an id changed, and the id with it. -/
theorem Consistent.update (h : v.Consistent now) (hr : v.record = some r) (hr' : v'.record = some r')
    (hgeneration : r'.generation = r.generation) (hplaced : r'.Placed) (hlisted : v'.Listed)
    (hlease : v'.LeaseSound now) (hcounter : v'.counter = v.counter) (hcreated : v'.createdAt = v.createdAt)
    (hwithin : Within r.generation v v') : v'.Consistent now where
  listed := hlisted
  created := by
    rw [hcreated, h.created, hr, hr']
    rfl
  placed r'' hr'' := by
    rw [hr'] at hr''
    exact Option.some.inj hr'' ▸ hplaced
  lease := hlease
  generation r'' hr'' := by
    rw [hr'] at hr''
    rw [← Option.some.inj hr'', hgeneration, hcounter]
    exact h.generation r hr
  fresh g' hg' := by
    rw [hcounter] at hg'
    have hne : g' ≠ r.generation := by
      have hgen := (h.generation r hr).1
      omega
    rw [hwithin.result g' hne, hwithin.dates g' hne, hwithin.history g' hne]
    exact h.fresh g' hg'

/-- The record of an id went. -/
theorem Consistent.dispose (h : v.Consistent now) (hr : v.record = some r) (hr' : v'.record = none)
    (hlisted : v'.Listed) (hcreated : v'.createdAt = none) (hcounter : v'.counter = v.counter)
    (hlease : ∀ l, v'.lock = some l → l.expiresAt < now) (hwithin : Within r.generation v v') : v'.Consistent now where
  listed := hlisted
  created := by
    rw [hcreated, hr']
    rfl
  placed r'' hr'' := absurd (hr'.symm.trans hr'') (by simp)
  lease l hl halive := absurd halive (not_le.mpr (hlease l hl))
  generation r'' hr'' := absurd (hr'.symm.trans hr'') (by simp)
  fresh g' hg' := by
    rw [hcounter] at hg'
    have hne : g' ≠ r.generation := by
      have hgen := (h.generation r hr).1
      omega
    rw [hwithin.result g' hne, hwithin.dates g' hne, hwithin.history g' hne]
    exact h.fresh g' hg'

/-- Only results and dates of an allocated generation changed. -/
theorem Consistent.aside (h : v.Consistent now) (hg : g ≤ v.counter) (hrecord : v'.record = v.record)
    (hwaiting : v'.waiting = v.waiting) (hscore : v'.score = v.score) (hlock : v'.lock = v.lock)
    (hcounter : v'.counter = v.counter) (hcreated : v'.createdAt = v.createdAt) (hwithin : Within g v v') :
    v'.Consistent now where
  listed := h.listed.congr hwaiting hscore (by simp only [place, hrecord])
  created := by rw [hcreated, hrecord, h.created]
  placed r hr := h.placed r (hrecord ▸ hr)
  lease l hl halive := by
    obtain ⟨r, hr, hactive⟩ := h.lease l (hlock ▸ hl) halive
    exact ⟨r, ⟨hrecord ▸ hr.record, hr.place, hr.outcome⟩, hscore ▸ hactive⟩
  generation r hr := hcounter ▸ h.generation r (hrecord ▸ hr)
  fresh g' hg' := by
    rw [hcounter] at hg'
    have hne : g' ≠ g := by omega
    rw [hwithin.result g' hne, hwithin.dates g' hne, hwithin.history g' hne]
    exact h.fresh g' hg'

/-- A dated generation was allocated. -/
theorem Consistent.le_counter (h : v.Consistent now) (hdates : v.dates g ≠ Dates.none) : g ≤ v.counter := by
  by_contra hlt
  exact hdates (h.fresh g (not_le.mp hlt)).2.1

end TaskView

theorem TaskRecord.Placed.outcome_eq_none {r : TaskRecord} (h : r.Placed)
    (hplace : r.place = some .wait ∨ r.place = some .scheduled ∨ r.place = some .active) : r.outcome = none := by
  by_contra hne
  obtain ⟨outcome, ho⟩ := Option.ne_none_iff_exists'.mp hne
  rcases h.settled outcome ho with h | h
  · rw [h] at hplace
    simp at hplace
  · rw [h] at hplace
    unfold CompletionPolicy.list at hplace
    split at hplace <;> simp at hplace

theorem TaskRecord.placed_of_runnable {r : TaskRecord} (ho : r.outcome = none)
    (hplace : r.place = some .wait ∨ r.place = some .scheduled ∨ r.place = some .active) : r.Placed where
  named := by
    unfold TaskRecord.place at hplace
    cases hlist : r.currentList with
    | none => simp [hlist] at hplace
    | some list => rfl
  runnable _ := hplace
  settled outcome ho' := absurd (ho.symm.trans ho') (by simp)

theorem TaskRecord.placed_of_settled {r : TaskRecord} {outcome : Outcome} (hnamed : r.currentList.isSome)
    (ho : r.outcome = some outcome) (hplace : r.place = none ∨ r.place = (r.policy outcome).list) : r.Placed where
  named := hnamed
  runnable ho' := absurd (ho.symm.trans ho') (by simp)
  settled outcome' ho' := by
    obtain rfl := Option.some.inj (ho.symm.trans ho')
    exact hplace

namespace TaskView

variable {env : Env} {id : String} {now : ℚ} {g : ℕ} {v w : TaskView} {r r' : TaskRecord}

theorem leaseSound_of_expired (h : ∀ l, v.lock = some l → l.expiresAt < now) : v.LeaseSound now :=
  fun l hl halive => absurd halive (not_le.mpr (h l hl))

/-- A runnable task went to a runnable list other than the active one. -/
theorem Consistent.requeue (h : v.Consistent now) (hr : v.record = some r) (hw : w.record = some r')
    (hgeneration : r'.generation = r.generation) (ho : r'.outcome = none) (hcounter : w.counter = v.counter)
    (hcreated : w.createdAt = v.createdAt) (hwithin : Within r.generation v w)
    (hlock : ∀ l, w.lock = some l → l.expiresAt < now) {list : TaskList} (hlist : list = .wait ∨ list = .scheduled)
    (readyAt : ℚ) : (w.move env id (some list) readyAt none).Consistent now := by
  obtain ⟨history, hrecord⟩ := record_move env id none (some list) readyAt hw
  refine h.update hr hrecord hgeneration (TaskRecord.placed_of_runnable ho ?_) (listed_move env id none _ readyAt hw)
    (leaseSound_of_expired ?_) ?_ ?_ ?_
  · rcases hlist with rfl | rfl
    · exact Or.inl rfl
    · exact Or.inr (Or.inl rfl)
  · rwa [lock_move]
  · rw [counter_move, hcounter]
  · rw [createdAt_move, hcreated]
  · exact hwithin.trans (Within.move env id hw hgeneration _ readyAt none)

/-- A settled task went where its policy says. -/
theorem Consistent.applyPolicy (h : v.Consistent now) (hr : v.record = some r) (hw : w.record = some r')
    (hgeneration : r'.generation = r.generation) {outcome : Outcome} (ho : r'.outcome = some outcome)
    (hcounter : w.counter = v.counter) (hcreated : w.createdAt = v.createdAt) (hwithin : Within r.generation v w)
    (hlock : ∀ l, w.lock = some l → l.expiresAt < now) (held : Bool) :
    (w.applyPolicy env id held).Consistent now := by
  have hwithin' := hwithin.trans (Within.applyPolicy env id hw hgeneration held)
  rw [applyPolicy_of_settled env hw ho] at hwithin' ⊢
  split
  · next hdelete =>
    rw [if_pos hdelete] at hwithin'
    refine h.dispose hr rfl (listed_delete env id) rfl ?_ ?_ hwithin'
    · simpa [delete, drop] using hcounter
    · simpa [delete, drop] using hlock
  · next hkeep =>
    rw [if_neg hkeep] at hwithin'
    obtain ⟨history, hrecord⟩ := record_move env id none (r'.policy outcome).list 0 hw
    refine h.update hr hrecord hgeneration (TaskRecord.placed_of_settled rfl ho (Or.inr rfl))
      (listed_move env id none _ 0 hw) (leaseSound_of_expired ?_) ?_ ?_ hwithin'
    · rwa [lock_move]
    · rw [counter_move, hcounter]
    · rw [createdAt_move, hcreated]

theorem Consistent.settle (h : v.Consistent now) (hr : v.record = some r) (hw : w.record = some r')
    (hgeneration : r'.generation = r.generation) {outcome : Outcome} (ho : r'.outcome = some outcome)
    (hcounter : w.counter = v.counter) (hcreated : w.createdAt = v.createdAt) (hwithin : Within r.generation v w)
    (hlock : w.lock = none) (terminalFailure : LuaValue) (held : Bool) :
    (w.settle env id terminalFailure held).Consistent now := by
  have hpersist : (w.persist env terminalFailure).record = some r' := (record_persist env terminalFailure).trans hw
  have hretention : ((w.persist env terminalFailure).retention env).record = some r' :=
    (record_retention env).trans hpersist
  have hkept : ((w.persist env terminalFailure).retention env).counter = w.counter ∧
      ((w.persist env terminalFailure).retention env).createdAt = w.createdAt ∧
      ((w.persist env terminalFailure).retention env).lock = w.lock := by
    simp [retention, persist, hw, setDates]
  refine h.applyPolicy hr hretention hgeneration ho (hkept.1.trans hcounter) (hkept.2.1.trans hcreated)
    ((hwithin.trans (Within.persist env hw hgeneration terminalFailure)).trans (Within.retention env hpersist hgeneration)) ?_ held
  intro l hl
  rw [hkept.2.2, hlock] at hl
  exact absurd hl (by simp)

theorem Consistent.delete (h : v.Consistent now) (hr : v.record = some r)
    (hlock : ∀ l, v.lock = some l → l.expiresAt < now) : (v.delete env id).Consistent now := by
  refine h.dispose hr rfl (listed_delete env id) rfl ?_ ?_ (Within.delete env id hr rfl)
  · simp [TaskView.delete, drop]
  · simpa [TaskView.delete, drop] using hlock

theorem leaseholder_eq_none_iff : v.leaseholder env = none ↔ ∀ l, v.lock = some l → l.expiresAt < env.now := by
  unfold leaseholder
  cases v.lock with
  | none => simp
  | some l =>
    by_cases hl : env.now ≤ l.expiresAt
    · simp [Option.filter, hl]
    · simp [Option.filter, hl, not_le.mp hl]

theorem Consistent.expired_of_settled (h : v.Consistent now) (hsettled : v.Settled r) :
    ∀ l, v.lock = some l → l.expiresAt < now := by
  refine h.no_lease fun r' hrunning => ?_
  have heq := Option.some.inj (hsettled.record.symm.trans hrunning.record)
  have ho := hsettled.outcome
  rw [heq, hrunning.outcome] at ho
  exact absurd ho (by simp)

/-! ### The actions -/

theorem Consistent.create (h : v.Consistent env.now) (hr : v.record = none) (a : CreateArgs)
    (replacedTask : Option TaskRecord) : ((v.create env a).announce env id a replacedTask).Consistent env.now := by
  have hlock : ∀ l, v.lock = some l → l.expiresAt < env.now :=
    h.no_lease fun r hrunning => absurd (hr.symm.trans hrunning.record) (by simp)
  have hcreate : (v.create env a).record = some (newRecord env a (v.counter + 1)) := rfl
  generalize hevent : (v.create env a).announcement env a replacedTask = event
  obtain ⟨history, hpublish⟩ := record_publish env id event none none hcreate
  have hannounce : ∃ list readyAt, (list = .wait ∨ list = .scheduled) ∧
      (v.create env a).announce env id a replacedTask =
        ((v.create env a).publish env id event none none).move env id (some list) readyAt none := by
    unfold announce
    rw [hevent]
    split
    · exact ⟨.scheduled, _, Or.inr rfl, rfl⟩
    · exact ⟨.wait, _, Or.inl rfl, rfl⟩
  obtain ⟨list, readyAt, hlist, heq⟩ := hannounce
  obtain ⟨history', hrecord⟩ := record_move env id none (some list) readyAt hpublish
  have hwithin : Within (v.counter + 1) v ((v.create env a).announce env id a replacedTask) := by
    rw [heq]
    exact ((Within.of_eq rfl rfl rfl : Within (v.counter + 1) v (v.create env a)).trans
      (Within.publish env id hcreate rfl event none none)).trans (Within.move env id hpublish rfl _ readyAt none)
  rw [heq] at hwithin ⊢
  refine ⟨listed_move env id none _ readyAt hpublish, ?_, ?_, leaseSound_of_expired ?_, ?_, ?_⟩
  · rw [createdAt_move, hrecord]
    rfl
  · intro r hr'
    rw [hrecord] at hr'
    rw [← Option.some.inj hr']
    refine TaskRecord.placed_of_runnable rfl ?_
    rcases hlist with rfl | rfl
    · exact Or.inl rfl
    · exact Or.inr (Or.inl rfl)
  · rwa [lock_move]
  · intro r hr'
    rw [hrecord] at hr'
    rw [← Option.some.inj hr', counter_move]
    exact ⟨rfl, Nat.succ_pos _⟩
  · intro g hg
    rw [counter_move] at hg
    have hlt : v.counter + 1 < g := hg
    have hne : g ≠ v.counter + 1 := by omega
    rw [hwithin.result g hne, hwithin.dates g hne, hwithin.history g hne]
    exact h.fresh g (by omega)

/-- A task came to the active list with a lease of the same deadline. -/
theorem Consistent.activate (h : v.Consistent env.now) (hr : v.record = some r) (ho : r.outcome = none)
    (hw : w.record = some r) (hcounter : w.counter = v.counter) (hcreated : w.createdAt = v.createdAt)
    (hwithin : Within r.generation v w) (readyAt : ℚ) (attempt : Option ℕ) {v' : TaskView} {r' : TaskRecord}
    (hrecord : v'.record = some r') (hr' : ∃ history, (w.move env id (some .active) readyAt attempt).record =
      some { r' with attempt := r.attempt, history := history })
    (hkept : v'.waiting = (w.move env id (some .active) readyAt attempt).waiting ∧
      v'.score = (w.move env id (some .active) readyAt attempt).score ∧
      v'.counter = w.counter ∧ v'.createdAt = w.createdAt)
    (hwithin' : Within r.generation (w.move env id (some .active) readyAt attempt) v') (leaseToken : String)
    (hlock : v'.lock = some ⟨leaseToken, readyAt⟩) : v'.Consistent env.now := by
  obtain ⟨history, hmove⟩ := record_move env id attempt (some .active) readyAt hw
  obtain ⟨history', hr'⟩ := hr'
  have heq := Option.some.inj (hmove.symm.trans hr')
  have hgeneration : r'.generation = r.generation := (congrArg TaskRecord.generation heq).symm
  have hplace : r'.place = some .active := (congrArg TaskRecord.place heq).symm
  have houtcome : r'.outcome = none := (congrArg TaskRecord.outcome heq).symm.trans ho
  refine h.update hr hrecord hgeneration
    (TaskRecord.placed_of_runnable houtcome (Or.inr (Or.inr hplace))) ?_ ?_ (hkept.2.2.1.trans hcounter)
    (hkept.2.2.2.trans hcreated) ((hwithin.trans (Within.move env id hw rfl _ readyAt attempt)).trans hwithin')
  · refine (listed_move env id attempt (some .active) readyAt hw).congr hkept.1 hkept.2.1 ?_
    rw [place_of_record hrecord, hplace, place_move env id attempt _ readyAt hw]
  · intro l hl _
    rw [hlock] at hl
    refine ⟨r', ⟨hrecord, hplace, houtcome⟩, ?_⟩
    rw [hkept.2.1, score_move, ← Option.some.inj hl]
    simp [entryScore]

theorem Consistent.lease_step (h : v.Consistent env.now) (hr : v.record = some r) (hplace : r.place = some .wait)
    (leaseToken : String) (lockTimeout : ℚ) : (v.lease env id leaseToken lockTimeout).Consistent env.now := by
  have ho := (h.placed r hr).outcome_eq_none (Or.inl hplace)
  generalize hattempt : some ((v.record.map TaskRecord.attempt).getD 0 + 1) = attempt
  obtain ⟨history, hmove⟩ := record_move env id attempt (some .active) (env.now + lockTimeout) hr
  have hrecord : (v.lease env id leaseToken lockTimeout).record =
      some { r with currentList := some (some .active), history := history, attempt := r.attempt + 1 } := by
    simp only [TaskView.lease, hattempt, modify, hmove, Option.map_some]
  refine h.activate hr ho hr rfl rfl (Within.refl _ _) (env.now + lockTimeout) attempt hrecord ⟨history, hmove⟩
    ⟨?_, ?_, ?_, ?_⟩ ?_ leaseToken rfl <;> simp only [TaskView.lease, hattempt, modify]
  · rw [counter_move]
  · rw [createdAt_move]
  · exact Within.of_eq rfl rfl rfl

theorem Consistent.renew (h : v.Consistent env.now) (hrunning : v.Running r) (leaseToken : String)
    (lockTimeout : ℚ) : (v.renew env id leaseToken lockTimeout).Consistent env.now := by
  have hlocked : { v with lock := some (Lock.mk leaseToken (env.now + lockTimeout)) }.record = some r :=
    hrunning.record
  obtain ⟨history, hmove⟩ := record_move env id none (some .active) (env.now + lockTimeout) hlocked
  refine h.activate hrunning.record hrunning.outcome hlocked rfl rfl (Within.of_eq rfl rfl rfl)
    (env.now + lockTimeout) none (show (v.renew env id leaseToken lockTimeout).record = _ from hmove) ⟨history, hmove⟩
    ⟨rfl, rfl, ?_, ?_⟩ (Within.refl _ _) leaseToken ?_
  · exact counter_move env id none _ _
  · exact createdAt_move env id none _ _
  · exact lock_move env id none _ _

theorem Consistent.unlock (h : v.Consistent now) : v.unlock.Consistent now :=
  { h with
    listed := h.listed.congr rfl rfl rfl
    lease := LeaseSound.of_unlocked rfl }

theorem Consistent.push (h : v.Consistent now) (hrunning : v.Running r) (data : HistoryData) (attempt : Option ℕ) :
    (v.push env id data attempt).Consistent now := by
  obtain ⟨history, hrecord⟩ := record_push env id data attempt hrunning.record
  have hplace : (v.push env id data attempt).place = v.place := by
    rw [place_of_record hrecord, place_of_record hrunning.record]
    rfl
  refine h.update hrunning.record hrecord rfl
    (TaskRecord.placed_of_runnable hrunning.outcome (Or.inr (Or.inr hrunning.place))) (h.listed.congr rfl rfl hplace) ?_
    rfl rfl (Within.push env id hrunning.record rfl data attempt)
  intro l hl halive
  obtain ⟨r', hrunning', hactive⟩ := h.lease l hl halive
  exact ⟨_, ⟨hrecord, hrunning.place, hrunning.outcome⟩, hactive⟩

/-- A failed attempt, before the task goes anywhere. -/
theorem failed_kept (cause : Cause) (error : LuaValue) (retryAt : ℚ) :
    (TaskAction.failed env id cause error retryAt v).counter = v.counter ∧
      (TaskAction.failed env id cause error retryAt v).createdAt = v.createdAt ∧
      (TaskAction.failed env id cause error retryAt v).lock = none := ⟨rfl, rfl, rfl⟩

theorem Consistent.retry (h : v.Consistent env.now) (hrunning : v.Running r) (cause : Cause) (error : LuaValue)
    (retryAt : ℚ) : (TaskAction.apply env id v (.retry cause error retryAt)).Consistent env.now := by
  obtain ⟨history, hrecord⟩ := record_recordFailure env id hrunning.record error (retryTime retryAt) cause.kind
  have hgeneration := TaskRecord.generation_failed env r error (retryTime retryAt) cause.kind
  have houtcome := (TaskRecord.outcome_failed env r error (retryTime retryAt) cause.kind).trans hrunning.outcome
  have hwithin := Within.recordFailure env id hrunning.record rfl error (retryTime retryAt) cause.kind
  have hlock : ∀ l, (TaskAction.failed env id cause error retryAt v).lock = some l → l.expiresAt < env.now :=
    fun l hl => absurd hl (by simp [(failed_kept cause error retryAt).2.2])
  unfold TaskAction.apply
  dsimp only
  split
  · exact h.requeue hrunning.record hrecord hgeneration houtcome rfl rfl hwithin hlock (Or.inr rfl) retryAt
  · exact h.requeue hrunning.record hrecord hgeneration houtcome rfl rfl hwithin hlock (Or.inl rfl) 0

theorem Consistent.fail (h : v.Consistent env.now) (hrunning : v.Running r) (cause : Cause) (error : LuaValue)
    (retryAt : ℚ) (held : Bool) :
    (TaskAction.apply env id v (.fail cause error retryAt held)).Consistent env.now := by
  obtain ⟨history, hrecord⟩ := record_recordFailure env id hrunning.record error (retryTime retryAt) cause.kind
  have hgeneration := TaskRecord.generation_failed env r error (retryTime retryAt) cause.kind
  have hwithin := Within.recordFailure env id hrunning.record rfl error (retryTime retryAt) cause.kind
  have hset : ((TaskAction.failed env id cause error retryAt v).set env
      fun r => { r with outcome := some .failure }).record = some _ := congrArg (Option.map _) hrecord
  exact h.settle hrunning.record hset hgeneration rfl rfl rfl (hwithin.trans (Within.of_eq rfl rfl rfl)) rfl error held

theorem Consistent.succeed (h : v.Consistent env.now) (hrunning : v.Running r) (leaseToken result : String)
    (held : Bool) : (TaskAction.apply env id v (.succeed leaseToken result held)).Consistent env.now := by
  have hset : (v.unlock.set env fun r => { r with success := some result, outcome := some .success }).record =
      some { r with updatedAt := env.clock, success := some result, outcome := some .success } := by
    simp [set, modify, TaskView.unlock, hrunning.record]
  obtain ⟨history, hrecord⟩ := record_publish env id
    (.completed result (((v.unlock.set env fun r =>
      { r with success := some result, outcome := some .success }).record.map TaskRecord.onSuccessPolicy).getD .delete))
    none none hset
  have hwithin := (Within.of_eq rfl rfl rfl : Within r.generation v
    (v.unlock.set env fun r => { r with success := some result, outcome := some .success })).trans
    (Within.publish env id hset rfl (.completed result (((v.unlock.set env fun r =>
      { r with success := some result, outcome := some .success }).record.map TaskRecord.onSuccessPolicy).getD .delete))
      none none)
  exact h.settle hrunning.record hrecord rfl rfl rfl rfl hwithin rfl .nil held

theorem due_ne_none {date : Dates → Option ℚ} (hdate : date Dates.none = none) (h : Due env (date (v.dates g))) :
    v.dates g ≠ Dates.none := by
  intro heq
  obtain ⟨t, ht, _⟩ := h
  rw [heq, hdate] at ht
  exact absurd ht (by simp)

/-- Taking the members of a generation out of the expiry indexes leaves everything else. -/
theorem Consistent.setDates (h : v.Consistent now) (hg : g ≤ v.counter) (f : Dates → Dates) :
    (v.setDates g f).Consistent now :=
  h.aside hg rfl rfl rfl rfl rfl rfl (Within.setDates g f)

theorem Consistent.expireResult (h : v.Consistent now) (hg : g ≤ v.counter) (held : Bool) :
    (TaskView.expireResult env held g v).Consistent now := by
  unfold TaskView.expireResult
  split
  · exact h.setDates hg _
  · refine h.aside hg rfl rfl rfl rfl rfl rfl ((Within.setDates g fun d => { d with result := none }).trans ?_)
    exact ⟨fun g' hne => Function.update_of_ne hne _ _, fun _ _ => rfl, fun _ _ => rfl⟩

/-- Without a record there is nothing to delete. -/
theorem Consistent.delete_eq (h : v.Consistent now) (hr : v.record = none) : v.delete env id = v := by
  have hplace : v.place = none := place_of_record_none hr
  have hmove : v.move env id none 0 none = v.relist env none 0 := by
    rw [TaskView.move, if_pos hplace]
  have hrelist : (v.relist env none 0).record = none := by simp [relist, hr]
  have hcreated : v.createdAt = none := by simpa [hr] using h.created
  unfold TaskView.delete drop
  rw [hmove]
  ext1
  · exact hr.symm
  · rfl
  · exact hcreated.symm
  · simpa [relist, hplace] using h.listed.waiting.symm
  · funext l
    have hl := h.listed.score l
    have hscore : v.score l = none := by simpa [hplace] using hl
    rw [hscore]
    simp [relist]
  · rfl
  · rfl
  · simp only [hrelist]
    rfl
  · simp only [hrelist]
    rfl
  · rfl

theorem Consistent.erase (h : v.Consistent now) (g : ℕ) : (v.erase g).Consistent now where
  listed := h.listed.congr rfl rfl rfl
  created := h.created
  placed := h.placed
  lease l hl halive := by
    obtain ⟨r, hrunning, hactive⟩ := h.lease l hl halive
    exact ⟨r, ⟨hrunning.record, hrunning.place, hrunning.outcome⟩, hactive⟩
  generation := h.generation
  fresh g' hg' := by
    obtain ⟨hresult, hdates, hhistory⟩ := h.fresh g' hg'
    by_cases hne : g' = g
    · subst hne
      exact ⟨Function.update_self .., Function.update_self .., hhistory⟩
    · refine ⟨?_, ?_, hhistory⟩
      · rw [← hresult]
        exact Function.update_of_ne hne _ _
      · rw [← hdates]
        exact Function.update_of_ne hne _ _

/-- Deleting whatever is stored keeps the view consistent, as long as no lease is alive. -/
theorem Consistent.remove (h : v.Consistent now) (hlock : ∀ l, v.lock = some l → l.expiresAt < now) :
    (v.delete env id).Consistent now := by
  cases hr : v.record with
  | none => rwa [h.delete_eq hr]
  | some r => exact h.delete hr hlock

theorem Listed.unindexed (h : v.Listed) (hr : v.record = some r) :
    (v.unindexed r).place = if v.place = some .success ∨ v.place = some .failed then none else v.place := by
  have hsuccess : (v.score .success).isSome ↔ v.place = some .success := by simpa using h.score .success
  have hfailed : (v.score .failed).isSome ↔ v.place = some .failed := by simpa using h.score .failed
  simp only [TaskView.unindexed, hsuccess, hfailed]
  split
  · rfl
  · rw [place_of_record hr]

theorem unindexed_fields (v : TaskView) (r : TaskRecord) : (v.unindexed r).generation = r.generation ∧
    (v.unindexed r).outcome = r.outcome ∧ (v.unindexed r).policy = r.policy := by
  unfold TaskView.unindexed
  split <;> exact ⟨rfl, rfl, rfl⟩

theorem Consistent.unindexTerminal (h : v.Consistent now) (hr : v.record = some r) :
    v.unindexTerminal.Consistent now := by
  have hplace := h.listed.unindexed hr
  obtain ⟨hgeneration, houtcome, hpolicy⟩ := unindexed_fields v r
  have hrecord : v.unindexTerminal.record = some (v.unindexed r) := by simp [TaskView.unindexTerminal, hr]
  have hview : v.unindexTerminal.place = (v.unindexed r).place := place_of_record hrecord
  refine h.update hr hrecord hgeneration ?_ ⟨?_, fun l => ?_⟩ ?_ rfl rfl (Within.of_eq rfl rfl rfl)
  · -- a settled record keeps its place or has none, a runnable one is in neither index
    have hplaced := h.placed r hr
    rw [place_of_record hr] at hplace
    refine ⟨?_, fun ho => ?_, fun outcome ho => ?_⟩
    · unfold TaskView.unindexed
      split
      · rfl
      · exact hplaced.named
    · rw [hplace]
      rcases hplaced.runnable (houtcome.symm.trans ho) with hp | hp | hp <;> simp [hp]
    · rw [hplace, hpolicy]
      split
      · exact Or.inl rfl
      · exact hplaced.settled outcome (houtcome.symm.trans ho)
  · rw [hview, hplace]
    refine h.listed.waiting.trans ?_
    split <;> split <;> simp_all
  · rw [hview, hplace]
    have hl := h.listed.score l
    dsimp only [TaskView.unindexTerminal]
    split <;> split <;> grind
  · intro l hl halive
    obtain ⟨r', hrunning, hactive⟩ := h.lease l hl halive
    obtain rfl := Option.some.inj (hr.symm.trans hrunning.record)
    refine ⟨v.unindexed r, ⟨hrecord, ?_, houtcome.trans hrunning.outcome⟩, by simpa [TaskView.unindexTerminal] using hactive⟩
    rw [hplace, place_of_record hr, hrunning.place]
    simp

theorem Consistent.expireTerminal (h : v.Consistent now) (hg : g ≤ v.counter) :
    (v.expireTerminal g).Consistent now := by
  unfold TaskView.expireTerminal
  by_cases hcurrent : v.record.any (fun r => r.generation = g) = true
  · obtain ⟨r, hr, _⟩ := (Option.any_eq_true _ _).mp hcurrent
    rw [if_pos hcurrent]
    exact (h.unindexTerminal hr).setDates hg _
  · rw [if_neg hcurrent]
    exact h.setDates hg _

end TaskView

/-- Every step of the task machine keeps the view consistent. -/
theorem TaskStep.consistent {env : Env} {id : String} {v v' : TaskView} {a : TaskAction}
    (hstep : TaskStep env id v a v') (h : v.Consistent env.now) : v'.Consistent env.now := by
  obtain ⟨henabled, rfl⟩ := hstep
  cases a with
  | create a replacedTask => exact h.create henabled a replacedTask
  | promote =>
    obtain ⟨⟨r, hr, hplace⟩, _⟩ := henabled
    have ho := (h.placed r hr).outcome_eq_none (Or.inr (Or.inl hplace))
    refine h.requeue hr hr rfl ho rfl rfl (TaskView.Within.refl _ _) (h.no_lease fun r' hrunning => ?_) (Or.inl rfl) 0
    have heq := Option.some.inj (hr.symm.trans hrunning.record)
    rw [heq, hrunning.place] at hplace
    exact absurd hplace (by simp)
  | lease leaseToken lockTimeout =>
    obtain ⟨⟨r, hr, hplace⟩, _⟩ := henabled
    exact h.lease_step hr hplace leaseToken lockTimeout
  | renew leaseToken lockTimeout =>
    obtain ⟨⟨r, hrunning⟩, _⟩ := henabled
    exact h.renew hrunning leaseToken lockTimeout
  | release leaseToken =>
    obtain ⟨⟨r, hrunning⟩, _⟩ := henabled
    have hunlocked : ∀ l, v.unlock.lock = some l → l.expiresAt < env.now := fun l hl => absurd hl (by simp [TaskView.unlock])
    have hrecord : v.unlock.record = some r := hrunning.record
    exact h.requeue hrunning.record hrecord rfl hrunning.outcome rfl rfl (TaskView.Within.of_eq rfl rfl rfl)
      hunlocked (Or.inl rfl) 0
  | retry cause error retryAt =>
    obtain ⟨⟨r, hrunning⟩, _⟩ := henabled
    exact h.retry hrunning cause error retryAt
  | fail cause error retryAt held =>
    obtain ⟨⟨r, hrunning⟩, _⟩ := henabled
    exact h.fail hrunning cause error retryAt held
  | succeed leaseToken result held =>
    obtain ⟨⟨r, hrunning⟩, _⟩ := henabled
    exact h.succeed hrunning leaseToken result held
  | progress leaseToken data =>
    obtain ⟨⟨r, hrunning⟩, _⟩ := henabled
    exact h.push hrunning (.progress data) none
  | refile =>
    obtain ⟨r, hsettled⟩ := henabled
    obtain ⟨outcome, ho⟩ := Option.isSome_iff_exists.mp hsettled.outcome
    exact h.applyPolicy hsettled.record hsettled.record rfl ho rfl rfl (TaskView.Within.refl _ _)
      (h.expired_of_settled hsettled) false
  | replace =>
    obtain ⟨r, hsettled⟩ := henabled
    exact (h.delete hsettled.record (h.expired_of_settled hsettled)).unlock
  | expireTask =>
    obtain ⟨r, hsettled, _⟩ := henabled
    exact h.delete hsettled.record (h.expired_of_settled hsettled)
  | dropDate g =>
    exact h.setDates (h.le_counter (TaskView.due_ne_none rfl henabled.2)) fun d => { d with task := none }
  | holdDate g =>
    exact h.setDates (h.le_counter (TaskView.due_ne_none rfl henabled.2)) fun d =>
      { d with task := some (env.now + 1000) }
  | expireResult g held => exact h.expireResult (h.le_counter (TaskView.due_ne_none rfl henabled)) held
  | expireTerminal g => exact h.expireTerminal (h.le_counter (TaskView.due_ne_none rfl henabled))
  | expireDeadLetter g =>
    exact h.setDates (h.le_counter (TaskView.due_ne_none rfl henabled)) fun d =>
      { d with deadLetter := none, deadLetterExpiry := none }
  | remove => exact h.remove (TaskView.leaseholder_eq_none_iff.mp henabled)
  | revoke => exact h.unlock
  | forget g => exact (h.erase g).remove (TaskView.leaseholder_eq_none_iff.mp henabled.2)

end EffectMQ
