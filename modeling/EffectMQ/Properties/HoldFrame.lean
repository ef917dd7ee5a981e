import EffectMQ.Lifecycle.Holds
import EffectMQ.Lifecycle.Run
import EffectMQ.Lifecycle.Scenario

/-!
# What a hold changes of the task it is on

A hold is acquired or dropped without a trace on the settled task, which loses its record with its last hold when its
policy is to delete it. The exception is a task that a policy put into a terminal index: its last hold enters it
again, at the time of the release.
-/

namespace EffectMQ

open Redis Transition

/-- The steps that acquire or release a hold on a generation. -/
def EngineAction.HoldsOn (holder t : TaskIdentity) (act : EngineAction) : Prop :=
  act = .acquire holder t ∨ ∃ refiled, act = .drop holder t refiled

/-- The terminal index that a settled record belongs in. -/
def TaskRecord.index (r : TaskRecord) : Option TaskList := r.outcome.bind fun outcome => (r.policy outcome).list

/-- Of a task in a terminal index, the last hold goes at the very time of its entry. -/
def EngineAction.Steady (env : Env) (s : Store) : EngineAction → Prop
  | .drop holder t _ => (s.retainedBy t).erase holder = ∅ → ∀ r l, s.current t = some r → r.index = some l →
      (s.view (t.queue, t.id)).score l = some env.now
  | _ => True

namespace TaskView

/-- Index entries, list, expiry entries, history and events are unchanged. -/
structure Framed (v v' : TaskView) : Prop where
  score : v'.score = v.score
  currentList : v'.record.map TaskRecord.currentList = v.record.map TaskRecord.currentList
  dates : v'.dates = v.dates
  history : v'.history = v.history
  log : v'.log = v.log

theorem Framed.refl (v : TaskView) : v.Framed v := ⟨rfl, rfl, rfl, rfl, rfl⟩

variable {env : Env} {id : String} {v : TaskView} {r : TaskRecord}

/-- Entering a list again, at the time of the entry, changes nothing. -/
theorem relist_eq (hv : v.Listed) (hr : v.record = some r) {list : Option TaskList} (hlist : r.currentList = some list)
    {readyAt : ℚ} (hscore : ∀ l, list = some l → l ≠ .wait → v.score l = some (entryScore env readyAt l)) :
    v.relist env list readyAt = v := by
  have hplace : v.place = list := by
    rw [place_of_record hr, TaskRecord.place, hlist]
    rfl
  have hrecord : (v.record.map fun r => { r with currentList := some list }) = v.record := by
    rw [hr, Option.map_some, ← hlist]
  have hwaiting : (if list = some .wait then 1 else 0) = v.waiting := by rw [hv.waiting, hplace]
  have hscores : (fun l => if list = some l ∧ l ≠ .wait then some (entryScore env readyAt l) else none) = v.score := by
    funext l
    split
    · next hl => exact (hscore l hl.1 hl.2).symm
    · next hl =>
      have hnone := (hv.score l).not.mpr (by rwa [hplace])
      exact (Option.not_isSome_iff_eq_none.mp hnone).symm
  rw [relist, hrecord, hwaiting, hscores]

/-- The completion policy of a settled task that is in no list. -/
theorem applyPolicy_of_index_none (hv : v.Listed) (hr : v.record = some r) {outcome : Outcome}
    (ho : r.outcome = some outcome) (hlist : r.currentList = some none) (hindex : r.index = none) :
    v.applyPolicy env id false = if r.policy outcome = .delete then v.drop else v := by
  have hnone : (r.policy outcome).list = none := by simpa [TaskRecord.index, ho] using hindex
  have hrelist : v.relist env none 0 = v := relist_eq hv hr hlist fun l hl => absurd hl (by simp)
  have hplace : v.place = none := by
    rw [place_of_record hr, TaskRecord.place, hlist]
    rfl
  have hmove : v.move env id none 0 none = v := by rw [move, if_pos hplace, hrelist]
  rw [applyPolicy_of_settled env hr ho, hnone]
  simp only [and_true]
  split
  · rw [hmove, delete, hmove]
  · exact hmove

/-- The completion policy of a settled task that belongs in a terminal index. -/
theorem applyPolicy_of_index {l : TaskList} (hr : v.record = some r) (hindex : r.index = some l) :
    v.applyPolicy env id false = v.move env id (some l) 0 none ∧ entryScore env 0 l = env.now ∧ l ≠ .wait := by
  obtain ⟨outcome, ho, hlist⟩ := Option.bind_eq_some_iff.mp hindex
  rw [applyPolicy_of_settled env hr ho, hlist]
  cases hpolicy : r.policy outcome with
  | delete | keep => exact absurd (hpolicy ▸ hlist) (by simp [CompletionPolicy.list])
  | markAsSuccess =>
    obtain rfl : TaskList.success = l := by simpa [hpolicy, CompletionPolicy.list] using hlist
    exact ⟨if_neg (by simp), rfl, by simp⟩
  | markAsFailure =>
    obtain rfl : TaskList.failed = l := by simpa [hpolicy, CompletionPolicy.list] using hlist
    exact ⟨if_neg (by simp), rfl, by simp⟩

theorem framed_applyPolicy_iff (hv : v.Listed) (hr : v.record = some r) (hnamed : r.currentList.isSome) {l : TaskList}
    (hindex : r.index = some l) : v.Framed (v.applyPolicy env id false) ↔ v.score l = some env.now := by
  obtain ⟨hpolicy, hnow, hwait⟩ := @applyPolicy_of_index env id v r l hr hindex
  rw [hpolicy]
  constructor
  · intro hframed
    have hscore := congrFun hframed.score l
    rw [score_move, if_pos ⟨rfl, hwait⟩, hnow] at hscore
    exact hscore.symm
  · intro hscore
    have hplace : v.place = some l := ((hv.score l).mp (by simp [hscore])).1
    have hlist : r.currentList = some (some l) := by
      obtain ⟨list, hlist⟩ := Option.isSome_iff_exists.mp hnamed
      rw [place_of_record hr, TaskRecord.place, hlist] at hplace
      rw [hlist]
      exact congrArg some hplace
    have hrelist : v.relist env (some l) 0 = v := relist_eq hv hr hlist fun l' hl _ => by
      obtain rfl := Option.some.inj hl
      rw [hscore, hnow]
    rw [move, if_pos hplace, hrelist]
    exact .refl v

end TaskView

theorem TaskRecord.Placed.currentList_of_index_none {r : TaskRecord} (h : r.Placed) {outcome : Outcome}
    (ho : r.outcome = some outcome) (hindex : r.index = none) : r.currentList = some none := by
  have hnone : (r.policy outcome).list = none := by simpa [TaskRecord.index, ho] using hindex
  obtain ⟨list, hlist⟩ := Option.isSome_iff_exists.mp h.named
  have hplace : r.place = none := (h.settled outcome ho).elim id fun hplace => hplace.trans hnone
  rw [TaskRecord.place, hlist] at hplace
  rw [hlist]
  exact congrArg some hplace

section

variable {env : Env} {b b' : Busy} {s s' : Store} {act : EngineAction}

/-- A settled generation that a delete policy disposes of with its last hold. -/
structure Disposed (s s' : Store) (holder t : TaskIdentity) (r : TaskRecord) : Prop where
  policy : ∃ outcome, r.outcome = some outcome ∧ r.policy outcome = .delete
  last : (s.retainedBy t).erase holder = ∅
  view : s'.view (t.queue, t.id) = (s.view (t.queue, t.id)).drop

theorem EngineStep.frame_iff (hstep : EngineStep env b s act b' s') (hs : Sane env.now s) {holder t : TaskIdentity}
    (hact : act.HoldsOn holder t) {r : TaskRecord} (hr : s.current t = some r) (hsettled : r.outcome.isSome) :
    ((s.view (t.queue, t.id)).Framed (s'.view (t.queue, t.id)) ∨ Disposed s s' holder t r) ↔ act.Steady env s := by
  obtain ⟨hrecord, _⟩ := current_eq_some_iff.mp hr
  have hv := hs.views (t.queue, t.id)
  obtain ⟨outcome, ho⟩ := Option.isSome_iff_exists.mp hsettled
  rcases hact with rfl | ⟨refiled, rfl⟩
  · cases hstep with
    | acquire hholder hcurrent hroom => exact iff_of_true (Or.inl (.refl _)) trivial
  · cases hstep with
    | dropKept hkept =>
      refine iff_of_true (Or.inl (.refl _)) fun hlast => ?_
      have hheld : (s.unhold holder t).retainedBy t ≠ ∅ :=
        hasRetentionHolds_iff.mp ((hkept r hr).resolve_left (by simp [ho]))
      exact absurd ((s.retainedBy_unhold holder t).trans hlast) hheld
    | dropRefiled hcurrent hsettled' hheld hlocal =>
      have hlast : (s.retainedBy t).erase holder = ∅ :=
        (s.retainedBy_unhold holder t).symm.trans (not_hasRetentionHolds.mp hheld)
      have hview : s'.view (t.queue, t.id) = (s.view (t.queue, t.id)).applyPolicy env t.id false := hlocal.view_self
      cases hindex : r.index with
      | none =>
        have hlist := (hv.placed r hrecord).currentList_of_index_none ho hindex
        rw [TaskView.applyPolicy_of_index_none hv.listed hrecord ho hlist hindex] at hview
        refine iff_of_true ?_ fun _ r₀ l hr₀ hindex' => ?_
        · by_cases hpolicy : r.policy outcome = .delete
          · rw [if_pos hpolicy] at hview
            exact Or.inr ⟨⟨outcome, ho, hpolicy⟩, hlast, hview⟩
          · rw [if_neg hpolicy] at hview
            rw [hview]
            exact Or.inl (.refl _)
        · obtain rfl := Option.some.inj (hr.symm.trans hr₀)
          exact absurd (hindex.symm.trans hindex') (by simp)
      | some l =>
        have hiff := @TaskView.framed_applyPolicy_iff env t.id _ r hv.listed hrecord (hv.placed r hrecord).named l hindex
        rw [← hview] at hiff
        constructor
        · rintro (hframed | hdisposed) _ r₀ l' hr₀ hindex'
          · obtain rfl := Option.some.inj (hr.symm.trans hr₀)
            obtain rfl := Option.some.inj (hindex.symm.trans hindex')
            exact hiff.mp hframed
          · obtain ⟨outcome', ho', hpolicy⟩ := hdisposed.policy
            simp [TaskRecord.index, ho', hpolicy, CompletionPolicy.list] at hindex
        · exact fun hsteady => Or.inl (hiff.mpr (hsteady hlast r l hr hindex))

end

/-! ### Runs whose releases are steady -/

/-- A task that belongs in a terminal index is there at the time of its settlement, until its expiry takes it out. -/
structure TaskView.Indexed (now : ℚ) (v : TaskView) : Prop where
  entry : ∀ r l, v.record = some r → r.index = some l →
    (v.score l = some (r.updatedAt : ℚ) ∧
      (v.dates r.generation).terminal = some ((r.updatedAt : ℚ) + r.terminalIndexRetentionMs)) ∨
    (v.score l = none ∧ (v.dates r.generation).terminal = none ∧ r.updatedAt + r.terminalIndexRetentionMs ≤ now)
  settled : ∀ r l result, v.record = some r → r.index = some l → v.result r.generation = some result →
    result.settledAt = r.updatedAt

theorem TaskView.Indexed.mono {now now' : ℚ} {v : TaskView} (h : v.Indexed now) (hnow : now ≤ now') :
    v.Indexed now' where
  entry r l hr hindex := (h.entry r l hr hindex).imp_right fun ⟨hscore, hdate, hpassed⟩ =>
    ⟨hscore, hdate, hpassed.trans hnow⟩
  settled := h.settled

theorem TaskRecord.SameOffer.index {r r' : TaskRecord} (h : r.SameOffer r') (ho : r'.outcome = r.outcome) :
    r'.index = r.index := by
  rw [TaskRecord.index, ho, TaskRecord.index]
  cases r.outcome with
  | none => rfl
  | some outcome => exact congrArg CompletionPolicy.list (h.policy outcome)

namespace TaskView

variable {env : Env} {id : String} {v v' : TaskView} {r : TaskRecord}

/-- A settlement enters the index and dates the end of the entry. -/
theorem settle_of_index {l : TaskList} (hr : v.record = some r) (hindex : r.index = some l) (terminalFailure : LuaValue)
    (held : Bool) : (v.settle env id terminalFailure held).score l = some env.now ∧
      ((v.settle env id terminalFailure held).dates r.generation).terminal =
        some (env.now + r.terminalIndexRetentionMs) := by
  obtain ⟨outcome, ho, hlist⟩ := Option.bind_eq_some_iff.mp hindex
  have hpersist := (record_persist env terminalFailure).trans hr
  have hrecord := (record_retention env).trans hpersist
  have hmark : r.policy outcome = .markAsSuccess ∨ r.policy outcome = .markAsFailure := by
    cases hpolicy : r.policy outcome with
    | delete | keep => exact absurd (hpolicy ▸ hlist) (by simp [CompletionPolicy.list])
    | markAsSuccess => exact Or.inl rfl
    | markAsFailure => exact Or.inr rfl
  have hmove : v.settle env id terminalFailure held =
      ((v.persist env terminalFailure).retention env).move env id (some l) 0 none := by
    rw [settle, applyPolicy_of_settled env hrecord ho, hlist, if_neg]
    rintro ⟨hdelete, _⟩
    rcases hmark with h | h <;> exact absurd (hdelete.symm.trans h) (by simp)
  obtain ⟨_, hnow, hwait⟩ := @applyPolicy_of_index env id v r l hr hindex
  constructor
  · rw [hmove, score_move, if_pos ⟨rfl, hwait⟩, hnow]
  · rw [hmove, dates_move, retention, hpersist]
    simp only [setDates, Function.update_self, ho, Option.getD_some, if_pos hmark]

end TaskView

/-- The actions that a settled task can see. -/
def TaskAction.Idle : TaskAction → Prop
  | .refile | .replace | .expireTask | .dropDate _ | .holdDate _ | .expireResult _ _ | .expireTerminal _
  | .expireDeadLetter _ | .remove | .revoke | .forget _ => True
  | _ => False

section

variable {env : Env} {id : String} {v v' : TaskView} {a : TaskAction} {r r' : TaskRecord}

theorem TaskAction.updatedAt_of_settles {outcome : Outcome} (hsettles : a.settles = some outcome)
    (h : a.next env r = some r') : r'.updatedAt = env.clock := by
  cases a with
  | succeed | fail =>
    obtain rfl := TaskRecord.placed_eq_some h
    rfl
  | create | promote | lease | renew | release | retry | progress | refile | replace | expireTask | dropDate | holdDate
  | expireResult | expireTerminal | expireDeadLetter | remove | revoke | forget =>
    exact absurd hsettles (by simp [TaskAction.settles])

theorem TaskAction.Idle.updatedAt (ha : a.Idle) (hsettled : r.outcome.isSome) (h : a.next env r = some r') :
    r'.updatedAt = r.updatedAt := by
  cases a with
  | refile =>
    obtain ⟨outcome, ho⟩ := Option.isSome_iff_exists.mp hsettled
    simp only [TaskAction.next, ho, Option.elim_some] at h
    obtain rfl := TaskRecord.placed_eq_some h
    rfl
  | expireTerminal g =>
    obtain rfl := Option.some.inj h
    unfold TaskRecord.unindexed
    split
    · split <;> rfl
    · rfl
  | replace | expireTask | remove | forget => exact absurd h (by simp [TaskAction.next])
  | dropDate | holdDate | expireResult | expireDeadLetter | revoke =>
    obtain rfl := Option.some.inj h
    rfl
  | create | promote | lease | renew | release | retry | progress | fail | succeed => exact ha.elim

theorem TaskStep.idle_of_settled (hstep : TaskStep env id v a v') (hv : v.Consistent env.now) (h : v.record = some r)
    (hsettled : r.outcome.isSome) : a.Idle := by
  have hrunning : ∀ {P : Prop}, (∃ r, v.Running r) ∧ P → False := fun ⟨⟨r₀, hr₀⟩, _⟩ => by
    obtain rfl := Option.some.inj (h.symm.trans hr₀.record)
    exact absurd hsettled (by simp [hr₀.outcome])
  have hrunnable : ∀ {P : Prop} {l}, l = TaskList.wait ∨ l = .scheduled ∨ l = .active →
      (∃ r, v.record = some r ∧ r.place = some l) ∧ P → False := fun hl ⟨⟨r₀, hr₀, hplace⟩, _⟩ => by
    obtain rfl := Option.some.inj (h.symm.trans hr₀)
    have ho := (hv.placed r h).outcome_eq_none (by rcases hl with rfl | rfl | rfl <;> simp [hplace])
    exact absurd hsettled (by simp [ho])
  have henabled := hstep.1
  cases a with
  | create => exact absurd (henabled.symm.trans h) (by simp)
  | promote => exact (hrunnable (Or.inr (Or.inl rfl)) henabled).elim
  | lease => exact (hrunnable (Or.inl rfl) henabled).elim
  | renew | release | retry | fail | succeed | progress => exact (hrunning henabled).elim
  | refile | replace | expireTask | dropDate | holdDate | expireResult | expireTerminal | expireDeadLetter | remove
  | revoke | forget => trivial

/-- The date of a record's last change, from its settlement on: the settlement. -/
theorem TaskStep.updatedAt_of_settles (hstep : TaskStep env id v a v') (hv : v.Consistent env.now) (h : v.record = some r)
    (h' : v'.record = some r') {outcome : Outcome} (hsettles : a.settles = some outcome) : r'.updatedAt = env.clock := by
  obtain ⟨r'', history, hnext, rfl⟩ := hstep.record_next hv h h'
  have hupdated := TaskAction.updatedAt_of_settles hsettles hnext
  exact hupdated

theorem TaskStep.updatedAt_of_settled (hstep : TaskStep env id v a v') (hv : v.Consistent env.now) (h : v.record = some r)
    (h' : v'.record = some r') (hsettled : r.outcome.isSome) : r'.updatedAt = r.updatedAt := by
  obtain ⟨r'', history, hnext, rfl⟩ := hstep.record_next hv h h'
  have hupdated := (hstep.idle_of_settled hv h hsettled).updatedAt hsettled hnext
  exact hupdated

/-- The entry of a generation after its settlement. -/
theorem TaskStep.index_of_settles (hstep : TaskStep env id v a v') (hv : v.Consistent env.now) (h : v.record = some r)
    (h' : v'.record = some r') {outcome : Outcome} (hsettles : a.settles = some outcome) {l : TaskList}
    (hindex : r'.index = some l) : v'.score l = some env.now ∧
      (v'.dates r'.generation).terminal = some (env.now + r'.terminalIndexRetentionMs) := by
  have hoffer := hstep.sameOffer hv h h'
  have houtcome := (hstep.record_outcome hv h h').2
  have hlist : (r.policy outcome).list = some l := by
    rw [TaskRecord.index, houtcome, hsettles] at hindex
    rw [← hoffer.policy]
    exact hindex
  rw [hoffer.generation, hoffer.terminalIndexRetentionMs]
  obtain ⟨henabled, rfl⟩ := hstep
  cases a with
  | succeed leaseToken result held =>
    obtain rfl := Option.some.inj hsettles
    obtain ⟨history, hrecord⟩ := TaskView.record_succeed env id h result
    have hindex' : ((r.succeeded env result).withHistory history).index = some l := hlist
    exact TaskView.settle_of_index hrecord hindex' .nil held
  | fail cause error retryAt held =>
    obtain rfl := Option.some.inj hsettles
    obtain ⟨history, hfailed⟩ := TaskView.record_recordFailure env id h error (retryTime retryAt) cause.kind
    have hset : ((TaskAction.failed env id cause error retryAt v).set env
        fun r => { r with outcome := some .failure }).record =
        some ((r.exhausted env error (retryTime retryAt) cause.kind).withHistory history) :=
      congrArg (Option.map _) hfailed
    have hsame := r.sameOffer_failed env error (retryTime retryAt) cause.kind
    have hindex' : ((r.exhausted env error (retryTime retryAt) cause.kind).withHistory history).index = some l :=
      (congrArg CompletionPolicy.list hsame.onFailurePolicy).trans hlist
    have hsettle := @TaskView.settle_of_index env id _ _ l hset hindex' error held
    rw [show ((r.exhausted env error (retryTime retryAt) cause.kind).withHistory history).generation = r.generation from
        hsame.generation,
      show ((r.exhausted env error (retryTime retryAt) cause.kind).withHistory history).terminalIndexRetentionMs =
        r.terminalIndexRetentionMs from hsame.terminalIndexRetentionMs] at hsettle
    exact hsettle
  | create | promote | lease | renew | release | retry | progress | refile | replace | expireTask | dropDate | holdDate
  | expireResult | expireTerminal | expireDeadLetter | remove | revoke | forget =>
    exact absurd hsettles (by simp [TaskAction.settles])

theorem terminal_update {dates : ℕ → Dates} {g g' : ℕ} {d : Dates} (hd : d.terminal = (dates g).terminal) :
    (Function.update dates g d g').terminal = (dates g').terminal := by
  by_cases hg : g' = g
  · rw [hg, Function.update_self, hd]
  · rw [Function.update_of_ne hg]

theorem TaskRecord.index_member {l : TaskList} (hindex : r.index = some l) : l = .success ∨ l = .failed := by
  obtain ⟨outcome, _, hlist⟩ := Option.bind_eq_some_iff.mp hindex
  cases hpolicy : r.policy outcome <;> rw [hpolicy] at hlist <;> simp [CompletionPolicy.list] at hlist
  · exact Or.inl hlist.symm
  · exact Or.inr hlist.symm

/-- The entry of a settled generation under a step that keeps the record: unchanged, or gone with its date, which has
come. -/
theorem TaskStep.index_of_settled (hstep : TaskStep env id v a v') (hv : v.Consistent env.now) (h : v.record = some r)
    (h' : v'.record ≠ none) (hsettled : r.outcome.isSome) {l : TaskList} (hindex : r.index = some l)
    (hsteady : a = .refile → v.score l = some env.now) :
    (v'.score l = v.score l ∧ (v'.dates r.generation).terminal = (v.dates r.generation).terminal) ∨
      (v'.score l = none ∧ (v'.dates r.generation).terminal = none ∧
        TaskView.Due env (v.dates r.generation).terminal) := by
  have hidle := hstep.idle_of_settled hv h hsettled
  obtain ⟨henabled, rfl⟩ := hstep
  cases a with
  | refile =>
    have hframed : v.Framed (v.applyPolicy env id false) :=
      (TaskView.framed_applyPolicy_iff hv.listed h (hv.placed r h).named hindex).mpr (hsteady rfl)
    exact Or.inl ⟨congrFun hframed.score l, by rw [TaskAction.apply, hframed.dates]⟩
  | replace | expireTask | remove | forget => exact absurd rfl h'
  | revoke => exact Or.inl ⟨rfl, rfl⟩
  | dropDate | holdDate | expireDeadLetter => exact Or.inl ⟨rfl, terminal_update rfl⟩
  | expireResult g held =>
    simp only [TaskAction.apply, TaskView.expireResult]
    split
    · exact Or.inl ⟨rfl, terminal_update rfl⟩
    · exact Or.inl ⟨rfl, terminal_update rfl⟩
  | expireTerminal g =>
    simp only [TaskAction.apply, TaskView.expireTerminal, h, Option.any_some, decide_eq_true_eq]
    by_cases hg : r.generation = g
    · rw [if_pos hg, hg]
      refine Or.inr ⟨if_pos (TaskRecord.index_member hindex), ?_, henabled⟩
      simp [TaskView.setDates]
    · rw [if_neg hg]
      refine Or.inl ⟨rfl, ?_⟩
      simp [TaskView.setDates, hg]
  | create | promote | lease | renew | release | retry | progress | fail | succeed => exact hidle.elim

theorem TaskStep.indexed (hstep : TaskStep env id v a v') (hv : v.Consistent env.now)
    (hsteady : a = .refile → ∀ r l, v.record = some r → r.index = some l → v.score l = some env.now)
    (h : v.Indexed env.now) : v'.Indexed env.now := by
  have hcases : ∀ r' l, v'.record = some r' → r'.index = some l →
      ((v'.score l = some (r'.updatedAt : ℚ) ∧
          (v'.dates r'.generation).terminal = some ((r'.updatedAt : ℚ) + r'.terminalIndexRetentionMs)) ∨
        (v'.score l = none ∧ (v'.dates r'.generation).terminal = none ∧
          r'.updatedAt + r'.terminalIndexRetentionMs ≤ env.now)) ∧
      ∀ result, v'.result r'.generation = some result → result.settledAt = r'.updatedAt := by
    intro r' l hr' hindex
    rcases hstep.offer_cases hv hr' with ⟨r, hr, hoffer, houtcome⟩ | ⟨_, _, _, _, _, hnone, _⟩
    · cases hsettles : a.settles with
      | some outcome =>
        obtain ⟨hscore, hdate⟩ := hstep.index_of_settles hv hr hr' hsettles hindex
        have hupdated := hstep.updatedAt_of_settles hv hr hr' hsettles
        refine ⟨Or.inl ⟨by rw [hupdated, hscore, Env.now], by rw [hupdated, hdate, Env.now]⟩, fun result hresult => ?_⟩
        obtain ⟨result', heq, _, hsettledAt⟩ := hstep.result_of_settles hr hsettles
        rw [heq, hoffer.generation, Function.update_self] at hresult
        rw [← Option.some.inj hresult, hsettledAt, hupdated]
      | none =>
        rw [hsettles] at houtcome
        have hindex' : r.index = some l := (hoffer.index houtcome).symm.trans hindex
        have hsettled : r.outcome.isSome := by
          obtain ⟨outcome, ho, _⟩ := Option.bind_eq_some_iff.mp hindex'
          rw [ho]
          rfl
        have hupdated := hstep.updatedAt_of_settled hv hr hr' hsettled
        rw [hupdated, hoffer.generation, hoffer.terminalIndexRetentionMs]
        refine ⟨?_, fun result hresult => ?_⟩
        · rcases hstep.index_of_settled hv hr (by rw [hr']; simp) hsettled hindex'
            fun ha => hsteady ha r l hr hindex' with ⟨hscore, hdate⟩ | ⟨hscore, hdate, t, ht, hdue⟩
          · rw [hscore, hdate]
            exact h.entry r l hr hindex'
          · refine Or.inr ⟨hscore, hdate, ?_⟩
            rcases h.entry r l hr hindex' with ⟨_, hentry⟩ | ⟨_, hentry, _⟩
            · rw [← Option.some.inj (ht.symm.trans hentry)]
              exact hdue
            · exact absurd (ht.symm.trans hentry) (by simp)
        · by_cases herases : a.Erases r.generation
          · rw [hstep.result_of_erases herases] at hresult
            exact absurd hresult (by simp)
          · rw [hstep.result_eq hsettles herases] at hresult
            exact h.settled r l result hr hindex' hresult
    · simp [TaskRecord.index, hnone] at hindex
  exact ⟨fun r' l hr' hindex => (hcases r' l hr' hindex).1, fun r' l result hr' hindex => (hcases r' l hr' hindex).2 result⟩

end

/-- A sequence of engine steps whose releases are steady. -/
inductive SteadyPath (env : Env) (P : EngineAction → Prop) (b : Busy) (s : Store) : Busy → Store → Prop
  | refl : SteadyPath env P b s b s
  | tail {b' b'' : Busy} {s' s'' : Store} {act : EngineAction} (h : SteadyPath env P b s b' s')
      (hstep : EngineStep env b' s' act b'' s'') (hact : P act) (hsteady : act.Steady env s') :
      SteadyPath env P b s b'' s''

/-- The engine, as far as its releases are steady. -/
def steadyEngine : System Engine Call where
  initial := engine.initial
  step e c e' := engine.step e c e' ∧ SteadyPath c.env (c.op.Allows c.env e.store) none e.store none e'.store

theorem steadyEngine_run {calls : List Call} {e : Engine} (h : steadyEngine.Run calls e) : engine.Run calls e :=
  h.induction (P := fun calls e => engine.Run calls e) (fun _ hinit => .nil hinit)
    fun _ _ _ _ _ hrun hstep => hrun.snoc hstep.1

theorem EngineStep.indexed {env : Env} {b b' : Busy} {s s' : Store} {act : EngineAction} {k : TaskKey}
    (hstep : EngineStep env b s act b' s') (hs : Sane env.now s) (hsteady : act.Steady env s)
    (h : (s.view k).Indexed env.now) : (s'.view k).Indexed env.now := by
  rcases hstep.view k with ⟨_, hview⟩ | ⟨a, hon, htask⟩
  · rwa [hview]
  · refine htask.indexed (hs.views k) (fun ha r l hr hindex => ?_) h
    subst ha
    rcases EngineAction.on_cases hon with rfl | ⟨_, _, _, _, _, ha⟩ | ⟨_, _, _, ha⟩ | ⟨holder, x, rfl, rfl, _⟩
    · cases hstep with
      | task henabled hadmissible hlocal hline => exact absurd hadmissible (by simp [TaskAction.Admissible])
    · exact absurd ha (by simp)
    · exact absurd ha (by simp)
    · cases hstep with
      | dropRefiled hcurrent hsettled hheld hlocal =>
        have hlast := (s.retainedBy_unhold holder x).symm.trans (not_hasRetentionHolds.mp hheld)
        obtain ⟨hrecord, _⟩ := current_eq_some_iff.mp hcurrent
        obtain rfl := Option.some.inj (hr.symm.trans hrecord)
        exact hsteady hlast r l hcurrent hindex

theorem SteadyPath.indexed {env : Env} {P : EngineAction → Prop} {b b' : Busy} {s s' : Store} {k : TaskKey}
    (h : SteadyPath env P b s b' s') (hs : Sane env.now s) (hindexed : (s.view k).Indexed env.now) :
    Sane env.now s' ∧ (s'.view k).Indexed env.now := by
  induction h with
  | refl => exact ⟨hs, hindexed⟩
  | tail _ hstep _ hsteady ih => exact ⟨hstep.sane ih.1, hstep.indexed ih.1 hsteady ih.2⟩

theorem indexed_empty (now : ℚ) (k : TaskKey) : (Store.empty.view k).Indexed now where
  entry r l hr := absurd hr (by simp [Store.view, Store.empty])
  settled r l result hr := absurd hr (by simp [Store.view, Store.empty])

theorem steadyEngine_indexed {calls : List Call} {e : Engine} (h : steadyEngine.Run calls e) (k : TaskKey) :
    (e.store.view k).Indexed e.clock := by
  refine h.induction (P := fun _ e => (e.store.view k).Indexed e.clock) ?_ ?_
  · rintro _ rfl
    exact indexed_empty _ k
  · intro calls e c e' hrun hindexed ⟨⟨hclock, hclock', _⟩, hpath⟩
    have hnow : (e.clock : ℚ) ≤ c.env.now := Nat.cast_le.mpr hclock
    rw [hclock']
    exact (hpath.indexed ((run_sane (steadyEngine_run hrun)).mono hnow) (hindexed.mono hnow)).2

/-- A settled task is in no terminal index but the one it belongs in. -/
theorem score_of_index_ne {now : ℚ} {v : TaskView} (hv : v.Consistent now) {r : TaskRecord} (hr : v.record = some r)
    (hsettled : r.outcome.isSome) {l : TaskList} (hindex : r.index ≠ some l) : v.score l = none := by
  obtain ⟨outcome, ho⟩ := Option.isSome_iff_exists.mp hsettled
  have hlist : r.index = (r.policy outcome).list := by rw [TaskRecord.index, ho, Option.bind_some]
  refine Option.not_isSome_iff_eq_none.mp ((hv.listed.score l).not.mpr ?_)
  rw [TaskView.place_of_record hr]
  rintro ⟨hplace, _⟩
  rcases (hv.placed r hr).settled outcome ho with hnone | hsome
  · exact absurd (hplace.symm.trans hnone) (by simp)
  · exact hindex (hlist.trans (hsome.symm.trans hplace))

/-- No expiry of a generation from the terminal indexes waits for a sweep. -/
def TaskView.Swept (v : TaskView) (g : ℕ) (now : ℚ) : Prop := ∀ t, (v.dates g).terminal = some t → now < t

/-- After its expiry was swept, a settled task is in the index of its outcome, at the time of its settlement, exactly
as long as its offer says. -/
theorem steadyEngine_score_iff {calls : List Call} {e : Engine} (h : steadyEngine.Run calls e) {k : TaskKey}
    {r : TaskRecord} (hr : e.store.task k = some r) (hsettled : r.outcome.isSome) {now : ℚ} (hclock : e.clock ≤ now)
    (hswept : (e.store.view k).Swept r.generation now) (l : TaskList) (t : ℚ) :
    (e.store.view k).score l = some t ↔
      r.index = some l ∧ t = r.updatedAt ∧ now < r.updatedAt + r.terminalIndexRetentionMs := by
  by_cases hl : r.index = some l
  · rcases ((steadyEngine_indexed h k).mono hclock).entry r l hr hl with ⟨hscore, hdate⟩ | ⟨hscore, _, hpassed⟩
    · rw [hscore, Option.some_inj]
      exact ⟨fun ht => ⟨hl, ht.symm, hswept _ hdate⟩, fun ⟨_, ht, _⟩ => ht.symm⟩
    · rw [hscore]
      exact iff_of_false (by simp) fun ⟨_, _, hlater⟩ => absurd hpassed hlater.not_ge
  · rw [score_of_index_ne ((run_sane (steadyEngine_run h)).views k) hr hsettled hl]
    exact iff_of_false (by simp) fun ⟨hindex, _⟩ => hl hindex

/-- In two runs whose releases are steady, the terminal indexes agree at an instant on a task that settled alike in
both, once its expiry was swept, whatever holds were on it. -/
theorem steadyEngine_score {calls calls' : List Call} {e e' : Engine} (h : steadyEngine.Run calls e)
    (h' : steadyEngine.Run calls' e') {k : TaskKey} {r r' : TaskRecord} (hr : e.store.task k = some r)
    (hr' : e'.store.task k = some r') (hsettled : r.outcome.isSome) (hoffer : r.SameOffer r')
    (houtcome : r'.outcome = r.outcome) (hupdated : r'.updatedAt = r.updatedAt) {now : ℚ} (hclock : e.clock ≤ now)
    (hclock' : e'.clock ≤ now) (hswept : (e.store.view k).Swept r.generation now)
    (hswept' : (e'.store.view k).Swept r'.generation now) (l : TaskList) :
    (e'.store.view k).score l = (e.store.view k).score l := by
  refine Option.ext fun t => ?_
  have hscore := steadyEngine_score_iff h hr hsettled hclock hswept l t
  have hscore' := steadyEngine_score_iff h' hr' (by rwa [houtcome]) hclock' hswept' l t
  rw [hoffer.index houtcome, hupdated, hoffer.terminalIndexRetentionMs] at hscore'
  exact hscore'.trans hscore.symm

/-- A hold on a settled task affects its disposal only, exactly when the step is steady; in runs of such steps the
entry of a stored settled task in the terminal indexes is its settlement, until the retention of the entry is over and
a sweep gets to it, and so does not depend on the holds on it. -/
theorem run_holdFrame {calls : List Call} {e : Engine} (h : engine.Run calls e) :
    (∀ env op b s act b' s', e.Performs env op b s act b' s' → ∀ holder t, act.HoldsOn holder t →
      ∀ r, s.current t = some r → r.outcome.isSome →
        ((s.view (t.queue, t.id)).Framed (s'.view (t.queue, t.id)) ∨ Disposed s s' holder t r ↔ act.Steady env s)) ∧
    (steadyEngine.Run calls e → (∀ k, (e.store.view k).Indexed e.clock) ∧
      ∀ k r, e.store.task k = some r → r.outcome.isSome → ∀ now : ℚ, e.clock ≤ now →
        (e.store.view k).Swept r.generation now →
          (∀ l t, (e.store.view k).score l = some t ↔
            r.index = some l ∧ t = r.updatedAt ∧ now < r.updatedAt + r.terminalIndexRetentionMs) ∧
          ∀ calls' e', steadyEngine.Run calls' e' → e'.clock ≤ now → ∀ r', e'.store.task k = some r' →
            r.SameOffer r' → r'.outcome = r.outcome → r'.updatedAt = r.updatedAt →
              (e'.store.view k).Swept r'.generation now →
                ∀ l, (e'.store.view k).score l = (e.store.view k).score l) :=
  ⟨fun _ _ _ _ _ _ _ hperforms _ _ hact _ hr hsettled => hperforms.step.frame_iff (hperforms.sane h) hact hr hsettled,
    fun hsteady => ⟨steadyEngine_indexed hsteady, fun _ _ hr hsettled _ hclock hswept =>
      ⟨steadyEngine_score_iff hsteady hr hsettled hclock hswept,
        fun _ _ h' hclock' _ hr' hoffer houtcome hupdated hswept' =>
          steadyEngine_score hsteady h' hr hr' hsettled hoffer houtcome hupdated hclock hclock' hswept hswept'⟩⟩⟩

/-- The run that holds a child in the success index for its parent. -/
def heldSuccess : List (Env × Op) :=
  [(.at 1, .createTask (.default "mail" "parent")), (.at 2, .takeTask "mail" "first" (some 30000)),
    (.at 3, .createTask { CreateArgs.default "mail" "child" with
      retentionHolder := some ⟨"mail", "parent", 1⟩, onSuccessPolicy := .markAsSuccess }),
    (.at 4, .takeTask "mail" "second" (some 30000)), (.at 5, .writeSuccess "mail" "second" "child" "sent")]

/-- The acquisition of a second hold on the child, which leaves the child as it is. -/
theorem run_holdFrame_acquired : ∃ calls e env op s act s', engine.Run calls e ∧
    e.Performs env op none s act none s' ∧ act = .acquire ⟨"mail", "other", 1⟩ ⟨"mail", "child", 1⟩ ∧
    ∃ r, s.current ⟨"mail", "child", 1⟩ = some r ∧ ((s.view ("mail", "child")).Framed (s'.view ("mail", "child")) ∨
      Disposed s s' ⟨"mail", "other", 1⟩ ⟨"mail", "child", 1⟩ r) := by
  obtain ⟨calls, e, h, hplayed⟩ := @play_run (heldSuccess ++ [(.at 6, .createTask (.default "mail" "other"))])
    (fun _ e =>
      let m := (Op.createTask { CreateArgs.default "mail" "child" with
        retentionHolder := some ⟨"mail", "other", 1⟩ }).swept (.at 7) e.store
      decide (e.clock ≤ (Env.at 7).clock ∧ validateLiveHolder m ⟨"mail", "other", 1⟩ = none ∧
        m.identity "mail" "child" = ⟨"mail", "child", 1⟩ ∧
        ((m.task ("mail", "other")).all fun r => (m.retains ⟨"mail", "other", 1⟩).card < r.maxRelationships) = true ∧
        ((m.current ⟨"mail", "child", 1⟩).any fun r => r.outcome.isSome ∧
          (m.retainedBy ⟨"mail", "child", 1⟩).card < r.maxRelationships) = true)) (by decide +kernel)
  obtain ⟨hclock, hlive, hidentity, hroom, hstored⟩ := of_decide_eq_true hplayed
  obtain ⟨r, hr, hsettled⟩ := (Option.any_eq_true _ _).mp hstored
  obtain ⟨hsettled, hroom'⟩ := of_decide_eq_true hsettled
  have hs : Sane (Env.at 7).now e.store := (run_sane h).mono (Nat.cast_le.mpr hclock)
  have hholder : ∀ r, ((Op.createTask { CreateArgs.default "mail" "child" with
      retentionHolder := some ⟨"mail", "other", 1⟩ }).swept (.at 7) e.store).task ("mail", "other") = some r → _ :=
    fun r hr => of_decide_eq_true ((Option.all_eq_true _ _).mp hroom r hr)
  have hperforms : e.Performs (.at 7) (.createTask { CreateArgs.default "mail" "child" with
      retentionHolder := some ⟨"mail", "other", 1⟩ }) none _ (.acquire ⟨"mail", "other", 1⟩ ⟨"mail", "child", 1⟩) none _ :=
    ⟨hclock, (swept_path hs _).mono fun _ hact => Or.inl hact, .acquire ⟨hlive, hholder⟩ hr hroom',
      Or.inr (Or.inr (Or.inr ⟨_, congrArg _ hidentity.symm⟩))⟩
  exact ⟨calls, e, _, _, _, _, _, h, hperforms, rfl, r, hr,
    ((run_holdFrame h).1 _ _ _ _ _ _ _ hperforms _ _ (Or.inl rfl) r hr hsettled).mpr trivial⟩

/-- The success of the parent enters the child, which settled before, into the success index again. -/
theorem not_holdFrame_of_marked : ∃ calls e reply s', engine.Run calls e ∧
    exec (.at 9) (.writeSuccess "mail" "first" "parent" "done") e.store = .replied reply s' ∧
    ∃ m, m = (Op.writeSuccess "mail" "first" "parent" "done").swept (.at 9) e.store ∧
      m.retainedBy ⟨"mail", "child", 1⟩ = {⟨"mail", "parent", 1⟩} ∧ s'.retainedBy ⟨"mail", "child", 1⟩ = ∅ ∧
      (m.task ("mail", "child")).bind TaskRecord.outcome = some .success ∧
      (m.view ("mail", "child")).score .success = some 5 ∧ (s'.view ("mail", "child")).score .success = some 9 ∧
      ¬ (m.view ("mail", "child")).Framed (s'.view ("mail", "child")) := by
  obtain ⟨calls, e, h, hplayed⟩ := @play_run heldSuccess
    (fun _ e => (exec (.at 9) (.writeSuccess "mail" "first" "parent" "done") e.store).shows fun _ s' =>
      let m := (Op.writeSuccess "mail" "first" "parent" "done").swept (.at 9) e.store
      decide (m.retainedBy ⟨"mail", "child", 1⟩ = {⟨"mail", "parent", 1⟩} ∧ s'.retainedBy ⟨"mail", "child", 1⟩ = ∅ ∧
        (m.task ("mail", "child")).bind TaskRecord.outcome = some .success ∧
        (m.view ("mail", "child")).score .success = some 5 ∧ (s'.view ("mail", "child")).score .success = some 9))
    (by decide +kernel)
  obtain ⟨reply, s', hexec, hshows⟩ := Result.replied_of_shows hplayed
  obtain ⟨hheld, hfree, hsettled, hbefore, hafter⟩ := of_decide_eq_true hshows
  refine ⟨calls, e, reply, s', h, hexec, _, rfl, hheld, hfree, hsettled, hbefore, hafter, fun hframed => ?_⟩
  have hscore := (hafter.symm.trans (congrFun hframed.score .success)).trans hbefore
  exact absurd (Option.some.inj hscore) (by norm_num)

end EffectMQ
