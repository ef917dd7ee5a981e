import EffectMQ.Lifecycle.Timed
import EffectMQ.Lifecycle.Turns

/-!
# What maintenance works on

The entries of a queue that a sweep may find: delayed ids, leases, release continuations and the members of the four
expiry indexes. Each has its own rule, and no step of a sweep takes a due entry away except by that rule.
-/

namespace EffectMQ

open Redis Transition

inductive Member
  | delayed (id : String)
  | lock (id : String)
  | continuation (x : TaskIdentity)
  | task (x : TaskIdentity)
  | result (x : TaskIdentity)
  | terminal (x : TaskIdentity)
  | deadLetter (x : TaskIdentity)
deriving DecidableEq

namespace Member

/-- The place of its sweep in the rotation. -/
def category : Member → ℕ
  | .delayed _ => 0
  | .lock _ => 1
  | .continuation _ => 2
  | .task _ => 3
  | .result _ => 4
  | .terminal _ => 5
  | .deadLetter _ => 6

/-- An entry of a queue that is due at a clock value. -/
def Due (now : ℚ) (queue : String) (s : Store) : Member → Prop
  | .delayed id => ∃ t, (s.lists queue).scheduled.score id = some t ∧ t ≤ now
  | .lock id => (∃ t, (s.lists queue).active.score id = some t ∧ t ≤ now) ∧
      ∀ l, s.lock (queue, id) = some l → l.expiresAt < now
  | .continuation x => ((s.continuations queue).score x).isSome
  | .task x => ∃ t, (s.expiry queue).tasks.score x = some t ∧ t ≤ now
  | .result x => ∃ t, (s.expiry queue).results.score x = some t ∧ t ≤ now
  | .terminal x => ∃ t, (s.expiry queue).terminal.score x = some t ∧ t ≤ now
  | .deadLetter x => ∃ t, (s.expiry queue).deadLetterExpiry.score x = some t ∧ t ≤ now

/-- A settled record was stored before a step and is gone after it. -/
def Disposed (x : TaskIdentity) (s s' : Store) : Prop :=
  (∃ r, s.current x = some r ∧ r.outcome.isSome) ∧ s'.current x = none

/-- The rule of an entry: a delayed id moves to the wait list, a lease fails as stalled, holds of a continuation are
released or it is found without any, a record is deleted or dated one second ahead because it is held, a result likewise,
an entry of a terminal list leaves it, an entry for a record may also go with that record, and a dead letter goes. -/
def HandledBy (queue : String) (s : Store) (act : EngineAction) (s' : Store) : Member → Prop
  | .delayed id => act = .task (queue, id) .promote
  | .lock id => ∃ a error, a.IsFailure .stalled error (s.view (queue, id)).stallTime ∧ act = .task (queue, id) a
  | .continuation x => (∃ members, members ≠ [] ∧ act = .pop x members) ∨ (act = .note x ∧ s.retains x = ∅)
  | .task x => Disposed x s s' ∨ act = .task (queue, x.id) (.holdDate x.generation)
  | .result x => ∃ held, act = .task (queue, x.id) (.expireResult x.generation held)
  | .terminal x => act = .task (queue, x.id) (.expireTerminal x.generation) ∨ Disposed x s s'
  | .deadLetter x => act = .task (queue, x.id) (.expireDeadLetter x.generation)

end Member

/-- The actions of a sweep of a queue, in a store where it takes them. -/
def EngineAction.Maintains (queue : String) (s : Store) (act : EngineAction) : Prop :=
  act.Tends queue ∨ (∃ id, act = .task (queue, id) .promote) ∨
    ∃ holder, act = .start holder ∧ ((s.continuations queue).score holder).isSome

/-- What a sweep does to the view of one task. -/
def TaskAction.Sweeps (a : TaskAction) : Prop := a = .promote ∨ a.IsUpkeep ∨ a = .refile

section

variable {env : Env} {queue id : String} {v v' : TaskView} {a : TaskAction} {b b' : Busy} {s s' : Store}
  {act : EngineAction} {k : TaskKey} {g : ℕ}

theorem EngineAction.Maintains.on (h : act.Maintains queue s) (hon : act.on k = some a) :
    a.Sweeps ∧ ((act = .task k a ∧ k.1 = queue) ∨ a = .refile) := by
  rcases h with (⟨id, a', rfl, ha⟩ | hact) | ⟨id, rfl⟩ | ⟨holder, rfl, _⟩
  · obtain ⟨rfl, rfl⟩ := EngineAction.on_task_eq hon
    exact ⟨Or.inr (Or.inl ha), Or.inl ⟨rfl, rfl⟩⟩
  · have ha := hact.isRelease.on hon
    exact ⟨Or.inr (Or.inr ha), Or.inr ha⟩
  · obtain ⟨rfl, rfl⟩ := EngineAction.on_task_eq hon
    exact ⟨Or.inl rfl, Or.inl ⟨rfl, rfl⟩⟩
  · exact absurd hon (by simp [EngineAction.on])

/-! ### One task -/

/-- A task that has not settled leaves its list by a promotion or a stall only. -/
theorem TaskStep.runnable (hstep : TaskStep env id v a v') (ha : a.Sweeps) (hlive : ∀ r, ¬ v.Settled r) :
    (a = .promote ∧ ∃ r, v.record = some r ∧ r.place = some .scheduled) ∨
      (∃ error, a.IsFailure .stalled error v.stallTime ∧ ∃ r, v.Running r) ∨
      (v'.score .scheduled = v.score .scheduled ∧ v'.score .active = v.score .active ∧ v'.lock = v.lock ∧
        v'.record.map TaskRecord.generation = v.record.map TaskRecord.generation) := by
  obtain ⟨henabled, rfl⟩ := hstep
  rcases ha with rfl | ha | rfl
  · exact Or.inl ⟨rfl, henabled.1⟩
  · cases a with
    | retry cause error retryAt =>
      cases cause with
      | reported => exact ha.elim
      | stalled =>
        obtain ⟨hrunning, ⟨_, _, rfl⟩, _⟩ := henabled
        exact Or.inr (Or.inl ⟨error, Or.inl rfl, hrunning⟩)
    | fail cause error retryAt held =>
      cases cause with
      | reported => exact ha.elim
      | stalled =>
        obtain ⟨hrunning, ⟨_, _, rfl⟩, _⟩ := henabled
        exact Or.inr (Or.inl ⟨error, Or.inr ⟨held, rfl⟩, hrunning⟩)
    | expireTask => exact absurd henabled.choose_spec.1 (hlive _)
    | dropDate | holdDate | expireDeadLetter => exact Or.inr (Or.inr ⟨rfl, rfl, rfl, rfl⟩)
    | expireResult g held =>
      simp only [TaskAction.apply, TaskView.expireResult]
      split <;> exact Or.inr (Or.inr ⟨rfl, rfl, rfl, rfl⟩)
    | expireTerminal g =>
      simp only [TaskAction.apply, TaskView.expireTerminal]
      split
      · refine Or.inr (Or.inr ⟨rfl, rfl, rfl, ?_⟩)
        simp only [TaskView.unindexTerminal, TaskView.setDates, Option.map_map]
        exact congrArg (fun f => v.record.map f) (funext fun r => (TaskView.unindexed_fields v r).1)
      · exact Or.inr (Or.inr ⟨rfl, rfl, rfl, rfl⟩)
    | create | promote | lease | renew | release | succeed | progress | refile | replace | remove | revoke | forget =>
      exact ha.elim
  · exact absurd henabled.choose_spec (hlive _)

/-- What a step of a sweep makes of the dates of a generation. -/
inductive SweptDates (env : Env) (v : TaskView) (a : TaskAction) (v' : TaskView) (g : ℕ) : Prop
  | disposed {r : TaskRecord} (hsettled : v.Settled r) (hgeneration : r.generation = g) (hgone : v'.record = none)
      (hdates : v'.dates g = (v.dates g).disposed) : SweptDates env v a v' g
  | held (ha : a = .holdDate g) (hdates : v'.dates g = { v.dates g with task := some (env.now + 1000) }) :
      SweptDates env v a v' g
  | result {held : Bool} (ha : a = .expireResult g held)
      (hdates : v'.dates g = { v.dates g with result := if held then some (env.now + 1000) else none }) :
      SweptDates env v a v' g
  | terminal (ha : a = .expireTerminal g) (hdates : v'.dates g = { v.dates g with terminal := none }) :
      SweptDates env v a v' g
  | deadLetter (ha : a = .expireDeadLetter g)
      (hdates : v'.dates g = { v.dates g with deadLetter := none, deadLetterExpiry := none }) : SweptDates env v a v' g
  | same (hdates : v'.dates g = v.dates g) : SweptDates env v a v' g

theorem TaskStep.sweptDates (hstep : TaskStep env id v a v') (ha : a.Sweeps) (ht : v.Timed)
    (hdates : v.dates g ≠ Dates.none) : SweptDates env v a v' g := by
  have hsame : v'.dates = v.dates → SweptDates env v a v' g := fun h => .same (congrFun h g)
  have hother : ∀ {g' : ℕ} {d : Dates}, v'.dates = Function.update v.dates g' d → g ≠ g' → SweptDates env v a v' g :=
    fun h hg => .same ((congrFun h g).trans (Function.update_of_ne hg _ _))
  have hself : ∀ {d : Dates}, v'.dates = Function.update v.dates g d → v'.dates g = d :=
    fun h => (congrFun h g).trans (Function.update_self ..)
  have hdisposed : ∀ {r : TaskRecord}, v.Settled r → v'.record = none →
      v'.dates = Function.update v.dates r.generation (v.dates r.generation).disposed → SweptDates env v a v' g := by
    intro r hsettled hnone hupdate
    by_cases hg : g = r.generation
    · subst hg
      exact .disposed hsettled rfl hnone (hself hupdate)
    · exact hother hupdate hg
  obtain ⟨henabled, happly⟩ := hstep
  rcases ha with rfl | ha | rfl
  · exact hsame (by simp [happly, TaskAction.apply])
  · cases a with
    | retry cause error retryAt =>
      refine hsame ?_
      rw [happly]
      simp only [TaskAction.apply]
      split <;> simp [TaskAction.failed, TaskView.recordFailure, TaskView.appendTaskError, TaskView.set, TaskView.modify,
        TaskView.countFailure, TaskView.unlock]
    | fail cause error retryAt held =>
      obtain ⟨⟨r, hrunning⟩, _⟩ := henabled
      obtain ⟨history, hrecord⟩ := TaskView.record_exhausted env id hrunning.record cause error retryAt
      have hg : g ≠ ((r.exhausted env error (retryTime retryAt) cause.kind).withHistory history).generation := by
        intro hg
        rw [hg] at hdates
        have hgeneration := TaskRecord.generation_failed env r error (retryTime retryAt) cause.kind
        exact hdates ((congrArg v.dates hgeneration).trans (ht.unsettled r hrunning.record hrunning.outcome))
      exact hother ((congrArg TaskView.dates happly).trans (TaskView.dates_settle env id hrecord rfl error held)) hg
    | expireTask =>
      obtain ⟨r, hsettled, _⟩ := henabled
      refine hdisposed hsettled (by rw [happly]; rfl) ?_
      rw [happly, TaskAction.apply, TaskView.dates_delete env id hsettled.record]
    | dropDate g' =>
      by_cases hg : g = g'
      · subst hg
        obtain ⟨t, hdate, _⟩ := henabled.2
        obtain ⟨r, hsettled, hgeneration⟩ := ht.settled g (Or.inl (by rw [hdate]; rfl))
        have hnone := henabled.1 r hsettled.record hgeneration
        exact absurd hsettled.outcome (by simp [hnone])
      · exact hother (congrArg TaskView.dates happly) hg
    | holdDate g' =>
      by_cases hg : g = g'
      · subst hg
        exact .held rfl (hself (congrArg TaskView.dates happly))
      · exact hother (congrArg TaskView.dates happly) hg
    | expireResult g' held =>
      have hupdate : v'.dates = Function.update v.dates g'
          { v.dates g' with result := if held then some (env.now + 1000) else none } := by
        rw [happly]
        simp only [TaskAction.apply, TaskView.expireResult]
        split <;> rfl
      by_cases hg : g = g'
      · subst hg
        exact .result rfl (hself hupdate)
      · exact hother hupdate hg
    | expireTerminal g' =>
      have hupdate : v'.dates = Function.update v.dates g' { v.dates g' with terminal := none } := by
        rw [happly]
        simp only [TaskAction.apply, TaskView.expireTerminal]
        split <;> rfl
      by_cases hg : g = g'
      · subst hg
        exact .terminal rfl (hself hupdate)
      · exact hother hupdate hg
    | expireDeadLetter g' =>
      by_cases hg : g = g'
      · subst hg
        exact .deadLetter rfl (hself (congrArg TaskView.dates happly))
      · exact hother (congrArg TaskView.dates happly) hg
    | create | promote | lease | renew | release | succeed | progress | refile | replace | remove | revoke | forget =>
      exact ha.elim
  · obtain ⟨r, hsettled⟩ := henabled
    obtain ⟨outcome, ho⟩ := Option.isSome_iff_exists.mp hsettled.outcome
    have hupdate := TaskView.dates_applyPolicy env id hsettled.record ho false
    have hafter : v' = v.applyPolicy env id false := happly
    rw [← hafter] at hupdate
    obtain ⟨history, hrecord⟩ := TaskView.record_applyPolicy env id hsettled.record ho false
    rw [← hafter, TaskRecord.placed] at hrecord
    split at hupdate
    · next hdelete =>
      rw [if_pos hdelete] at hrecord
      exact hdisposed hsettled hrecord hupdate
    · exact hsame hupdate

/-! ### One step of the engine -/

/-- The dates of a member of an index of a queue. -/
theorem dates_of_homed (hs : s.Homed) {x : TaskIdentity} {date : Dates → Option ℚ} (hnone : date Dates.none = none) {t : ℚ}
    (hdate : date ((s.expiry queue).dates x) = some t) :
    x.queue = queue ∧ date ((s.view (queue, x.id)).dates x.generation) = some t := by
  have hqueue : x.queue = queue := by
    by_contra hne
    rw [hs queue x hne, hnone] at hdate
    exact absurd hdate (by simp)
  subst hqueue
  exact ⟨rfl, hdate⟩

theorem disposed_of_lost {x : TaskIdentity} (hx : x.queue = queue) {r : TaskRecord}
    (hsettled : (s.view (queue, x.id)).Settled r) (hgeneration : r.generation = x.generation)
    (hgone : (s'.view (queue, x.id)).record = none) : Member.Disposed x s s' := by
  subst hx
  refine ⟨⟨r, current_eq_some_iff.mpr ⟨hsettled.record, hgeneration⟩, hsettled.outcome⟩, ?_⟩
  cases hr : s'.current x with
  | none => rfl
  | some r' => exact absurd (hgone.symm.trans (current_eq_some_iff.mp hr).1) (by simp)

section

variable (hstep : EngineStep env b s act b' s') (hact : act.Maintains queue s) (hs : Sane env.now s)

include hstep hact hs

/-- A date that had come and is no longer due. -/
theorem EngineStep.date_changed (ht : s.Timed) {x : TaskIdentity} (date : Dates → Option ℚ) (hnone : date Dates.none = none)
    (hdue : ∃ t, date ((s.expiry queue).dates x) = some t ∧ t ≤ env.now)
    (hgone : ¬ ∃ t, date ((s'.expiry queue).dates x) = some t ∧ t ≤ env.now) :
    x.queue = queue ∧ ∃ a, (act = .task (queue, x.id) a ∨ a = .refile) ∧
      SweptDates env (s.view (queue, x.id)) a (s'.view (queue, x.id)) x.generation ∧
      date ((s'.view (queue, x.id)).dates x.generation) ≠ date ((s.view (queue, x.id)).dates x.generation) := by
  obtain ⟨t, hsome, hle⟩ := hdue
  obtain ⟨hqueue, hview⟩ := dates_of_homed hs.homed hnone hsome
  have hne : date ((s'.view (queue, x.id)).dates x.generation) ≠ date ((s.view (queue, x.id)).dates x.generation) := by
    intro heq
    subst hqueue
    exact hgone ⟨t, heq.trans hview, hle⟩
  refine ⟨hqueue, ?_⟩
  rcases hstep.view (queue, x.id) with ⟨_, hsame⟩ | ⟨a, hon, htask⟩
  · exact absurd (by rw [hsame]) hne
  · obtain ⟨hsweeps, heq⟩ := hact.on hon
    refine ⟨a, heq.imp_left And.left, htask.sweptDates hsweeps (ht.views _) ?_, hne⟩
    intro hdates
    rw [hdates, hnone] at hview
    exact absurd hview (by simp)

/-- A scheduled or active id stays where it is, or it is promoted or stalls. -/
theorem EngineStep.score_cases {id : String} {l : TaskList} {t : ℚ} (hl : l = .scheduled ∨ l = .active)
    (hscore : (s.view (queue, id)).score l = some t) :
    ((s'.view (queue, id)).score l = some t ∧ (s'.view (queue, id)).lock = (s.view (queue, id)).lock) ∨
      (l = .scheduled ∧ act = .task (queue, id) .promote) ∨
      (l = .active ∧ ∃ a error, act = .task (queue, id) a ∧ a.IsFailure .stalled error (s.view (queue, id)).stallTime) := by
  obtain ⟨r, hr, hplace⟩ := record_of_score (hs.views (queue, id)) hscore
  have hrunnable : r.place = some .wait ∨ r.place = some .scheduled ∨ r.place = some .active := by
    rcases hl with rfl | rfl
    · exact Or.inr (Or.inl hplace)
    · exact Or.inr (Or.inr hplace)
  have hlive : ∀ r', ¬ (s.view (queue, id)).Settled r' := by
    intro r' hsettled
    obtain rfl := Option.some.inj (hr.symm.trans hsettled.record)
    have ho := ((hs.views (queue, id)).placed r hr).outcome_eq_none hrunnable
    exact absurd hsettled.outcome (by simp [ho])
  rcases hstep.view (queue, id) with ⟨_, hsame⟩ | ⟨a, hon, htask⟩
  · rw [hsame]
    exact Or.inl ⟨hscore, rfl⟩
  · obtain ⟨hsweeps, ⟨rfl, _⟩ | rfl⟩ := hact.on hon
    · rcases htask.runnable hsweeps hlive with ⟨rfl, r', hr', hplace'⟩ | ⟨error, hfailure, r', hrunning⟩ |
        ⟨hscheduled, hactive, hlock, _⟩
      · obtain rfl := Option.some.inj (hr.symm.trans hr')
        exact Or.inr (Or.inl ⟨Option.some.inj (hplace.symm.trans hplace'), rfl⟩)
      · obtain rfl := Option.some.inj (hr.symm.trans hrunning.record)
        exact Or.inr (Or.inr ⟨Option.some.inj (hplace.symm.trans hrunning.place), a, error, rfl, hfailure⟩)
      · refine Or.inl ⟨?_, hlock⟩
        rcases hl with rfl | rfl
        · rw [hscheduled, hscore]
        · rw [hactive, hscore]
    · exact absurd htask.1.choose_spec (hlive _)

end

/-- A note takes the entry of its holder away when nothing is held. -/
theorem score_note (holder x : TaskIdentity) (hx : x.queue = queue) (hnoted : ((s.continuations queue).score x).isSome) :
    (((noteContinuation env holder s).continuations queue).score x).isSome ∨ (holder = x ∧ s.retains x = ∅) := by
  subst hx
  unfold noteContinuation
  dsimp only
  by_cases hqueue : x.queue = holder.queue
  · rw [← hqueue, Function.update_self]
    by_cases hholder : x = holder
    · subst hholder
      split
      · exact Or.inl (by simp)
      · next hempty => exact Or.inr ⟨rfl, Finset.card_eq_zero.mp (Nat.eq_zero_of_not_pos hempty)⟩
    · split
      · exact Or.inl (by rwa [SortedSet.score_add_of_ne _ _ hholder])
      · exact Or.inl (by rwa [SortedSet.score_remove_of_ne _ hholder])
  · exact Or.inl (by rwa [Function.update_of_ne hqueue])

/-- No step of a sweep takes a due entry away but by the rule of the entry. -/
theorem EngineStep.handles (hstep : EngineStep env b s act b' s') (hact : act.Maintains queue s) (hs : Sane env.now s)
    (ht : s.Timed) {m : Member} (hdue : m.Due env.now queue s) (hgone : ¬ m.Due env.now queue s') :
    m.HandledBy queue s act s' := by
  cases m with
  | delayed id =>
    obtain ⟨t, hscore, hle⟩ := hdue
    rcases hstep.score_cases hact hs (Or.inl rfl) hscore with ⟨hstays, _⟩ | ⟨_, rfl⟩ | ⟨hlist, _⟩
    · exact absurd ⟨t, hstays, hle⟩ hgone
    · exact rfl
    · exact absurd hlist (by simp)
  | lock id =>
    obtain ⟨⟨t, hscore, hle⟩, hexpired⟩ := hdue
    rcases hstep.score_cases hact hs (Or.inr rfl) hscore with ⟨hstays, hlock⟩ | ⟨hlist, _⟩ | ⟨_, a, error, rfl, hfailure⟩
    · exact absurd ⟨⟨t, hstays, hle⟩, fun l hl => hexpired l (hlock.symm.trans hl)⟩ hgone
    · exact absurd hlist (by simp)
    · exact ⟨a, error, hfailure, rfl⟩
  | continuation x =>
    have hnoted : ((s.continuations queue).score x).isSome := hdue
    rcases hstep.continuations with heq | ⟨holder, rfl, rfl⟩
    · refine absurd ?_ hgone
      rw [Member.Due, heq]
      exact hnoted
    · rcases score_note holder x (ht.homed queue x hnoted) hnoted with hstays | ⟨rfl, hempty⟩
      · exact absurd hstays hgone
      · exact Or.inr ⟨rfl, hempty⟩
  | task x =>
    obtain ⟨hqueue, a, heq, hswept, hne⟩ := hstep.date_changed hact hs ht Dates.task rfl hdue hgone
    cases hswept with
    | disposed hsettled hgeneration hlost _ => exact Or.inl (disposed_of_lost hqueue hsettled hgeneration hlost)
    | held ha => exact Or.inr ((heq.resolve_right (by simp [ha])).trans (congrArg _ ha))
    | result _ hdates | terminal _ hdates | deadLetter _ hdates | same hdates => exact absurd (by rw [hdates]) hne
  | result x =>
    obtain ⟨hqueue, a, heq, hswept, hne⟩ := hstep.date_changed hact hs ht Dates.result rfl hdue hgone
    cases hswept with
    | result ha => exact ⟨_, (heq.resolve_right (by simp [ha])).trans (congrArg _ ha)⟩
    | disposed _ _ _ hdates => exact absurd (by rw [hdates]; rfl) hne
    | held _ hdates | terminal _ hdates | deadLetter _ hdates | same hdates => exact absurd (by rw [hdates]) hne
  | terminal x =>
    obtain ⟨hqueue, a, heq, hswept, hne⟩ := hstep.date_changed hact hs ht Dates.terminal rfl hdue hgone
    cases hswept with
    | disposed hsettled hgeneration hlost _ => exact Or.inr (disposed_of_lost hqueue hsettled hgeneration hlost)
    | terminal ha => exact Or.inl ((heq.resolve_right (by simp [ha])).trans (congrArg _ ha))
    | held _ hdates | result _ hdates | deadLetter _ hdates | same hdates => exact absurd (by rw [hdates]) hne
  | deadLetter x =>
    obtain ⟨hqueue, a, heq, hswept, hne⟩ := hstep.date_changed hact hs ht Dates.deadLetterExpiry rfl hdue hgone
    cases hswept with
    | deadLetter ha => exact (heq.resolve_right (by simp [ha])).trans (congrArg _ ha)
    | disposed _ _ _ hdates => exact absurd (by rw [hdates]; rfl) hne
    | held _ hdates | terminal _ hdates | result _ hdates | same hdates => exact absurd (by rw [hdates]) hne

end

end EffectMQ
