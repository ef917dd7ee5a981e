import EffectMQ.Lifecycle.Budget

/-!
# What is left in an index

An entry of an index of a queue stays there, or a step takes it: the promotion of a delayed id, the end of an attempt, the
expiry of a date. The only other way out is with the record of its own generation. A sweep takes what it fetched.
-/

namespace EffectMQ

open Redis Transition

namespace Member

/-- The score of an entry in its index. -/
def score (queue : String) (s : Store) : Member → Option ℚ
  | .delayed id => (s.lists queue).scheduled.score id
  | .lock id => (s.lists queue).active.score id
  | .continuation x => (s.continuations queue).score x
  | .task x => (s.expiry queue).tasks.score x
  | .result x => (s.expiry queue).results.score x
  | .terminal x => (s.expiry queue).terminal.score x
  | .deadLetter x => (s.expiry queue).deadLetterExpiry.score x

def Indexed (queue : String) (s : Store) (m : Member) : Prop := (m.score queue s).isSome

/-- The generation that an entry is about. -/
def owner (queue : String) (s : Store) : Member → TaskIdentity
  | .delayed id | .lock id => s.identity queue id
  | .continuation x | .task x | .result x | .terminal x | .deadLetter x => x

end Member

/-- The entry that the action at a task takes from its index. -/
def TaskAction.entry (k : TaskKey) : TaskAction → Option Member
  | .promote => some (.delayed k.2)
  | .release _ | .retry _ _ _ | .fail _ _ _ _ | .succeed _ _ _ => some (.lock k.2)
  | .dropDate g => some (.task ⟨k.1, k.2, g⟩)
  | .expireResult g _ => some (.result ⟨k.1, k.2, g⟩)
  | .expireTerminal g => some (.terminal ⟨k.1, k.2, g⟩)
  | .expireDeadLetter g => some (.deadLetter ⟨k.1, k.2, g⟩)
  | _ => none

/-- The entries that an action takes from the indexes of a queue. -/
def EngineAction.entries (queue : String) : EngineAction → List Member
  | .task k a => if k.1 = queue then (a.entry k).toList else []
  | .forget x => [.task x, .result x, .terminal x, .deadLetter x]
  | _ => []

section

variable {env : Env} {queue id : String} {v v' : TaskView} {a : TaskAction} {b b' : Busy} {s s' s'' : Store}
  {act : EngineAction} {g : ℕ} {m : Member}

/-! ### One task -/

/-- A delayed or active id stays where it is, or its record goes, or it is promoted or its attempt ends. -/
theorem TaskStep.keeps_score (hstep : TaskStep env id v a v') (hv : v.Consistent env.now) {l : TaskList}
    (hl : l = .scheduled ∨ l = .active) (h : (v.score l).isSome) :
    ((v'.score l).isSome ∧ (v'.score l = v.score l ∨ ∃ leaseToken lockTimeout, a = .renew leaseToken lockTimeout)) ∨
      v'.record = none ∨ (l = .scheduled ∧ a = .promote) ∨
      (l = .active ∧ ∀ k : TaskKey, a.entry k = some (.lock k.2)) := by
  obtain ⟨t, hscore⟩ := Option.isSome_iff_exists.mp h
  obtain ⟨r, hr, hplace⟩ := record_of_score hv hscore
  have hplaced : ∀ {l'}, (∃ r', v.record = some r' ∧ r'.place = some l') → l = l' := by
    rintro l' ⟨r', hr', hplace'⟩
    obtain rfl := Option.some.inj (hr.symm.trans hr')
    exact Option.some.inj (hplace.symm.trans hplace')
  have hrunning : (∃ r', v.Running r') → l = .active := by
    rintro ⟨r', hrun⟩
    exact hplaced ⟨r', hrun.record, hrun.place⟩
  have hlive : ∀ r', ¬ v.Settled r' := by
    intro r' hsettled
    obtain rfl := Option.some.inj (hr.symm.trans hsettled.record)
    have ho : r.outcome = none := by
      refine (hv.placed r hr).outcome_eq_none ?_
      rcases hl with rfl | rfl
      · exact Or.inr (Or.inl hplace)
      · exact Or.inr (Or.inr hplace)
    exact absurd hsettled.outcome (by simp [ho])
  obtain ⟨henabled, rfl⟩ := hstep
  cases a with
  | create => exact absurd (hr.symm.trans henabled) (by simp)
  | promote => exact Or.inr (Or.inr (Or.inl ⟨hplaced henabled.1, rfl⟩))
  | lease =>
    have hwait := hplaced henabled.1
    rcases hl with rfl | rfl <;> exact absurd hwait (by simp)
  | renew =>
    obtain rfl := hrunning henabled.1
    exact Or.inl ⟨by simp [TaskAction.apply, TaskView.renew, entryScore], Or.inr ⟨_, _, rfl⟩⟩
  | release | retry | fail | succeed => exact Or.inr (Or.inr (Or.inr ⟨hrunning henabled.1, fun _ => rfl⟩))
  | progress | dropDate | holdDate | expireDeadLetter | revoke => exact Or.inl ⟨h, Or.inl rfl⟩
  | expireResult g held =>
    refine Or.inl ?_
    simp only [TaskAction.apply, TaskView.expireResult]
    split <;> exact ⟨h, Or.inl rfl⟩
  | expireTerminal g =>
    refine Or.inl ?_
    simp only [TaskAction.apply, TaskView.expireTerminal]
    split
    · rcases hl with rfl | rfl <;> exact ⟨h, Or.inl rfl⟩
    · exact ⟨h, Or.inl rfl⟩
  | refile | replace => exact absurd henabled.choose_spec (hlive _)
  | expireTask => exact absurd henabled.choose_spec.1 (hlive _)
  | remove | forget => exact Or.inr (Or.inl rfl)

/-- What a step makes of the dates of a generation that it does not settle. -/
inductive MovedDates (env : Env) (v : TaskView) (a : TaskAction) (v' : TaskView) (g : ℕ) : Prop
  | same (hdates : v'.dates g = v.dates g) : MovedDates env v a v' g
  | disposed {r : TaskRecord} (hrecord : v.record = some r) (hgeneration : r.generation = g) (hgone : v'.record = none)
      (hdates : v'.dates g = (v.dates g).disposed) : MovedDates env v a v' g
  | dropped (ha : a = .dropDate g) (hdates : v'.dates g = { v.dates g with task := none }) : MovedDates env v a v' g
  | held (ha : a = .holdDate g) (hdates : v'.dates g = { v.dates g with task := some (env.now + 1000) }) :
      MovedDates env v a v' g
  | result {held : Bool} (ha : a = .expireResult g held)
      (hdates : v'.dates g = { v.dates g with result := if held then some (env.now + 1000) else none }) :
      MovedDates env v a v' g
  | terminal (ha : a = .expireTerminal g) (hdates : v'.dates g = { v.dates g with terminal := none }) :
      MovedDates env v a v' g
  | deadLetter (ha : a = .expireDeadLetter g)
      (hdates : v'.dates g = { v.dates g with deadLetter := none, deadLetterExpiry := none }) : MovedDates env v a v' g
  | forgotten (ha : a = .forget g) : MovedDates env v a v' g

theorem TaskStep.movedDates (hstep : TaskStep env id v a v') (ht : v.Timed) (hdates : v.dates g ≠ Dates.none) :
    MovedDates env v a v' g := by
  have hsame : v'.dates = v.dates → MovedDates env v a v' g := fun h => .same (congrFun h g)
  have hdelete : ∀ w : TaskView, w.record = v.record → w.dates g = v.dates g → v'.record = none →
      v'.dates = (w.delete env id).dates → MovedDates env v a v' g := by
    intro w hw hold hgone h
    cases hr : v.record with
    | none => exact .same ((congrFun (h.trans (TaskView.dates_delete_none env id (hw.trans hr))) g).trans hold)
    | some r =>
      have hupdate := h.trans (TaskView.dates_delete env id (hw.trans hr))
      by_cases hg : g = r.generation
      · subst hg
        refine .disposed hr rfl hgone ((congrFun hupdate _).trans ?_)
        rw [Function.update_self, hold]
      · exact .same ((congrFun hupdate g).trans ((Function.update_of_ne hg _ _).trans hold))
  by_cases hsweeps : a.Sweeps
  · by_cases hdrop : a = .dropDate g
    · subst hdrop
      exact .dropped rfl ((congrFun (congrArg TaskView.dates hstep.2) g).trans (Function.update_self ..))
    · cases hstep.sweptDates hsweeps ht hdates with
      | disposed hsettled hgeneration hgone hdates => exact .disposed hsettled.record hgeneration hgone hdates
      | held ha hdates => exact .held ha hdates
      | result ha hdates => exact .result ha hdates
      | terminal ha hdates => exact .terminal ha hdates
      | deadLetter ha hdates => exact .deadLetter ha hdates
      | same hdates => exact .same hdates
  · obtain ⟨henabled, happly⟩ := hstep
    cases a with
    | create args replacedTask =>
      refine hsame ?_
      rw [happly]
      simp only [TaskAction.apply, TaskView.announce]
      split <;> simp [TaskView.create]
    | lease => exact hsame (by simp [happly, TaskAction.apply, TaskView.lease, TaskView.modify])
    | renew => exact hsame (by simp [happly, TaskAction.apply, TaskView.renew])
    | release => exact hsame (by simp [happly, TaskAction.apply, TaskView.unlock])
    | progress | revoke => exact hsame (by rw [happly]; rfl)
    | retry cause error retryAt =>
      refine hsame ?_
      rw [happly]
      simp only [TaskAction.apply]
      split <;> simp [TaskAction.failed, TaskView.recordFailure, TaskView.appendTaskError, TaskView.set, TaskView.modify,
        TaskView.countFailure, TaskView.unlock]
    | fail cause error retryAt held =>
      obtain ⟨⟨r, hrunning⟩, _⟩ := henabled
      obtain ⟨history, hrecord⟩ := TaskView.record_exhausted env id hrunning.record cause error retryAt
      have hupdate := (congrArg TaskView.dates happly).trans (TaskView.dates_settle env id hrecord rfl error held)
      have hg : g ≠ ((r.exhausted env error (retryTime retryAt) cause.kind).withHistory history).generation := by
        intro hg
        rw [hg] at hdates
        have hgeneration := TaskRecord.generation_failed env r error (retryTime retryAt) cause.kind
        exact hdates ((congrArg v.dates hgeneration).trans (ht.unsettled r hrunning.record hrunning.outcome))
      exact .same ((congrFun hupdate g).trans (Function.update_of_ne hg _ _))
    | succeed leaseToken result held =>
      obtain ⟨⟨r, hrunning⟩, _⟩ := henabled
      obtain ⟨history, hrecord⟩ := TaskView.record_succeed env id hrunning.record result
      have hupdate := (congrArg TaskView.dates happly).trans (TaskView.dates_settle env id hrecord rfl .nil held)
      have hg : g ≠ ((r.succeeded env result).withHistory history).generation := by
        intro hg
        rw [hg] at hdates
        exact hdates (ht.unsettled r hrunning.record hrunning.outcome)
      exact .same ((congrFun hupdate g).trans (Function.update_of_ne hg _ _))
    | replace | remove => exact hdelete v rfl rfl (by rw [happly]; rfl) (by rw [happly]; rfl)
    | forget g' =>
      by_cases hg : g = g'
      · subst hg
        exact .forgotten rfl
      · exact hdelete (v.erase g') rfl (Function.update_of_ne hg _ _) (by rw [happly]; rfl) (by rw [happly]; rfl)
    | promote | refile | expireTask | dropDate | holdDate | expireResult | expireTerminal | expireDeadLetter =>
      exact absurd (by simp [TaskAction.Sweeps, TaskAction.IsUpkeep]) hsweeps

/-! ### One step of the engine -/

/-- A record was stored before a step and is gone after it. -/
def Store.Lost (s s' : Store) (x : TaskIdentity) : Prop := (s.current x).isSome ∧ s'.current x = none

theorem lost_of_record {x : TaskIdentity} {r : TaskRecord} (hr : (s.view (x.queue, x.id)).record = some r)
    (hgeneration : r.generation = x.generation) (hgone : (s'.view (x.queue, x.id)).record = none) : s.Lost s' x := by
  refine ⟨by rw [current_eq_some_iff.mpr ⟨hr, hgeneration⟩]; rfl, ?_⟩
  cases hr' : s'.current x with
  | none => rfl
  | some r' => exact absurd (hgone.symm.trans (current_eq_some_iff.mp hr').1) (by simp)

theorem EngineAction.mem_entries (hon : act.on (queue, id) = some a) (h : a.entry (queue, id) = some m) :
    m ∈ act.entries queue := by
  rcases EngineAction.on_cases hon with rfl | ⟨args, replacedTask, _, _, _, rfl⟩ | ⟨x, _, _, rfl⟩ | ⟨_, _, _, _, rfl⟩
  · simp [EngineAction.entries, h]
  · exact absurd h (by simp [TaskAction.entry])
  · exact absurd h (by simp [TaskAction.entry])
  · exact absurd h (by simp [TaskAction.entry])

section

variable (hstep : EngineStep env b s act b' s') (hs : Sane env.now s)

include hstep hs

theorem EngineStep.keeps_score {l : TaskList} (hl : l = .scheduled ∨ l = .active)
    (h : ((s.view (queue, id)).score l).isSome) :
    (((s'.view (queue, id)).score l).isSome ∧ s'.identity queue id = s.identity queue id) ∨
      s.Lost s' (s.identity queue id) ∨ (l = .scheduled ∧ .delayed id ∈ act.entries queue) ∨
      (l = .active ∧ .lock id ∈ act.entries queue) := by
  obtain ⟨t, hscore⟩ := Option.isSome_iff_exists.mp h
  obtain ⟨r, hr, _⟩ := record_of_score (hs.views (queue, id)) hscore
  have hidentity : s.identity queue id = ⟨queue, id, r.generation⟩ := identity_of_record hr
  rcases hstep.view (queue, id) with ⟨_, hsame⟩ | ⟨a, hon, htask⟩
  · refine Or.inl ⟨hsame.symm ▸ h, ?_⟩
    have hr' : s'.task (queue, id) = some r := (congrArg TaskView.record hsame).trans hr
    rw [hidentity]
    exact identity_of_record hr'
  · rcases htask.keeps_score (hs.views _) hl h with ⟨hkept, _⟩ | hgone | ⟨hlist, rfl⟩ | ⟨hlist, hends⟩
    · obtain ⟨t', hscore'⟩ := Option.isSome_iff_exists.mp hkept
      obtain ⟨r', hr', _⟩ := record_of_score ((hstep.sane hs).views (queue, id)) hscore'
      refine Or.inl ⟨hkept, ?_⟩
      obtain ⟨hgeneration, _⟩ := htask.record_outcome (hs.views _) hr hr'
      rw [hidentity, ← hgeneration]
      exact identity_of_record hr'
    · refine Or.inr (Or.inl ?_)
      rw [hidentity]
      exact lost_of_record hr rfl hgone
    · exact Or.inr (Or.inr (Or.inl ⟨hlist, EngineAction.mem_entries hon rfl⟩))
    · exact Or.inr (Or.inr (Or.inr ⟨hlist, EngineAction.mem_entries hon (hends _)⟩))

/-- A date of a generation that is gone after a step. -/
theorem EngineStep.keeps_date (ht : s.Timed) {x : TaskIdentity} (date : Dates → Option ℚ) (hnone : date Dates.none = none)
    (h : (date ((s.expiry queue).dates x)).isSome) :
    (date ((s'.expiry queue).dates x)).isSome ∨ (x.queue = queue ∧ ∃ a, act.on (queue, x.id) = some a ∧
      MovedDates env (s.view (queue, x.id)) a (s'.view (queue, x.id)) x.generation ∧
      date ((s.view (queue, x.id)).dates x.generation) ≠ none ∧
      date ((s'.view (queue, x.id)).dates x.generation) = none) := by
  obtain ⟨t, hsome⟩ := Option.isSome_iff_exists.mp h
  obtain ⟨rfl, hview⟩ := dates_of_homed hs.homed hnone hsome
  cases hafter : date ((s'.expiry x.queue).dates x) with
  | some t' => exact Or.inl rfl
  | none =>
    have hgone : date ((s'.view (x.queue, x.id)).dates x.generation) = none := hafter
    refine Or.inr ⟨rfl, ?_⟩
    rcases hstep.view (x.queue, x.id) with ⟨_, hsame⟩ | ⟨a, hon, htask⟩
    · rw [hsame, hview] at hgone
      exact absurd hgone (by simp)
    · refine ⟨a, hon, htask.movedDates (ht.views _) ?_, by simp [hview], hgone⟩
      intro hdates
      rw [hdates, hnone] at hview
      exact absurd hview (by simp)

omit hs in
theorem EngineStep.forget_of_on {x : TaskIdentity} (hon : act.on (x.queue, x.id) = some (.forget x.generation)) :
    act = .forget x := by
  rcases EngineAction.on_cases hon with rfl | ⟨_, _, _, _, _, heq⟩ | ⟨y, rfl, hkey, heq⟩ | ⟨_, _, _, _, heq⟩
  · cases hstep with
    | task henabled hadmissible => exact hadmissible.elim
  · exact absurd heq (by simp)
  · obtain ⟨hqueue, hid⟩ := Prod.mk.inj hkey
    have hgeneration := TaskAction.forget.inj heq
    cases x
    cases y
    simp_all
  · exact absurd heq (by simp)

/-- An entry of an index stays there, or its own record goes, or the step takes it. -/
theorem EngineStep.keeps (ht : s.Timed) (hkind : m.category ≠ 2) (h : m.Indexed queue s) :
    (m.Indexed queue s' ∧ m.owner queue s' = m.owner queue s) ∨ s.Lost s' (m.owner queue s) ∨
      m ∈ act.entries queue := by
  -- a date that is gone was dropped by its own rule, or with its record, or with its whole generation
  have hdated : ∀ {x : TaskIdentity} (date : Dates → Option ℚ), date Dates.none = none →
      (date ((s.expiry queue).dates x)).isSome → m ∈ (EngineAction.forget x).entries queue →
      (∀ a, MovedDates env (s.view (x.queue, x.id)) a (s'.view (x.queue, x.id)) x.generation →
        date ((s.view (x.queue, x.id)).dates x.generation) ≠ none →
        date ((s'.view (x.queue, x.id)).dates x.generation) = none →
        s.Lost s' x ∨ a.entry (x.queue, x.id) = some m ∨ a = .forget x.generation) →
      (date ((s'.expiry queue).dates x)).isSome ∨ s.Lost s' x ∨ m ∈ act.entries queue := by
    intro x date hnone hsome hforget hrule
    rcases hstep.keeps_date hs ht date hnone hsome with hkept | ⟨rfl, a, hon, hmoved, hne, hgone⟩
    · exact Or.inl hkept
    · rcases hrule a hmoved hne hgone with hlost | htook | rfl
      · exact Or.inr (Or.inl hlost)
      · exact Or.inr (Or.inr (EngineAction.mem_entries hon htook))
      · exact Or.inr (Or.inr (hstep.forget_of_on hon ▸ hforget))
  cases m with
  | delayed id =>
    rcases hstep.keeps_score hs (Or.inl rfl) h with hkept | hlost | ⟨_, hact⟩ | ⟨hlist, _⟩
    · exact Or.inl hkept
    · exact Or.inr (Or.inl hlost)
    · exact Or.inr (Or.inr hact)
    · exact absurd hlist (by simp)
  | lock id =>
    rcases hstep.keeps_score hs (Or.inr rfl) h with hkept | hlost | ⟨hlist, _⟩ | ⟨_, hact⟩
    · exact Or.inl hkept
    · exact Or.inr (Or.inl hlost)
    · exact absurd hlist (by simp)
    · exact Or.inr (Or.inr hact)
  | continuation x => exact absurd rfl hkind
  | task x =>
    refine (hdated (x := x) Dates.task rfl h (by simp [EngineAction.entries]) ?_).imp_left fun hkept => ⟨hkept, rfl⟩
    intro a hmoved hne hgone
    cases hmoved with
    | disposed hrecord hgeneration hlost => exact Or.inl (lost_of_record hrecord hgeneration hlost)
    | dropped ha => exact Or.inr (Or.inl (congrArg (TaskAction.entry _) ha))
    | forgotten ha => exact Or.inr (Or.inr ha)
    | held _ hdates => exact absurd (hgone.symm.trans (congrArg Dates.task hdates)) (by simp)
    | same hdates | result _ hdates | terminal _ hdates | deadLetter _ hdates =>
      exact absurd ((congrArg Dates.task hdates).symm.trans hgone) hne
  | result x =>
    refine (hdated (x := x) Dates.result rfl h (by simp [EngineAction.entries]) ?_).imp_left fun hkept => ⟨hkept, rfl⟩
    intro a hmoved hne hgone
    cases hmoved with
    | result ha => exact Or.inr (Or.inl (congrArg (TaskAction.entry _) ha))
    | forgotten ha => exact Or.inr (Or.inr ha)
    | same hdates | disposed _ _ _ hdates | dropped _ hdates | held _ hdates | terminal _ hdates | deadLetter _ hdates =>
      exact absurd ((congrArg Dates.result hdates).symm.trans hgone) hne
  | terminal x =>
    refine (hdated (x := x) Dates.terminal rfl h (by simp [EngineAction.entries]) ?_).imp_left fun hkept => ⟨hkept, rfl⟩
    intro a hmoved hne hgone
    cases hmoved with
    | disposed hrecord hgeneration hlost => exact Or.inl (lost_of_record hrecord hgeneration hlost)
    | terminal ha => exact Or.inr (Or.inl (congrArg (TaskAction.entry _) ha))
    | forgotten ha => exact Or.inr (Or.inr ha)
    | same hdates | dropped _ hdates | held _ hdates | result _ hdates | deadLetter _ hdates =>
      exact absurd ((congrArg Dates.terminal hdates).symm.trans hgone) hne
  | deadLetter x =>
    refine (hdated (x := x) Dates.deadLetterExpiry rfl h (by simp [EngineAction.entries]) ?_).imp_left fun hkept => ⟨hkept, rfl⟩
    intro a hmoved hne hgone
    cases hmoved with
    | deadLetter ha => exact Or.inr (Or.inl (congrArg (TaskAction.entry _) ha))
    | forgotten ha => exact Or.inr (Or.inr ha)
    | same hdates | disposed _ _ _ hdates | dropped _ hdates | held _ hdates | result _ hdates | terminal _ hdates =>
      exact absurd ((congrArg Dates.deadLetterExpiry hdates).symm.trans hgone) hne

end

/-! ### Many steps -/

/-- An entry is left after some steps: it is still in its index, for the same generation, or its record is gone. -/
def Member.Left (queue : String) (s s' : Store) (m : Member) : Prop :=
  (m.Indexed queue s' ∧ m.owner queue s' = m.owner queue s) ∨ s.Lost s' (m.owner queue s)

/-- A generation that has been given is not given again. -/
structure Store.Since (s : Store) (x : TaskIdentity) (s' : Store) : Prop where
  given : x.generation ≤ s'.generations (x.queue, x.id)
  existed : (s'.current x).isSome → (s.current x).isSome

theorem EngineStep.since {x : TaskIdentity} (hstep : EngineStep env b s act b' s') (hs : Sane env.now s)
    (hgiven : x.generation ≤ s.generations (x.queue, x.id)) : s.Since x s' := by
  rcases hstep.view (x.queue, x.id) with ⟨_, hsame⟩ | ⟨a, _, htask⟩
  · have hcounter : s'.generations (x.queue, x.id) = s.generations (x.queue, x.id) := congrArg TaskView.counter hsame
    have htask : s'.task (x.queue, x.id) = s.task (x.queue, x.id) := congrArg TaskView.record hsame
    refine ⟨hcounter ▸ hgiven, fun h => ?_⟩
    rwa [Store.current, htask] at h
  · refine ⟨hgiven.trans htask.counter_le, fun h => ?_⟩
    obtain ⟨r', hr'⟩ := Option.isSome_iff_exists.mp h
    obtain ⟨hrecord, hgeneration⟩ := current_eq_some_iff.mp hr'
    rcases htask.record_of_generation (hs.views _) hrecord with ⟨r, hr, hg, _⟩ | ⟨_, hg, _⟩
    · rw [current_eq_some_iff.mpr ⟨hr, hg.symm.trans hgeneration⟩]
      rfl
    · have hcounter : (s.view (x.queue, x.id)).counter = s.generations (x.queue, x.id) := rfl
      omega

theorem Store.Since.trans {x : TaskIdentity} (h : s.Since x s') (h' : s'.Since x s'') : s.Since x s'' :=
  ⟨h'.given, fun hx => h.existed (h'.existed hx)⟩

theorem Store.Lost.of_since {x : TaskIdentity} (h : s.Lost s' x) (h' : s'.Since x s'') : s.Lost s'' x := by
  refine ⟨h.1, ?_⟩
  by_contra hne
  have hsome := h'.existed (Option.isSome_iff_ne_none.mpr hne)
  rw [h.2] at hsome
  exact absurd hsome (by simp)

theorem Member.Left.trans (h : m.Left queue s s') (h' : m.Indexed queue s' → m.Left queue s' s'')
    (hbefore : s.Since (m.owner queue s) s') (hafter : s'.Since (m.owner queue s) s'') : m.Left queue s s'' := by
  rcases h with ⟨hindexed, howner⟩ | hlost
  · rcases h' hindexed with ⟨hindexed', howner'⟩ | hlost
    · exact Or.inl ⟨hindexed', howner'.trans howner⟩
    · rw [howner] at hlost
      exact Or.inr ⟨hbefore.existed hlost.1, hlost.2⟩
  · exact Or.inr (hlost.of_since hafter)

/-- The generation of an entry has been given. -/
theorem Member.Indexed.given (h : m.Indexed queue s) (hs : Sane env.now s) (hkind : m.category ≠ 2) :
    (m.owner queue s).generation ≤ s.generations ((m.owner queue s).queue, (m.owner queue s).id) := by
  have hscore : ∀ {id : String} {l : TaskList}, ((s.view (queue, id)).score l).isSome →
      (s.identity queue id).generation ≤ s.generations (queue, id) := by
    intro id l hl
    obtain ⟨t, ht⟩ := Option.isSome_iff_exists.mp hl
    obtain ⟨r, hr, _⟩ := record_of_score (hs.views (queue, id)) ht
    have hidentity : s.identity queue id = ⟨queue, id, r.generation⟩ := identity_of_record hr
    rw [hidentity]
    exact ((hs.views (queue, id)).generation r hr).1.le
  have hdate : ∀ {x : TaskIdentity} (date : Dates → Option ℚ), date Dates.none = none →
      (date ((s.expiry queue).dates x)).isSome → x.generation ≤ s.generations (x.queue, x.id) := by
    intro x date hnone hsome
    obtain ⟨t, ht⟩ := Option.isSome_iff_exists.mp hsome
    obtain ⟨rfl, hview⟩ := dates_of_homed hs.homed hnone ht
    by_contra hlt
    have hfresh := ((hs.views (x.queue, x.id)).fresh x.generation (not_le.mp hlt)).2.1
    rw [hfresh, hnone] at hview
    exact absurd hview (by simp)
  cases m with
  | delayed => exact hscore (l := .scheduled) h
  | lock => exact hscore (l := .active) h
  | continuation => exact absurd rfl hkind
  | task => exact hdate Dates.task rfl h
  | result => exact hdate Dates.result rfl h
  | terminal => exact hdate Dates.terminal rfl h
  | deadLetter => exact hdate Dates.deadLetterExpiry rfl h

theorem EnginePath.since {P : EngineAction → Prop} {x : TaskIdentity} (hpath : EnginePath env P b s b' s')
    (hs : Sane env.now s) (hgiven : x.generation ≤ s.generations (x.queue, x.id)) : s.Since x s' := by
  refine hpath.preserves (I := fun _ s' => s.Since x s') hs ⟨hgiven, fun h => h⟩ ?_
  intro b s₁ act b' s₂ hs₁ hsince hstep _
  exact hsince.trans (hstep.since hs₁ hsince.given)

/-- Steps that do not take an entry leave it. Only its own record goes before it is forgotten. -/
theorem EnginePath.left {P : EngineAction → Prop} (hpath : EnginePath env P b s b' s') (hs : Sane env.now s)
    (ht : s.Timed) (hkind : m.category ≠ 2) (h : m.Indexed queue s)
    (hP : ∀ act, P act → m ∈ act.entries queue →
      act = .forget (m.owner queue s) ∧ (s.current (m.owner queue s)).isSome) : m.Left queue s s' := by
  have hgiven := h.given hs hkind
  refine (hpath.preserves (I := fun _ s' => s'.Timed ∧ m.Left queue s s' ∧ s.Since (m.owner queue s) s') hs
    ⟨ht, Or.inl ⟨h, rfl⟩, hgiven, fun h => h⟩ ?_).2.1
  intro b s₁ act b' s₂ hs₁ ⟨ht₁, hleft, hsince⟩ hstep hact
  have hafter := hstep.since hs₁ hsince.given
  refine ⟨hstep.timed hs₁ ht₁, ?_, hsince.trans hafter⟩
  by_cases htaken : m ∈ act.entries queue
  · obtain ⟨rfl, hsome⟩ := hP act hact htaken
    exact Or.inr ⟨hsome, hstep.current_of_forget⟩
  · refine hleft.trans (fun hindexed => ?_) hsince hafter
    rcases hstep.keeps hs₁ ht₁ hkind hindexed with hkept | hlost | htook
    · exact Or.inl hkept
    · exact Or.inr hlost
    · exact absurd htook htaken

/-! ### A sweep -/

/-- An action of a sweep that takes no other entries than these. -/
structure EngineAction.TakesOnly (queue : String) (members : List Member) (act : EngineAction) : Prop where
  sweeps : act.IsSweep
  entries : act.entries queue ⊆ members

theorem EngineAction.TakesOnly.mono {members members' : List Member} (h : act.TakesOnly queue members)
    (hsub : members ⊆ members') : act.TakesOnly queue members' := ⟨h.sweeps, List.Subset.trans h.entries hsub⟩

/-- A release takes nothing. -/
theorem EngineAction.IsRelease.entries_eq (h : act.IsRelease) : act.entries queue = [] := by
  cases act <;> first | rfl | exact h.elim

theorem EngineAction.IsRelease.takesOnly (h : act.IsRelease) (members : List Member) : act.TakesOnly queue members :=
  ⟨h.isSweep, h.entries_eq ▸ List.nil_subset _⟩

theorem takesOnly_task {members : List Member} (hsweep : (EngineAction.task (queue, id) a).IsSweep)
    (h : ∀ m, a.entry (queue, id) = some m → m ∈ members) : (EngineAction.task (queue, id) a).TakesOnly queue members := by
  refine ⟨hsweep, fun m hm => ?_⟩
  simp only [EngineAction.entries, if_true, Option.mem_toList] at hm
  exact h m hm

/-- A sweep over distinct members takes what the processing of its members takes. -/
theorem foldl_takes {ι : Type} {f : World → ι → World} {G : Store → ι → Prop} {entry : ι → Member}
    (hstep : ∀ w x, Sane env.now w.store → G w.store x →
      EnginePath env (EngineAction.TakesOnly queue [entry x]) none w.store none (f w x).store ∧
        ∀ y, y ≠ x → G w.store y → G (f w x).store y) (items : List ι) (hnodup : items.Nodup) {w : World}
    (hs : Sane env.now w.store) (hguard : ∀ x ∈ items, G w.store x) :
    EnginePath env (EngineAction.TakesOnly queue (items.map entry)) none w.store none (items.foldl f w).store := by
  refine foldl_path (G := fun s x => G s x ∧ x ∈ items) ?_ items hnodup hs fun x hx => ⟨hguard x hx, hx⟩
  intro w x hs ⟨hx, hmem⟩
  obtain ⟨hpath, hkeep⟩ := hstep w x hs hx
  refine ⟨hpath.mono fun act hact => hact.mono ?_, fun y hne ⟨hy, hmem'⟩ => ⟨hkeep y hne hy, hmem'⟩⟩
  exact List.cons_subset.mpr ⟨List.mem_map_of_mem hmem, List.nil_subset _⟩

@[simp] theorem fetchedMembers_append {draws draws' : List Draw} :
    fetchedMembers (draws ++ draws') = fetchedMembers draws ++ fetchedMembers draws' := List.flatMap_append

/-- Without a budget nothing is fetched. -/
theorem fetchedMembers_fetchDraws {members : List Member} {w : World} (h : w.remaining ≤ 0 → members = []) :
    fetchedMembers (fetchDraws members w) = members := by
  unfold fetchDraws
  split
  · next hnone => exact (h hnone).symm
  · exact List.append_nil members

theorem loop_takes {ι : Type} {f : World → ι → World} {draws : World → ι → List Draw}
    (hf : ∀ w x, Sane env.now w.store →
      EnginePath env (EngineAction.TakesOnly queue (fetchedMembers (draws w x))) none w.store none (f w x).store)
    (items : List ι) {w : World} (hs : Sane env.now w.store) :
    EnginePath env (EngineAction.TakesOnly queue (fetchedMembers (loopDraws f draws items w))) none w.store none
      (items.foldl f w).store := by
  induction items generalizing w with
  | nil => exact .refl
  | cons x rest ih =>
    have hx := hf w x hs
    have hsub : fetchedMembers (draws w x) ⊆ fetchedMembers (loopDraws f draws (x :: rest) w) := by
      rw [loopDraws, fetchedMembers_append]
      exact List.subset_append_left _ _
    have hsub' : fetchedMembers (loopDraws f draws rest (f w x)) ⊆ fetchedMembers (loopDraws f draws (x :: rest) w) := by
      rw [loopDraws, fetchedMembers_append]
      exact List.subset_append_right _ _
    exact (hx.mono fun act hact => hact.mono hsub).trans ((ih (hx.sane hs)).mono fun act hact => hact.mono hsub')

section

variable {w : World} (hs : Sane env.now w.store)

include hs

theorem syncDelayed_takes : EnginePath env (EngineAction.TakesOnly queue (fetchedMembers (delayedDraws env queue w))) none
    w.store none (syncDelayed env queue w).store := by
  unfold syncDelayed delayedDraws
  split
  · exact .refl
  · next hroom =>
    rw [fetchedMembers_fetchDraws fun hnone => absurd hnone hroom]
    refine foldl_takes (G := fun s id => TaskView.Due env ((s.view (queue, id)).score .scheduled)) ?_ _
      (SortedSet.rangeByScore_nodup _ _ _) (w := w.spend _) hs fun _ => due_of_range
    intro w id hs hdue
    exact ⟨.single (promote_step hs hdue) (takesOnly_task trivial fun m hm => by simp_all [TaskAction.entry]),
      (promote_keeps w id hs hdue).2⟩

theorem failStalled_takes (id : String) (hrunning : ∃ r, (w.store.view (queue, id)).Running r) :
    EnginePath env (EngineAction.TakesOnly queue [.lock id]) none w.store none (failStalled env queue w id).store := by
  obtain ⟨r, hrunning⟩ := hrunning
  by_cases hidle : isLocked env w.store queue id = false
  · obtain ⟨a, ha, t, hstep, hrelease⟩ := failStalled_step hs hrunning hidle
    refine (EnginePath.single hstep ?_).trans (hrelease.mono fun _ hact => hact.isRelease.takesOnly _)
    rcases ha with rfl | ⟨held, rfl⟩ <;> exact takesOnly_task trivial fun m hm => by simp_all [TaskAction.entry]
  · rw [failStalled, if_pos (Bool.eq_true_of_not_eq_false hidle)]
    exact .refl

theorem syncLocks_takes : EnginePath env (EngineAction.TakesOnly queue (fetchedMembers (lockDraws env queue w))) none w.store
    none (syncLocks env queue w).store := by
  obtain ⟨hnodup, hrunning⟩ := @expiredActive_spec env queue w hs
  have hmembers : (getExpiredActiveList env queue w).map .lock ⊆ fetchedMembers (lockDraws env queue w) := by
    simp only [lockDraws, fetchedMembers_append]
    rw [fetchedMembers_fetchDraws fun hnone => by rw [getExpiredActiveList, if_pos hnone]; rfl]
    exact List.subset_append_left _ _
  have hpath := @foldl_takes env queue String (failStalled env queue) (fun s id => ∃ r, (s.view (queue, id)).Running r) .lock
    (fun w id hs hrunning => ⟨failStalled_takes hs id hrunning, (failStalled_path w id hs hrunning).2⟩) _ hnodup
    (w.spend (getExpiredActiveList env queue w).length) hs hrunning
  exact hpath.mono fun act hact => hact.mono hmembers

theorem syncRetentionContinuations_takes :
    EnginePath env (EngineAction.TakesOnly queue (fetchedMembers (continuationDraws env queue w))) none w.store none
      (syncRetentionContinuations env queue w).store := by
  unfold syncRetentionContinuations
  split
  · exact .refl
  · refine foldl_path (G := fun _ _ => True) ?_ _ (range_nodup _ 0 0) hs fun _ _ => trivial
    intro w holder hs _
    exact ⟨(releaseOwnedHolds_start hs holder).mono fun act hact => hact.takesOnly _, fun _ _ h => h⟩

/-- A sweep over an expiry index whose rule takes the entry of its member only. -/
theorem expiry_takes {f : World → TaskIdentity → World} {date : Dates → Option ℚ}
    {index : ExpiryIndexes → SortedSet TaskIdentity} {entry : TaskIdentity → Member}
    {A : Store → TaskIdentity → TaskAction → Prop} (hf : Expires env queue date f A)
    (hdate : ∀ (e : ExpiryIndexes) x, (index e).score x = date (e.dates x)) (hnone : date Dates.none = none)
    (hentry : ∀ s x a, A s x a → ∀ m, a.entry (x.queue, x.id) = some m → m = entry x) :
    EnginePath env (EngineAction.TakesOnly queue (fetchedMembers (expiryDraws index entry env queue w))) none w.store none
      ((dueExpiryMembers env (index (w.store.expiry queue)) w).foldl f
        (w.spend (dueExpiryMembers env (index (w.store.expiry queue)) w).length)).store := by
  obtain ⟨hnodup, hdue⟩ := due_members hs queue index date hdate hnone
  rw [expiryDraws, fetchedMembers_fetchDraws fun hnone => by rw [dueExpiryMembers, if_pos hnone]; rfl]
  refine foldl_takes (G := DueIn env queue date) ?_ _ hnodup (w := w.spend _) hs hdue
  intro w x hs hx
  obtain ⟨a, ha, hupkeep, hstep, _⟩ := hf w x hs hx
  have hsweep : (EngineAction.task (queue, x.id) a).IsSweep :=
    EngineAction.IsUpkeep.isSweep (EngineAction.Tends.isUpkeep (Or.inl ⟨x.id, a, rfl, hupkeep⟩))
  refine ⟨.single hstep (takesOnly_task hsweep fun m hm => ?_), (hf.keeps w x hs hx).2⟩
  obtain ⟨rfl, _⟩ := hx
  exact List.mem_singleton.mpr (hentry _ _ _ ha m hm)

theorem syncer_takes {n : ℕ} {sync : Env → String → World → World} {draws : Env → String → World → List Draw}
    (hsync : syncers[n]? = some sync) (hdraws : syncerDraws[n]? = some draws) :
    EnginePath env (EngineAction.TakesOnly queue (fetchedMembers (draws env queue w))) none w.store none
      (sync env queue w).store := by
  have hn : n < 7 := (List.getElem?_eq_some_iff.mp hsync).1
  interval_cases n <;> obtain rfl := Option.some.inj hsync <;> obtain rfl := Option.some.inj hdraws
  · exact syncDelayed_takes hs
  · exact syncLocks_takes hs
  · exact syncRetentionContinuations_takes hs
  · refine expiry_takes hs expireTask_expires (fun _ _ => rfl) rfl ?_
    rintro s x a (⟨_, rfl | rfl⟩ | ⟨_, rfl⟩) m hm <;> simp_all [TaskAction.entry]
  · refine expiry_takes hs expireResult_expires (fun _ _ => rfl) rfl ?_
    rintro s x a ⟨held, rfl⟩ m hm
    simp_all [TaskAction.entry]
  · refine expiry_takes hs expireTerminal_expires (fun _ _ => rfl) rfl ?_
    rintro s x a rfl m hm
    simp_all [TaskAction.entry]
  · refine expiry_takes hs expireDeadLetter_expires (fun _ _ => rfl) rfl ?_
    rintro s x a rfl m hm
    simp_all [TaskAction.entry]

theorem syncTurn_takes (cursor offset : ℕ) :
    EnginePath env (EngineAction.TakesOnly queue (fetchedMembers (turnDraws env queue cursor w offset))) none w.store none
      (syncTurn env queue cursor w offset).store := by
  have hlt : (cursor + offset) % syncers.length < syncers.length := Nat.mod_lt _ (by decide)
  obtain ⟨sync, hsync⟩ : ∃ sync, syncers[(cursor + offset) % syncers.length]? = some sync :=
    ⟨_, List.getElem?_eq_getElem hlt⟩
  obtain ⟨draws, hdraws⟩ : ∃ draws, syncerDraws[(cursor + offset) % syncers.length]? = some draws :=
    ⟨_, List.getElem?_eq_getElem (l := syncerDraws) hlt⟩
  unfold syncTurn turnDraws
  rw [hsync, hdraws]
  split
  · exact .refl
  · exact syncer_takes hs hsync hdraws

/-- A sweep takes what it fetched. -/
theorem syncAll_takes : EnginePath env (EngineAction.TakesOnly queue (fetchedMembers (sweepDraws env queue w))) none w.store
    none (syncAll env queue w).store :=
  (loop_takes (fun _ offset hs => syncTurn_takes hs _ offset) (List.range syncers.length) hs).tail (.tick _ _)
    ⟨trivial, List.nil_subset _⟩

end

/-! ### Deadlines -/

/-- Without the end of an attempt, an action of a sweep leaves an active id with its deadline, or its record goes. -/
theorem EngineStep.active_kept (hstep : EngineStep env b s act b' s') (hs : Sane env.now s) (hact : act.IsSweep)
    (hentry : .lock id ∉ act.entries queue) {t : ℚ} (h : (s.view (queue, id)).score .active = some t) :
    (s'.view (queue, id)).score .active = some t ∨ (s'.view (queue, id)).record = none := by
  rcases hstep.view (queue, id) with ⟨_, hsame⟩ | ⟨a, hon, htask⟩
  · rw [hsame]
    exact Or.inl h
  · rcases htask.keeps_score (hs.views _) (Or.inr rfl) (by rw [h]; rfl) with
      ⟨_, hsame | ⟨leaseToken, lockTimeout, rfl⟩⟩ | hgone | ⟨hlist, _⟩ | ⟨_, hends⟩
    · exact Or.inl (hsame.trans h)
    · rcases hact.on hon with rfl | heq
      · exact hact.elim
      · exact absurd heq (by simp)
    · exact Or.inr hgone
    · exact absurd hlist (by simp)
    · exact absurd (EngineAction.mem_entries hon (hends _)) hentry

/-- An active id that a sweep does not fetch has its old deadline afterwards, if it is still active. -/
theorem EnginePath.active_kept {members : List Member} (hpath : EnginePath env (EngineAction.TakesOnly queue members) b s b' s')
    (hs : Sane env.now s) (hfetch : .lock id ∉ members) {t t' : ℚ} (h : (s.view (queue, id)).score .active = some t)
    (h' : (s'.view (queue, id)).score .active = some t') : t' = t := by
  have hkept : (s'.view (queue, id)).score .active = some t ∨ (s'.view (queue, id)).record = none := by
    refine hpath.preserves (I := fun _ s => (s.view (queue, id)).score .active = some t ∨
      (s.view (queue, id)).record = none) hs (Or.inl h) ?_
    intro b s₁ act b' s₂ hs₁ hbefore hstep hact
    rcases hbefore with hscore | hgone
    · exact hstep.active_kept hs₁ hact.sweeps (fun hmem => hfetch (hact.entries hmem)) hscore
    · refine Or.inr ?_
      rcases hstep.view (queue, id) with ⟨_, hsame⟩ | ⟨a, hon, htask⟩
      · rw [hsame]
        exact hgone
      · refine (htask.unrecorded (hs₁.views _) hgone ?_).1
        rintro args replacedTask rfl
        rcases hact.sweeps.on hon with rfl | heq
        · exact hact.sweeps
        · exact absurd heq (by simp)
  rcases hkept with hscore | hgone
  · exact Option.some.inj (h'.symm.trans hscore)
  · obtain ⟨r, hr, _⟩ := record_of_score ((hpath.sane hs).views (queue, id)) h'
    exact absurd (hr.symm.trans hgone) (by simp)

end

end EffectMQ
