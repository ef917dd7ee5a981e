import EffectMQ.Lifecycle.Account
import EffectMQ.Transition.Line

/-!
# The wait list

An id is in the wait list of its queue once, or not at all, as its record says. A step takes one id out of the list,
puts one at its end, or leaves the list as it is.
-/

namespace EffectMQ

open Redis Transition

variable {env : Env} {b b' : Busy} {s s' : Store} {act : EngineAction} {queue id : String} {now : ℚ}

/-- The wait list of a queue. -/
def Store.line (s : Store) (queue : String) : List String := (s.lists queue).wait

theorem waiting_view (s : Store) (queue id : String) : (s.view (queue, id)).waiting = (s.line queue).count id := rfl

theorem Sane.mem_line (hs : Sane now s) : id ∈ s.line queue ↔ (s.view (queue, id)).place = some .wait := by
  have hwaiting := (hs.views (queue, id)).listed.waiting
  rw [waiting_view] at hwaiting
  rw [← List.count_pos_iff, hwaiting]
  split <;> simp_all

theorem Store.waitingExcept_of_not_mem {k : TaskKey} (h : k.2 ∉ s.line k.1) : s.waitingExcept k k.1 = s.line k.1 := by
  unfold Store.waitingExcept
  refine List.filter_eq_self.mpr fun x hx => decide_eq_true fun heq => h ?_
  rw [← heq]
  exact hx

/-- The line after a change of one view. -/
theorem Local.line {k : TaskKey} {F : TaskView → TaskView} (h : Local k F s s')
    (hstays : k.2 ∈ s.line k.1 → k.2 ∈ s'.line k.1 → s'.line k.1 = s.line k.1) (queue : String) :
    s'.line queue = s.line queue ∨
      (queue = k.1 ∧ k.2 ∈ s.line k.1 ∧ k.2 ∉ s'.line k.1 ∧ s'.line queue = (s.line queue).filter fun x => x ≠ k.2) ∨
      (queue = k.1 ∧ k.2 ∉ s.line k.1 ∧ s'.line queue = s.line queue ++ [k.2]) := by
  by_cases hqueue : queue = k.1
  · subst hqueue
    have hexcept : s'.waitingExcept k k.1 = s.waitingExcept k k.1 := congrFun h.waiting k.1
    by_cases hbefore : k.2 ∈ s.line k.1 <;> by_cases hafter : k.2 ∈ s'.line k.1
    · exact Or.inl (hstays hbefore hafter)
    · rw [Store.waitingExcept_of_not_mem hafter] at hexcept
      refine Or.inr (Or.inl ⟨rfl, hbefore, hafter, hexcept.trans ?_⟩)
      exact List.filter_congr fun x hx => by simp [Prod.ext_iff]
    · refine Or.inr (Or.inr ⟨rfl, hbefore, ?_⟩)
      rw [← Store.waitingExcept_of_not_mem hbefore]
      rcases h.requeues with heq | hleft | hlast
      · have hline : s'.line k.1 = s.line k.1 := heq
        exact absurd (hline ▸ hafter) hbefore
      · have hline : s'.line k.1 = s.waitingExcept k k.1 := hleft
        rw [hline, Store.waitingExcept_of_not_mem hbefore] at hafter
        exact absurd hafter hbefore
      · exact hlast
    · rw [Store.waitingExcept_of_not_mem hafter, Store.waitingExcept_of_not_mem hbefore] at hexcept
      exact Or.inl hexcept
  · refine Or.inl ?_
    have hexcept : ∀ t : Store, t.waitingExcept k queue = t.line queue := fun t =>
      List.filter_eq_self.mpr fun x _ => decide_eq_true fun heq => hqueue (Prod.ext_iff.mp heq).1
    rw [← hexcept, ← hexcept, h.waiting]

/-- What can happen to a waiting task: it is leased, removed, or stays where it is. -/
theorem TaskStep.of_waiting {v v' : TaskView} {a : TaskAction} {r : TaskRecord} (hstep : TaskStep env id v a v')
    (hv : v.Consistent env.now) (h : v.record = some r) (hplace : r.place = some .wait) :
    (∃ leaseToken lockTimeout, a = .lease leaseToken lockTimeout) ∨ a = .remove ∨ (∃ g, a = .forget g) ∨
      a.LeavesLine := by
  have ho : r.outcome = none := (hv.placed r h).outcome_eq_none (Or.inl hplace)
  have hidle : ¬ ∃ r', v.Running r' := by
    rintro ⟨r', hrunning⟩
    obtain rfl := Option.some.inj (h.symm.trans hrunning.record)
    exact absurd (hplace.symm.trans hrunning.place) (by simp)
  have hlive : ∀ r', ¬ v.Settled r' := by
    intro r' hsettled
    obtain rfl := Option.some.inj (h.symm.trans hsettled.record)
    exact absurd hsettled.outcome (by simp [ho])
  obtain ⟨henabled, _⟩ := hstep
  cases a with
  | create => exact absurd (h.symm.trans henabled) (by simp)
  | promote =>
    obtain ⟨r', hr', hplace'⟩ := henabled.1
    obtain rfl := Option.some.inj (h.symm.trans hr')
    exact absurd (hplace.symm.trans hplace') (by simp)
  | lease leaseToken lockTimeout => exact Or.inl ⟨leaseToken, lockTimeout, rfl⟩
  | renew | release | retry | fail | succeed | progress => exact absurd henabled.1 hidle
  | refile | replace => exact absurd henabled.choose_spec (hlive _)
  | expireTask => exact absurd henabled.choose_spec.1 (hlive _)
  | holdDate => exact absurd henabled.1.choose_spec.1 (hlive _)
  | dropDate | expireResult | expireTerminal | expireDeadLetter | revoke => exact Or.inr (Or.inr (Or.inr trivial))
  | remove => exact Or.inr (Or.inl rfl)
  | forget g => exact Or.inr (Or.inr (Or.inl ⟨g, rfl⟩))

theorem TaskAction.record_none_of_removal {v : TaskView} {a : TaskAction} (h : a = .remove ∨ ∃ g, a = .forget g) :
    (a.apply env id v).record = none := by
  rcases h with rfl | ⟨g, rfl⟩ <;> rfl

/-- A waiting id leaves the line only when it is leased or removed. -/
def EngineAction.Serves (k : TaskKey) (act : EngineAction) : Prop :=
  (∃ leaseToken lockTimeout, act = .task k (.lease leaseToken lockTimeout)) ∨ act = .task k .remove ∨
    ∃ g, act = .forget ⟨k.1, k.2, g⟩

/-- The line after a step. -/
theorem EngineStep.line (hstep : EngineStep env b s act b' s') (hs : Sane env.now s) (queue : String) :
    s'.line queue = s.line queue ∨
      (∃ id, act.Serves (queue, id) ∧ id ∈ s.line queue ∧ s'.line queue = (s.line queue).filter fun x => x ≠ id) ∨
      (∃ id, (act.on (queue, id)).isSome ∧ id ∉ s.line queue ∧ s'.line queue = s.line queue ++ [id]) := by
  have hs' := hstep.sane hs
  -- the actions that leave the record of a waiting id leave its place in line
  have hfinish : ∀ (t : Store) (k : TaskKey) (F : TaskView → TaskView), Local k F t s' →
      t.line = s.line → (act.on k).isSome → (k.2 ∈ t.line k.1 → k.2 ∉ s'.line k.1 → act.Serves k) →
      (k.2 ∈ t.line k.1 → k.2 ∈ s'.line k.1 → s'.line k.1 = t.line k.1) →
      s'.line queue = s.line queue ∨
        (∃ id, act.Serves (queue, id) ∧ id ∈ s.line queue ∧ s'.line queue = (s.line queue).filter fun x => x ≠ id) ∨
        (∃ id, (act.on (queue, id)).isSome ∧ id ∉ s.line queue ∧ s'.line queue = s.line queue ++ [id]) := by
    intro t k F hlocal hline hon hserves hstays
    rcases hlocal.line hstays queue with heq | ⟨rfl, hbefore, hafter, heq⟩ | ⟨rfl, hbefore, heq⟩
    · exact Or.inl (hline ▸ heq)
    · exact Or.inr (Or.inl ⟨k.2, hserves hbefore hafter, hline ▸ hbefore, hline ▸ heq⟩)
    · exact Or.inr (Or.inr ⟨k.2, hon, hline ▸ hbefore, hline ▸ heq⟩)
  have hfresh : ∀ {t : Store} {k : TaskKey}, Sane env.now t → t.task k = none → k.2 ∉ t.line k.1 := by
    intro t k ht hnone hmem
    have hplace := ht.mem_line.mp hmem
    rw [TaskView.place_of_record_none (show (t.view (k.1, k.2)).record = none from hnone)] at hplace
    exact absurd hplace (by simp)
  cases hstep with
  | task henabled hadmissible hlocal hline =>
    next k a =>
    have hcases : k.2 ∈ s.line k.1 → (∃ leaseToken lockTimeout, a = .lease leaseToken lockTimeout) ∨ a = .remove ∨
        (∃ g, a = .forget g) ∨ a.LeavesLine := by
      intro hmem
      obtain ⟨r, hr, hplace⟩ := Option.bind_eq_some_iff.mp (hs.mem_line.mp hmem)
      have htask : TaskStep env k.2 (s.view k) a (a.apply env k.2 (s.view k)) := ⟨henabled, rfl⟩
      exact htask.of_waiting (hs.views k) hr hplace
    have hview : s'.view k = a.apply env k.2 (s.view k) := hlocal.view_self
    refine hfinish s k _ hlocal rfl (by simp [EngineAction.on]) (fun hbefore hafter => ?_) fun hbefore hafter => ?_
    · rcases hcases hbefore with ⟨leaseToken, lockTimeout, rfl⟩ | rfl | ⟨g, rfl⟩ | hleaves
      · exact Or.inl ⟨leaseToken, lockTimeout, rfl⟩
      · exact Or.inr (Or.inl rfl)
      · exact absurd hadmissible (by simp [TaskAction.Admissible])
      · have heq : s'.line k.1 = s.line k.1 := hline hleaves
        exact absurd (heq ▸ hbefore) hafter
    · have hplace' := hs'.mem_line.mp hafter
      rcases hcases hbefore with ⟨leaseToken, lockTimeout, rfl⟩ | hremove | hforget | hleaves
      · obtain ⟨r, hr, hplace⟩ := Option.bind_eq_some_iff.mp (hs.mem_line.mp hbefore)
        obtain ⟨history, hrecord⟩ := (TaskStep.accounted ⟨henabled, hview⟩ (hs.views k) hr).record
        rw [TaskView.place_of_record (show (s'.view (k.1, k.2)).record = _ from hrecord)] at hplace'
        exact absurd hplace' (by simp [TaskRecord.place, TaskRecord.withHistory, TaskRecord.listed])
      · have hnone : (s'.view (k.1, k.2)).record = none :=
          (congrArg TaskView.record hview).trans (TaskAction.record_none_of_removal (Or.inl hremove))
        exact absurd ((TaskView.place_of_record_none hnone).symm.trans hplace') (by simp)
      · have hnone : (s'.view (k.1, k.2)).record = none :=
          (congrArg TaskView.record hview).trans (TaskAction.record_none_of_removal (Or.inr hforget))
        exact absurd ((TaskView.place_of_record_none hnone).symm.trans hplace') (by simp)
      · exact hline hleaves
  | create hnone hlocal =>
    next a replacedTask =>
    have hout := hfresh (k := (a.queue, a.id)) hs hnone
    exact hfinish s _ _ hlocal rfl (by simp [EngineAction.on]) (fun h => absurd h hout) fun h => absurd h hout
  | createHeld hnone hholder hroom hlocal =>
    next a replacedTask holder =>
    have ht : Sane env.now (s.hold holder ⟨a.queue, a.id, s.generations (a.queue, a.id) + 1⟩) := ⟨hs.views, hs.homed⟩
    have hout := hfresh (k := (a.queue, a.id)) ht hnone
    exact hfinish _ _ _ hlocal rfl (by simp [EngineAction.on]) (fun h => absurd h hout) fun h => absurd h hout
  | forget henabled hnoted hlocal =>
    next x =>
    have ht : Sane env.now { s with retainedBy := Function.update s.retainedBy x ∅ } := ⟨hs.views, hs.homed⟩
    refine hfinish _ _ _ hlocal rfl (by simp [EngineAction.on]) (fun _ _ => ?_) fun _ hafter => ?_
    · exact Or.inr (Or.inr ⟨x.generation, rfl⟩)
    · have hnone : (s'.view (x.queue, x.id)).record = none := congrArg TaskView.record hlocal.view_self
      exact absurd ((TaskView.place_of_record_none hnone).symm.trans (hs'.mem_line.mp hafter)) (by simp)
  | dropRefiled hcurrent hsettled hheld hlocal =>
    next holder x rest r =>
    have ht : Sane env.now (s.unhold holder x) := ⟨hs.views, hs.homed⟩
    have hrecord : ((s.unhold holder x).view (x.queue, x.id)).record = some r := (current_eq_some_iff.mp hcurrent).1
    have hout : x.id ∉ (s.unhold holder x).line x.queue := by
      intro hmem
      have hplace := (TaskView.place_of_record hrecord).symm.trans (ht.mem_line.mp hmem)
      have ho := ((ht.views (x.queue, x.id)).placed r hrecord).outcome_eq_none (Or.inl hplace)
      exact absurd hsettled (by simp [ho])
    exact hfinish _ _ _ hlocal rfl (by simp [EngineAction.on]) (fun h => absurd h hout) fun h => absurd h hout
  | start | pop | dropKept | acquire | tick => exact Or.inl rfl
  | note => exact Or.inl rfl

theorem EngineStep.lineStep (hstep : EngineStep env b s act b' s') (hs : Sane env.now s) (queue : String) :
    LineStep (s.line queue) (s'.line queue) := by
  rcases hstep.line hs queue with heq | ⟨id, _, _, heq⟩ | ⟨id, _, hnew, heq⟩
  · rw [heq]
    exact .same
  · rw [heq]
    exact .leave id
  · rw [heq]
    exact .join id hnew

end EffectMQ
