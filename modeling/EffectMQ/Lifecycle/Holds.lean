import EffectMQ.Lifecycle.Account
import EffectMQ.Relationship.Halves

/-!
# Retention holds over a run

The two retention sets are the halves of a relation between holders and the generations they retain. Next to the
agreement of the halves, the sets answer to the records: a holder with members left runs, is being released or waits in
the continuation index; a retained generation is stored; a settled one whose policy is to delete it is retained; and
no set outgrows the limit of the record on its side.
-/

namespace EffectMQ

open Redis Relationship

/-- A popped member that is still to come. -/
def Pending (b : Busy) (holder x : TaskIdentity) : Prop := ∃ members, b = some (holder, members) ∧ x ∈ members

def Store.halves (s : Store) : Halves TaskIdentity := ⟨s.retainedBy, s.retains⟩

/-- How the sets answer to the records, while the holds of a holder may be being released. -/
structure Kept (b : Busy) (s : Store) : Prop where
  accounted : ∀ h, s.retains h ≠ ∅ → (∃ r, s.current h = some r ∧ r.outcome = none) ∨ s.Noted h ∨
    ∃ members, b = some (h, members)
  stored : ∀ t, s.retainedBy t ≠ ∅ → ∃ r, s.current t = some r
  disposed : ∀ t r outcome, s.current t = some r → r.outcome = some outcome → r.policy outcome = .delete →
    s.retainedBy t ≠ ∅
  retainsRoom : ∀ h r, s.current h = some r → (s.retains h).card ≤ r.maxRelationships
  retainedRoom : ∀ t r, s.current t = some r → (s.retainedBy t).card ≤ r.maxRelationships
  allocated : ∀ h, s.retains h ≠ ∅ → h.generation ≤ s.generations (h.queue, h.id)

theorem Local.halves {k : TaskKey} {F : TaskView → TaskView} {s s' : Store} (h : Local k F s s') :
    s'.halves = s.halves := by
  rw [Store.halves, h.retainedBy, h.retains]
  rfl

theorem Local.noted {k : TaskKey} {F : TaskView → TaskView} {s s' : Store} (h : Local k F s s') (x : TaskIdentity) :
    s'.Noted x ↔ s.Noted x := by
  rw [Store.Noted, h.continuations, Store.Noted]

section

variable {env : Env} {b b' : Busy} {s s' : Store} {act : EngineAction}

/-! ### The halves -/

theorem not_pending_none (h t : TaskIdentity) : ¬ Pending none h t := by
  rintro ⟨members, hmembers, _⟩
  exact absurd hmembers (by simp)

theorem not_pending_empty (holder h t : TaskIdentity) : ¬ Pending (some (holder, [])) h t := by
  rintro ⟨members, hmembers, hmem⟩
  rw [← (Prod.mk.inj (Option.some.inj hmembers)).2] at hmem
  exact absurd hmem List.not_mem_nil

theorem pending_some {holder h t : TaskIdentity} {members : List TaskIdentity} :
    Pending (some (holder, members)) h t ↔ h = holder ∧ t ∈ members := by
  constructor
  · rintro ⟨members', heq, hmem⟩
    obtain ⟨rfl, rfl⟩ := Prod.mk.inj (Option.some.inj heq)
    exact ⟨rfl, hmem⟩
  · rintro ⟨rfl, hmem⟩
    exact ⟨members, rfl, hmem⟩

theorem not_pending_busy (s : Store) (k : TaskKey) (a : TaskAction) (h t : TaskIdentity) :
    ¬ Pending (a.busy s k) h t := by
  cases a with
  | fail | succeed => exact not_pending_empty _ h t
  | create | promote | lease | renew | release | retry | progress | refile | replace | expireTask | dropDate | holdDate
  | expireResult | expireTerminal | expireDeadLetter | remove | revoke | forget => exact not_pending_none h t

theorem Store.retainedBy_unhold (s : Store) (holder x : TaskIdentity) :
    (s.unhold holder x).retainedBy x = (s.retainedBy x).erase holder := Function.update_self ..

theorem matched_unhold {forgotten : TaskIdentity → Prop} {holder x : TaskIdentity} {rest : List TaskIdentity}
    (h : s.halves.Matched (Pending (some (holder, x :: rest))) forgotten) :
    (s.unhold holder x).halves.Matched (Pending (some (holder, rest))) forgotten := by
  refine Halves.Matched.unlink (h := holder) (t := x) h (pending_some.mpr ⟨rfl, List.mem_cons_self⟩) ?_ ?_
  · intro h t hp
    obtain ⟨rfl, hmem⟩ := pending_some.mp hp
    rcases List.mem_cons.mp hmem with rfl | hmem
    · exact Or.inr ⟨rfl, rfl⟩
    · exact Or.inl (pending_some.mpr ⟨rfl, hmem⟩)
  · intro h t hp
    obtain ⟨rfl, hmem⟩ := pending_some.mp hp
    exact pending_some.mpr ⟨rfl, List.mem_cons_of_mem _ hmem⟩

theorem EngineStep.matched {forgotten : TaskIdentity → Prop} (hstep : EngineStep env b s act b' s')
    (hforced : ∀ x, act = .forget x → s.retainedBy x ≠ ∅ → forgotten x)
    (h : s.halves.Matched (Pending b) forgotten) : s'.halves.Matched (Pending b') forgotten := by
  cases hstep with
  | task henabled hadmissible hlocal hline =>
    rw [hlocal.halves]
    exact h.congr fun h t => iff_of_false (not_pending_busy _ _ _ h t) (not_pending_none h t)
  | create hfresh hlocal =>
    rw [hlocal.halves]
    exact h
  | createHeld hfresh hholder hroom hlocal =>
    rw [hlocal.halves]
    exact h.link (not_pending_none _ _)
  | forget henabled hnoted hlocal =>
    rw [hlocal.halves]
    exact h.forget (hforced _ rfl)
  | start => exact h.congr fun h t => iff_of_false (not_pending_empty _ h t) (not_pending_none h t)
  | pop hnodup hsubset =>
    next holder members =>
    refine Halves.Matched.pop (h := holder) h members.toFinset fun h t => ?_
    rw [pending_some, List.mem_toFinset]
    exact (or_iff_right (not_pending_empty holder h t)).symm
  | dropKept hkept => exact matched_unhold h
  | dropRefiled hcurrent hsettled hheld hlocal =>
    rw [hlocal.halves]
    exact matched_unhold h
  | note => exact h.congr fun h t => iff_of_false (not_pending_none h t) (not_pending_empty _ h t)
  | acquire hholder hcurrent hroom => exact h.link (not_pending_none _ _)
  | tick => exact h

/-! ### Records -/

/-- The record that a step of a task leaves: the one before, or a created one. -/
theorem TaskStep.offer_cases {id : String} {v v' : TaskView} {a : TaskAction} {r' : TaskRecord}
    (hstep : TaskStep env id v a v') (hv : v.Consistent env.now) (h' : v'.record = some r') :
    (∃ r, v.record = some r ∧ r.SameOffer r' ∧ r'.outcome = (a.settles <|> r.outcome)) ∨
      ∃ args replacedTask, a = .create args replacedTask ∧ v.record = none ∧ r'.generation = v.counter + 1 ∧
        r'.outcome = none ∧ r'.maxRelationships = natural args.maxRelationships := by
  cases hr : v.record with
  | some r => exact Or.inl ⟨r, rfl, hstep.sameOffer hv hr h', (hstep.record_outcome hv hr h').2⟩
  | none =>
    by_cases hcreate : ∃ args replacedTask, a = .create args replacedTask
    · obtain ⟨args, replacedTask, rfl⟩ := hcreate
      obtain ⟨⟨history, hrecord⟩, _⟩ := hstep.created
      rw [h'] at hrecord
      obtain rfl := Option.some.inj hrecord
      exact Or.inr ⟨args, replacedTask, rfl, rfl, rfl, rfl, rfl⟩
    · rw [(hstep.unrecorded hv hr fun args replacedTask h => hcreate ⟨args, replacedTask, h⟩).1] at h'
      exact absurd h' (by simp)

/-- A current record after a step is of the same offer as the one before, or the step created it. -/
theorem EngineStep.current_cases (hstep : EngineStep env b s act b' s') (hs : Sane env.now s) {x : TaskIdentity}
    {r' : TaskRecord} (h' : s'.current x = some r') :
    (∃ r, s.current x = some r ∧ r.SameOffer r' ∧
      (r'.outcome = r.outcome ∨ ∃ a outcome, act = .task (x.queue, x.id) a ∧ a.settles = some outcome ∧
        r'.outcome = some outcome)) ∨
    ∃ args replacedTask holder, act = .create args replacedTask holder ∧ x = s.nextIdentity args.queue args.id ∧
      s.task (x.queue, x.id) = none ∧ r'.outcome = none ∧ r'.maxRelationships = natural args.maxRelationships := by
  obtain ⟨hrecord', hgeneration'⟩ := current_eq_some_iff.mp h'
  rcases hstep.view (x.queue, x.id) with ⟨_, hview⟩ | ⟨a, hon, htask⟩
  · refine Or.inl ⟨r', current_eq_some_iff.mpr ⟨?_, hgeneration'⟩, .refl r', Or.inl rfl⟩
    exact (congrArg TaskView.record hview).symm.trans hrecord'
  · rcases htask.offer_cases (hs.views _) hrecord' with ⟨r, hr, hoffer, houtcome⟩ |
      ⟨args, replacedTask, rfl, hnone, hgeneration, houtcome, hlimit⟩
    · refine Or.inl ⟨r, current_eq_some_iff.mpr ⟨hr, hoffer.generation.symm.trans hgeneration'⟩, hoffer, ?_⟩
      cases hsettles : a.settles with
      | none =>
        rw [hsettles] at houtcome
        exact Or.inl houtcome
      | some outcome =>
        rw [hsettles] at houtcome
        refine Or.inr ⟨a, outcome, ?_, hsettles, houtcome⟩
        rcases EngineAction.on_cases hon with hact | ⟨_, _, _, _, _, rfl⟩ | ⟨_, _, _, rfl⟩ | ⟨_, _, _, _, rfl⟩
        · exact hact
        · exact absurd hsettles (by simp [TaskAction.settles])
        · exact absurd hsettles (by simp [TaskAction.settles])
        · exact absurd hsettles (by simp [TaskAction.settles])
    · rcases EngineAction.on_cases hon with rfl | ⟨args', replacedTask', holder, hact, hk, ha⟩ | ⟨_, _, _, ha⟩ |
        ⟨_, _, _, _, ha⟩
      · cases hstep with
        | task henabled hadmissible hlocal hline => exact absurd hadmissible (by simp [TaskAction.Admissible])
      · obtain ⟨rfl, rfl⟩ := TaskAction.create.inj ha
        obtain ⟨hqueue, hid⟩ := Prod.mk.inj hk
        refine Or.inr ⟨args, replacedTask, holder, hact, ?_, hnone, houtcome, hlimit⟩
        rw [Store.nextIdentity, hqueue, hid]
        exact congrArg (TaskIdentity.mk x.queue x.id) (hgeneration'.symm.trans hgeneration)
      · exact absurd ha (by simp)
      · exact absurd ha (by simp)

theorem not_hasRetentionHolds {x : TaskIdentity} : s.hasRetentionHolds x = false ↔ s.retainedBy x = ∅ := by
  simp [Store.hasRetentionHolds]

theorem hasRetentionHolds_iff {x : TaskIdentity} : s.hasRetentionHolds x = true ↔ s.retainedBy x ≠ ∅ := by
  simp [Store.hasRetentionHolds, Finset.nonempty_iff_ne_empty]

theorem TaskStep.next_of_lost {id : String} {v v' : TaskView} {a : TaskAction} {r : TaskRecord}
    (hstep : TaskStep env id v a v') (hv : v.Consistent env.now) (h : v.record = some r) (h' : v'.record = none) :
    a.next env r = none := by
  obtain ⟨history, hrecord⟩ := (hstep.accounted hv h).record
  rw [h'] at hrecord
  exact Option.map_eq_none_iff.mp hrecord.symm

/-- A record that a step takes away, by the action that the task sees. -/
theorem EngineStep.lost (hstep : EngineStep env b s act b' s') (hs : Sane env.now s) {x : TaskIdentity} {r : TaskRecord}
    (h : s.current x = some r) (h' : s'.current x = none) :
    ∃ a, act.on (x.queue, x.id) = some a ∧ TaskStep env x.id (s.view (x.queue, x.id)) a (s'.view (x.queue, x.id)) ∧
      a.next env r = none := by
  obtain ⟨hrecord, hgeneration⟩ := current_eq_some_iff.mp h
  rcases hstep.view (x.queue, x.id) with ⟨_, hview⟩ | ⟨a, hon, htask⟩
  · have hrecord' : s'.task (x.queue, x.id) = some r := (congrArg TaskView.record hview).trans hrecord
    exact absurd ((current_eq_some_iff.mpr ⟨hrecord', hgeneration⟩).symm.trans h') (by simp)
  · refine ⟨a, hon, htask, htask.next_of_lost (hs.views _) hrecord ?_⟩
    cases hr' : (s'.view (x.queue, x.id)).record with
    | none => rfl
    | some r' =>
      have hgeneration' := (htask.record_outcome (hs.views _) hrecord hr').1
      have hcurrent' := current_eq_some_iff.mpr ⟨hr', hgeneration'.trans hgeneration⟩
      exact absurd (hcurrent'.symm.trans h') (by simp)

theorem placed_eq_none {r : TaskRecord} {policy : CompletionPolicy} {held : Bool} (h : r.placed policy held = none) :
    held = false := by
  unfold TaskRecord.placed at h
  split at h
  · next hdelete => exact hdelete.2
  · exact absurd h (by simp)

theorem TaskIdentity.eq_of_key {x y : TaskIdentity} (hk : (y.queue, y.id) = (x.queue, x.id))
    (hgeneration : y.generation = x.generation) : y = x := by
  obtain ⟨hqueue, hid⟩ := Prod.mk.inj hk
  cases x
  cases y
  simp_all

/-- Only a generation without holds loses its record, a forgotten one apart, which loses its holds with it. -/
theorem EngineStep.unheld_of_lost (hstep : EngineStep env b s act b' s') (hs : Sane env.now s) {x : TaskIdentity}
    {r : TaskRecord} (h : s.current x = some r) (h' : s'.current x = none) : s'.retainedBy x = ∅ := by
  obtain ⟨a, hon, htask, hnext⟩ := hstep.lost hs h h'
  obtain ⟨hrecord, hgeneration⟩ := current_eq_some_iff.mp h
  have hidentity := identity_of_current h
  rcases EngineAction.on_cases hon with rfl | ⟨args, replacedTask, holder, rfl, hk, rfl⟩ | ⟨y, rfl, hk, rfl⟩ |
    ⟨holder, y, rfl, hk, rfl⟩
  · cases hstep with
    | task henabled hadmissible hlocal hline =>
      rw [hlocal.retainedBy, ← not_hasRetentionHolds]
      cases a with
      | fail | succeed =>
        rw [TaskAction.Admissible, hidentity] at hadmissible
        rw [hadmissible]
        exact placed_eq_none hnext
      | replace | expireTask => exact hidentity ▸ hadmissible
      | remove =>
        have hfree := (hadmissible r hrecord).1
        rw [hgeneration] at hfree
        exact hfree
      | create | refile | forget => exact absurd hadmissible (by simp [TaskAction.Admissible])
      | promote | lease | renew | release | retry | progress | dropDate | holdDate | expireResult | expireTerminal
      | expireDeadLetter | revoke => exact absurd hnext (by simp [TaskAction.next])
  · exact absurd (htask.1.symm.trans hrecord) (by simp)
  · obtain rfl := TaskIdentity.eq_of_key hk ((htask.1.1 r hrecord).symm.trans hgeneration)
    cases hstep with
    | forget henabled hnoted hlocal =>
      rw [hlocal.retainedBy]
      exact Function.update_self ..
  · cases hstep with
    | dropRefiled hcurrent hsettled hheld hlocal =>
      obtain ⟨hy, hgeneration'⟩ := current_eq_some_iff.mp hcurrent
      rw [hk, hrecord] at hy
      obtain rfl := Option.some.inj hy
      obtain rfl := TaskIdentity.eq_of_key hk (hgeneration'.symm.trans hgeneration)
      rw [hlocal.retainedBy, ← not_hasRetentionHolds]
      exact hheld

/-- A holder whose attempt ends, or whose record goes, has its release ahead of it or behind it. -/
theorem EngineStep.unsettled_holder (hstep : EngineStep env b s act b' s') (hs : Sane env.now s) {h : TaskIdentity}
    {r : TaskRecord} (hr : s.current h = some r) (ho : r.outcome = none) :
    (∃ r', s'.current h = some r' ∧ r'.outcome = none) ∨ (∃ members, b' = some (h, members)) ∨
      (s'.retains h ≠ ∅ → s'.Noted h) := by
  have hidentity := identity_of_current hr
  cases hr' : s'.current h with
  | some r' =>
    rcases hstep.current_cases hs hr' with ⟨r₀, hr₀, _, houtcome⟩ | ⟨_, _, _, _, _, hnone, _⟩
    · obtain rfl := Option.some.inj (hr.symm.trans hr₀)
      rcases houtcome with heq | ⟨a, outcome, rfl, hsettles, _⟩
      · exact Or.inl ⟨r', rfl, heq.trans ho⟩
      · refine Or.inr (Or.inl ⟨[], ?_⟩)
        cases hstep with
        | task =>
          cases a with
          | fail | succeed => exact congrArg (fun x => some (x, [])) hidentity
          | create | promote | lease | renew | release | retry | progress | refile | replace | expireTask | dropDate
          | holdDate | expireResult | expireTerminal | expireDeadLetter | remove | revoke | forget =>
            exact absurd hsettles (by simp [TaskAction.settles])
    · rw [(current_eq_some_iff.mp hr).1] at hnone
      exact absurd hnone (by simp)
  | none =>
    obtain ⟨a, hon, htask, hnext⟩ := hstep.lost hs hr hr'
    obtain ⟨hrecord, hgeneration⟩ := current_eq_some_iff.mp hr
    have hunsettled : ∀ r₀, ¬ (s.view (h.queue, h.id)).Settled r₀ := fun r₀ hr₀ => by
      obtain rfl := Option.some.inj (hr₀.record.symm.trans hrecord)
      exact absurd hr₀.outcome (by simp [ho])
    rcases EngineAction.on_cases hon with rfl | ⟨args, replacedTask, holder, rfl, hk, rfl⟩ | ⟨y, rfl, hk, rfl⟩ |
      ⟨holder, y, rfl, hk, rfl⟩
    · cases hstep with
      | task henabled hadmissible hlocal hline =>
        cases a with
        | fail | succeed => exact Or.inr (Or.inl ⟨[], congrArg (fun x => some (x, [])) hidentity⟩)
        | replace => exact absurd henabled.choose_spec (hunsettled _)
        | expireTask => exact absurd henabled.choose_spec.1 (hunsettled _)
        | remove =>
          have hnoted := (hadmissible r hrecord).2
          rw [hgeneration] at hnoted
          refine Or.inr (Or.inr fun hne => (hlocal.noted h).mpr (hnoted ?_))
          rwa [hlocal.retains] at hne
        | create | refile | forget => exact absurd hadmissible (by simp [TaskAction.Admissible])
        | promote | lease | renew | release | retry | progress | dropDate | holdDate | expireResult | expireTerminal
        | expireDeadLetter | revoke => exact absurd hnext (by simp [TaskAction.next])
    · exact absurd (htask.1.symm.trans hrecord) (by simp)
    · obtain rfl := TaskIdentity.eq_of_key hk ((htask.1.1 r hrecord).symm.trans hgeneration)
      cases hstep with
      | forget henabled hnoted hlocal =>
        refine Or.inr (Or.inr fun hne => (hlocal.noted y).mpr (hnoted ?_))
        rwa [hlocal.retains] at hne
    · exact absurd htask.1.choose_spec (hunsettled _)

/-- The holders of a generation stay until they are dropped or the generation is forgotten. -/
theorem EngineStep.retainedBy_cases (hstep : EngineStep env b s act b' s') (t : TaskIdentity) :
    s'.retainedBy t = s.retainedBy t ∨
      (∃ holder refiled, act = .drop holder t refiled ∧ s'.retainedBy t = (s.retainedBy t).erase holder) ∨
      (act = .forget t ∧ s'.retainedBy t = ∅) ∨
      (∃ holder r, act = .acquire holder t ∧ s'.retainedBy t = insert holder (s.retainedBy t) ∧
        s.current t = some r ∧ (s.retainedBy t).card < r.maxRelationships) ∨
      ∃ args replacedTask holder, act = .create args replacedTask (some holder) ∧
        t = s.nextIdentity args.queue args.id ∧ s'.retainedBy t = insert holder (s.retainedBy t) ∧
        0 < natural args.maxRelationships := by
  cases hstep with
  | task henabled hadmissible hlocal hline => exact Or.inl (congrFun hlocal.retainedBy t)
  | create hfresh hlocal => exact Or.inl (congrFun hlocal.retainedBy t)
  | createHeld hfresh hholder hroom hlocal =>
    next a replacedTask holder =>
    have heq := congrFun hlocal.retainedBy t
    by_cases ht : t = s.nextIdentity a.queue a.id
    · subst ht
      exact Or.inr (Or.inr (Or.inr (Or.inr ⟨a, replacedTask, holder, rfl, rfl,
        heq.trans (Function.update_self ..), hroom⟩)))
    · exact Or.inl (heq.trans (Function.update_of_ne ht _ _))
  | forget henabled hnoted hlocal =>
    next x =>
    have heq := congrFun hlocal.retainedBy t
    by_cases ht : t = x
    · subst ht
      exact Or.inr (Or.inr (Or.inl ⟨rfl, heq.trans (Function.update_self ..)⟩))
    · exact Or.inl (heq.trans (Function.update_of_ne ht _ _))
  | dropKept hkept =>
    next holder x rest =>
    by_cases ht : t = x
    · subst ht
      exact Or.inr (Or.inl ⟨holder, false, rfl, Function.update_self ..⟩)
    · exact Or.inl (Function.update_of_ne ht _ _)
  | dropRefiled hcurrent hsettled hheld hlocal =>
    next holder x rest r =>
    have heq := congrFun hlocal.retainedBy t
    by_cases ht : t = x
    · subst ht
      exact Or.inr (Or.inl ⟨holder, true, rfl, heq.trans (Function.update_self ..)⟩)
    · exact Or.inl (heq.trans (Function.update_of_ne ht _ _))
  | acquire hholder hcurrent hroom =>
    next holder x r =>
    by_cases ht : t = x
    · subst ht
      exact Or.inr (Or.inr (Or.inr (Or.inl ⟨holder, r, rfl, Function.update_self .., hcurrent, hroom⟩)))
    · exact Or.inl (Function.update_of_ne ht _ _)
  | start | pop | note | tick => exact Or.inl rfl

/-- What a holder retains grows by an acquisition of the holder alone. -/
theorem EngineStep.retains_cases (hstep : EngineStep env b s act b' s') (h : TaskIdentity) :
    s'.retains h ⊆ s.retains h ∨ ∃ x, s.CanHold h ∧ s'.retains h = insert x (s.retains h) := by
  cases hstep with
  | task henabled hadmissible hlocal hline => exact Or.inl (congrFun hlocal.retains h).subset
  | create hfresh hlocal => exact Or.inl (congrFun hlocal.retains h).subset
  | createHeld hfresh hholder hroom hlocal =>
    next a replacedTask holder =>
    have heq := congrFun hlocal.retains h
    by_cases hh : h = holder
    · subst hh
      exact Or.inr ⟨_, hholder, heq.trans (Function.update_self ..)⟩
    · exact Or.inl (heq.trans (Function.update_of_ne hh _ _)).subset
  | forget henabled hnoted hlocal => exact Or.inl (congrFun hlocal.retains h).subset
  | pop hnodup hsubset =>
    next holder members =>
    by_cases hh : h = holder
    · subst hh
      refine Or.inl ?_
      dsimp only
      rw [Function.update_self]
      exact Finset.sdiff_subset
    · exact Or.inl (Function.update_of_ne hh _ _).subset
  | dropRefiled hcurrent hsettled hheld hlocal => exact Or.inl (congrFun hlocal.retains h).subset
  | acquire hholder hcurrent hroom =>
    next holder x r =>
    by_cases hh : h = holder
    · subst hh
      exact Or.inr ⟨_, hholder, Function.update_self ..⟩
    · exact Or.inl (Function.update_of_ne hh _ _).subset
  | start | dropKept | note | tick => exact Or.inl (Finset.Subset.refl _)

/-! ### The answers of the sets -/

theorem EngineStep.counter_le (hstep : EngineStep env b s act b' s') (k : TaskKey) :
    s.generations k ≤ s'.generations k := by
  rcases hstep.view k with ⟨_, hview⟩ | ⟨a, _, htask⟩
  · exact (congrArg TaskView.counter hview).symm.le
  · exact htask.counter_le

theorem Store.CanHold.current {h : TaskIdentity} (hholder : s.CanHold h) :
    ∃ r, s.current h = some r ∧ r.outcome = none ∧ (s.retains h).card < r.maxRelationships := by
  obtain ⟨r, hr, ho⟩ := validateLiveHolder_eq_none.mp hholder.live
  exact ⟨r, hr, ho, hholder.room r (current_eq_some_iff.mp hr).1⟩

theorem EngineStep.current_of_create {args : CreateArgs} {replacedTask : Option TaskRecord} {holder : Option TaskIdentity}
    (hstep : EngineStep env b s (.create args replacedTask holder) b' s') :
    ∃ r, s'.current (s.nextIdentity args.queue args.id) = some r := by
  rcases hstep.view (args.queue, args.id) with ⟨hon, _⟩ | ⟨a, hon, htask⟩
  · exact absurd hon (by simp [EngineAction.on])
  · obtain rfl : TaskAction.create args replacedTask = a := by simpa [EngineAction.on] using hon
    obtain ⟨⟨history, hrecord⟩, _⟩ := htask.created
    exact ⟨_, current_eq_some_iff.mpr ⟨hrecord, rfl⟩⟩

/-- A holder that is noted or being released stays so while it has members left. -/
theorem EngineStep.noted_or_busy (hstep : EngineStep env b s act b' s') {h : TaskIdentity} (hne : s'.retains h ≠ ∅)
    (hh : s.Noted h ∨ ∃ members, b = some (h, members)) : s'.Noted h ∨ ∃ members, b' = some (h, members) := by
  cases hstep with
  | task henabled hadmissible hlocal hline =>
    exact Or.inl ((hlocal.noted h).mpr (hh.resolve_right fun ⟨_, hb⟩ => absurd hb (by simp)))
  | create hfresh hlocal => exact hh.imp_left (hlocal.noted h).mpr
  | createHeld hfresh hholder hroom hlocal => exact hh.imp_left (hlocal.noted h).mpr
  | forget henabled hnoted hlocal => exact hh.imp_left (hlocal.noted h).mpr
  | start => exact Or.inl (hh.resolve_right fun ⟨_, hb⟩ => absurd hb (by simp))
  | pop hnodup hsubset =>
    refine hh.imp id fun ⟨members, hb⟩ => ?_
    obtain ⟨rfl, _⟩ := Prod.mk.inj (Option.some.inj hb)
    exact ⟨_, rfl⟩
  | dropKept hkept =>
    refine hh.imp id fun ⟨members, hb⟩ => ?_
    obtain ⟨rfl, _⟩ := Prod.mk.inj (Option.some.inj hb)
    exact ⟨_, rfl⟩
  | dropRefiled hcurrent hsettled hheld hlocal =>
    refine hh.imp (hlocal.noted h).mpr fun ⟨members, hb⟩ => ?_
    obtain ⟨rfl, _⟩ := Prod.mk.inj (Option.some.inj hb)
    exact ⟨_, rfl⟩
  | note =>
    next holder =>
    refine Or.inl ?_
    by_cases heq : h = holder
    · subst heq
      have hcard : 0 < (s.retains h).card := Finset.card_pos.mpr (Finset.nonempty_iff_ne_empty.mpr hne)
      simp [Store.Noted, noteContinuation, hcard]
    · have hnoted := hh.resolve_right fun ⟨_, hb⟩ => heq (Prod.mk.inj (Option.some.inj hb)).1.symm
      unfold Store.Noted noteContinuation at *
      dsimp only
      by_cases hq : h.queue = holder.queue
      · rw [hq, Function.update_self]
        rw [hq] at hnoted
        split
        · rwa [SortedSet.score_add_of_ne _ _ heq]
        · rwa [SortedSet.score_remove_of_ne _ heq]
      · rwa [Function.update_of_ne hq]
  | acquire hholder hcurrent hroom => exact hh
  | tick => exact hh

theorem placed_delete {r r' : TaskRecord} {held : Bool} (h : r.placed .delete held = some r') : held = true := by
  by_contra hheld
  rw [TaskRecord.placed, if_pos ⟨rfl, Bool.eq_false_of_not_eq_true hheld⟩] at h
  exact absurd h (by simp)

/-- A settlement under a delete policy leaves a record only to a generation that is held. -/
theorem EngineStep.held_of_settled {k : TaskKey} {a : TaskAction} {outcome : Outcome} {r r' : TaskRecord}
    (hstep : EngineStep env b s (.task k a) b' s') (hs : Sane env.now s) (hsettles : a.settles = some outcome)
    (hr : s.task k = some r) (hr' : s'.task k = some r') (hpolicy : r'.policy outcome = .delete) :
    s'.retainedBy (s.identity k.1 k.2) ≠ ∅ := by
  have htask := hstep.view_task.1
  obtain ⟨r'', history, hnext, rfl⟩ := htask.record_next (hs.views k) hr hr'
  have hoffer := htask.sameOffer (hs.views k) hr hr'
  rw [hoffer.policy] at hpolicy
  cases hstep with
  | task henabled hadmissible hlocal hline =>
    rw [hlocal.retainedBy, ← hasRetentionHolds_iff]
    cases a with
    | fail cause error retryAt held =>
      obtain rfl := Option.some.inj hsettles
      rw [TaskAction.next, show r.onFailurePolicy = .delete from hpolicy] at hnext
      exact hadmissible.trans (placed_delete hnext)
    | succeed leaseToken result held =>
      obtain rfl := Option.some.inj hsettles
      rw [TaskAction.next, show r.onSuccessPolicy = .delete from hpolicy] at hnext
      exact hadmissible.trans (placed_delete hnext)
    | create | promote | lease | renew | release | retry | progress | refile | replace | expireTask | dropDate
    | holdDate | expireResult | expireTerminal | expireDeadLetter | remove | revoke | forget =>
      exact absurd hsettles (by simp [TaskAction.settles])

/-- The last hold of a settled generation under a delete policy takes the record with it. -/
theorem EngineStep.held_of_dropped {holder t : TaskIdentity} {refiled : Bool} {r r' : TaskRecord} {outcome : Outcome}
    (hstep : EngineStep env b s (.drop holder t refiled) b' s') (hs : Sane env.now s) (hr : s.current t = some r)
    (ho : r.outcome = some outcome) (hpolicy : r.policy outcome = .delete) (hr' : s'.current t = some r') :
    s'.retainedBy t ≠ ∅ := by
  cases hstep with
  | dropKept hkept =>
    rw [← hasRetentionHolds_iff]
    exact (hkept r hr).resolve_left (by simp [ho])
  | dropRefiled hcurrent hsettled hheld hlocal =>
    next rest r₀ =>
    have htask : TaskStep env t.id (s.view (t.queue, t.id)) .refile (s'.view (t.queue, t.id)) :=
      ⟨⟨r, (current_eq_some_iff.mp hr).1, by simp [ho]⟩, hlocal.view_self⟩
    obtain ⟨r'', history, hnext, _⟩ := htask.record_next (hs.views _) (current_eq_some_iff.mp hr).1
      (current_eq_some_iff.mp hr').1
    rw [TaskAction.next, ho, Option.elim_some, hpolicy] at hnext
    exact absurd (placed_delete hnext) (by simp)

theorem EngineStep.current_of_forget {x : TaskIdentity} (hstep : EngineStep env b s (.forget x) b' s') :
    s'.current x = none := by
  cases hstep with
  | forget henabled hnoted hlocal =>
    have hrecord : s'.task (x.queue, x.id) = none := congrArg TaskView.record hlocal.view_self
    simp [Store.current, hrecord]

theorem Sane.generation_le {now : ℚ} (hs : Sane now s) {x : TaskIdentity} {r : TaskRecord}
    (h : s.current x = some r) : x.generation = s.generations (x.queue, x.id) := by
  obtain ⟨hr, hgeneration⟩ := current_eq_some_iff.mp h
  exact hgeneration.symm.trans ((hs.views (x.queue, x.id)).generation r hr).1

/-- The next generation of an id is not stored yet. -/
theorem Sane.current_nextIdentity {now : ℚ} (hs : Sane now s) (queue id : String) :
    s.current (s.nextIdentity queue id) = none := by
  cases h : s.current (s.nextIdentity queue id) with
  | none => rfl
  | some r =>
    have hgeneration : s.generations (queue, id) + 1 = s.generations (queue, id) := hs.generation_le h
    omega

theorem EngineStep.kept (hstep : EngineStep env b s act b' s') (hs : Sane env.now s) (h : Kept b s) : Kept b' s' where
  accounted x hne := by
    have hbefore : (∃ r, s.current x = some r ∧ r.outcome = none) ∨ s.Noted x ∨ ∃ members, b = some (x, members) := by
      rcases hstep.retains_cases x with hsubset | ⟨_, hholder, _⟩
      · refine h.accounted x fun hempty => hne ?_
        rw [hempty] at hsubset
        exact Finset.subset_empty.mp hsubset
      · obtain ⟨r, hr, ho, _⟩ := hholder.current
        exact Or.inl ⟨r, hr, ho⟩
    rcases hbefore with ⟨r, hr, ho⟩ | hbefore
    · rcases hstep.unsettled_holder hs hr ho with hstays | hbusy | hnoted
      · exact Or.inl hstays
      · exact Or.inr (Or.inr hbusy)
      · exact Or.inr (Or.inl (hnoted hne))
    · exact Or.inr (hstep.noted_or_busy hne hbefore)
  stored t hne := by
    have hstays : ∀ r, s.current t = some r → ∃ r', s'.current t = some r' := fun r hr => by
      cases hr' : s'.current t with
      | none => exact absurd (hstep.unheld_of_lost hs hr hr') hne
      | some r' => exact ⟨r', rfl⟩
    rcases hstep.retainedBy_cases t with heq | ⟨holder, _, _, heq⟩ | ⟨_, heq⟩ | ⟨_, r, _, _, hr, _⟩ |
      ⟨args, replacedTask, holder, rfl, rfl, _⟩
    · obtain ⟨r, hr⟩ := h.stored t (heq ▸ hne)
      exact hstays r hr
    · have hbefore : s.retainedBy t ≠ ∅ := fun hempty => hne (by rw [heq, hempty, Finset.erase_empty])
      obtain ⟨r, hr⟩ := h.stored t hbefore
      exact hstays r hr
    · exact absurd heq hne
    · exact hstays r hr
    · exact hstep.current_of_create
  disposed t r' outcome hr' ho' hpolicy := by
    rcases hstep.current_cases hs hr' with ⟨r, hr, hoffer, houtcome⟩ | ⟨_, _, _, _, _, _, hnone, _⟩
    · rw [hoffer.policy] at hpolicy
      rcases houtcome with heq | ⟨a, outcome', rfl, hsettles, houtcome⟩
      · rw [heq] at ho'
        have hbefore := h.disposed t r outcome hr ho' hpolicy
        rcases hstep.retainedBy_cases t with heq | ⟨holder, _, rfl, _⟩ | ⟨rfl, _⟩ | ⟨holder, _, _, heq, _⟩ |
          ⟨_, _, holder, _, _, heq, _⟩
        · rwa [heq]
        · exact hstep.held_of_dropped hs hr ho' hpolicy hr'
        · exact absurd (hstep.current_of_forget.symm.trans hr') (by simp)
        · rw [heq]
          exact Finset.insert_ne_empty _ _
        · rw [heq]
          exact Finset.insert_ne_empty _ _
      · obtain rfl := Option.some.inj (houtcome.symm.trans ho')
        have hheld := hstep.held_of_settled hs hsettles (current_eq_some_iff.mp hr).1 (current_eq_some_iff.mp hr').1
          ((hoffer.policy _).trans hpolicy)
        rwa [identity_of_current hr] at hheld
    · rw [hnone] at ho'
      exact absurd ho' (by simp)
  retainsRoom x r' hr' := by
    rcases hstep.current_cases hs hr' with ⟨r, hr, hoffer, _⟩ | ⟨args, _, _, _, rfl, hfresh, _⟩
    · rw [hoffer.maxRelationships]
      rcases hstep.retains_cases x with hsubset | ⟨y, hholder, heq⟩
      · exact (Finset.card_le_card hsubset).trans (h.retainsRoom x r hr)
      · rw [heq]
        exact (Finset.card_insert_le _ _).trans (hholder.room r (current_eq_some_iff.mp hr).1)
    · rcases hstep.retains_cases (s.nextIdentity args.queue args.id) with hsubset | ⟨y, hholder, _⟩
      · have hempty : s.retains (s.nextIdentity args.queue args.id) = ∅ := by
          by_contra hne
          exact absurd (h.allocated _ hne) (Nat.not_succ_le_self _)
        rw [hempty] at hsubset
        rw [Finset.subset_empty.mp hsubset, Finset.card_empty]
        exact Nat.zero_le _
      · obtain ⟨r, hr, _⟩ := hholder.current
        rw [hs.current_nextIdentity] at hr
        exact absurd hr (by simp)
  retainedRoom t r' hr' := by
    rcases hstep.current_cases hs hr' with ⟨r, hr, hoffer, _⟩ | ⟨args, replacedTask, holder, rfl, rfl, hfresh, _, hlimit⟩
    · rw [hoffer.maxRelationships]
      have hbefore := h.retainedRoom t r hr
      rcases hstep.retainedBy_cases t with heq | ⟨holder, _, _, heq⟩ | ⟨_, heq⟩ | ⟨holder, r₀, _, heq, hr₀, hroom⟩ |
        ⟨_, _, _, _, rfl, _⟩
      · rwa [heq]
      · rw [heq]
        exact (Finset.card_le_card (Finset.erase_subset _ _)).trans hbefore
      · rw [heq, Finset.card_empty]
        exact Nat.zero_le _
      · obtain rfl := Option.some.inj (hr.symm.trans hr₀)
        rw [heq]
        exact (Finset.card_insert_le _ _).trans hroom
      · rw [hs.current_nextIdentity] at hr
        exact absurd hr (by simp)
    · have hempty : s.retainedBy (s.nextIdentity args.queue args.id) = ∅ := by
        by_contra hne
        obtain ⟨r, hr⟩ := h.stored _ hne
        rw [hs.current_nextIdentity] at hr
        exact absurd hr (by simp)
      rw [hlimit]
      rcases hstep.retainedBy_cases (s.nextIdentity args.queue args.id) with heq | ⟨_, _, _, heq⟩ | ⟨_, heq⟩ |
        ⟨_, _, hact, _⟩ | ⟨args', _, holder', hact, _, heq, hroom⟩
      · rw [heq, hempty, Finset.card_empty]
        exact Nat.zero_le _
      · rw [heq, hempty, Finset.erase_empty, Finset.card_empty]
        exact Nat.zero_le _
      · rw [heq, Finset.card_empty]
        exact Nat.zero_le _
      · exact absurd hact (by simp)
      · obtain ⟨rfl, _, _⟩ := EngineAction.create.inj hact
        rw [heq, hempty, insert_empty_eq, Finset.card_singleton]
        exact hroom
  allocated x hne := by
    refine le_trans ?_ (hstep.counter_le (x.queue, x.id))
    rcases hstep.retains_cases x with hsubset | ⟨_, hholder, _⟩
    · refine h.allocated x fun hempty => hne ?_
      rw [hempty] at hsubset
      exact Finset.subset_empty.mp hsubset
    · obtain ⟨r, hr, _⟩ := hholder.current
      exact (hs.generation_le hr).le

theorem kept_empty : Kept none Store.empty where
  accounted h hne := absurd rfl hne
  stored t hne := absurd rfl hne
  disposed t r outcome hr := absurd hr (by simp [Store.current, Store.empty])
  retainsRoom h r hr := absurd hr (by simp [Store.current, Store.empty])
  retainedRoom t r hr := absurd hr (by simp [Store.current, Store.empty])
  allocated h hne := absurd rfl hne

end

end EffectMQ
