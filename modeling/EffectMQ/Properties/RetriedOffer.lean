import EffectMQ.Lifecycle.Fetch
import EffectMQ.Properties.DuplicateOffer
import EffectMQ.Properties.Windows

/-!
# Retried offers

A producer that does not know whether its offer was committed sends it again. The second offer finds the generation of the
first by its record, so it returns that generation exactly when no step in between disposed of the record, and creates
another one otherwise.
-/

namespace EffectMQ

open Redis Transition

/-- A step disposes of a settled record although nobody asks for its removal: it settles under a delete policy with nothing
holding it, its last hold is released under that policy, or the time of its record is over with nothing holding it. -/
inductive SelfDisposal (env : Env) (x : TaskIdentity) (s : Store) : EngineAction → Prop
  | settled {r : TaskRecord} {a : TaskAction} {outcome : Outcome} (hr : s.current x = some r)
      (hsettles : a.settles = some outcome) (hpolicy : r.policy outcome = .delete) (hfree : s.retainedBy x = ∅) :
      SelfDisposal env x s (.task x.key a)
  | released {r : TaskRecord} {outcome : Outcome} {holder : TaskIdentity} (hr : s.current x = some r)
      (ho : r.outcome = some outcome) (hpolicy : r.policy outcome = .delete) (hlast : s.retainedBy x ⊆ {holder}) :
      SelfDisposal env x s (.drop holder x true)
  | expired {r : TaskRecord} (hr : s.current x = some r) (ho : r.outcome.isSome)
      (hdue : ∃ t, (s.expiry x.queue).tasks.score x = some t ∧ t ≤ env.now) (hfree : s.retainedBy x = ∅) :
      SelfDisposal env x s (.task x.key .expireTask)

/-- The holder of an offer is live and holds the stored generation already, or may hold it. -/
def CreateArgs.HolderAccepted (a : CreateArgs) (s : Store) : Prop :=
  ∀ holder, a.retentionHolder = some holder → validateLiveHolder s holder = none ∧
    ∃ s', acquireRetentionHold holder (s.identity a.queue a.id) s = .ok s'

/-- What a retried offer promises: it returns the generation that the first one created, creates none and makes nothing
runnable. -/
structure ReturnsGeneration (g : ℕ) (e : Engine) (c : Call) (e' : Engine) : Prop where
  reply : ∃ cursor r, c.reply = .existing cursor r ∧ r.generation = g
  generations : e'.store.generations = e.store.generations
  task : e'.store.task = (c.op.swept c.env e.store).task
  lists : e'.store.lists = (c.op.swept c.env e.store).lists
  lock : e'.store.lock = (c.op.swept c.env e.store).lock

section

variable {env : Env} {b b' : Busy} {s s' : Store} {act : EngineAction} {x : TaskIdentity} {r : TaskRecord} {a : TaskAction}

/-! ### Disposals -/

theorem SelfDisposal.current (h : SelfDisposal env x s act) : (s.current x).isSome := by
  cases h with
  | settled hr | released hr | expired hr =>
    rw [hr]
    rfl

theorem TaskRecord.placed_delete {held : Bool} : r.placed .delete held = none ↔ held = false := by
  unfold TaskRecord.placed
  cases held <;> simp

/-- A disposal takes the record away. -/
theorem SelfDisposal.lost (h : SelfDisposal env x s act) (hstep : EngineStep env b s act b' s') (hs : Sane env.now s) :
    s'.current x = none := by
  have hnone : ∀ {a : TaskAction}, act.on x.key = some a → (∀ r, s.current x = some r → a.next env r = none) →
      s'.current x = none := by
    intro a hon hnext
    obtain ⟨r, hr⟩ := Option.isSome_iff_exists.mp h.current
    rcases hstep.view x.key with ⟨hnone, _⟩ | ⟨a', hsome, htask⟩
    · exact absurd (hnone.symm.trans hon) (by simp)
    · obtain rfl := Option.some.inj (hsome.symm.trans hon)
      by_contra hne
      obtain ⟨r', hr'⟩ := Option.ne_none_iff_exists'.mp hne
      obtain ⟨r₁, _, hsome, _⟩ := htask.record_next (hs.views _) (current_eq_some_iff.mp hr).1 (current_eq_some_iff.mp hr').1
      exact absurd ((hnext r hr).symm.trans hsome) (by simp)
  cases h with
  | @settled r a outcome hr hsettles hpolicy hfree =>
    refine hnone (a := a) (if_pos rfl) fun r' hr' => ?_
    obtain rfl := Option.some.inj (hr.symm.trans hr')
    have hidentity : s.identity x.queue x.id = x := identity_of_current hr
    have hheld : s.hasRetentionHolds x = false := not_hasRetentionHolds.mpr hfree
    cases hstep with
    | task henabled hadmissible =>
      have hnot : ∀ {held : Bool}, s.hasRetentionHolds (s.identity x.queue x.id) = held → held = false := fun hadmissible =>
        (hadmissible.symm.trans (congrArg _ hidentity)).trans hheld
      cases a with
      | succeed leaseToken result held =>
        obtain rfl := Option.some.inj hsettles
        have hpolicy' : r.onSuccessPolicy = .delete := hpolicy
        rw [TaskAction.next, hpolicy']
        exact TaskRecord.placed_delete.mpr (hnot hadmissible)
      | fail cause error retryAt held =>
        obtain rfl := Option.some.inj hsettles
        have hpolicy' : r.onFailurePolicy = .delete := hpolicy
        rw [TaskAction.next, hpolicy']
        exact TaskRecord.placed_delete.mpr (hnot hadmissible)
      | create | promote | lease | renew | release | retry | progress | refile | replace | expireTask | dropDate | holdDate
      | expireResult | expireTerminal | expireDeadLetter | remove | revoke | forget =>
        exact absurd hsettles (by simp [TaskAction.settles])
  | @released r outcome holder hr ho hpolicy hlast =>
    refine hnone (a := .refile) (if_pos rfl) fun r' hr' => ?_
    obtain rfl := Option.some.inj (hr.symm.trans hr')
    simp only [TaskAction.next, ho, Option.elim_some, hpolicy]
    exact TaskRecord.placed_delete.mpr rfl
  | expired hr => exact hnone (a := .expireTask) (if_pos rfl) fun _ _ => rfl

/-- A record that a step takes away was disposed of by itself, or its removal was asked for. -/
theorem EngineStep.disposal_of_lost (hstep : EngineStep env b s act b' s') (hs : Sane env.now s)
    (hr : s.current x = some r) (hgone : s'.current x = none) :
    SelfDisposal env x s act ∨ act = .forget x ∨ ∃ a, act.on x.key = some a ∧ (a = .replace ∨ a = .remove) := by
  obtain ⟨a, hon, htask, hnext⟩ := hstep.lost hs hr hgone
  have hidentity : s.identity x.queue x.id = x := identity_of_current hr
  obtain ⟨hrecord, hgeneration⟩ := current_eq_some_iff.mp hr
  have hplaced : ∀ {r' : TaskRecord} {policy : CompletionPolicy} {held : Bool}, r'.placed policy held = none →
      policy = .delete ∧ held = false := by
    intro r' policy held h
    unfold TaskRecord.placed at h
    split at h
    · next hdelete => exact hdelete
    · exact absurd h (by simp)
  have hsettled : ∀ {outcome : Outcome} {held : Bool}, act = .task x.key a → a.settles = some outcome →
      (a.Admissible s x.key → s.hasRetentionHolds (s.identity x.queue x.id) = held) → held = false →
      r.policy outcome = .delete → SelfDisposal env x s act := by
    rintro outcome held rfl hsettles hheld hfalse hpolicy
    refine .settled hr hsettles hpolicy (not_hasRetentionHolds.mp ?_)
    rw [hidentity, hfalse] at hheld
    cases hstep with
    | task henabled hadmissible => exact hheld hadmissible
  rcases EngineAction.on_cases hon with hact | ⟨_, _, _, _, _, rfl⟩ | ⟨y, rfl, hkey, rfl⟩ | ⟨holder, y, rfl, hkey, rfl⟩
  · cases a with
    | succeed leaseToken result held =>
      obtain ⟨hdelete, hfalse⟩ := hplaced hnext
      exact Or.inl (hsettled hact rfl (fun hadmissible => hadmissible) hfalse hdelete)
    | fail cause error retryAt held =>
      obtain ⟨hdelete, hfalse⟩ := hplaced hnext
      exact Or.inl (hsettled hact rfl (fun hadmissible => hadmissible) hfalse hdelete)
    | replace => exact Or.inr (Or.inr ⟨_, hon, Or.inl rfl⟩)
    | remove => exact Or.inr (Or.inr ⟨_, hon, Or.inr rfl⟩)
    | expireTask =>
      subst hact
      obtain ⟨r', hsettled', t, hdate, hdue⟩ := htask.1
      obtain rfl := Option.some.inj (hrecord.symm.trans hsettled'.record)
      rw [hgeneration] at hdate
      refine Or.inl (.expired hr hsettled'.outcome ⟨t, hdate, hdue⟩ (not_hasRetentionHolds.mp ?_))
      cases hstep with
      | task henabled hadmissible => exact (congrArg _ hidentity.symm).trans hadmissible
    | refile =>
      subst hact
      cases hstep with
      | task henabled hadmissible => exact hadmissible.elim
    | forget =>
      subst hact
      cases hstep with
      | task henabled hadmissible => exact hadmissible.elim
    | create | promote | lease | renew | release | retry | progress | dropDate | holdDate | expireResult | expireTerminal
    | expireDeadLetter | revoke => exact absurd hnext (by simp [TaskAction.next])
  · exact absurd hnext (by simp [TaskAction.next])
  · refine Or.inr (Or.inl (congrArg _ ?_))
    have hg : y.generation = x.generation := (htask.1.1 r hrecord).symm.trans hgeneration
    obtain ⟨hqueue, hid⟩ := Prod.mk.inj hkey
    cases x
    cases y
    simp_all
  · cases hstep with
    | @dropRefiled _ _ _ _ _ r' hcurrent houtcome hheld hlocal =>
      obtain ⟨hrecord', hgeneration'⟩ := current_eq_some_iff.mp hcurrent
      have hr' : s.task (y.queue, y.id) = some r := by
        rw [hkey]
        exact hrecord
      obtain rfl := Option.some.inj (hr'.symm.trans hrecord')
      have hy : y = x := by
        obtain ⟨hqueue, hid⟩ := Prod.mk.inj hkey
        cases x
        cases y
        simp_all
      subst hy
      obtain ⟨outcome, ho⟩ := Option.isSome_iff_exists.mp houtcome
      simp only [TaskAction.next, ho, Option.elim_some] at hnext
      refine Or.inl (.released hr ho (hplaced hnext).1 ?_)
      rw [not_hasRetentionHolds] at hheld
      simpa [Store.unhold, Finset.erase_eq_empty_iff, Finset.subset_singleton_iff] using hheld

/-! ### The record in a run -/

/-- A generation that has been given is stored, or a step of the run took its record away. -/
def StoredOrLost (x : TaskIdentity) (calls : List Call) (s : Store) : Prop :=
  s.generations x.key < x.generation ∨ (s.current x).isSome ∨
    ∃ c b s₁ act b' s₁', Occurs calls c b s₁ act b' s₁' ∧ (s₁.current x).isSome ∧ s₁'.current x = none

theorem storedOrLost (x : TaskIdentity) (hx : 0 < x.generation) :
    MomentInvariant fun calls _ _ s => StoredOrLost x calls s := by
  constructor
  · exact Or.inl hx
  · rintro calls c clock s _ (hnone | hsome | ⟨d, b, s₁, act, b', s₁', hoccurs, hlost⟩)
    · exact Or.inl hnone
    · exact Or.inr (Or.inl hsome)
    · exact Or.inr (Or.inr ⟨d, b, s₁, act, b', s₁', hoccurs.append [c], hlost⟩)
  · intro calls c b s act b' s' hoccurs hbefore
    have hs := hoccurs.sane
    rcases hbefore with hnone | hsome | hlost
    · rcases hoccurs.step.view x.key with ⟨_, hsame⟩ | ⟨a, hon, htask⟩
      · exact Or.inl (hnone.trans_eq' (congrArg TaskView.counter hsame).symm)
      · by_cases hcreate : ∃ args replacedTask, a = .create args replacedTask
        · obtain ⟨args, replacedTask, rfl⟩ := hcreate
          obtain ⟨⟨history, hrecord⟩, hcounter, _⟩ := htask.created
          have hcounter' : s'.generations x.key = s.generations x.key + 1 := hcounter
          by_cases hg : s.generations x.key + 1 = x.generation
          · refine Or.inr (Or.inl ?_)
            rw [current_eq_some_iff.mpr ⟨hrecord, hg⟩]
            rfl
          · exact Or.inl (by omega)
        · refine Or.inl ?_
          have hcounter : s'.generations x.key = s.generations x.key :=
            htask.counter fun args replacedTask heq => hcreate ⟨args, replacedTask, heq⟩
          omega
    · cases hgone : s'.current x with
      | some r => exact Or.inr (Or.inl (by rw [hgone]; rfl))
      | none => exact Or.inr (Or.inr ⟨c, b, s, act, b', s', hoccurs, hsome, hgone⟩)
    · exact Or.inr (Or.inr hlost)

/-! ### The second offer -/

variable {a : CreateArgs} {w : World}

/-- An offer that finds its record and whose holder is accepted is not refused. -/
theorem offerSwept_accepted (hmode : a.onDuplicate = .returnExisting) (hthrow : a.throwOnExists = false)
    (hr : w.store.task (a.queue, a.id) = some r) (hholder : a.HolderAccepted w.store) :
    ¬ (offerSwept env a w).1.IsFault := by
  have hhistory : ¬ (a.historyEnabled = true ∧ (w.store.task (a.queue, a.id) = none ∨ a.onDuplicate = .newGeneration) ∧
      w.store.history ⟨a.queue, a.id, w.store.generations (a.queue, a.id) + 1⟩ ≠ []) := by
    simp [hr, hmode]
  have hlive : a.retentionHolder.bind (validateLiveHolder w.store) = none := by
    cases hh : a.retentionHolder with
    | none => rfl
    | some holder => exact (hholder holder hh).1
  unfold offerSwept
  rw [if_neg hhistory]
  simp only [hlive, hr, hthrow, hmode, Bool.false_eq_true, if_false]
  unfold returnExisting
  cases hh : a.retentionHolder with
  | none => exact id
  | some holder =>
    obtain ⟨_, s', hacquire⟩ := hholder holder hh
    simp only [hacquire]
    exact id

/-- An offer that returns a stored task found its record, and its holder was accepted. -/
theorem offerSwept_returns (hmode : a.onDuplicate = .returnExisting) {cursor : StreamId}
    (hreply : (offerSwept env a w).1 = .existing cursor r) :
    w.store.task (a.queue, a.id) = some r ∧ a.HolderAccepted w.store := by
  unfold offerSwept at hreply
  dsimp only at hreply
  split at hreply
  · exact absurd hreply (by simp)
  · split at hreply
    · exact absurd hreply (by simp)
    · next hlive =>
      cases hr : w.store.task (a.queue, a.id) with
      | none =>
        simp only [hr, createGeneration] at hreply
        split at hreply
        · exact absurd hreply (by simp [announce])
        · split at hreply
          · exact absurd hreply (by simp [announce])
          · exact absurd hreply (by simp)
      | some r' =>
        simp only [hr, hmode] at hreply
        split at hreply
        · exact absurd hreply (by simp)
        · unfold returnExisting at hreply
          cases hh : a.retentionHolder with
          | none =>
            simp only [hh] at hreply
            obtain ⟨_, rfl⟩ := Reply.existing.inj hreply
            exact ⟨rfl, fun holder heq => absurd (hh.symm.trans heq) (by simp)⟩
          | some holder =>
            simp only [hh] at hreply
            cases hacquire : acquireRetentionHold holder (w.store.identity a.queue a.id) w.store with
            | error message =>
              simp only [hacquire] at hreply
              exact absurd hreply (by simp)
            | ok s =>
              simp only [hacquire] at hreply
              obtain ⟨_, rfl⟩ := Reply.existing.inj hreply
              refine ⟨rfl, fun holder' heq => ?_⟩
              obtain rfl := Option.some.inj (hh.symm.trans heq)
              rw [hh] at hlive
              exact ⟨hlive, s, hacquire⟩

section

variable {calls between : List Call} {e₀ e₁ e e₂ : Engine} {c₁ c₂ : Call}

/-- The offer that creates a generation stores it. -/
theorem created_current (h : engine.Run calls e₀) (h₁ : engine.step e₀ c₁ e₁) (hop : c₁.op = .createTask a)
    (hmode : a.onDuplicate = .returnExisting) (hcreated : c₁.reply.isCreated) :
    createFault a = none ∧ e₀.store.generations (a.queue, a.id) < e₁.store.generations (a.queue, a.id) ∧
      (e₁.store.current ⟨a.queue, a.id, e₁.store.generations (a.queue, a.id)⟩).isSome := by
  obtain ⟨env, op, reply⟩ := c₁
  obtain rfl := hop
  obtain ⟨hclock, _, hexec⟩ := h₁
  have hs : Sane env.now e₀.store := (run_sane h).mono (Nat.cast_le.mpr hclock)
  have hswept := swept_path hs (.createTask a)
  have hfault : ∀ {reply : Reply}, reply.IsFault → ¬ reply.isCreated = true := by
    intro reply hfault hcreated
    cases reply <;> simp_all [Reply.IsFault, Reply.isCreated]
  have heffect := exec_effect hs hexec
  have hle := hswept.counter_le (a.queue, a.id)
  generalize (Op.createTask a).swept env e₀.store = m at heffect hle
  generalize e₁.store = s₁ at heffect
  cases heffect with
  | refused _ _ hrefused => exact absurd hcreated (hfault hrefused)
  | answered _ _ _ hquiet => exact absurd rfl (hquiet.created a)
  | scheduled _ _ hop => exact absurd hop (by simp)
  | offered hvalid h =>
    refine ⟨hvalid, ?_⟩
    cases h with
    | refused | disposed => exact absurd hcreated (@hfault (.error _) trivial)
    | existing | held => exact absurd hcreated (by simp [Reply.isCreated])
    | replaced _ hmode' => exact absurd (hmode.symm.trans hmode') (by simp)
    | @created holder _ hr hstep cursor task =>
      have hon : (EngineAction.create a none holder).on (a.queue, a.id) = some (.create a none) := if_pos rfl
      rcases hstep.view (a.queue, a.id) with ⟨hnone, _⟩ | ⟨a', hsome, htask⟩
      · exact absurd (hnone.symm.trans hon) (by simp)
      · obtain rfl := Option.some.inj (hsome.symm.trans hon)
        obtain ⟨⟨history, hrecord⟩, hcounter, _⟩ := htask.created
        have hcounter' : s₁.generations (a.queue, a.id) = m.generations (a.queue, a.id) + 1 := hcounter
        refine ⟨by omega, ?_⟩
        rw [current_eq_some_iff.mpr ⟨hrecord, hcounter'.symm⟩]
        rfl

theorem Occurs.given {c : Call} {x : TaskIdentity} (hoccurs : Occurs calls c b s act b' s') (hr : s.current x = some r) :
    x.generation ≤ s.generations x.key := by
  obtain ⟨hrecord, hgeneration⟩ := current_eq_some_iff.mp hr
  exact (hgeneration.symm.trans ((hoccurs.sane.views x.key).generation r hrecord).1).le

/-- A record that is gone after a step of a run stays away to its end. -/
theorem Occurs.gone {calls rest : List Call} {e e' : Engine} (h : engine.Run calls e) (h' : engine.Path e rest e')
    {c : Call} {x : TaskIdentity} (hoccurs : Occurs (calls ++ rest) c b s act b' s')
    (hbefore : e.store.generations x.key < x.generation) (hgiven : x.generation ≤ s'.generations x.key)
    (hgone : s'.current x = none) : e'.store.current x = none := by
  obtain ⟨pre, post, e₁, e₂, rfl, hpre, hstep, hperforms, hrest⟩ := hoccurs.after h hbefore hgiven
  obtain ⟨e₃, hpre', hpost⟩ := System.Path.split h'
  obtain rfl := engine_path_unique hpre hpre'
  obtain ⟨e₄, hfirst, hpost⟩ := System.Path.split (l := [c]) hpost
  obtain rfl := engine_path_unique (.single hstep) hfirst
  have hrun₁ := h.extend hpre
  have hrun₂ := hrun₁.snoc hstep
  have hsince : s'.Since x e₂.store := hrest.since (hperforms.step.sane (hperforms.sane hrun₁)) hgiven
  have hend : e₂.store.Since x e'.store := by
    refine path_preserves hrun₂ hpost (I := fun _ e' => e₂.store.Since x e'.store) ⟨hsince.given, fun h => h⟩ ?_
    intro calls₁ e₅ d e₆ hrun _ hsince ⟨hclock, _, hexec⟩
    have hs : Sane d.env.now e₅.store := (run_sane hrun).mono (Nat.cast_le.mpr hclock)
    exact hsince.trans ((exec_path hs hexec).since hs hsince.given)
  by_contra hne
  have hsome := (hsince.trans hend).existed (Option.isSome_iff_ne_none.mpr hne)
  rw [hgone] at hsome
  exact absurd hsome (by simp)

/-- An offer that returns a stored task removes none. -/
theorem createTask_asks_nothing {d : Call} (hop : d.op = .createTask a) (hmode : a.onDuplicate = .returnExisting) :
    ¬ d.op.Disposes a.queue a.id ∧ d.op ≠ .forceRemoveTask a.queue a.id := by
  rw [hop]
  refine ⟨?_, by simp⟩
  rintro (hremove | ⟨a', heq, _, _, hmode'⟩)
  · exact absurd hremove (by simp)
  · obtain rfl := Op.createTask.inj heq
    exact absurd (hmode.symm.trans hmode') (by simp)

/-- A generation that no call was asked to remove is stored as long as no step disposed of it by itself. -/
theorem current_of_undisposed {x : TaskIdentity} {mid : List Call} (h : engine.Run calls e₀)
    (hbefore : e₀.store.generations x.key < x.generation)
    (hquiet : ∀ d ∈ mid, ¬ d.op.Disposes x.queue x.id ∧ d.op ≠ .forceRemoveTask x.queue x.id)
    (hundisposed : ∀ c b s act b' s', Occurs (calls ++ mid) c b s act b' s' → ¬ SelfDisposal c.env x s act)
    (hgiven : x.generation ≤ s.generations x.key) (hmoment : StoredOrLost x (calls ++ mid) s) :
    (s.current x).isSome := by
  rcases hmoment with hnone | hsome | ⟨d, b, s₁, act, b', s₂, hoccurs, hstored, hgone⟩
  · exact absurd hgiven (not_le.mpr hnone)
  · exact hsome
  · obtain ⟨r, hr⟩ := Option.isSome_iff_exists.mp hstored
    have hlast := (hoccurs.given hr).trans (hoccurs.step.counter_le x.key)
    obtain ⟨pre, post, e₃, e₄, rfl, _, _, hperforms, _⟩ := hoccurs.after h hbefore hlast
    obtain ⟨hdisposes, hforce⟩ := hquiet d (by simp)
    rcases hoccurs.step.disposal_of_lost hoccurs.sane hr hgone with hdisposal | rfl | ⟨a', hon, ha⟩
    · exact absurd hdisposal (hundisposed d b s₁ act b' s₂ hoccurs)
    · exact absurd hperforms.allowed.of_forget.1 hforce
    · refine absurd ?_ hdisposes
      rcases hperforms.allowed.of_discard hon ha with ⟨_, hop⟩ | ⟨_, args, hop, hkey, hmode'⟩
      · exact Or.inl hop
      · exact Or.inr ⟨args, hop, (Prod.mk.inj hkey).1, (Prod.mk.inj hkey).2, hmode'⟩

/-- A retried offer returns the generation that the first one created, whatever happened in between short of an asked
removal, exactly when no step disposed of its record by itself and its holder, if it names one, is still accepted. -/
theorem run_retriedOffer (h : engine.Run calls e₀) (h₁ : engine.step e₀ c₁ e₁) (hop₁ : c₁.op = .createTask a)
    (hmode : a.onDuplicate = .returnExisting) (hthrow : a.throwOnExists = false) (hcreated : c₁.reply.isCreated)
    (hbetween : engine.Path e₁ between e)
    (hquiet : ∀ c ∈ between, ¬ c.op.Disposes a.queue a.id ∧ c.op ≠ .forceRemoveTask a.queue a.id)
    (h₂ : engine.step e c₂ e₂) (hop₂ : c₂.op = .createTask a) :
    ReturnsGeneration (e₁.store.generations (a.queue, a.id)) e c₂ e₂ ↔
      (∀ c b s act b' s', Occurs (calls ++ c₁ :: between ++ [c₂]) c b s act b' s' →
        ¬ SelfDisposal c.env ⟨a.queue, a.id, e₁.store.generations (a.queue, a.id)⟩ s act) ∧
      a.HolderAccepted (sweep c₂.env a.queue e.store) := by
  obtain ⟨hvalid, hfresh, hstored⟩ := created_current h h₁ hop₁ hmode hcreated
  let x : TaskIdentity := ⟨a.queue, a.id, e₁.store.generations (a.queue, a.id)⟩
  have hrun₁ := h.snoc h₁
  have hrun : engine.Run ((calls ++ [c₁]) ++ between) e := hrun₁.extend hbetween
  have hcalls : calls ++ c₁ :: between ++ [c₂] = calls ++ ([c₁] ++ between ++ [c₂]) := by simp
  have hlater : engine.Path e₀ ([c₁] ++ between ++ [c₂]) e₂ := ((System.Path.single h₁).trans hbetween).snoc h₂
  obtain ⟨hclock, _, hexec⟩ := h₂
  have hs : Sane c₂.env.now e.store := (run_sane hrun).mono (Nat.cast_le.mpr hclock)
  have hswept := swept_path hs c₂.op
  have hsweep : c₂.op.swept c₂.env e.store = sweep c₂.env a.queue e.store := by
    rw [hop₂, Op.swept, if_pos hvalid]
  have hrest := (exec_effect hs hexec).path
  have hreplied := exec_replied hexec
  simp only [hop₂, Op.run, createTask, hvalid] at hreplied
  rw [hsweep] at hswept
  constructor
  · rintro ⟨⟨cursor, r, hreply, hgeneration⟩, _, htask, _⟩
    obtain ⟨hr, haccepted⟩ := offerSwept_returns (w := syncAll c₂.env a.queue (World.begin c₂.env e.store)) hmode
      (hreplied.1.trans hreply)
    refine ⟨fun c b s act b' s' hoccurs hdisposal => ?_, haccepted⟩
    have hs' := hoccurs.sane
    obtain ⟨r', hr'⟩ := Option.isSome_iff_exists.mp hdisposal.current
    have hgiven : x.generation ≤ s'.generations x.key := (hoccurs.given hr').trans (hoccurs.step.counter_le x.key)
    have hgone : e₂.store.current x = none :=
      Occurs.gone h hlater (hcalls ▸ hoccurs) hfresh hgiven (hdisposal.lost hoccurs.step hs')
    have hr₂ : e₂.store.task (a.queue, a.id) = some r := by
      rw [htask, hsweep]
      exact hr
    exact absurd ((current_eq_some_iff.mpr ⟨hr₂, hgeneration⟩).symm.trans hgone) (by simp)
  · rintro ⟨hundisposed, haccepted⟩
    have hadmin : ∀ d ∈ [c₁] ++ between ++ [c₂], ¬ d.op.Disposes a.queue a.id ∧ d.op ≠ .forceRemoveTask a.queue a.id := by
      intro d hd
      simp only [List.mem_append, List.mem_singleton] at hd
      rcases hd with (rfl | hd) | rfl
      · exact createTask_asks_nothing hop₁ hmode
      · exact hquiet d hd
      · exact createTask_asks_nothing hop₂ hmode
    have hcounted : x.generation ≤ (sweep c₂.env a.queue e.store).generations x.key :=
      (path_counter_le hrun₁ hbetween x.key).trans (hswept.counter_le x.key)
    have hcurrent : ((sweep c₂.env a.queue e.store).current x).isSome := by
      have hmoment : StoredOrLost x ((calls ++ [c₁]) ++ between ++ [c₂]) (sweep c₂.env a.queue e.store) :=
        (storedOrLost x ((Nat.zero_le _).trans_lt hfresh)).within hrun ⟨hclock, ‹_›, hexec⟩
          (hswept.mono fun act hact => Or.inl hact) (hsweep ▸ hrest.mono fun act hact => Or.inr hact)
      have hlist : (calls ++ [c₁]) ++ between ++ [c₂] = calls ++ ([c₁] ++ between ++ [c₂]) := by simp
      exact current_of_undisposed h hfresh hadmin (hcalls ▸ hundisposed) hcounted (hlist ▸ hmoment)
    obtain ⟨r, hr⟩ := Option.isSome_iff_exists.mp hcurrent
    obtain ⟨hrecord, hgeneration⟩ := current_eq_some_iff.mp hr
    have hreply := @offerSwept_accepted c₂.env _ a (syncAll c₂.env a.queue (World.begin c₂.env e.store)) hmode hthrow hrecord
      haccepted
    obtain ⟨hexisting, hcases⟩ := offerSwept_existing hmode hrecord hreply
    rw [hreplied.2] at hcases
    have hsame : e₂.store.generations = (sweep c₂.env a.queue e.store).generations ∧
        e₂.store.task = (sweep c₂.env a.queue e.store).task ∧ e₂.store.lists = (sweep c₂.env a.queue e.store).lists ∧
        e₂.store.lock = (sweep c₂.env a.queue e.store).lock := by
      rcases hcases with ⟨_, heq⟩ | ⟨holder, _, _, heq⟩ <;> rw [heq] <;> exact ⟨rfl, rfl, rfl, rfl⟩
    refine ⟨⟨_, r, hreplied.1.symm.trans hexisting, hgeneration⟩, hsame.1.trans ?_, ?_, ?_, ?_⟩
    · exact funext fun k => (sweep_path hs a.queue).counter_eq fun _ hact => hact.not_create
    · rw [hsweep]
      exact hsame.2.1
    · rw [hsweep]
      exact hsame.2.2.1
    · rw [hsweep]
      exact hsame.2.2.2

end

end

/-! ### The default policy -/

/-- The offer of a task under the default policies, which delete it when it settles. -/
def mailOffer : CreateArgs := .default "mail" "a"

/-- Whether the call of an offer with these operations after it, and the same offer once more, show something. -/
def retried (steps : List (Env × Op)) (clock : ℕ) (p : Call → Engine → List Call → Call → Engine → Bool) : Option Bool :=
  (perform Engine.start (.at 1) (.createTask mailOffer)).bind fun first =>
    (play first.2 steps).bind fun middle =>
      (perform middle.2 (.at clock) (.createTask mailOffer)).map fun last => p first.1 first.2 middle.1 last.1 last.2

theorem retried_run {steps : List (Env × Op)} {clock : ℕ} {p : Call → Engine → List Call → Call → Engine → Bool}
    (h : retried steps clock p = some true) :
    ∃ c₁ e₁ between e c₂ e₂, engine.step Engine.start c₁ e₁ ∧ c₁.op = .createTask mailOffer ∧ engine.Path e₁ between e ∧
      engine.step e c₂ e₂ ∧ c₂.op = .createTask mailOffer ∧ p c₁ e₁ between c₂ e₂ = true := by
  obtain ⟨⟨c₁, e₁⟩, hfirst, h⟩ := Option.bind_eq_some_iff.mp h
  obtain ⟨⟨between, e⟩, hmiddle, h⟩ := Option.bind_eq_some_iff.mp h
  obtain ⟨⟨c₂, e₂⟩, hlast, hp⟩ := Option.map_eq_some_iff.mp h
  exact ⟨c₁, e₁, between, e, c₂, e₂, perform_step hfirst, perform_op hfirst, play_path hmiddle,
    perform_step hlast, perform_op hlast, hp⟩

/-- No call asks for a removal. -/
def Op.isRemoval : Op → Bool
  | .removeTask _ _ | .forceRemoveTask _ _ => true
  | .createTask a => a.onDuplicate = .newGeneration
  | _ => false

theorem quiet_of_isRemoval {calls : List Call} (h : (calls.all fun c => !c.op.isRemoval) = true) (queue id : String) :
    ∀ c ∈ calls, ¬ c.op.Disposes queue id ∧ c.op ≠ .forceRemoveTask queue id := by
  intro c hc
  have hop := List.all_eq_true.mp h c hc
  refine ⟨?_, ?_⟩
  · rintro (heq | ⟨a, heq, _, _, hmode⟩) <;> simp_all [Op.isRemoval]
  · intro heq
    simp [heq, Op.isRemoval] at hop

/-- The offer is created and then returned. -/
def showsReturned (c₁ : Call) (_ : Engine) (between : List Call) (c₂ : Call) (_ : Engine) : Bool :=
  c₁.reply.isCreated && (between.all fun c => !c.op.isRemoval) && !c₂.reply.isCreated

theorem run_retriedOffer_leased : ∃ c₁ e₁ between e c₂ e₂, engine.step Engine.start c₁ e₁ ∧ engine.Path e₁ between e ∧
    engine.step e c₂ e₂ ∧ c₂.op = c₁.op ∧ ¬ c₂.reply.isCreated ∧
    (ReturnsGeneration (e₁.store.generations ("mail", "a")) e c₂ e₂ ↔
      (∀ c b s act b' s', Occurs (c₁ :: between ++ [c₂]) c b s act b' s' →
        ¬ SelfDisposal c.env ⟨"mail", "a", e₁.store.generations ("mail", "a")⟩ s act) ∧
      mailOffer.HolderAccepted (sweep c₂.env "mail" e.store)) := by
  obtain ⟨c₁, e₁, between, e, c₂, e₂, h₁, hop₁, hbetween, h₂, hop₂, hshows⟩ := @retried_run
    [(.at 2, .takeTask "mail" "token" (some 30000))] 3 showsReturned (by decide +kernel)
  simp only [showsReturned, Bool.and_eq_true, Bool.not_eq_true'] at hshows
  obtain ⟨⟨hcreated, hquiet⟩, hreturned⟩ := hshows
  exact ⟨c₁, e₁, between, e, c₂, e₂, h₁, hbetween, h₂, hop₂.trans hop₁.symm, by simp [hreturned],
    @run_retriedOffer _ [] _ _ _ _ _ _ _ ⟨_, rfl, .nil⟩ h₁ hop₁ rfl rfl hcreated hbetween
      (quiet_of_isRemoval hquiet "mail" "a") h₂ hop₂⟩

/-- The offer is created twice, although the result of the first generation is still there. -/
def showsTwice (c₁ : Call) (_ : Engine) (between : List Call) (c₂ : Call) (e₂ : Engine) : Bool :=
  c₁.reply.isCreated && (between.all fun c => !c.op.isRemoval) && c₂.reply.isCreated &&
    (e₂.store.result ⟨"mail", "a", 1⟩).isSome && decide ("a" ∈ (e₂.store.lists "mail").wait)

/-- Under the default policy a retried offer creates another generation and makes its task runnable again, although the
result of the first one is still kept. -/
theorem retriedOffer_creates : ∃ c₁ e₁ between e c₂ e₂, engine.step Engine.start c₁ e₁ ∧ engine.Path e₁ between e ∧
    engine.step e c₂ e₂ ∧ c₁.op = .createTask mailOffer ∧ c₁.reply.isCreated ∧ c₂.op = c₁.op ∧
    (∀ c ∈ between, ¬ c.op.Disposes "mail" "a" ∧ c.op ≠ .forceRemoveTask "mail" "a") ∧
    (e₂.store.result ⟨"mail", "a", 1⟩).isSome ∧ c₂.reply.isCreated ∧ "a" ∈ (e₂.store.lists "mail").wait ∧
    ¬ ReturnsGeneration (e₁.store.generations ("mail", "a")) e c₂ e₂ := by
  obtain ⟨c₁, e₁, between, e, c₂, e₂, h₁, hop₁, hbetween, h₂, hop₂, hshows⟩ := @retried_run
    [(.at 2, .takeTask "mail" "token" (some 30000)), (.at 3, .writeSuccess "mail" "token" "a" "sent")] 4 showsTwice
    (by decide +kernel)
  simp only [showsTwice, Bool.and_eq_true, decide_eq_true_eq] at hshows
  obtain ⟨⟨⟨⟨hcreated, hquiet⟩, htwice⟩, hresult⟩, hwait⟩ := hshows
  refine ⟨c₁, e₁, between, e, c₂, e₂, h₁, hbetween, h₂, hop₁, hcreated, hop₂.trans hop₁.symm,
    quiet_of_isRemoval hquiet "mail" "a", hresult, htwice, hwait, ?_⟩
  rintro ⟨⟨cursor, r, hreply, _⟩, _⟩
  rw [hreply] at htwice
  exact absurd htwice Bool.false_ne_true

end EffectMQ
