import EffectMQ.Properties.Settlement
import EffectMQ.Lifecycle.Archive
import EffectMQ.Lifecycle.Holds

/-!
# Retention

The retention sets neither leak nor break early: the halves agree in every state of a run, a holder with members left
is live or on its way to release them, and what is retained stays until its last hold goes.
-/

namespace EffectMQ

open Redis Relationship Transition

/-- A forced removal of the run found the generation stored. -/
def ForceRemoved (calls : List Call) (t : TaskIdentity) : Prop :=
  ∃ before c after e₀, calls = before ++ c :: after ∧ engine.Run before e₀ ∧
    c.op = .forceRemoveTask t.queue t.id ∧ ((c.op.swept c.env e₀.store).current t).isSome

/-- What the retention sets of a state say. -/
structure Retention (forced : TaskIdentity → Prop) (s : Store) : Prop where
  paired : ∀ h t, h ∈ s.retainedBy t → t ∈ s.retains h
  returned : ∀ h t, t ∈ s.retains h → h ∈ s.retainedBy t ∨ forced t
  accounted : ∀ h, s.retains h ≠ ∅ → (∃ r, s.current h = some r ∧ r.outcome = none) ∨ s.Noted h
  stored : ∀ t, s.retainedBy t ≠ ∅ → ∃ r, s.current t = some r
  disposed : ∀ t r outcome, s.current t = some r → r.outcome = some outcome → r.policy outcome = .delete →
    s.retainedBy t ≠ ∅
  retainsRoom : ∀ h r, s.current h = some r → (s.retains h).card ≤ r.maxRelationships
  retainedRoom : ∀ t r, s.current t = some r → (s.retainedBy t).card ≤ r.maxRelationships

/-- Record, result and history of a stored generation stay; the history may grow, up to the limit of the record. -/
structure Store.Keeps (s s' : Store) (t : TaskIdentity) : Prop where
  record : ∃ r r', s.current t = some r ∧ s'.current t = some r' ∧ r.SameOffer r' ∧
    (s'.history t = s.history t ∨ ∃ added, s'.history t = newest r.history.maxEntries (s.history t ++ added))
  result : ∀ result, s.result t = some result → s'.result t = some result

/-- The operations that dispose of a settled generation of an id, without force. -/
def Op.Disposes (queue id : String) (op : Op) : Prop :=
  op = .removeTask queue id ∨ ∃ a, op = .createTask a ∧ a.queue = queue ∧ a.id = id ∧ a.onDuplicate = .newGeneration

theorem ForceRemoved.append {calls calls' : List Call} {t : TaskIdentity} (h : ForceRemoved calls t) :
    ForceRemoved (calls ++ calls') t := by
  obtain ⟨before, c, after, e₀, rfl, hrun, hop, hstored⟩ := h
  exact ⟨before, c, after ++ calls', e₀, by simp, hrun, hop, hstored⟩

theorem matched_empty (forced : TaskIdentity → Prop) : Store.empty.halves.Matched (Pending none) forced where
  paired h _ hh := absurd hh (Finset.notMem_empty h)
  returned _ t ht := absurd ht (Finset.notMem_empty t)
  popped h t hp := absurd hp (not_pending_none h t)

theorem run_kept {calls : List Call} {e : Engine} (h : engine.Run calls e) : Kept none e.store :=
  run_preserves h kept_empty fun _ _ _ _ _ _ hs hkept hstep => hstep.kept hs hkept

theorem run_matched {calls : List Call} {e : Engine} (h : engine.Run calls e) :
    e.store.halves.Matched (Pending none) (ForceRemoved calls) := by
  refine h.induction (P := fun calls e => e.store.halves.Matched (Pending none) (ForceRemoved calls)) ?_ ?_
  · rintro _ rfl
    exact matched_empty _
  · intro calls e c e' hrun ih ⟨hclock, _, hexec⟩
    have hs : Sane c.env.now e.store := (run_sane hrun).mono (Nat.cast_le.mpr hclock)
    refine ((exec_path hs hexec).preserves hs
      (I := fun b s => Kept b s ∧ s.halves.Matched (Pending b) (ForceRemoved (calls ++ [c])))
      ⟨run_kept hrun, ih.mono fun t ht => ht.append⟩ ?_).2
    intro b s act b' s' hs ⟨hkept, hmatched⟩ hstep hact
    refine ⟨hstep.kept hs hkept, hstep.matched (fun x hx hne => ?_) hmatched⟩
    subst hx
    obtain ⟨r, hr⟩ := hkept.stored x hne
    -- a stored generation is positive, so the identity that the removal reads is that of a record
    have hpos : 0 < x.generation := by
      obtain ⟨hrecord, hgeneration⟩ := current_eq_some_iff.mp hr
      rw [← hgeneration]
      exact ((hs.views (x.queue, x.id)).generation r hrecord).1 ▸ ((hs.views (x.queue, x.id)).generation r hrecord).2
    obtain ⟨hop, hidentity⟩ := hact.of_forget
    refine ⟨calls, c, [], e, rfl, hrun, hop, ?_⟩
    have hgeneration : (c.op.swept c.env e.store).generation x.queue x.id = x.generation :=
      congrArg TaskIdentity.generation hidentity
    unfold Store.generation at hgeneration
    cases hrecord : (c.op.swept c.env e.store).task (x.queue, x.id) with
    | none =>
      rw [hrecord] at hgeneration
      exact absurd hgeneration hpos.ne
    | some r' =>
      rw [hrecord] at hgeneration
      rw [current_eq_some_iff.mpr ⟨hrecord, hgeneration⟩, Option.isSome_some]

theorem run_retention_sets {calls : List Call} {e : Engine} (h : engine.Run calls e) :
    Retention (ForceRemoved calls) e.store where
  paired x t hx := ((run_matched h).paired x t hx).resolve_right (not_pending_none x t)
  returned := (run_matched h).returned
  accounted x hne := ((run_kept h).accounted x hne).imp_right fun hh => hh.resolve_right fun ⟨_, hb⟩ =>
    absurd hb (by simp)
  stored := (run_kept h).stored
  disposed := (run_kept h).disposed
  retainsRoom := (run_kept h).retainsRoom
  retainedRoom := (run_kept h).retainedRoom

/-! ### Disposal under a delete policy -/

/-- A generation keeps what its offer set, as long as its record is stored. -/
theorem path_sameOffer {calls calls' : List Call} {e e' : Engine} (h : engine.Run calls e)
    (h' : engine.Path e calls' e') {t : TaskIdentity} {r : TaskRecord} (hr : e.store.current t = some r) :
    ∀ r', e'.store.current t = some r' → r.SameOffer r' := by
  refine (path_preserves h h' (I := fun _ e' => t.generation ≤ e'.store.generations (t.queue, t.id) ∧
    ∀ r', e'.store.current t = some r' → r.SameOffer r') ?_ ?_).2
  · refine ⟨((run_sane h).generation_le hr).le, fun r' hr' => ?_⟩
    rw [Option.some.inj (hr'.symm.trans hr)]
    exact .refl r
  · intro calls₁ e₁ c e₂ hrun _ hoffer ⟨hclock, _, hexec⟩
    have hs : Sane c.env.now e₁.store := (run_sane hrun).mono (Nat.cast_le.mpr hclock)
    refine (exec_path hs hexec).preserves hs
      (I := fun _ s => t.generation ≤ s.generations (t.queue, t.id) ∧ ∀ r', s.current t = some r' → r.SameOffer r')
      hoffer ?_
    intro b s act b' s' hs ⟨hle, hoffer⟩ hstep _
    refine ⟨hle.trans (hstep.counter_le _), fun r' hr' => ?_⟩
    rcases hstep.current_cases hs hr' with ⟨r₀, hr₀, hsame, _⟩ | ⟨args, _, _, _, rfl, _⟩
    · exact (hoffer r₀ hr₀).trans hsame
    · exact absurd hle (Nat.not_succ_le_self _)

/-- After it settled under a delete policy, a generation is stored exactly as long as it is retained. -/
theorem stored_iff_retained {calls calls' : List Call} {e e' : Engine} (h : engine.Run calls e) {t : TaskIdentity}
    {r : TaskRecord} {outcome : Outcome} (hr : e.store.current t = some r) (ho : r.outcome = some outcome)
    (hpolicy : r.policy outcome = .delete) (h' : engine.Path e calls' e') :
    (∃ r', e'.store.current t = some r') ↔ e'.store.retainedBy t ≠ ∅ := by
  refine ⟨fun ⟨r', hr'⟩ => ?_, (run_kept (h.extend h')).stored t⟩
  obtain ⟨hrecord, hgeneration⟩ := current_eq_some_iff.mp hr
  obtain ⟨hrecord', hgeneration'⟩ := current_eq_some_iff.mp hr'
  have houtcome := ((path_final h h' (t.queue, t.id) t.generation).record r r' hrecord hgeneration (by simp [ho])
    hrecord' hgeneration').1
  refine (run_kept (h.extend h')).disposed t r' outcome hr' (houtcome.trans ho) ?_
  rw [(path_sameOffer h h' hr r' hr').policy, hpolicy]

/-! ### What is retained stays -/

theorem Engine.Performs.keeps {calls : List Call} {e : Engine} (h : engine.Run calls e) {env : Env} {op : Op}
    {b b' : Busy} {s s' : Store} {act : EngineAction} (hperforms : e.Performs env op b s act b' s') {t : TaskIdentity}
    (hheld : s.retainedBy t ≠ ∅) (hop : op ≠ .forceRemoveTask t.queue t.id) :
    s.Keeps s' t ∨ ∃ holder refiled, act = .drop holder t refiled ∧ s.retainedBy t = {holder} := by
  have hs := hperforms.sane h
  have hkept : Kept b s := hperforms.preserves h kept_empty fun _ _ _ _ _ _ hs hkept hstep => hstep.kept hs hkept
  obtain ⟨r, hr⟩ := hkept.stored t hheld
  have hact : act ≠ .forget t := fun heq => hop (Op.Allows.of_forget (heq ▸ hperforms.allowed)).1
  cases hr' : s'.current t with
  | none =>
    have hempty := hperforms.step.unheld_of_lost hs hr hr'
    refine Or.inr ?_
    rcases hperforms.step.retainedBy_cases t with heq | ⟨holder, refiled, hdrop, heq⟩ | ⟨hforget, _⟩ |
      ⟨_, _, _, heq, _⟩ | ⟨_, _, _, _, _, heq, _⟩
    · exact absurd (heq.symm.trans hempty) hheld
    · refine ⟨holder, refiled, hdrop, ?_⟩
      rw [heq, Finset.erase_eq_empty_iff] at hempty
      exact hempty.resolve_left hheld
    · exact absurd hforget hact
    · rw [heq] at hempty
      exact absurd hempty (Finset.insert_ne_empty _ _)
    · rw [heq] at hempty
      exact absurd hempty (Finset.insert_ne_empty _ _)
  | some r' =>
    obtain ⟨hrecord, hgeneration⟩ := current_eq_some_iff.mp hr
    obtain ⟨hrecord', _⟩ := current_eq_some_iff.mp hr'
    refine Or.inl ⟨⟨r, r', hr, hr', ?_, ?_⟩, fun result hresult => ?_⟩
    · rcases hperforms.step.current_cases hs hr' with ⟨r₀, hr₀, hsame, _⟩ | ⟨args, _, _, _, rfl, _⟩
      · obtain rfl := Option.some.inj (hr.symm.trans hr₀)
        exact hsame
      · rw [hs.current_nextIdentity] at hr
        exact absurd hr (by simp)
    · rcases hperforms.step.view (t.queue, t.id) with ⟨_, hview⟩ | ⟨a, _, htask⟩
      · exact Or.inl (congrFun (congrArg TaskView.history hview) t.generation)
      · have hstays : (s'.view (t.queue, t.id)).record ≠ none := fun hnone => absurd (hrecord'.symm.trans hnone) (by simp)
        obtain ⟨_, _, _, _, hhistory⟩ := htask.grown hstays r hrecord
        rw [hgeneration] at hhistory
        exact hhistory
    · rcases hperforms.settlement_or h (t.queue, t.id) t.generation with hsettled | hquiet
      · exact absurd (hsettled.before.2.symm.trans hresult) (by simp)
      · rcases hquiet.result with heq | ⟨_, rfl | ⟨hforget, _⟩⟩
        · exact heq.trans hresult
        · cases hperforms.step with
          | task henabled hadmissible hlocal hline => exact absurd (not_hasRetentionHolds.mp hadmissible) hheld
        · exact absurd hforget hact

/-- The disposal of a retained generation is refused. -/
theorem exec_disposes {calls : List Call} {e : Engine} (h : engine.Run calls e) {env : Env}
    (hclock : e.clock ≤ env.clock) {op : Op} {reply : Reply} {s' : Store}
    (hexec : exec env op e.store = .replied reply s') {queue id : String} (hop : op.Disposes queue id)
    (hheld : (op.swept env e.store).retainedBy ((op.swept env e.store).identity queue id) ≠ ∅) :
    (∃ message, reply = .error message) ∧ s' = op.swept env e.store := by
  have hs : Sane env.now e.store := (run_sane h).mono (Nat.cast_le.mpr hclock)
  have hkept : Kept none (op.swept env e.store) := (swept_path hs op).preserves hs (run_kept h)
    fun _ _ _ _ _ hs hkept hstep _ => hstep.kept hs hkept
  obtain ⟨r, hr⟩ := hkept.stored _ hheld
  have hrecord := (current_eq_some_iff.mp hr).1
  obtain ⟨rfl, rfl⟩ := exec_replied hexec
  rw [← hasRetentionHolds_iff] at hheld
  rcases hop with rfl | ⟨a, rfl, rfl, rfl, hmode⟩
  · have hrecord' : (syncAll env queue (World.begin env e.store)).store.task (queue, id) = some r := hrecord
    have hheld' : (syncAll env queue (World.begin env e.store)).store.hasRetentionHolds
        ((syncAll env queue (World.begin env e.store)).store.identity queue id) = true := hheld
    simp only [Op.run, removeTask]
    split
    · exact ⟨⟨_, rfl⟩, rfl⟩
    · rw [if_neg (by simp [hrecord'])]
      exact ⟨⟨_, rfl⟩, rfl⟩
  · simp only [Op.run, createTask]
    cases hfault : createFault a with
    | some message => exact ⟨⟨_, rfl⟩, by simp [Op.swept, hfault, World.begin]⟩
    | none =>
      simp only [Op.swept, hfault, ↓reduceIte] at hrecord hheld ⊢
      have hrecord' : (syncAll env a.queue (World.begin env e.store)).store.task (a.queue, a.id) = some r := hrecord
      have hheld' : (syncAll env a.queue (World.begin env e.store)).store.hasRetentionHolds
          ((syncAll env a.queue (World.begin env e.store)).store.identity a.queue a.id) = true := hheld
      unfold offerSwept
      simp only [hrecord', hheld', hmode, ↓reduceIte]
      split
      · exact ⟨⟨_, rfl⟩, rfl⟩
      · split
        · exact ⟨⟨_, rfl⟩, rfl⟩
        · split
          · exact ⟨⟨_, rfl⟩, rfl⟩
          · split <;> exact ⟨⟨_, rfl⟩, rfl⟩

/-- Retention holds neither leak nor break early, in every run. -/
theorem run_retention {calls : List Call} {e : Engine} (h : engine.Run calls e) :
    Retention (ForceRemoved calls) e.store ∧
      (∀ t r outcome, e.store.current t = some r → r.outcome = some outcome → r.policy outcome = .delete →
        ∀ calls' e', engine.Path e calls' e' →
          ((∃ r', e'.store.current t = some r') ↔ e'.store.retainedBy t ≠ ∅)) ∧
      (∀ env op b s act b' s', e.Performs env op b s act b' s' → ∀ t, s.retainedBy t ≠ ∅ →
        op ≠ .forceRemoveTask t.queue t.id →
          s.Keeps s' t ∨ ∃ holder refiled, act = .drop holder t refiled ∧ s.retainedBy t = {holder}) ∧
      (∀ env, e.clock ≤ env.clock → ∀ op reply s', exec env op e.store = .replied reply s' →
        ∀ queue id, op.Disposes queue id →
          (op.swept env e.store).retainedBy ((op.swept env e.store).identity queue id) ≠ ∅ →
            (∃ message, reply = .error message) ∧ s' = op.swept env e.store) :=
  ⟨run_retention_sets h, fun _ _ _ hr ho hpolicy _ _ h' => stored_iff_retained h hr ho hpolicy h',
    fun _ _ _ _ _ _ _ hperforms _ hheld hop => hperforms.keeps h hheld hop,
    fun _ hclock _ _ _ hexec _ _ hop hheld => exec_disposes h hclock hexec hop hheld⟩

/-- A task that succeeded under a delete policy and stays stored for its holder. -/
theorem run_retention_held : ∃ calls e, engine.Run calls e ∧
    e.store.retainedBy ⟨"mail", "child", 1⟩ = {⟨"mail", "parent", 1⟩} ∧
    (e.store.task ("mail", "child")).bind TaskRecord.outcome = some .success ∧
    Retention (ForceRemoved calls) e.store := by
  obtain ⟨calls, e, h, hplayed⟩ := @play_run
    [(.at 1, .createTask (.default "mail" "parent")), (.at 2, .takeTask "mail" "first" (some 30000)),
      (.at 3, .createTask { CreateArgs.default "mail" "child" with retentionHolder := some ⟨"mail", "parent", 1⟩ }),
      (.at 4, .takeTask "mail" "second" (some 30000)), (.at 5, .writeSuccess "mail" "second" "child" "sent")]
    (fun _ e => decide (e.store.retainedBy ⟨"mail", "child", 1⟩ = {⟨"mail", "parent", 1⟩} ∧
      (e.store.task ("mail", "child")).bind TaskRecord.outcome = some .success)) (by decide +kernel)
  obtain ⟨hheld, houtcome⟩ := of_decide_eq_true hplayed
  exact ⟨calls, e, h, hheld, houtcome, (run_retention h).1⟩

end EffectMQ
