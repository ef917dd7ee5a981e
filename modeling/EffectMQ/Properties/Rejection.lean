import EffectMQ.Lifecycle.Holds
import EffectMQ.Lifecycle.Run
import EffectMQ.Lifecycle.Scenario

/-!
# Rejected operations

An operation that replies with an error leaves the store of its own sweep, with one exception: an offer of a new
generation whose holder has no room disposes of the settled generation before it finds out.
-/

namespace EffectMQ

open Redis Transition

/-- The offer replaces a settled generation, and its holder cannot hold the new one. -/
structure CreateArgs.LosesGeneration (a : CreateArgs) (m : Store) : Prop where
  valid : createFault a = none
  mode : a.onDuplicate = .newGeneration
  offer : a.throwOnExists = false
  settled : ∃ r, m.task (a.queue, a.id) = some r ∧ r.outcome.isSome
  unheld : m.retainedBy (m.identity a.queue a.id) = ∅
  full : ∃ holder r, a.retentionHolder = some holder ∧ m.current holder = some r ∧ r.outcome = none ∧
    (r.maxRelationships ≤ (m.retains holder).card ∨ natural a.maxRelationships = 0)

section

variable {env : Env} {a : CreateArgs} {s : Store} {holder : TaskIdentity}

/-- A new generation is held, unless its holder is full or it allows no holder at all. -/
theorem acquire_writeRecord (hempty : s.retainedBy (s.nextIdentity a.queue a.id) = ∅) {r : TaskRecord}
    (hr : s.task (holder.queue, holder.id) = some r) (hne : (holder.queue, holder.id) ≠ (a.queue, a.id)) :
    (∃ message, acquireRetentionHold holder (s.nextIdentity a.queue a.id) (writeRecord env a s) = .error message) ↔
      r.maxRelationships ≤ (s.retains holder).card ∨ natural a.maxRelationships = 0 := by
  have hretainedBy : (writeRecord env a s).retainedBy (s.nextIdentity a.queue a.id) = ∅ := hempty
  have hholder : (writeRecord env a s).task (holder.queue, holder.id) = some r :=
    (Function.update_of_ne hne _ _).trans hr
  have hretained : (writeRecord env a s).task
      ((s.nextIdentity a.queue a.id).queue, (s.nextIdentity a.queue a.id).id) =
        some (newRecord env a (s.generations (a.queue, a.id) + 1)) := Function.update_self ..
  have hretains : (writeRecord env a s).retains holder = s.retains holder := rfl
  unfold acquireRetentionHold
  rw [if_neg (by rw [hretainedBy]; exact Finset.notMem_empty holder), hholder, hretained, hretainedBy, hretains]
  simp only [Option.map_some, Option.getD_some, Finset.card_empty, Nat.le_zero]
  split
  · next hfull => exact iff_of_true ⟨_, rfl⟩ (Or.inl hfull)
  · next hroom =>
    split
    · next hnone => exact iff_of_true ⟨_, rfl⟩ (Or.inr hnone)
    · next hsome => exact iff_of_false (by simp) (not_or.mpr ⟨hroom, hsome⟩)

/-- A failed creation leaves the store it started from. -/
theorem createGeneration_refused {w : World} (hs : Sane env.now w.store)
    (hfresh : w.store.task (a.queue, a.id) = none) (replacedTask : Option TaskRecord)
    (hholder : a.retentionHolder = some holder)
    (hfull : ∃ message,
      acquireRetentionHold holder (w.store.nextIdentity a.queue a.id) (writeRecord env a w.store) = .error message) :
    (createGeneration env a replacedTask w).2.store = w.store := by
  obtain ⟨message, hfull⟩ := hfull
  unfold createGeneration
  simp only [hholder, World.modify_store, identity_writeRecord, hfull]
  exact rollback_store hs hfresh

/-- The holder of a replacement as the disposal of the old generation leaves it. -/
theorem full_of_replace {m t : Store} {r r' : TaskRecord} (hs : Sane env.now m) (hkept : Kept none m)
    (hdispose : EngineStep env none m (.task (a.queue, a.id) .replace) none t)
    (hr : m.task (a.queue, a.id) = some r) (hsettled : r.outcome.isSome) (hholder : m.current holder = some r')
    (ho : r'.outcome = none) :
    (∃ message, acquireRetentionHold holder (t.nextIdentity a.queue a.id) (writeRecord env a t) = .error message) ↔
      r'.maxRelationships ≤ (m.retains holder).card ∨ natural a.maxRelationships = 0 := by
  have hne : (holder.queue, holder.id) ≠ (a.queue, a.id) := fun heq => by
    have hrecord := (current_eq_some_iff.mp hholder).1
    rw [heq, hr] at hrecord
    obtain rfl := Option.some.inj hrecord
    exact absurd hsettled (by simp [ho])
  have hrecord : t.task (holder.queue, holder.id) = some r' :=
    (congrArg TaskView.record (hdispose.view_task.2 _ hne)).trans (current_eq_some_iff.mp hholder).1
  have hempty : t.retainedBy (t.nextIdentity a.queue a.id) = ∅ := by
    by_contra hne'
    obtain ⟨r₀, hr₀⟩ := (hdispose.kept hs hkept).stored _ hne'
    rw [(hdispose.sane hs).current_nextIdentity] at hr₀
    exact absurd hr₀ (by simp)
  rw [acquire_writeRecord hempty hrecord hne]
  cases hdispose with
  | task henabled hadmissible hlocal hline => rw [hlocal.retains]

theorem offerSwept_loses {w : World} (hs : Sane env.now w.store) (hkept : Kept none w.store)
    (h : a.LosesGeneration w.store) : (offerSwept env a w).2.store.task (a.queue, a.id) = none := by
  obtain ⟨r, hr, hsettled⟩ := h.settled
  obtain ⟨holder, r', hholder, hcurrent, ho, hfull⟩ := h.full
  have hhistory : w.store.history ⟨a.queue, a.id, w.store.generations (a.queue, a.id) + 1⟩ = [] :=
    ((hs.views (a.queue, a.id)).fresh _ (Nat.lt_succ_self _)).2.2
  have hlive : a.retentionHolder.bind (validateLiveHolder w.store) = none := by
    rw [hholder]
    exact validateLiveHolder_eq_none.mpr ⟨r', hcurrent, ho⟩
  have hoffer : offerSwept env a w = createGeneration env a (some r)
      ((deleteTask env a.queue a.id false w).modify (unlockTask a.queue a.id)) := by
    unfold offerSwept
    dsimp only
    rw [if_neg (by simp [hhistory]), hlive]
    dsimp only
    rw [hr]
    dsimp only
    rw [if_neg (by simp [h.offer]), h.mode]
    dsimp only
    rw [if_neg (by simpa [Option.isSome_iff_ne_none] using hsettled),
      if_neg (by rw [Bool.not_eq_true, not_hasRetentionHolds]; exact h.unheld)]
  have hdispose := replace_step hs hr hsettled (not_hasRetentionHolds.mpr h.unheld)
  have hgone : ((deleteTask env a.queue a.id false w).modify (unlockTask a.queue a.id)).store.task (a.queue, a.id) =
      none := congrArg TaskView.record hdispose.view_task.1.2
  rw [hoffer, createGeneration_refused (hdispose.sane hs) hgone (some r) hholder]
  · exact hgone
  · exact (full_of_replace hs hkept hdispose hr hsettled hcurrent ho).mpr hfull

/-- The effect of a rejected operation, apart from the one exception. -/
theorem Effect.eq_of_fault {m : Store} {op : Op} {reply : Reply} {s' : Store} (hs : Sane env.now m)
    (hkept : Kept none m) (h : Effect env m op reply s') (hfault : reply.IsFault)
    (hkeeps : ¬ ∃ a, op = .createTask a ∧ a.LosesGeneration m) : s' = m := by
  cases h with
  | refused | answered => rfl
  | offered hvalid h =>
    next a =>
    cases h with
    | refused message => rfl
    | existing | held | created | replaced => exact absurd hfault id
    | disposed hr hoffer hmode hholder hlive hdispose hfull =>
      refine absurd ⟨a, rfl, ?_⟩ hkeeps
      obtain ⟨r', hcurrent, ho⟩ := validateLiveHolder_eq_none.mp hlive
      have hlimit := fun hsettled => (full_of_replace hs hkept hdispose hr hsettled hcurrent ho).mp ⟨_, hfull⟩
      cases hdispose with
      | task henabled hadmissible hlocal hline =>
        obtain ⟨r₀, hr₀, hsettled⟩ := henabled
        obtain rfl := Option.some.inj (hr.symm.trans hr₀)
        exact ⟨hvalid, hmode, hoffer, ⟨_, hr, hsettled⟩, not_hasRetentionHolds.mp hadmissible, _, r', hholder, hcurrent,
          ho, hlimit hsettled⟩
  | leased | succeeded | failed | renewed | released | progressed | removed | forced => exact absurd hfault id
  | scheduled op reply hop hreply hstep => exact absurd hfault hreply

end

/-- A rejected operation leaves what its sweep left, exactly when it is no offer that loses a generation. -/
theorem run_rejection {calls : List Call} {e : Engine} (h : engine.Run calls e) {env : Env} (hclock : e.clock ≤ env.clock)
    {op : Op} {reply : Reply} {s' : Store} (hexec : exec env op e.store = .replied reply s') (hfault : reply.IsFault) :
    s' = op.swept env e.store ↔ ¬ ∃ a, op = .createTask a ∧ a.LosesGeneration (op.swept env e.store) := by
  have hs : Sane env.now e.store := (run_sane h).mono (Nat.cast_le.mpr hclock)
  have hpath := swept_path hs op
  have hkept : Kept none (op.swept env e.store) := hpath.preserves hs (run_preserves h kept_empty
    fun _ _ _ _ _ _ hs hkept hstep => hstep.kept hs hkept) fun _ _ _ _ _ hs hkept hstep _ => hstep.kept hs hkept
  refine ⟨fun heq => ?_, (exec_effect hs hexec).eq_of_fault (hpath.sane hs) hkept hfault⟩
  rintro ⟨a, rfl, hloses⟩
  obtain ⟨r, hr, _⟩ := hloses.settled
  have hswept : (Op.createTask a).swept env e.store = (syncAll env a.queue (World.begin env e.store)).store := by
    rw [Op.swept, if_pos hloses.valid]
    rfl
  have hsane := hpath.sane hs
  rw [hswept] at hr hloses hkept hsane
  have hgone := offerSwept_loses hsane hkept hloses
  obtain ⟨_, hstore⟩ := exec_replied hexec
  rw [Op.run, createTask, hloses.valid] at hstore
  rw [← heq, ← hstore] at hswept
  rw [← hswept, hgone] at hr
  exact absurd hr (by simp)

/-- A late acknowledgement is rejected and changes nothing. -/
theorem run_rejection_late : ∃ calls e reply s', engine.Run calls e ∧
    exec (.at 2) (.writeSuccess "mail" "token" "a" "sent") e.store = .replied reply s' ∧ reply = .error "LEASE_LOST" ∧
    s' = (Op.writeSuccess "mail" "token" "a" "sent").swept (.at 2) e.store := by
  obtain ⟨calls, e, h, hplayed⟩ := @play_run [(.at 1, .createTask (.default "mail" "a"))]
    (fun _ e => decide (e.clock ≤ (Env.at 2).clock) &&
      (exec (.at 2) (.writeSuccess "mail" "token" "a" "sent") e.store).shows fun reply _ =>
        decide (reply = .error "LEASE_LOST")) (by decide +kernel)
  rw [Bool.and_eq_true] at hplayed
  obtain ⟨reply, s', hexec, hreply⟩ := Result.replied_of_shows hplayed.2
  have hreply := of_decide_eq_true hreply
  refine ⟨calls, e, reply, s', h, hexec, hreply, (run_rejection h (of_decide_eq_true hplayed.1) hexec ?_).mpr ?_⟩
  · rw [hreply]
    trivial
  · rintro ⟨a, hop, _⟩
    exact absurd hop (by simp)

/-- The settled generation that an offer disposes of before it is refused for its holder, which is full. -/
theorem not_rejection_of_full : ∃ calls e reply s', engine.Run calls e ∧
    exec (.at 5) (.createTask { CreateArgs.default "mail" "a" with
      onDuplicate := .newGeneration, retentionHolder := some ⟨"mail", "full", 1⟩ }) e.store = .replied reply s' ∧
    reply.IsFault ∧ s' ≠ (Op.createTask { CreateArgs.default "mail" "a" with
      onDuplicate := .newGeneration, retentionHolder := some ⟨"mail", "full", 1⟩ }).swept (.at 5) e.store := by
  obtain ⟨calls, e, h, hplayed⟩ := @play_run
    [(.at 1, .createTask { CreateArgs.default "mail" "a" with onSuccessPolicy := .keep }),
      (.at 2, .takeTask "mail" "token" (some 30000)), (.at 3, .writeSuccess "mail" "token" "a" "sent"),
      (.at 4, .createTask { CreateArgs.default "mail" "full" with maxRelationships := some 0 })]
    (fun _ e => (exec (.at 5) (.createTask { CreateArgs.default "mail" "a" with
      onDuplicate := .newGeneration, retentionHolder := some ⟨"mail", "full", 1⟩ }) e.store).shows fun reply s' =>
        decide (reply = .error "STORAGE_RELATIONSHIP_LIMIT holder 0" ∧ s'.task ("mail", "a") = none ∧
          (((Op.createTask { CreateArgs.default "mail" "a" with
            onDuplicate := .newGeneration, retentionHolder := some ⟨"mail", "full", 1⟩ }).swept (.at 5) e.store).task
              ("mail", "a")).isSome = true)) (by decide +kernel)
  obtain ⟨reply, s', hexec, hshows⟩ := Result.replied_of_shows hplayed
  obtain ⟨hreply, hgone, hstored⟩ := of_decide_eq_true hshows
  refine ⟨calls, e, reply, s', h, hexec, by rw [hreply]; trivial, fun heq => ?_⟩
  rw [← heq, hgone] at hstored
  exact absurd hstored (by simp)

end EffectMQ
