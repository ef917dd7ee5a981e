import EffectMQ.Lifecycle.Sweep

/-!
# Offers as paths

What an offer does after its sweep: it is refused, it finds the stored task, or it creates a generation, possibly
after the disposal of a settled one. A hold that cannot be acquired takes the new record back, to the store in
which the record was written.
-/

namespace EffectMQ

open Redis

variable {env : Env}

theorem acquireRetentionHold_ok {holder x : TaskIdentity} {s s' : Store}
    (h : acquireRetentionHold holder x s = .ok s') :
    (holder ∈ s.retainedBy x ∧ s' = s) ∨
      (s' = s.hold holder x ∧
        (s.retains holder).card < ((s.task (holder.queue, holder.id)).map TaskRecord.maxRelationships).getD 1000 ∧
        (s.retainedBy x).card < ((s.task (x.queue, x.id)).map TaskRecord.maxRelationships).getD 1000) := by
  unfold acquireRetentionHold at h
  split at h
  · next hmem => exact Or.inl ⟨hmem, (Except.ok.inj h).symm⟩
  · dsimp only at h
    split at h
    · exact absurd h (by simp)
    · next hholder =>
      split at h
      · exact absurd h (by simp)
      · next hretained => exact Or.inr ⟨(Except.ok.inj h).symm, not_le.mp hholder, not_le.mp hretained⟩

theorem validateLiveHolder_eq_none {s : Store} {holder : TaskIdentity} :
    validateLiveHolder s holder = none ↔ ∃ r, s.current holder = some r ∧ r.outcome = none := by
  unfold validateLiveHolder
  cases hr : s.task (holder.queue, holder.id) with
  | none => simp [Store.current, hr]
  | some r =>
    by_cases hg : r.generation = holder.generation
    · cases ho : r.outcome <;> simp [Store.current, hr, Option.filter, hg, ho]
    · simp [Store.current, hr, Option.filter, hg]

/-! ### The record that is taken back -/

theorem remove_add_of_score_none {α : Type} [DecidableEq α] [MemberOrder α] {z : SortedSet α} {m : α} {t : ℚ}
    (h : z.score m = none) : (z.add m t).remove m = z := by
  rw [SortedSet.remove_add, SortedSet.remove_of_score_none h]

theorem listed_writeRecord {a : CreateArgs} {s : Store} (hs : Sane env.now s) (hfresh : s.task (a.queue, a.id) = none) :
    (writeRecord env a s).Listed a.queue a.id ∧ (writeRecord env a s).place a.queue a.id = none := by
  have hplace : (writeRecord env a s).place a.queue a.id = none := by
    simp [Store.place, writeRecord, newRecord, TaskRecord.place]
  refine ⟨?_, hplace⟩
  have hbefore := hs.listed a.queue a.id
  have hnone : s.place a.queue a.id = none := by simp [Store.place, hfresh]
  rw [Store.Listed, hnone] at hbefore
  rw [Store.Listed, hplace]
  exact hbefore

/-- Writing a record and deleting it again restores the store. -/
theorem rollback_store {a : CreateArgs} {w : World} (hs : Sane env.now w.store)
    (hfresh : w.store.task (a.queue, a.id) = none) :
    ((deleteTask env a.queue a.id false (w.modify (writeRecord env a))).modify (unallocate a.queue a.id)).store =
      w.store := by
  have hview := hs.views (a.queue, a.id)
  obtain ⟨hlisted, hplace⟩ := listed_writeRecord hs hfresh
  have hcreated : (w.store.created a.queue).score a.id = none := by
    have hnone := hview.created
    have hrecord : (w.store.view (a.queue, a.id)).record = none := hfresh
    rw [hrecord, Option.isSome_none, Option.isSome_eq_false_iff, Option.isNone_iff_eq_none] at hnone
    exact hnone
  obtain ⟨_, hdates, hhistory⟩ := hview.fresh (w.store.generations (a.queue, a.id) + 1) (Nat.lt_succ_self _)
  have htasks : (w.store.expiry a.queue).tasks.score ⟨a.queue, a.id, w.store.generations (a.queue, a.id) + 1⟩ = none :=
    congrArg Dates.task hdates
  have hterminal : (w.store.expiry a.queue).terminal.score
      ⟨a.queue, a.id, w.store.generations (a.queue, a.id) + 1⟩ = none :=
    congrArg Dates.terminal hdates
  have hhistory' : w.store.history ⟨a.queue, a.id, w.store.generations (a.queue, a.id) + 1⟩ = [] := hhistory
  have hmove : (moveToList env a.queue a.id none 0 false none (w.modify (writeRecord env a))).store =
      (writeRecord env a w.store).modifyTask a.queue a.id fun r => { r with currentList := some none } := by
    unfold moveToList relist
    simp only [assertHistory_store, World.modify_store, Bool.false_eq_true, ↓reduceIte,
      removeFromCurrentLists_eq env hlisted, hplace, QueueLists.without]
    simp [Store.setLists]
  unfold deleteTask
  simp only [World.modify_store, hmove]
  simp [writeRecord, newRecord, dropRecord, unallocate, Store.modifyTask, Store.setExpiry,
    SortedSet.remove_of_score_none htasks, SortedSet.remove_of_score_none hterminal,
    remove_add_of_score_none hcreated, ← hfresh, ← hhistory']

/-! ### Creation -/

/-- The identity that the next creation of an id gets. -/
def Store.nextIdentity (s : Store) (queue id : String) : TaskIdentity := ⟨queue, id, s.generations (queue, id) + 1⟩

theorem identity_writeRecord (a : CreateArgs) (s : Store) :
    (writeRecord env a s).identity a.queue a.id = s.nextIdentity a.queue a.id := by
  simp [Store.identity, Store.generation, Store.nextIdentity, writeRecord, newRecord]

theorem Local.of_hold {k : TaskKey} {F : TaskView → TaskView} {s t s' : Store} (h : Local k F s t)
    {retainedBy retains : TaskIdentity → Finset TaskIdentity}
    (h' : s' = { t with retainedBy := retainedBy, retains := retains }) :
    Local k F { s with retainedBy := retainedBy, retains := retains } s' := by
  subst h'
  exact { h with retainedBy := rfl, retains := rfl }

/-- The announcement of a written record, whatever holds were acquired in between. -/
theorem local_created {a : CreateArgs} {w : World} {s : Store} (hs : Sane env.now s)
    (hfresh : s.task (a.queue, a.id) = none) (replacedTask : Option TaskRecord)
    (retainedBy retains : TaskIdentity → Finset TaskIdentity)
    (hw : w.store = { writeRecord env a s with retainedBy := retainedBy, retains := retains }) :
    Local (a.queue, a.id) (fun v => (TaskAction.create a replacedTask).apply env a.id v)
      { s with retainedBy := retainedBy, retains := retains } (announce env a replacedTask w).2.store := by
  obtain ⟨hlisted, hplace⟩ := listed_writeRecord hs hfresh
  refine ((local_writeRecord env a s).of_hold hw).trans (local_announce env ?_ ?_ replacedTask)
  · rw [hw]
    exact hlisted
  · rw [hw]
    exact hplace

theorem task_ne_of_live {s : Store} {holder : TaskIdentity} {k : TaskKey} (hfresh : s.task k = none)
    (hlive : validateLiveHolder s holder = none) : (holder.queue, holder.id) ≠ k := by
  obtain ⟨r, hr, _⟩ := validateLiveHolder_eq_none.mp hlive
  rintro rfl
  rw [(current_eq_some_iff.mp hr).1] at hfresh
  exact absurd hfresh (by simp)

theorem createGeneration_spec {a : CreateArgs} {w : World} (hs : Sane env.now w.store)
    (hfresh : w.store.task (a.queue, a.id) = none) (replacedTask : Option TaskRecord)
    (hholder : ∀ holder, a.retentionHolder = some holder → validateLiveHolder w.store holder = none) :
    (∃ cursor task holder, (createGeneration env a replacedTask w).1 = .created cursor task ∧
      EngineStep env none w.store (.create a replacedTask holder) none (createGeneration env a replacedTask w).2.store) ∨
    (∃ holder message, a.retentionHolder = some holder ∧
      acquireRetentionHold holder (w.store.nextIdentity a.queue a.id) (writeRecord env a w.store) = .error message ∧
      (createGeneration env a replacedTask w).1 = .error message ∧
      (createGeneration env a replacedTask w).2.store = w.store) := by
  unfold createGeneration
  dsimp only
  cases hh : a.retentionHolder with
  | none =>
    exact Or.inl ⟨_, _, none, rfl, .create hfresh (local_created hs hfresh replacedTask _ _ rfl)⟩
  | some holder =>
    have hlive := hholder holder hh
    simp only [World.modify_store, identity_writeRecord]
    cases hacquire : acquireRetentionHold holder (w.store.nextIdentity a.queue a.id) (writeRecord env a w.store) with
    | error message =>
      exact Or.inr ⟨holder, message, rfl, hacquire, rfl, rollback_store hs hfresh⟩
    | ok s =>
      rcases acquireRetentionHold_ok hacquire with ⟨_, rfl⟩ | ⟨rfl, hroom, hroom'⟩
      · exact Or.inl ⟨_, _, none, rfl, .create hfresh (local_created hs hfresh replacedTask _ _ rfl)⟩
      · refine Or.inl ⟨_, _, some holder, rfl, .createHeld hfresh ⟨hlive, fun r hr => ?_⟩ ?_
          (local_created hs hfresh replacedTask _ _ rfl)⟩
        · have hne := task_ne_of_live hfresh hlive
          have htask : (writeRecord env a w.store).task (holder.queue, holder.id) = some r := by
            rw [← hr]
            exact Function.update_of_ne hne _ _
          rw [htask] at hroom
          exact hroom
        · have htask : (writeRecord env a w.store).task (a.queue, a.id) =
              some (newRecord env a (w.store.generations (a.queue, a.id) + 1)) := by simp [writeRecord]
          have htask' : (writeRecord env a w.store).task ((w.store.nextIdentity a.queue a.id).queue,
              (w.store.nextIdentity a.queue a.id).id) =
                some (newRecord env a (w.store.generations (a.queue, a.id) + 1)) := htask
          rw [htask'] at hroom'
          exact Nat.lt_of_le_of_lt (Nat.zero_le _) hroom'

/-- What an offer makes of the store its sweep left, with its reply. -/
inductive Offered (env : Env) (a : CreateArgs) (m : Store) : Reply → Store → Prop
  | refused (message : String) : Offered env a m (.error message) m
  | existing {r : TaskRecord} (hr : m.task (a.queue, a.id) = some r) (hmode : a.onDuplicate = .returnExisting)
      (cursor : StreamId) : Offered env a m (.existing cursor r) m
  | held {r : TaskRecord} {holder : TaskIdentity} {s : Store} (hr : m.task (a.queue, a.id) = some r)
      (hmode : a.onDuplicate = .returnExisting)
      (hstep : EngineStep env none m (.acquire holder (m.identity a.queue a.id)) none s) (cursor : StreamId) :
      Offered env a m (.existing cursor r) s
  | created {holder : Option TaskIdentity} {s : Store} (hr : m.task (a.queue, a.id) = none)
      (hstep : EngineStep env none m (.create a none holder) none s) (cursor : StreamId) (task : TaskRecord) :
      Offered env a m (.created cursor task) s
  | replaced {r : TaskRecord} {holder : Option TaskIdentity} {t s : Store} (hr : m.task (a.queue, a.id) = some r)
      (hmode : a.onDuplicate = .newGeneration)
      (hdispose : EngineStep env none m (.task (a.queue, a.id) .replace) none t)
      (hstep : EngineStep env none t (.create a (some r) holder) none s) (cursor : StreamId) (task : TaskRecord) :
      Offered env a m (.created cursor task) s
  | disposed {r : TaskRecord} {holder : TaskIdentity} {t : Store} {message : String}
      (hr : m.task (a.queue, a.id) = some r) (hoffer : a.throwOnExists = false) (hmode : a.onDuplicate = .newGeneration)
      (hholder : a.retentionHolder = some holder) (hlive : validateLiveHolder m holder = none)
      (hdispose : EngineStep env none m (.task (a.queue, a.id) .replace) none t)
      (hfull : acquireRetentionHold holder (t.nextIdentity a.queue a.id) (writeRecord env a t) = .error message) :
      Offered env a m (.error message) t

theorem returnExisting_spec {a : CreateArgs} {w : World} {r : TaskRecord}
    (hr : w.store.task (a.queue, a.id) = some r) (hmode : a.onDuplicate = .returnExisting)
    (hholder : a.retentionHolder.bind (validateLiveHolder w.store) = none) :
    Offered env a w.store (returnExisting a r w).1 (returnExisting a r w).2.store := by
  unfold returnExisting
  cases hh : a.retentionHolder with
  | none => exact .existing hr hmode _
  | some holder =>
    dsimp only
    cases hacquire : acquireRetentionHold holder (w.store.identity a.queue a.id) w.store with
    | error message => exact .refused message
    | ok s =>
      rcases acquireRetentionHold_ok hacquire with ⟨_, rfl⟩ | ⟨rfl, hroom, hroom'⟩
      · exact .existing hr hmode _
      · have hlive : validateLiveHolder w.store holder = none := by simpa [hh] using hholder
        have hidentity : w.store.identity a.queue a.id = ⟨a.queue, a.id, r.generation⟩ := identity_of_record hr
        have hcurrent : w.store.current (w.store.identity a.queue a.id) = some r := by
          rw [hidentity]
          exact current_eq_some_iff.mpr ⟨hr, rfl⟩
        have hcanHold : w.store.CanHold holder := ⟨hlive, fun r' hr' => by rw [hr'] at hroom; exact hroom⟩
        rw [hidentity, hr] at hroom'
        exact .held hr hmode (.acquire hcanHold hcurrent (by rw [hidentity]; exact hroom')) _

/-- The disposal of the settled generation that a new one replaces. -/
theorem replace_step {queue id : String} {w : World} (hs : Sane env.now w.store) {r : TaskRecord}
    (hr : w.store.task (queue, id) = some r) (hsettled : r.outcome.isSome)
    (hheld : w.store.hasRetentionHolds (w.store.identity queue id) = false) :
    EngineStep env none w.store (.task (queue, id) .replace) none
      ((deleteTask env queue id false w).modify (unlockTask queue id)).store := by
  have hlocal := (local_deleteTask env (hs.listed queue id) false (by simp)).trans (local_unlockTask _)
  have henabled : TaskAction.replace.Enabled env (w.store.view (queue, id)) := ⟨r, hr, hsettled⟩
  exact .task henabled hheld hlocal False.elim

/-- A holder stays live when a step touches another id. -/
theorem live_of_step {s s' : Store} {k : TaskKey} {a : TaskAction} {b b' : Busy} {holder : TaskIdentity}
    (hstep : EngineStep env b s (.task k a) b' s') (hlive : validateLiveHolder s holder = none)
    (hne : (holder.queue, holder.id) ≠ k) : validateLiveHolder s' holder = none := by
  rcases hstep.view (holder.queue, holder.id) with ⟨_, hview⟩ | ⟨a', hon, _⟩
  · have htask : s'.task (holder.queue, holder.id) = s.task (holder.queue, holder.id) :=
      congrArg TaskView.record hview
    unfold validateLiveHolder at hlive ⊢
    rwa [htask]
  · exact absurd hon (by simp [EngineAction.on, Ne.symm hne])

theorem offerSwept_spec {a : CreateArgs} {w : World} (hs : Sane env.now w.store) :
    Offered env a w.store (offerSwept env a w).1 (offerSwept env a w).2.store := by
  unfold offerSwept
  dsimp only
  split
  · exact .refused _
  · cases hholder : a.retentionHolder.bind (validateLiveHolder w.store) with
    | some message => exact .refused message
    | none =>
      have hlive : ∀ holder, a.retentionHolder = some holder → validateLiveHolder w.store holder = none :=
        fun holder hh => by simpa [hh] using hholder
      dsimp only
      cases hr : w.store.task (a.queue, a.id) with
      | none =>
        dsimp only
        rcases createGeneration_spec hs hr none hlive with ⟨cursor, task, holder, hreply, hstep⟩ |
          ⟨holder, message, _, _, hreply, hstore⟩
        · rw [hreply]
          exact .created hr hstep cursor task
        · rw [hreply, hstore]
          exact .refused message
      | some r =>
        dsimp only
        split
        · exact .refused _
        · next hoffer =>
          cases hmode : a.onDuplicate with
          | returnExisting => exact returnExisting_spec hr hmode hholder
          | unknown => exact .refused _
          | newGeneration =>
            dsimp only
            split
            · exact .refused _
            · next hsettled =>
              split
              · exact .refused _
              · next hheld =>
                rw [Option.isNone_iff_eq_none, ← ne_eq, ← Option.isSome_iff_ne_none] at hsettled
                rw [Bool.not_eq_true] at hheld
                have hdispose := replace_step hs hr hsettled hheld
                generalize hw : (deleteTask env a.queue a.id false w).modify (unlockTask a.queue a.id) = w' at hdispose ⊢
                have hfresh : w'.store.task (a.queue, a.id) = none := by
                  rcases hdispose.view (a.queue, a.id) with ⟨hon, _⟩ | ⟨b, hon, _, hview⟩
                  · exact absurd hon (by simp [EngineAction.on])
                  · obtain rfl : TaskAction.replace = b := by simpa [EngineAction.on] using hon
                    exact congrArg TaskView.record hview
                have hlive' : ∀ holder, a.retentionHolder = some holder →
                    validateLiveHolder w'.store holder = none := fun holder hh => by
                  refine live_of_step hdispose (hlive holder hh) ?_
                  obtain ⟨r', hr', ho⟩ := validateLiveHolder_eq_none.mp (hlive holder hh)
                  -- the holder runs, the replaced generation does not
                  rintro heq
                  rw [← heq, (current_eq_some_iff.mp hr').1] at hr
                  obtain rfl := Option.some.inj hr
                  rw [ho] at hsettled
                  exact absurd hsettled (by simp)
                rcases createGeneration_spec (hdispose.sane hs) hfresh (some r) hlive' with
                  ⟨cursor, task, holder, hreply, hstep⟩ | ⟨holder, message, hh, hfull, hreply, hstore⟩
                · rw [hreply]
                  exact .replaced hr hmode hdispose hstep cursor task
                · rw [hreply, hstore]
                  exact .disposed hr (Bool.eq_false_of_not_eq_true hoffer) hmode hh (hlive holder hh) hdispose hfull

end EffectMQ
