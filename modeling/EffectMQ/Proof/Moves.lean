import EffectMQ.Proof.Local

/-!
# Publishing, moving and deleting are local

Each function of the engine that works on one task, against the operation of the same name on views. Only
`moveToList` needs to know something of the store: that the id is listed where its record says.
-/

namespace EffectMQ

open Redis

variable (env : Env) {queue id : String}

theorem view_listed_iff {s : Store} : (s.view (queue, id)).Listed ↔ s.Listed queue id :=
  ⟨fun h => ⟨h.waiting, h.score⟩, fun h => ⟨h.waiting, h.score⟩⟩

/-! ### History and events -/

theorem local_pushHistory {s : Store} {r : TaskRecord} (hr : s.task (queue, id) = some r)
    (henabled : r.history.enabled = true) (data : HistoryData) (attempt : Option ℕ) :
    Local (queue, id) (fun v => v.push env id data attempt) s (pushHistory env queue id r data attempt s) := by
  have hview : (s.view (queue, id)).record = some r := hr
  have hstream : (s.view (queue, id)).history r.generation = s.history ⟨queue, id, r.generation⟩ := rfl
  have hstreams : (r.pushed env id (s.history ⟨queue, id, r.generation⟩) data attempt) = _ :=
    if_neg (by simp [henabled])
  unfold pushHistory
  dsimp only
  split
  · next hlimit =>
    rw [if_pos hlimit] at hstreams
    refine ((local_modifyTask s queue id _).trans (local_setHistory _ queue id r.generation _)).congr ?_
    simp only [TaskView.push, TaskView.modify, hview, hstream, hstreams, Option.map_some]
  · next hlimit =>
    rw [if_neg hlimit] at hstreams
    refine ((local_modifyTask s queue id _).trans (local_setHistory _ queue id r.generation _)).congr ?_
    simp only [TaskView.push, TaskView.modify, hview, hstream, hstreams, Option.map_some]

theorem push_of_record_none {v : TaskView} (h : v.record = none) (data : HistoryData) (attempt : Option ℕ) :
    v.push env id data attempt = v := by
  ext1 <;> simp [TaskView.push, h]

theorem push_of_disabled {v : TaskView} {r : TaskRecord} (h : v.record = some r) (hdisabled : r.history.enabled = false)
    (data : HistoryData) (attempt : Option ℕ) : v.push env id data attempt = v := by
  ext1 <;> simp [TaskView.push, h, TaskRecord.pushed, hdisabled]

theorem local_appendHistory (w : World) (data : HistoryData) (attempt : Option ℕ) :
    Local (queue, id) (fun v => v.push env id data attempt) w.store
      (appendHistory env queue id data attempt w).store := by
  unfold appendHistory
  cases hr : w.store.task (queue, id) with
  | none => exact (Local.refl _ _).congr (push_of_record_none env hr data attempt).symm
  | some r =>
    simp only
    cases henabled : r.history.enabled with
    | false =>
      exact (Local.refl _ _).congr (push_of_disabled env hr henabled data attempt).symm
    | true =>
      simp only [↓reduceIte, World.modify, assertHistory_store]
      exact local_pushHistory env hr henabled data attempt

theorem log_append {s s' : Store} {events : Stream Event} {e : Event} {i : StreamId}
    (hevents : s'.events = Function.update s.events queue events)
    (hpublished : events.published = (s.events queue).published ++ [(i, e)]) (queue' id' : String) :
    s'.log queue' id' = if queue' = queue ∧ id' = e.taskId then s.log queue' id' ++ [e] else s.log queue' id' := by
  by_cases hq : queue' = queue
  · subst hq
    by_cases hid : id' = e.taskId
    · simp [Store.log, hevents, hpublished, hid]
    · simp [Store.log, hevents, hpublished, hid, Ne.symm hid]
  · simp [Store.log, hevents, hq]

theorem log_appendEvent (s : Store) (body : EventBody) (queue' id' : String) :
    (appendEvent env queue id body s).log queue' id' =
      if queue' = queue ∧ id' = id then s.log queue' id' ++ [(s.view (queue, id)).event id body]
      else s.log queue' id' :=
  @log_append queue s (appendEvent env queue id body s) _ ((s.view (queue, id)).event id body) _ rfl rfl queue' id'

theorem local_appendEvent (s : Store) (body : EventBody) :
    Local (queue, id) (fun v => { v with log := v.log ++ [v.event id body] }) s
      (appendEvent env queue id body s) where
  view := by
    refine view_eq_update ?_ fun k hk => ?_
    · ext1 <;> try rfl
      exact (log_appendEvent env s body queue id).trans (if_pos ⟨rfl, rfl⟩)
    · ext1 <;> try rfl
      exact (log_appendEvent env s body k.1 k.2).trans (if_neg fun h => hk (Prod.ext h.1 h.2))
  waiting := rfl
  requeues := Or.inl rfl
  retainedBy := rfl
  retains := rfl
  continuations := rfl
  maintenanceCursor := rfl
  schedule := rfl
  homed hs := hs

theorem event_push (v : TaskView) (data : HistoryData) (attempt : Option ℕ) (body : EventBody) :
    (v.push env id data attempt).event id body = v.event id body := by
  cases h : v.record <;> simp [TaskView.event, TaskView.push, h]

theorem local_publishEvent (w : World) (body : EventBody) (failureKind : Option FailureKind) (attempt : Option ℕ) :
    Local (queue, id) (fun v => v.publish env id body failureKind attempt) w.store
      (publishEvent env queue id body failureKind attempt w).store := by
  refine ((local_appendHistory env w (lifecycleData body failureKind) attempt).trans
    (local_appendEvent env _ body)).congr ?_
  simp only [event_push]
  rfl

/-! ### Moving -/

theorem local_relist {s : Store} (h : s.Listed queue id) (list : Option TaskList) (readyAt : ℚ)
    (sourceKnownEmpty : Bool) (hempty : sourceKnownEmpty = true → s.place queue id = none) :
    (relist env queue id list readyAt sourceKnownEmpty s).1 = s.place queue id ∧
      Local (queue, id) (fun v => v.relist env list readyAt) s
        (relist env queue id list readyAt sourceKnownEmpty s).2 := by
  -- the lists lose the id first, in both branches
  have hcleared : (if sourceKnownEmpty then (none, s) else removeFromCurrentLists env queue id s) =
      (s.place queue id, s.setLists queue ((s.lists queue).without id (s.place queue id))) := by
    cases sourceKnownEmpty with
    | false => exact removeFromCurrentLists_eq env h
    | true =>
      have hplace := hempty rfl
      simp [hplace, QueueLists.without, Store.setLists]
  have hgone : ((s.lists queue).without id (s.place queue id)).At id none := h.without
  unfold relist
  simp only [hcleared]
  refine ⟨True.intro, ?_⟩
  have hwithout := local_setLists s queue id ((s.lists queue).without id (s.place queue id))
    (QueueLists.others_without _ id _) (h.wait_without.imp_right Or.inl)
    (fun id' hid l => QueueLists.score_without _ hid _ l)
  cases list with
  | none =>
    refine (hwithout.trans (local_modifyTask _ queue id _)).congr ?_
    ext1 <;> try rfl
    · simp [TaskView.modify, TaskView.relist, hgone.waiting]
    · funext l
      simp [TaskView.modify, TaskView.relist, hgone.score_none]
  | some l =>
    have hadd := local_setLists (s.setLists queue ((s.lists queue).without id (s.place queue id))) queue id
      (((s.setLists queue ((s.lists queue).without id (s.place queue id))).lists queue).addTo id
        (entryScore env readyAt l) l)
      (QueueLists.others_addTo _ id _ l)
      (by simpa [Store.setLists] using hgone.wait_addTo (entryScore env readyAt l) l)
      (fun id' hid l' => by simp [QueueLists.score_addTo, hid])
    refine ((hwithout.trans hadd).trans (local_modifyTask _ queue id _)).congr ?_
    ext1 <;> try rfl
    · simp [TaskView.modify, TaskView.relist, QueueLists.waiting_addTo, Store.setLists, hgone.waiting]
    · funext l'
      simp only [TaskView.modify, TaskView.relist, QueueLists.score_addTo, Store.setLists, Function.update_self,
        hgone.score_none, Option.some.injEq]
      by_cases hl : l' = l
      · subst hl
        simp
      · simp [hl, Ne.symm hl]

theorem local_moveToList {w : World} (h : w.store.Listed queue id) (list : Option TaskList) (readyAt : ℚ)
    (sourceKnownEmpty : Bool) (hempty : sourceKnownEmpty = true → w.store.place queue id = none)
    (attempt : Option ℕ) :
    Local (queue, id) (fun v => v.move env id list readyAt attempt) w.store
      (moveToList env queue id list readyAt sourceKnownEmpty attempt w).store := by
  obtain ⟨hplace, hlocal⟩ := local_relist env h list readyAt sourceKnownEmpty hempty
  unfold moveToList
  simp only [assertHistory_store, hplace]
  split
  · next heq => exact hlocal.congr (if_pos heq).symm
  · next hne =>
    have hpublish := @local_publishEvent env queue id
      { assertHistory queue id w with store := (relist env queue id list readyAt sourceKnownEmpty w.store).2 }
      (movedEvent (relist env queue id list readyAt sourceKnownEmpty w.store).2 queue id (w.store.place queue id) list)
      none attempt
    refine (hlocal.trans hpublish).congr ?_
    have hmoved : movedEvent (relist env queue id list readyAt sourceKnownEmpty w.store).2 queue id
        (w.store.place queue id) list =
        ((w.store.view (queue, id)).relist env list readyAt).moved (w.store.view (queue, id)).place list := by
      rw [← hlocal.view_self]
      rfl
    rw [hmoved]
    exact (if_neg hne).symm

/-! ### Deleting -/

theorem local_dropRecord {s : Store} {generation : Option ℕ}
    (hgeneration : (s.task (queue, id)).map TaskRecord.generation = generation) :
    Local (queue, id) TaskView.drop s (dropRecord queue id generation s) := by
  have hforget (s : Store) : Local (queue, id) (fun v => { v with record := none, createdAt := none }) s
      { s with
        created := Function.update s.created queue ((s.created queue).remove id)
        task := Function.update s.task (queue, id) none } := by
    have h := local_setRecord s queue id none (s.generations (queue, id)) ((s.created queue).remove id)
      fun id' hid => SortedSet.score_remove_of_ne _ hid
    simp only [Function.update_eq_self, SortedSet.score_remove_self] at h
    exact h.congr rfl
  subst hgeneration
  unfold dropRecord
  cases hr : s.task (queue, id) with
  | none =>
    refine (hforget s).congr ?_
    have hview : (s.view (queue, id)).record = none := hr
    simp [TaskView.drop, hview]
  | some r =>
    have hview : (s.view (queue, id)).record = some r := hr
    have hdates := local_setExpiry s queue id r.generation
      { s.expiry queue with
        tasks := (s.expiry queue).tasks.remove ⟨queue, id, r.generation⟩
        terminal := (s.expiry queue).terminal.remove ⟨queue, id, r.generation⟩ }
      fun x hx => by simp [ExpiryIndexes.dates, SortedSet.score_remove_of_ne _ hx]
    refine ((hdates.trans (local_setHistory _ queue id r.generation [])).trans (hforget _)).congr ?_
    simp [TaskView.drop, TaskView.setDates, hview, ExpiryIndexes.dates]
    rfl

theorem generation_relist (list : Option TaskList) (readyAt : ℚ) (v : TaskView) :
    (v.relist env list readyAt).record.map TaskRecord.generation = v.record.map TaskRecord.generation := by
  cases h : v.record <;> simp [TaskView.relist, h]

theorem generation_publish (body : EventBody) (failureKind : Option FailureKind) (attempt : Option ℕ) (v : TaskView) :
    (v.publish env id body failureKind attempt).record.map TaskRecord.generation =
      v.record.map TaskRecord.generation := by
  cases h : v.record <;> simp [TaskView.publish, TaskView.push, h]

theorem generation_move (id : String) (list : Option TaskList) (readyAt : ℚ) (attempt : Option ℕ) (v : TaskView) :
    (v.move env id list readyAt attempt).record.map TaskRecord.generation = v.record.map TaskRecord.generation := by
  unfold TaskView.move
  split
  · rw [generation_relist]
  · rw [generation_publish, generation_relist]

theorem local_deleteTask {w : World} (h : w.store.Listed queue id) (sourceKnownEmpty : Bool)
    (hempty : sourceKnownEmpty = true → w.store.place queue id = none) :
    Local (queue, id) (fun v => v.delete env id) w.store (deleteTask env queue id sourceKnownEmpty w).store := by
  have hmove := local_moveToList env h none 0 sourceKnownEmpty hempty none
  refine hmove.trans (local_dropRecord ?_)
  have hrecord := hmove.view_self
  have hgeneration := generation_move env id none 0 none (w.store.view (queue, id))
  rw [← hrecord] at hgeneration
  exact hgeneration

end EffectMQ
