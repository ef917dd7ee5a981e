import EffectMQ.Proof.View

/-!
# Functions that change one view

`Local k F s s'`: the store changed at the key `k` only, where the view went through `F`, and the retention sets
and schedules stayed. Each function of the engine that works on one task is local, and its `F` is the operation
of the same name on views.
-/

namespace EffectMQ

open Redis

/-- The members of a queue's expiry indexes name that queue. -/
def Store.Homed (s : Store) : Prop := ∀ queue x, x.queue ≠ queue → (s.expiry queue).dates x = Dates.none

/-- The waiting ids of a queue without the one of a key, in order. -/
def Store.waitingExcept (s : Store) (k : TaskKey) (queue : String) : List String :=
  (s.lists queue).wait.filter fun id => (queue, id) ≠ k

/-- The wait list of a key's queue stays, or the id leaves it, or the id goes to its end. -/
def Store.Requeues (k : TaskKey) (s s' : Store) : Prop :=
  (s'.lists k.1).wait = (s.lists k.1).wait ∨ (s'.lists k.1).wait = s.waitingExcept k k.1 ∨
    (s'.lists k.1).wait = s.waitingExcept k k.1 ++ [k.2]

structure Local (k : TaskKey) (F : TaskView → TaskView) (s s' : Store) : Prop where
  view : s'.view = Function.update s.view k (F (s.view k))
  waiting : s'.waitingExcept k = s.waitingExcept k
  requeues : s.Requeues k s'
  retainedBy : s'.retainedBy = s.retainedBy
  retains : s'.retains = s.retains
  continuations : s'.continuations = s.continuations
  maintenanceCursor : s'.maintenanceCursor = s.maintenanceCursor
  schedule : s'.schedule = s.schedule
  homed : s.Homed → s'.Homed

theorem Store.Requeues.trans {k : TaskKey} {s s' s'' : Store} (h : s.Requeues k s') (h' : s'.Requeues k s'')
    (hwaiting : s'.waitingExcept k = s.waitingExcept k) : s.Requeues k s'' := by
  unfold Store.Requeues at h' ⊢
  rw [hwaiting] at h'
  rcases h' with heq | hleft | hlast
  · rw [heq]
    exact h
  · exact Or.inr (Or.inl hleft)
  · exact Or.inr (Or.inr hlast)

namespace Local

variable {k : TaskKey} {F G : TaskView → TaskView} {s s' s'' : Store}

theorem view_self (h : Local k F s s') : s'.view k = F (s.view k) := by
  rw [h.view, Function.update_self]

theorem view_of_ne (h : Local k F s s') {k' : TaskKey} (hne : k' ≠ k) : s'.view k' = s.view k' := by
  rw [h.view, Function.update_of_ne hne]

theorem trans (h : Local k F s s') (h' : Local k G s' s'') : Local k (fun v => G (F v)) s s'' where
  view := by rw [h'.view, h.view, Function.update_self, Function.update_idem]
  waiting := h'.waiting.trans h.waiting
  requeues := h.requeues.trans h'.requeues h.waiting
  retainedBy := h'.retainedBy.trans h.retainedBy
  retains := h'.retains.trans h.retains
  continuations := h'.continuations.trans h.continuations
  maintenanceCursor := h'.maintenanceCursor.trans h.maintenanceCursor
  schedule := h'.schedule.trans h.schedule
  homed hs := h'.homed (h.homed hs)

/-- What happens to the view may be described in another way that agrees there. -/
theorem congr (h : Local k F s s') (hview : F (s.view k) = G (s.view k)) : Local k G s s' :=
  { h with view := by rw [h.view, hview] }

theorem refl (k : TaskKey) (s : Store) : Local k id s s where
  view := (Function.update_eq_self k s.view).symm
  waiting := rfl
  requeues := Or.inl rfl
  retainedBy := rfl
  retains := rfl
  continuations := rfl
  maintenanceCursor := rfl
  schedule := rfl
  homed hs := hs

end Local

/-- A store whose views agree with an updated family, field by field. -/
theorem view_eq_update {s s' : Store} {queue id : String} {v : TaskView} (hself : s'.view (queue, id) = v)
    (hother : ∀ k, k ≠ (queue, id) → s'.view k = s.view k) : s'.view = Function.update s.view (queue, id) v := by
  funext k
  by_cases hk : k = (queue, id)
  · rw [hk, hself, Function.update_self]
  · rw [hother k hk, Function.update_of_ne hk]

@[simp] theorem assertHistory_store (queue id : String) (w : World) : (assertHistory queue id w).store = w.store := by
  unfold assertHistory
  split <;> rfl

@[simp] theorem World.modify_store (w : World) (f : Store → Store) : (w.modify f).store = f w.store := rfl

section

variable (env : Env) (s : Store) (queue id : String)

/-! ### Records, lists and dates -/

theorem local_modifyTask (f : TaskRecord → TaskRecord) :
    Local (queue, id) (fun v => v.modify f) s (s.modifyTask queue id f) where
  view := view_eq_update (by simp [Store.view, Store.modifyTask, TaskView.modify, Store.log])
    fun k hk => by simp [Store.view, Store.modifyTask, hk, Store.log]
  waiting := rfl
  requeues := Or.inl rfl
  retainedBy := rfl
  retains := rfl
  continuations := rfl
  maintenanceCursor := rfl
  schedule := rfl
  homed hs := hs

/-- New lists of a queue are local to an id when they list every other id as before. -/
theorem local_setLists (L : QueueLists)
    (hwaiting : (L.wait.filter fun x => x ≠ id) = (s.lists queue).wait.filter fun x => x ≠ id)
    (hqueue : L.wait = (s.lists queue).wait ∨ (L.wait = (s.lists queue).wait.filter fun x => x ≠ id) ∨
      L.wait = ((s.lists queue).wait.filter fun x => x ≠ id) ++ [id])
    (hscore : ∀ id', id' ≠ id → ∀ l, L.score id' l = (s.lists queue).score id' l) :
    Local (queue, id) (fun v => { v with waiting := L.wait.count id, score := L.score id }) s (s.setLists queue L) where
  view := by
    refine view_eq_update (by simp [Store.view, Store.setLists, Store.log]) fun k hk => ?_
    obtain ⟨queue', id'⟩ := k
    by_cases hq : queue' = queue
    · subst hq
      have hid : id' ≠ id := fun h => hk (by rw [h])
      have hcount : L.wait.count id' = (s.lists queue').wait.count id' := by
        have h := congrArg (List.count id') hwaiting
        rwa [List.count_filter (by simpa using hid), List.count_filter (by simpa using hid)] at h
      simp [Store.view, Store.setLists, Store.log, hcount, funext (hscore id' hid)]
    · simp [Store.view, Store.setLists, Store.log, hq]
  waiting := by
    funext queue'
    by_cases hq : queue' = queue
    · subst hq
      simpa [Store.waitingExcept, Store.setLists] using hwaiting
    · simp [Store.waitingExcept, Store.setLists, hq]
  requeues := by simpa [Store.Requeues, Store.waitingExcept, Store.setLists] using hqueue
  retainedBy := rfl
  retains := rfl
  continuations := rfl
  maintenanceCursor := rfl
  schedule := rfl
  homed hs := hs

/-- New indexes of a queue are local to an id when they date one of its generations only. -/
theorem local_setExpiry (g : ℕ) (e : ExpiryIndexes)
    (hother : ∀ x : TaskIdentity, x ≠ ⟨queue, id, g⟩ → e.dates x = (s.expiry queue).dates x) :
    Local (queue, id) (fun v => v.setDates g fun _ => e.dates ⟨queue, id, g⟩) s (s.setExpiry queue e) where
  view := by
    refine view_eq_update ?_ fun k hk => ?_
    · ext1 <;> try rfl
      funext g'
      by_cases hg : g' = g
      · subst hg
        simp [Store.view, Store.setExpiry, TaskView.setDates]
      · have hx : (⟨queue, id, g'⟩ : TaskIdentity) ≠ ⟨queue, id, g⟩ := fun h => hg (by injection h)
        simp [Store.view, Store.setExpiry, TaskView.setDates, hg, hother _ hx]
    · obtain ⟨queue', id'⟩ := k
      by_cases hq : queue' = queue
      · subst hq
        have hx : ∀ g', (⟨queue', id', g'⟩ : TaskIdentity) ≠ ⟨queue', id, g⟩ := fun g' h => hk (by injection h with _ h; rw [h])
        simp [Store.view, Store.setExpiry, Store.log, hother _ (hx _)]
      · simp [Store.view, Store.setExpiry, Store.log, hq]
  waiting := rfl
  requeues := Or.inl rfl
  retainedBy := rfl
  retains := rfl
  continuations := rfl
  maintenanceCursor := rfl
  schedule := rfl
  homed hs := by
    intro queue' x hx
    by_cases hq : queue' = queue
    · subst hq
      have hne : x ≠ ⟨queue', id, g⟩ := fun h => hx (by rw [h])
      simpa [Store.setExpiry, hother x hne] using hs queue' x hx
    · simpa [Store.setExpiry, hq] using hs queue' x hx

theorem local_setLock (lock : Option Lock) :
    Local (queue, id) (fun v => { v with lock := lock }) s
      { s with lock := Function.update s.lock (queue, id) lock } where
  view := view_eq_update (by simp [Store.view, Store.log]) fun k hk => by simp [Store.view, hk, Store.log]
  waiting := rfl
  requeues := Or.inl rfl
  retainedBy := rfl
  retains := rfl
  continuations := rfl
  maintenanceCursor := rfl
  schedule := rfl
  homed hs := hs

theorem local_setHistory (g : ℕ) (stream : List (StreamId × HistoryEntry)) :
    Local (queue, id) (fun v => { v with history := Function.update v.history g stream }) s
      { s with history := Function.update s.history ⟨queue, id, g⟩ stream } where
  view := by
    refine view_eq_update ?_ fun k hk => ?_
    · ext1 <;> try rfl
      funext g'
      by_cases hg : g' = g
      · simp [Store.view, hg]
      · simp [Store.view, hg]
    · ext1 <;> try rfl
      funext g'
      have hx : (⟨k.1, k.2, g'⟩ : TaskIdentity) ≠ ⟨queue, id, g⟩ := fun h => hk (by cases k; simp_all)
      simp [Store.view, hx]
  waiting := rfl
  requeues := Or.inl rfl
  retainedBy := rfl
  retains := rfl
  continuations := rfl
  maintenanceCursor := rfl
  schedule := rfl
  homed hs := hs

theorem local_setResult (g : ℕ) (result : Option TerminalResult) :
    Local (queue, id) (fun v => { v with result := Function.update v.result g result }) s
      { s with result := Function.update s.result ⟨queue, id, g⟩ result } where
  view := by
    refine view_eq_update ?_ fun k hk => ?_
    · ext1 <;> try rfl
      funext g'
      by_cases hg : g' = g
      · simp [Store.view, hg]
      · simp [Store.view, hg]
    · ext1 <;> try rfl
      funext g'
      have hx : (⟨k.1, k.2, g'⟩ : TaskIdentity) ≠ ⟨queue, id, g⟩ := fun h => hk (by cases k; simp_all)
      simp [Store.view, hx]
  waiting := rfl
  requeues := Or.inl rfl
  retainedBy := rfl
  retains := rfl
  continuations := rfl
  maintenanceCursor := rfl
  schedule := rfl
  homed hs := hs

/-- Write or forget the record of an id together with its `created` entry. -/
theorem local_setRecord (r : Option TaskRecord) (n : ℕ) (z : SortedSet String)
    (hother : ∀ id', id' ≠ id → z.score id' = (s.created queue).score id') :
    Local (queue, id) (fun v => { v with record := r, counter := n, createdAt := z.score id }) s
      { s with
        generations := Function.update s.generations (queue, id) n
        task := Function.update s.task (queue, id) r
        created := Function.update s.created queue z } where
  view := by
    refine view_eq_update (by simp [Store.view, Store.log]) fun k hk => ?_
    obtain ⟨queue', id'⟩ := k
    by_cases hq : queue' = queue
    · subst hq
      have hid : id' ≠ id := fun h => hk (by rw [h])
      simp [Store.view, Store.log, hid, hother id' hid]
    · simp [Store.view, Store.log, hq]
  waiting := rfl
  requeues := Or.inl rfl
  retainedBy := rfl
  retains := rfl
  continuations := rfl
  maintenanceCursor := rfl
  schedule := rfl
  homed hs := hs

end

end EffectMQ
