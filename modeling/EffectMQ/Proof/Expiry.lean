import EffectMQ.Proof.Attempts

/-!
# The expiry sweeps are local

What one member of an expiry index makes of the view it names. The member of an index names the queue it is
found in, so the sweep's own queue and the member's queue are one.
-/

namespace EffectMQ

open Redis

variable (env : Env)

theorem member_of_queue (x : TaskIdentity) : member x.queue x = x := rfl

theorem current_eq_some_iff {s : Store} {x : TaskIdentity} {r : TaskRecord} :
    s.current x = some r ↔ s.task (x.queue, x.id) = some r ∧ r.generation = x.generation := by
  simp [Store.current, Option.filter_eq_some_iff]

theorem local_setTaskExpiry (s : Store) (x : TaskIdentity) (z : SortedSet TaskIdentity)
    (hother : ∀ y, y ≠ x → z.score y = (s.expiry x.queue).tasks.score y) :
    Local (x.queue, x.id) (fun v => v.setDates x.generation fun d => { d with task := z.score x }) s
      (setTaskExpiry x.queue z s) :=
  (local_setExpiry s x.queue x.id x.generation _ fun y hy => by simp [ExpiryIndexes.dates, hother y hy]).congr rfl

theorem update_of_card_eq_zero {s : Store} {x : TaskIdentity} (h : s.hasRetentionHolds x = false) :
    Function.update s.retainedBy x ∅ = s.retainedBy := by
  have hempty : s.retainedBy x = ∅ := by simpa [Store.hasRetentionHolds] using h
  rw [← hempty, Function.update_eq_self]

/-- A due record that is settled and not held goes. -/
theorem local_expireTask_delete {w : World} {x : TaskIdentity} {r : TaskRecord} (h : w.store.Listed x.queue x.id)
    (hr : w.store.current x = some r) (hsettled : r.outcome.isSome) (hheld : w.store.hasRetentionHolds x = false) :
    Local (x.queue, x.id) (fun v => v.delete env x.id) w.store (expireTask env x.queue w x).store := by
  have hdelete := local_deleteTask env h false (by simp)
  unfold expireTask
  simp only [member_of_queue, hr, hheld, Option.isNone_iff_eq_none, Option.isSome_iff_ne_none.mp hsettled,
    Bool.false_eq_true, ↓reduceIte, World.modify_store]
  have hretained : Function.update (deleteTask env x.queue x.id false w).store.retainedBy x ∅ =
      (deleteTask env x.queue x.id false w).store.retainedBy := by
    refine update_of_card_eq_zero ?_
    unfold Store.hasRetentionHolds
    rw [hdelete.retainedBy]
    exact hheld
  rw [hretained]
  refine (hdelete.trans (local_setTaskExpiry _ x _ fun y hy => SortedSet.score_remove_of_ne _ hy)).congr ?_
  -- the delete already removed the date
  have hview : (w.store.view (x.queue, x.id)).record = some r := (current_eq_some_iff.mp hr).1
  obtain ⟨history, hrecord⟩ := TaskView.record_move env x.id none none 0 hview
  have hgeneration := (current_eq_some_iff.mp hr).2
  simp [TaskView.delete, TaskView.drop, hrecord, TaskView.setDates, hgeneration]

/-- A due member whose record has gone or runs is dropped. -/
theorem local_expireTask_drop {w : World} {x : TaskIdentity}
    (h : ∀ r, w.store.current x = some r → r.outcome = none) :
    Local (x.queue, x.id) (fun v => v.setDates x.generation fun d => { d with task := none }) w.store
      (expireTask env x.queue w x).store := by
  have hdrop := local_setTaskExpiry w.store x ((w.store.expiry x.queue).tasks.remove x)
    fun y hy => SortedSet.score_remove_of_ne _ hy
  simp only [SortedSet.score_remove_self] at hdrop
  unfold expireTask
  cases hr : w.store.current x with
  | none =>
    simp only [member_of_queue, hr]
    exact hdrop
  | some r =>
    simp only [member_of_queue, hr, h r hr, Option.isNone_none, ↓reduceIte]
    exact hdrop

/-- The sweeps over the expiry indexes that dispose of no record move nobody in line. -/
theorem wait_expireTask {w : World} {x : TaskIdentity} (h : ∀ r, w.store.current x = some r → r.outcome = none) :
    ((expireTask env x.queue w x).store.lists x.queue).wait = (w.store.lists x.queue).wait := by
  unfold expireTask
  cases hr : w.store.current x with
  | none =>
    simp only [member_of_queue, hr]
    rfl
  | some r =>
    simp only [member_of_queue, hr, h r hr, Option.isNone_none, ↓reduceIte]
    rfl

theorem wait_expireResult (w : World) (x : TaskIdentity) :
    ((expireResult env x.queue w x).store.lists x.queue).wait = (w.store.lists x.queue).wait := by
  unfold expireResult
  rw [member_of_queue]
  by_cases hheld : w.store.hasRetentionHolds x = true
  · rw [if_pos hheld]
    rfl
  · rw [if_neg hheld]
    rfl

theorem wait_expireTerminal (w : World) (x : TaskIdentity) :
    ((expireTerminal x.queue w x).store.lists x.queue).wait = (w.store.lists x.queue).wait := by
  have hunindex : ∀ s : Store, ((unindexTerminal x.queue x.id s).lists x.queue).wait = (s.lists x.queue).wait := by
    intro s
    unfold unindexTerminal
    dsimp only
    split <;> simp [Store.setLists, Store.modifyTask, QueueLists.removeFrom]
  unfold expireTerminal
  by_cases hcurrent : (w.store.current x).isSome = true
  · simp only [World.modify_store, member_of_queue, hcurrent, ↓reduceIte]
    exact hunindex w.store
  · simp only [World.modify_store, member_of_queue, hcurrent, Bool.false_eq_true, ↓reduceIte]
    rfl

/-- A due record that is held is dated again. -/
theorem local_expireTask_held {w : World} {x : TaskIdentity} {r : TaskRecord} (hr : w.store.current x = some r)
    (hsettled : r.outcome.isSome) (hheld : w.store.hasRetentionHolds x = true) :
    Local (x.queue, x.id) (fun v => v.setDates x.generation fun d => { d with task := some (env.now + 1000) })
      w.store (expireTask env x.queue w x).store := by
  have hdate := local_setTaskExpiry w.store x ((w.store.expiry x.queue).tasks.add x (env.now + 1000))
    fun y hy => SortedSet.score_add_of_ne _ _ hy
  simp only [SortedSet.score_add_self] at hdate
  unfold expireTask
  simp only [member_of_queue, hr, hheld, Option.isNone_iff_eq_none, Option.isSome_iff_ne_none.mp hsettled,
    ↓reduceIte, World.modify_store]
  exact hdate

/-- `expireResult` of a generation that is held or not. -/
def TaskView.expireResult (held : Bool) (g : ℕ) (v : TaskView) : TaskView :=
  if held then v.setDates g fun d => { d with result := some (env.now + 1000) }
  else { v.setDates g fun d => { d with result := none } with result := Function.update v.result g none }

theorem local_expireResult (w : World) (x : TaskIdentity) :
    Local (x.queue, x.id) (TaskView.expireResult env (w.store.hasRetentionHolds x) x.generation) w.store
      (expireResult env x.queue w x).store := by
  unfold expireResult
  by_cases hheld : w.store.hasRetentionHolds x = true
  · simp only [member_of_queue, hheld, ↓reduceIte, World.modify_store]
    refine (local_setExpiry w.store x.queue x.id x.generation _ fun y hy => ?_).congr ?_
    · simp [ExpiryIndexes.dates, SortedSet.score_add_of_ne _ _ hy]
    · simp [TaskView.expireResult, ExpiryIndexes.dates, TaskView.setDates, Store.view]
  · rw [Bool.not_eq_true] at hheld
    simp only [member_of_queue, hheld, Bool.false_eq_true, ↓reduceIte, World.modify_store]
    refine ((local_setExpiry w.store x.queue x.id x.generation _ fun y hy => ?_).trans
      (local_setResult _ x.queue x.id x.generation none)).congr ?_
    · simp [ExpiryIndexes.dates, SortedSet.score_remove_of_ne _ hy]
    · simp [TaskView.expireResult, ExpiryIndexes.dates, TaskView.setDates, Store.view]

theorem local_unindexTerminal (s : Store) (queue id : String) :
    Local (queue, id) TaskView.unindexTerminal s (unindexTerminal queue id s) := by
  have hlists := local_setLists s queue id
    (((s.lists queue).removeFrom id .success).2.removeFrom id .failed).2
    ((QueueLists.others_removeFrom _ id _).trans (QueueLists.others_removeFrom _ id _)) (Or.inl rfl)
    (fun id' hid l => by simp [QueueLists.score_removeFrom, hid])
  have hcleared : (((s.lists queue).removeFrom id .success).2.removeFrom id .failed).2.score id =
      fun l => if l = .success ∨ l = .failed then none else (s.view (queue, id)).score l := by
    funext l
    rw [QueueLists.score_removeFrom, QueueLists.score_removeFrom]
    cases l <;> simp [Store.view]
  have hwaiting : (((s.lists queue).removeFrom id .success).2.removeFrom id .failed).2.wait.count id =
      (s.view (queue, id)).waiting := by
    simp [QueueLists.waiting_removeFrom, Store.view]
  have hremoved : 0 < ((s.lists queue).removeFrom id .success).1 +
      (((s.lists queue).removeFrom id .success).2.removeFrom id .failed).1 ↔
        ((s.view (queue, id)).score .success).isSome ∨ ((s.view (queue, id)).score .failed).isSome := by
    simp only [QueueLists.removeFrom, Store.view, QueueLists.score]
    by_cases hsuccess : ((s.lists queue).success.score id).isSome = true <;>
      by_cases hfailed : ((s.lists queue).failed.score id).isSome = true <;> simp [hsuccess, hfailed]
  rw [hcleared, hwaiting] at hlists
  unfold unindexTerminal
  simp only [hremoved]
  split
  · next hscore =>
    refine (hlists.trans (local_modifyTask _ queue id _)).congr ?_
    have hunindexed : (s.view (queue, id)).unindexed = fun r => { r with currentList := some none } :=
      funext fun r => if_pos hscore
    simp only [TaskView.modify, TaskView.unindexTerminal, hunindexed]
  · next hscore =>
    refine hlists.congr ?_
    have hunindexed : (s.view (queue, id)).unindexed = fun r => r := funext fun r => if_neg hscore
    simp only [TaskView.unindexTerminal, hunindexed, Option.map_id']

theorem local_expireTerminal (w : World) (x : TaskIdentity) :
    Local (x.queue, x.id) (fun v => v.expireTerminal x.generation) w.store (expireTerminal x.queue w x).store := by
  unfold expireTerminal
  simp only [World.modify_store, member_of_queue]
  have hdate (s : Store) : Local (x.queue, x.id)
      (fun v => v.setDates x.generation fun d => { d with terminal := none }) s
      (s.setExpiry x.queue { s.expiry x.queue with terminal := (s.expiry x.queue).terminal.remove x }) := by
    refine (local_setExpiry s x.queue x.id x.generation _ fun y hy => ?_).congr ?_
    · simp [ExpiryIndexes.dates, SortedSet.score_remove_of_ne _ hy]
    · simp [ExpiryIndexes.dates, TaskView.setDates, Store.view]
  have hcurrent : (w.store.current x).isSome =
      (w.store.view (x.queue, x.id)).record.any fun r => r.generation = x.generation := by
    unfold Store.current Store.view
    cases w.store.task (x.queue, x.id) with
    | none => rfl
    | some r => by_cases hg : r.generation = x.generation <;> simp [hg, Option.filter]
  by_cases h : (w.store.current x).isSome = true
  · rw [hcurrent] at h
    simp only [hcurrent, h, ↓reduceIte]
    refine ((local_unindexTerminal w.store x.queue x.id).trans (hdate _)).congr ?_
    simp only [TaskView.expireTerminal, h, ↓reduceIte]
  · rw [hcurrent, Bool.not_eq_true] at h
    simp only [hcurrent, h, Bool.false_eq_true, ↓reduceIte]
    refine (hdate _).congr ?_
    simp only [TaskView.expireTerminal, h, ↓reduceIte, Bool.false_eq_true]

theorem local_expireDeadLetter (w : World) (x : TaskIdentity) :
    Local (x.queue, x.id)
      (fun v => v.setDates x.generation fun d => { d with deadLetter := none, deadLetterExpiry := none }) w.store
      (expireDeadLetter x.queue w x).store := by
  unfold expireDeadLetter
  rw [World.modify_store]
  refine (local_setExpiry w.store x.queue x.id x.generation _ fun y hy => ?_).congr ?_
  · simp [ExpiryIndexes.dates, SortedSet.score_remove_of_ne _ hy]
  · simp [ExpiryIndexes.dates, TaskView.setDates, Store.view]

end EffectMQ
