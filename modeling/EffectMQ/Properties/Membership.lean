import EffectMQ.Lifecycle.Scenario

/-!
# Where a task is

In every state of a run an id is in at most one list, its record names that list, runnable records are in
runnable lists, and a lease that has not run out is the lease of an active task.
-/

namespace EffectMQ

open Redis

/-- How often an id occurs in a list. -/
def QueueLists.occurrences (L : QueueLists) (id : String) : TaskList → ℕ
  | .wait => L.wait.count id
  | .scheduled => if (L.scheduled.score id).isSome then 1 else 0
  | .active => if (L.active.score id).isSome then 1 else 0
  | .failed => if (L.failed.score id).isSome then 1 else 0
  | .success => if (L.success.score id).isSome then 1 else 0

theorem QueueLists.At.occurrences {L : QueueLists} {id : String} {place : Option TaskList} (h : L.At id place)
    (l : TaskList) : L.occurrences id l = if place = some l then 1 else 0 := by
  have hscore := h.score l
  cases l with
  | wait => exact h.waiting
  | scheduled | active | failed | success =>
    simp only [QueueLists.score, ne_eq, reduceCtorEq, not_false_eq_true, and_true] at hscore
    simp only [QueueLists.occurrences, hscore]

/-- The membership of one id of a queue, in the store's own terms. -/
structure SingleMembership (s : Store) (clock : ℚ) (queue id : String) : Prop where
  once : (s.lists queue).occurrences id .wait + (s.lists queue).occurrences id .scheduled +
    (s.lists queue).occurrences id .active + (s.lists queue).occurrences id .failed +
    (s.lists queue).occurrences id .success ≤ 1
  named : ∀ r, s.task (queue, id) = some r →
    ∀ l, r.currentList = some (some l) ↔ (s.lists queue).occurrences id l = 1
  unnamed : ∀ r, s.task (queue, id) = some r →
    (r.currentList = some none ↔ ∀ l, (s.lists queue).occurrences id l = 0)
  stored : ∀ l, (s.lists queue).occurrences id l ≠ 0 → (s.task (queue, id)).isSome
  created : id ∈ (s.created queue).members ↔ (s.task (queue, id)).isSome
  runnable : ∀ r, s.task (queue, id) = some r → r.outcome = none →
    (s.lists queue).occurrences id .wait + (s.lists queue).occurrences id .scheduled +
      (s.lists queue).occurrences id .active = 1
  settled : ∀ r, s.task (queue, id) = some r → r.outcome.isSome →
    (s.lists queue).occurrences id .wait = 0 ∧ (s.lists queue).occurrences id .scheduled = 0 ∧
      (s.lists queue).occurrences id .active = 0
  lease : ∀ now, clock ≤ now → ∀ l, s.lock (queue, id) = some l → now ≤ l.expiresAt →
    (s.lists queue).occurrences id .active = 1 ∧ (s.lists queue).active.score id = some l.expiresAt ∧
      ∃ r, s.task (queue, id) = some r ∧ r.outcome = none

theorem TaskRecord.Placed.currentList {r : TaskRecord} (h : r.Placed) : r.currentList = some r.place := by
  obtain ⟨list, hlist⟩ := Option.isSome_iff_exists.mp h.named
  simp [TaskRecord.place, hlist]

theorem Sane.singleMembership {s : Store} {clock : ℚ} (hs : Sane clock s) (queue id : String) :
    SingleMembership s clock queue id := by
  have hview := hs.views (queue, id)
  have hlisted := hs.listed queue id
  have hplace {r : TaskRecord} (hr : s.task (queue, id) = some r) : s.place queue id = r.place := by
    simp [Store.place, hr]
  have hplaced {r : TaskRecord} (hr : s.task (queue, id) = some r) : r.Placed := hview.placed r hr
  have hoccurrences := hlisted.occurrences
  refine ⟨?_, fun r hr l => ?_, fun r hr => ?_, fun l hl => ?_, ?_, fun r hr ho => ?_, fun r hr ho => ?_,
    fun now hnow l hl halive => ?_⟩
  · simp only [hoccurrences]
    cases s.place queue id with
    | none => simp
    | some l => cases l <;> simp
  · rw [hoccurrences, (hplaced hr).currentList, hplace hr]
    simp
  · rw [(hplaced hr).currentList]
    simp only [hoccurrences, hplace hr]
    cases r.place <;> simp
  · rw [hoccurrences] at hl
    cases hr : s.task (queue, id) with
    | none => simp [Store.place, hr] at hl
    | some r => rfl
  · rw [SortedSet.mem_members_iff]
    exact Bool.eq_iff_iff.mp hview.created
  · simp only [hoccurrences, hplace hr]
    rcases (hplaced hr).runnable ho with hp | hp | hp <;> simp [hp]
  · obtain ⟨outcome, ho⟩ := Option.isSome_iff_exists.mp ho
    simp only [hoccurrences, hplace hr]
    rcases (hplaced hr).settled outcome ho with hp | hp
    · simp [hp]
    · rw [hp]
      cases r.policy outcome <;> simp [CompletionPolicy.list]
  · obtain ⟨r, hrunning, hactive⟩ := hview.lease l hl (hnow.trans halive)
    have hr : s.task (queue, id) = some r := hrunning.record
    refine ⟨?_, hactive, r, hr, hrunning.outcome⟩
    rw [hoccurrences, hplace hr, hrunning.place]
    simp

/-- Every id of every queue, in every state of a run. -/
theorem run_singleMembership {calls : List Call} {e : Engine} (h : engine.Run calls e) (queue id : String) :
    SingleMembership e.store e.clock queue id :=
  (run_sane h).singleMembership queue id

/-- An offered and leased task. -/
theorem run_singleMembership_leased : ∃ calls e, engine.Run calls e ∧ (e.store.lists "mail").active.members = ["a"] ∧
    SingleMembership e.store e.clock "mail" "a" := by
  obtain ⟨calls, e, h, hactive⟩ := @play_run
    [(.at 1, .createTask (.default "mail" "a")), (.at 2, .takeTask "mail" "token" (some 30000))]
    (fun _ e => decide ((e.store.lists "mail").active.members = ["a"])) (by decide +kernel)
  exact ⟨calls, e, h, of_decide_eq_true hactive, run_singleMembership h "mail" "a"⟩

end EffectMQ
