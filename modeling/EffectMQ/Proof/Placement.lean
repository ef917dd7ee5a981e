import EffectMQ.TaskEngine.Operations

/-!
# Where an id is listed

What the list operations do to the occurrences of one id, and what `removeFromCurrentLists` amounts to once an
id is listed exactly where its record says: the cached list name, the scan and debug mode then all give the
same answer.
-/

namespace EffectMQ

open Redis

namespace QueueLists

/-- The score of an id in a list; the wait list keeps none. -/
def score (L : QueueLists) (id : String) : TaskList → Option ℚ
  | .wait => none
  | .scheduled => L.scheduled.score id
  | .active => L.active.score id
  | .failed => L.failed.score id
  | .success => L.success.score id

/-- The id is in the list `place`, once, and in no other list. -/
structure At (L : QueueLists) (id : String) (place : Option TaskList) : Prop where
  waiting : L.wait.count id = if place = some .wait then 1 else 0
  score : ∀ l, (L.score id l).isSome ↔ place = some l ∧ l ≠ .wait

/-- The lists after the id went from its place. -/
def without (L : QueueLists) (id : String) : Option TaskList → QueueLists
  | none => L
  | some l => (L.removeFrom id l).2

variable {L : QueueLists} {id id' : String}

theorem waiting_removeFrom (L : QueueLists) (id id' : String) (l : TaskList) :
    (L.removeFrom id l).2.wait.count id' =
      if l = .wait ∧ id' = id then L.wait.count id' - 1 else L.wait.count id' := by
  cases l with
  | wait =>
    by_cases h : id' = id
    · subst h
      simp [removeFrom]
    · simp [removeFrom, h, List.count_erase_of_ne]
  | scheduled | active | failed | success => simp [removeFrom]

theorem score_removeFrom (L : QueueLists) (id id' : String) (l l' : TaskList) :
    (L.removeFrom id l).2.score id' l' = if l' = l ∧ id' = id then none else L.score id' l' := by
  cases l <;> cases l' <;> simp [removeFrom, score, SortedSet.score_remove]

theorem waiting_addTo (L : QueueLists) (id id' : String) (t : ℚ) (l : TaskList) :
    (L.addTo id t l).wait.count id' = if l = .wait ∧ id' = id then L.wait.count id' + 1 else L.wait.count id' := by
  cases l with
  | wait =>
    by_cases h : id' = id
    · subst h
      simp [addTo]
    · simp [addTo, h, Ne.symm h]
  | scheduled | active | failed | success => simp [addTo]

theorem score_addTo (L : QueueLists) (id id' : String) (t : ℚ) (l l' : TaskList) :
    (L.addTo id t l).score id' l' = if l' = l ∧ id' = id ∧ l ≠ .wait then some t else L.score id' l' := by
  cases l <;> cases l' <;> simp [addTo, score, SortedSet.score_add]

theorem filter_erase (l : List String) (id : String) :
    ((l.erase id).filter fun x => x ≠ id) = l.filter fun x => x ≠ id := by
  induction l with
  | nil => rfl
  | cons x xs ih =>
    by_cases hx : x = id
    · simp [hx]
    · rw [List.erase_cons_tail (by simpa using hx), List.filter_cons, List.filter_cons, ih]

theorem others_removeFrom (L : QueueLists) (id : String) (l : TaskList) :
    ((L.removeFrom id l).2.wait.filter fun x => x ≠ id) = L.wait.filter fun x => x ≠ id := by
  cases l with
  | wait => exact filter_erase L.wait id
  | scheduled | active | failed | success => rfl

theorem others_addTo (L : QueueLists) (id : String) (t : ℚ) (l : TaskList) :
    ((L.addTo id t l).wait.filter fun x => x ≠ id) = L.wait.filter fun x => x ≠ id := by
  cases l <;> simp [addTo]

theorem others_without (L : QueueLists) (id : String) (place : Option TaskList) :
    ((L.without id place).wait.filter fun x => x ≠ id) = L.wait.filter fun x => x ≠ id := by
  cases place with
  | none => rfl
  | some l => exact others_removeFrom L id l

theorem score_without (L : QueueLists) (h : id' ≠ id) (place : Option TaskList) (l : TaskList) :
    (L.without id place).score id' l = L.score id' l := by
  cases place with
  | none => rfl
  | some l' => simp [without, score_removeFrom, h]

theorem At.removed {l : TaskList} (h : L.At id (some l)) : (L.removeFrom id l).1 = 1 := by
  have hscore := h.score l
  cases l with
  | wait =>
    have hmem : id ∈ L.wait := by
      rw [← List.count_pos_iff, h.waiting]
      simp
    simp [removeFrom, hmem]
  | scheduled | active | failed | success =>
    simp only [QueueLists.score, ne_eq, reduceCtorEq, not_false_eq_true, and_true, iff_true] at hscore
    simp [removeFrom, hscore]

theorem At.without {place : Option TaskList} (h : L.At id place) : (L.without id place).At id none := by
  cases place with
  | none => exact h
  | some l =>
    refine ⟨?_, fun l' => ?_⟩
    · rw [QueueLists.without, waiting_removeFrom, h.waiting]
      cases l <;> simp
    · rw [QueueLists.without, score_removeFrom]
      split
      · simp
      · next hne =>
        rw [h.score l']
        simp only [and_true] at hne
        simp [Ne.symm hne]

theorem At.not_mem (h : L.At id none) : id ∉ L.wait := by
  rw [← List.count_eq_zero, h.waiting]
  simp

theorem At.score_none (h : L.At id none) (l : TaskList) : L.score id l = none := by
  have hl := h.score l
  simpa using hl

/-- An id that is listed once leaves the wait list as a filter. -/
theorem At.wait_without {place : Option TaskList} (h : L.At id place) :
    (L.without id place).wait = L.wait ∨ (L.without id place).wait = L.wait.filter fun x => x ≠ id := by
  refine Or.inr (Eq.trans (List.filter_eq_self.mpr fun x hx => ?_).symm (others_without L id place))
  exact decide_eq_true fun heq : x = id => h.without.not_mem (heq ▸ hx)

theorem At.wait_addTo (h : L.At id none) (t : ℚ) (l : TaskList) :
    (L.addTo id t l).wait = L.wait ∨ ((L.addTo id t l).wait = L.wait.filter fun x => x ≠ id) ∨
      (L.addTo id t l).wait = (L.wait.filter fun x => x ≠ id) ++ [id] := by
  cases l with
  | wait =>
    have hfilter : (L.wait.filter fun x => x ≠ id) = L.wait :=
      List.filter_eq_self.mpr fun x hx => decide_eq_true fun heq : x = id => h.not_mem (heq ▸ hx)
    rw [hfilter]
    exact Or.inr (Or.inr rfl)
  | scheduled | active | failed | success => exact Or.inl rfl

/-- Nothing goes when the id is in no list. -/
theorem At.removeEvery (h : L.At id none) (l : TaskList) : L.removeEvery id l = (0, L) := by
  have hscore := h.score_none l
  cases l with
  | wait =>
    have hcount : L.wait.count id = 0 := List.count_eq_zero.mpr h.not_mem
    have hfilter : (L.wait.filter fun x => x ≠ id) = L.wait := by
      rw [List.filter_eq_self]
      intro x hx
      simpa using fun heq : x = id => h.not_mem (heq ▸ hx)
    simp only [QueueLists.removeEvery, hcount, hfilter]
  | scheduled | active | failed | success =>
    simp only [QueueLists.score] at hscore
    simp [QueueLists.removeEvery, removeFrom, hscore, SortedSet.remove_of_score_none]

theorem At.scan (h : L.At id none) (currentList : Option TaskList) : L.scan id currentList = (currentList, L) := by
  simp [QueueLists.scan, h.removeEvery]

end QueueLists

/-- The list that the stored record names. -/
def Store.place (s : Store) (queue id : String) : Option TaskList := (s.task (queue, id)).bind TaskRecord.place

/-- The id is listed where its record says. -/
def Store.Listed (s : Store) (queue id : String) : Prop := (s.lists queue).At id (s.place queue id)

/-- The record's list is the one that goes, whatever else the function looks at. -/
theorem removeFromCurrentLists_eq (env : Env) {s : Store} {queue id : String} (h : s.Listed queue id) :
    removeFromCurrentLists env queue id s =
      (s.place queue id, s.setLists queue ((s.lists queue).without id (s.place queue id))) := by
  have hplace : s.place queue id = ((s.task (queue, id)).bind TaskRecord.currentList).join := by
    unfold Store.place
    cases s.task (queue, id) <;> rfl
  unfold Store.Listed at h
  rw [hplace] at h ⊢
  unfold removeFromCurrentLists
  cases hstored : (s.task (queue, id)).bind TaskRecord.currentList with
  | none =>
    rw [hstored] at h
    simp [QueueLists.without, QueueLists.At.scan h]
  | some stored =>
    rw [hstored] at h
    cases stored with
    | none => simp [QueueLists.without, QueueLists.At.scan h]
    | some l =>
      have hgone : (QueueLists.removeFrom (s.lists queue) id l).2.At id none := h.without
      simp [QueueLists.without, hgone.scan, h.removed]

end EffectMQ
