import EffectMQ.EventEngine.Sweep

/-!
# What maintenance has left to do

The backlog of a store at an instant counts the due members of its date indexes, and each removed generation with its
deliveries. A sweep adds nothing to it, and a maintenance that finds any of it takes something off.
-/

namespace EffectMQ.EventEngine

open Redis

/-- The members of an index that are due. -/
def late (now : ℕ) (index : SortedSet String) : Finset String := (index.within fun score => score ≤ now).toFinset

/-- The removed generations, each with its deliveries. -/
def owing (s : EventStore) : ℕ :=
  ∑ generation ∈ s.retired.members.toFinset, ((s.delivery generation).members.toFinset.card + 1)

def backlog (now : ℕ) (s : EventStore) : ℕ :=
  (late now s.deadlines).card + (late now s.archiveDeadlines).card + owing s

/-- A store with nothing left to do. -/
structure Drained (now : ℕ) (s : EventStore) : Prop where
  retired : ∀ generation, s.retired.score generation = none
  removed : ∀ generation, s.removed.lookup generation = none
  deadlines : ∀ id r, s.record id = some r → r.status = .active → ∀ time ∈ r.expiresAt, now < time
  archives : ∀ id r, s.record id = some r → r.status ≠ .active → ∀ time ∈ r.archiveUntil, now < time
  registered : ∀ id r generation recipient, s.record id = some r → r.status = .active →
    r.recipients.lookup generation = some recipient → recipient.status = .pending →
    s.subscriptions.lookup recipient.name = some generation

section

variable {env : EventEnv} {p : Policy} {now : ℕ} {id generation : String} {r : EventRecord} {s s' : EventStore}

theorem mem_late_iff {index : SortedSet String} : id ∈ late now index ↔ ∃ score, index.score id = some score ∧ score ≤ now := by
  rw [late, List.mem_toFinset, SortedSet.mem_within_iff]
  simp only [decide_eq_true_eq]

theorem EventInvariant.mem_late_deadlines (h : EventInvariant p now s) :
    id ∈ late now s.deadlines ↔
      ∃ r, s.record id = some r ∧ r.status = .active ∧ ∃ time ∈ r.expiresAt, time ≤ now := by
  have hdeadline : s.deadlines.score id = (s.record id).bind fun r => r.deadline.map Nat.cast := (h.indexed id).deadline
  rw [mem_late_iff, hdeadline]
  constructor
  · rintro ⟨score, hscore, hle⟩
    obtain ⟨r, hr, hmap⟩ := Option.bind_eq_some_iff.mp hscore
    obtain ⟨time, htime, rfl⟩ := Option.map_eq_some_iff.mp hmap
    unfold EventRecord.deadline at htime
    split at htime
    · next hactive => exact ⟨r, hr, hactive, time, htime, Nat.cast_le.mp hle⟩
    · exact absurd htime (by simp)
  · rintro ⟨r, hr, hactive, time, htime, hle⟩
    refine ⟨time, ?_, Nat.cast_le.mpr hle⟩
    rw [hr, Option.bind_some, EventRecord.deadline, if_pos hactive, htime]
    rfl

theorem EventInvariant.mem_late_archiveDeadlines (h : EventInvariant p now s) :
    id ∈ late now s.archiveDeadlines ↔ ∃ r, s.record id = some r ∧ ∃ time ∈ r.archiveUntil, time ≤ now := by
  have harchiveDeadline : s.archiveDeadlines.score id = (s.record id).bind fun r => r.archiveUntil.map Nat.cast :=
    (h.indexed id).archiveDeadline
  rw [mem_late_iff, harchiveDeadline]
  constructor
  · rintro ⟨score, hscore, hle⟩
    obtain ⟨r, hr, hmap⟩ := Option.bind_eq_some_iff.mp hscore
    obtain ⟨time, htime, rfl⟩ := Option.map_eq_some_iff.mp hmap
    exact ⟨r, hr, time, htime, Nat.cast_le.mp hle⟩
  · rintro ⟨r, hr, time, htime, hle⟩
    refine ⟨time, ?_, Nat.cast_le.mpr hle⟩
    rw [hr, Option.bind_some, htime]
    rfl

/-! ### What a sweep leaves -/

/-- An event that is stored as it reads is due in neither index. -/
theorem EventInvariant.not_late (h : EventInvariant p now s) (hid : CaughtUp p now id s) :
    id ∉ late now s.deadlines ∧ id ∉ late now s.archiveDeadlines := by
  rw [h.mem_late_deadlines, h.mem_late_archiveDeadlines]
  constructor
  · rintro ⟨r, hr, hactive, time, htime, hle⟩
    obtain ⟨before, _, hresolve⟩ := Option.bind_eq_some_iff.mp (hid.symm.trans hr)
    exact absurd ((active_of_resolve hresolve hactive).2.2.2 time htime) (not_lt.mpr hle)
  · rintro ⟨r, hr, time, htime, hle⟩
    obtain ⟨before, _, hresolve⟩ := Option.bind_eq_some_iff.mp (hid.symm.trans hr)
    by_cases hactive : r.status = .active
    · exact absurd (((h.sound id r hr).unsettled hactive).2.symm.trans htime) (by simp)
    · exact absurd (((lasts_of_settled hactive).mp (advance_eq_some.mp hresolve).2).2 time htime) (not_lt.mpr hle)

theorem Sweeps.late_subset (h : Sweeps p now s s') (hinvariant : EventInvariant p now s) :
    late now s'.deadlines ⊆ late now s.deadlines ∧ late now s'.archiveDeadlines ⊆ late now s.archiveDeadlines := by
  have hcaught : ∀ id, s'.record id = s.record id ∨ CaughtUp p now id s' := fun id =>
    (h.record id).imp_right fun hrecord => hrecord.trans (h.reading id).symm
  constructor
  · intro id hid
    rcases hcaught id with hrecord | hcaught
    · rw [h.invariant.mem_late_deadlines, hrecord] at hid
      exact hinvariant.mem_late_deadlines.mpr hid
    · exact absurd hid (h.invariant.not_late hcaught).1
  · intro id hid
    rcases hcaught id with hrecord | hcaught
    · rw [h.invariant.mem_late_archiveDeadlines, hrecord] at hid
      exact hinvariant.mem_late_archiveDeadlines.mpr hid
    · exact absurd hid (h.invariant.not_late hcaught).2

theorem EventInvariant.mem_retired (h : EventInvariant p now s) :
    generation ∈ s.retired.members.toFinset ↔ (s.removed.lookup generation).isSome := by
  rw [List.mem_toFinset, SortedSet.mem_members_iff, h.retired, Option.isSome_map]

theorem Sweeps.retired_subset (h : Sweeps p now s s') (hinvariant : EventInvariant p now s) :
    s'.retired.members.toFinset ⊆ s.retired.members.toFinset := by
  intro generation hmem
  rw [h.invariant.mem_retired] at hmem
  rw [hinvariant.mem_retired]
  rcases h.removed generation with heq | heq
  · rwa [← heq]
  · rw [heq] at hmem
    exact absurd hmem (by simp)

theorem Sweeps.members_subset (h : Sweeps p now s s') (hinvariant : EventInvariant p now s) (generation : String) :
    (s'.delivery generation).members.toFinset ⊆ (s.delivery generation).members.toFinset := by
  intro id hid
  rw [List.mem_toFinset, SortedSet.mem_members_iff] at hid ⊢
  exact h.delivery hinvariant hid

theorem Sweeps.owing_le (h : Sweeps p now s s') (hinvariant : EventInvariant p now s) : owing s' ≤ owing s := by
  refine (Finset.sum_le_sum fun generation _ => ?_).trans (Finset.sum_le_sum_of_subset (h.retired_subset hinvariant))
  exact Nat.succ_le_succ (Finset.card_le_card (h.members_subset hinvariant generation))

/-- Work on a removed generation is taken off. -/
theorem Sweeps.owing_lt (h : Sweeps p now s s') (hinvariant : EventInvariant p now s)
    (hmem : generation ∈ s.retired.members.toFinset) (hworked : Worked generation s s') : owing s' < owing s := by
  have hsubset := h.retired_subset hinvariant
  have hle : ∀ other ∈ s'.retired.members.toFinset, (s'.delivery other).members.toFinset.card + 1 ≤
      (s.delivery other).members.toFinset.card + 1 := fun other _ =>
    Nat.succ_le_succ (Finset.card_le_card (h.members_subset hinvariant other))
  by_cases hkept : generation ∈ s'.retired.members.toFinset
  · -- one of its deliveries is gone
    rcases hworked with hnone | ⟨id, hsome, hnone⟩
    · rw [h.invariant.mem_retired, hnone] at hkept
      exact absurd hkept (by simp)
    · refine (Finset.sum_lt_sum hle ⟨generation, hkept, ?_⟩).trans_le (Finset.sum_le_sum_of_subset hsubset)
      refine Nat.succ_lt_succ (Finset.card_lt_card ⟨h.members_subset hinvariant generation, fun hback => ?_⟩)
      have hafter := hback (List.mem_toFinset.mpr (SortedSet.mem_members_iff.mpr hsome))
      rw [List.mem_toFinset, SortedSet.mem_members_iff, hnone] at hafter
      exact absurd hafter (by simp)
  · refine (Finset.sum_le_sum hle).trans_lt (Finset.sum_lt_sum_of_subset hsubset hmem hkept (Nat.succ_pos _) ?_)
    exact fun _ _ _ => Nat.zero_le _

theorem Sweeps.backlog_le (h : Sweeps p now s s') (hinvariant : EventInvariant p now s) : backlog now s' ≤ backlog now s := by
  obtain ⟨hdeadlines, harchiveDeadlines⟩ := h.late_subset hinvariant
  exact Nat.add_le_add (Nat.add_le_add (Finset.card_le_card hdeadlines) (Finset.card_le_card harchiveDeadlines))
    (h.owing_le hinvariant)

theorem mem_dueIn {index : SortedSet String} (h : (late env.now index).Nonempty) :
    ∃ id ∈ dueIn env index, id ∈ late env.now index := by
  obtain ⟨id, hid⟩ := h
  rw [late, List.mem_toFinset] at hid
  unfold dueIn late
  cases hwithin : index.within fun score => score ≤ env.now with
  | nil =>
    rw [hwithin] at hid
    exact absurd hid List.not_mem_nil
  | cons first rest =>
    refine ⟨first, ?_, List.mem_toFinset.mpr List.mem_cons_self⟩
    rw [List.take_cons env.batch_pos]
    exact List.mem_cons_self

/-- A maintenance that finds work takes some of it off. -/
theorem Progress.backlog_lt {s₁ : EventStore} (h : Progress env s s₁ s') (hinvariant : EventInvariant env.policy env.now s)
    (hpos : 0 < backlog env.now s) : backlog env.now s' < backlog env.now s := by
  have hsweeps := h.first.trans h.rest
  obtain ⟨hdeadlines, harchiveDeadlines⟩ := hsweeps.late_subset hinvariant
  have howing := hsweeps.owing_le hinvariant
  have hle₁ := Finset.card_le_card hdeadlines
  have hle₂ := Finset.card_le_card harchiveDeadlines
  by_cases hexpiring : (late env.now s.deadlines).Nonempty
  · obtain ⟨id, hdue, hlate⟩ := mem_dueIn hexpiring
    have hnot := (hsweeps.invariant.not_late (h.expired id hdue)).1
    have hlt := Finset.card_lt_card ⟨hdeadlines, fun hback => hnot (hback hlate)⟩
    unfold backlog
    omega
  by_cases hpurging : (late env.now s.archiveDeadlines).Nonempty
  · have hlt : late env.now s'.archiveDeadlines ⊂ late env.now s.archiveDeadlines := by
      have hfirst := (h.first.late_subset hinvariant).2
      have hrest := (h.rest.late_subset h.first.invariant).2
      by_cases hdue : (late env.now s₁.archiveDeadlines).Nonempty
      · obtain ⟨id, hid, hlate⟩ := mem_dueIn hdue
        have hnot := (hsweeps.invariant.not_late (h.purged id hid)).2
        exact ⟨harchiveDeadlines, fun hback => hnot (hback (hfirst hlate))⟩
      · -- the deadlines that were due have settled all of them
        obtain ⟨id, hid⟩ := hpurging
        exact ⟨harchiveDeadlines, fun hback => hdue ⟨id, hrest (hback hid)⟩⟩
    have hcard := Finset.card_lt_card hlt
    unfold backlog
    omega
  · rw [Finset.not_nonempty_iff_eq_empty] at hexpiring hpurging
    have howing_pos : 0 < owing s := by
      unfold backlog at hpos
      rw [hexpiring, hpurging, Finset.card_empty] at hpos
      omega
    cases hmembers : s.retired.members with
    | nil =>
      rw [owing, hmembers, List.toFinset_nil, Finset.sum_empty] at howing_pos
      exact absurd howing_pos (lt_irrefl 0)
    | cons generation rest =>
      have hhead : generation ∈ s.retired.members.head? := by rw [hmembers]; rfl
      have hmem : generation ∈ s.retired.members.toFinset := by
        rw [hmembers]
        exact List.mem_toFinset.mpr List.mem_cons_self
      have hlt := hsweeps.owing_lt hinvariant hmem (h.worked generation hhead)
      unfold backlog
      omega

theorem owing_eq_zero_iff : owing s = 0 ↔ ∀ generation, s.retired.score generation = none := by
  rw [owing, Finset.sum_eq_zero_iff]
  constructor
  · intro hzero generation
    by_contra hne
    have hmem := SortedSet.mem_members_iff.mpr (Option.isSome_iff_ne_none.mpr hne)
    exact absurd (hzero generation (List.mem_toFinset.mpr hmem)) (Nat.succ_ne_zero _)
  · intro hnone generation hmem
    rw [List.mem_toFinset, SortedSet.mem_members_iff, hnone] at hmem
    exact absurd hmem (by simp)

theorem length_within_eq_zero {index : SortedSet String} :
    (index.within fun score => score ≤ now).length = 0 ↔ late now index = ∅ := by
  rw [late, List.toFinset_eq_empty_iff, List.length_eq_zero_iff]

/-- The script reports work as long as there is any. -/
theorem pendingWork_eq_false_iff : pendingWork env s = false ↔ backlog env.now s = 0 := by
  unfold pendingWork backlog
  rw [decide_eq_false_iff_not, not_or, not_or, Nat.pos_iff_ne_zero, Nat.pos_iff_ne_zero, Nat.pos_iff_ne_zero, not_not,
    not_not, not_not, SortedSet.card_eq_zero_iff, ← owing_eq_zero_iff, length_within_eq_zero, length_within_eq_zero,
    ← Finset.card_eq_zero, ← Finset.card_eq_zero]
  omega

/-- A store without a backlog is drained. -/
theorem EventInvariant.drained (h : EventInvariant p now s) (hzero : backlog now s = 0) : Drained now s := by
  have hretired : owing s = 0 := by
    unfold backlog at hzero
    omega
  have hdeadlines : late now s.deadlines = ∅ := by
    unfold backlog at hzero
    exact Finset.card_eq_zero.mp (by omega)
  have harchiveDeadlines : late now s.archiveDeadlines = ∅ := by
    unfold backlog at hzero
    exact Finset.card_eq_zero.mp (by omega)
  rw [owing_eq_zero_iff] at hretired
  have hremoved : ∀ generation, s.removed.lookup generation = none := fun generation =>
    Option.map_eq_none_iff.mp ((h.retired generation).symm.trans (hretired generation))
  refine ⟨hretired, hremoved, fun id r hr hactive time htime => ?_, fun id r hr _ time htime => ?_,
    fun id r generation recipient hr hactive hlookup hpending => ?_⟩
  · by_contra hle
    have hlate := h.mem_late_deadlines.mpr ⟨r, hr, hactive, time, htime, not_lt.mp hle⟩
    rw [hdeadlines] at hlate
    exact absurd hlate (Finset.notMem_empty id)
  · by_contra hle
    have hlate := h.mem_late_archiveDeadlines.mpr ⟨r, hr, time, htime, not_lt.mp hle⟩
    rw [harchiveDeadlines] at hlate
    exact absurd hlate (Finset.notMem_empty id)
  · rcases h.owed id r recipient.name generation hr ⟨hactive, recipient, hlookup, hpending, rfl⟩ with hname | hsome
    · exact hname
    · rw [hremoved] at hsome
      exact absurd hsome (by simp)

end

end EffectMQ.EventEngine
