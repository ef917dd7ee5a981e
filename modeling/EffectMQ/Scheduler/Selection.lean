import EffectMQ.Scheduler.Materialize

/-!
# Which ticks are selected

The due ticks lie between the cursor and the observed time, both included. Where the cursor is the only one it is
selected alone; otherwise the policy takes none of them, the last one, or so many of the newest.
-/

namespace EffectMQ

/-- So many of the newest members of a set of times, the oldest of them first. -/
structure Newest (n : ℕ) (S : Set ℤ) (l : List ℤ) : Prop where
  sorted : l.Pairwise (· < ·)
  mem : ∀ t ∈ l, t ∈ S
  length : l.length = min n S.ncard
  older : ∀ t ∈ S, t ∉ l → ∀ u ∈ l, t < u

namespace Newest

variable {n : ℕ} {S : Set ℤ} {p : ℤ} {l : List ℤ}

theorem zero (S : Set ℤ) : Newest 0 S [] :=
  ⟨.nil, by simp, by simp, by simp⟩

theorem empty (n : ℕ) : Newest n ∅ [] :=
  ⟨.nil, by simp, by simp, by simp⟩

/-- The last member goes to the end of the newest ones before it. -/
theorem snoc (h : Newest n (S \ {p}) l) (hp : IsGreatest S p) (hfinite : S.Finite) : Newest (n + 1) S (l ++ [p]) where
  sorted := by
    refine List.pairwise_append.mpr ⟨h.sorted, List.pairwise_singleton _ _, ?_⟩
    intro t ht u hu
    rw [List.mem_singleton.mp hu]
    obtain ⟨hmem, hne⟩ := h.mem t ht
    exact lt_of_le_of_ne (hp.2 hmem) hne
  mem := by
    intro t ht
    rcases List.mem_append.mp ht with ht | ht
    · exact (h.mem t ht).1
    · rw [List.mem_singleton.mp ht]
      exact hp.1
  length := by
    have hcard := Set.ncard_sdiff_singleton_add_one hp.1 hfinite
    rw [List.length_append, h.length, List.length_singleton]
    omega
  older := by
    intro t ht hnot u hu
    obtain ⟨hl, hne⟩ := not_or.mp fun hor => hnot (List.mem_append.mpr hor)
    have hne : t ≠ p := fun heq => hne (List.mem_singleton.mpr heq)
    rcases List.mem_append.mp hu with hu | hu
    · exact h.older t ⟨ht, hne⟩ hl u hu
    · rw [List.mem_singleton.mp hu]
      exact lt_of_le_of_ne (hp.2 ht) hne

end Newest

/-- The ticks from the cursor up to the observed time. -/
def dueTicks (tick : ℤ → Prop) (firstDue observedAt : ℤ) : Set ℤ := {t | tick t ∧ firstDue ≤ t ∧ t ≤ observedAt}

/-- What a policy is to select. -/
def MissedTickPolicy.Takes (due : Set ℤ) (ticks : List ℤ) : MissedTickPolicy → Prop
  | .skip => ticks = []
  | .coalesce => ∃ last, IsGreatest due last ∧ ticks = [last]
  | .backfill maxBackfill => Newest (natural maxBackfill) due ticks

/-- The selection: the cursor when it is the only due tick, otherwise what the policy takes. -/
def Selects (tick : ℤ → Prop) (missed : MissedTickPolicy) (firstDue observedAt : ℤ) (ticks : List ℤ) : Prop :=
  if dueTicks tick firstDue observedAt = {firstDue} then ticks = [firstDue]
  else missed.Takes (dueTicks tick firstDue observedAt) ticks

variable {cron : Cron} {tick : ℤ → Prop} {firstDue observedAt : ℤ}

/-- The ticks before a time, from the first missed one on. -/
def ticksBefore (tick : ℤ → Prop) (firstMissed cursor : ℤ) : Set ℤ := {t | tick t ∧ firstMissed ≤ t ∧ t < cursor}

theorem ticksBefore_finite (firstMissed cursor : ℤ) : (ticksBefore tick firstMissed cursor).Finite :=
  (Set.finite_Icc firstMissed cursor).subset fun _ ht => ⟨ht.2.1, ht.2.2.le⟩

/-- The ticks before a time without the last one are those before the last one. -/
theorem ticksBefore_diff {cursor last : ℤ} (hlast : IsGreatest (ticksBefore tick firstDue cursor) last) :
    ticksBefore tick firstDue cursor \ {last} = ticksBefore tick firstDue last := by
  ext t
  constructor
  · rintro ⟨ht, hne⟩
    exact ⟨ht.1, ht.2.1, lt_of_le_of_ne (hlast.2 ht) hne⟩
  · intro ht
    exact ⟨⟨ht.1, ht.2.1, ht.2.2.trans hlast.1.2.2⟩, ht.2.2.ne⟩

/-- The step before a cursor is the last tick of the backlog, unless there is none. -/
theorem Cron.Walks.prev_spec (hcron : cron.Walks tick) (firstMissed cursor : ℤ) :
    (cron.prev cursor < firstMissed ∧ ticksBefore tick firstMissed cursor = ∅) ∨
      (firstMissed ≤ cron.prev cursor ∧ IsGreatest (ticksBefore tick firstMissed cursor) (cron.prev cursor)) := by
  obtain ⟨⟨htick, hlt⟩, hgreatest⟩ := hcron.prev cursor
  by_cases hfirst : cron.prev cursor < firstMissed
  · refine Or.inl ⟨hfirst, Set.eq_empty_of_forall_notMem fun t ht => ?_⟩
    have hle := hgreatest ⟨ht.1, ht.2.2⟩
    exact absurd (ht.2.1.trans hle) (not_le.mpr hfirst)
  · exact Or.inr ⟨not_lt.mp hfirst, ⟨htick, not_lt.mp hfirst, hlt⟩, fun t ht => hgreatest ⟨ht.1, ht.2.2⟩⟩

theorem backfillFrom_newest (hcron : cron.Walks tick) (firstMissed : ℤ) (maximum : ℕ) (cursor : ℤ) :
    Newest maximum (ticksBefore tick firstMissed cursor) (backfillFrom cron firstMissed maximum cursor).reverse := by
  induction maximum generalizing cursor with
  | zero => exact .zero _
  | succ maximum ih =>
    unfold backfillFrom
    dsimp only
    obtain ⟨hlt, hempty⟩ | ⟨hle, hlast⟩ := hcron.prev_spec firstMissed cursor
    · rw [if_pos hlt, hempty]
      exact .empty _
    · rw [if_neg (not_lt.mpr hle), List.reverse_cons]
      refine Newest.snoc ?_ hlast (ticksBefore_finite firstMissed cursor)
      rw [ticksBefore_diff hlast]
      exact ih (cron.prev cursor)

/-- No tick lies between a time and the next tick. -/
theorem Cron.Walks.before_next (hcron : cron.Walks tick) (firstDue observedAt : ℤ) :
    ticksBefore tick firstDue (cron.next observedAt) = dueTicks tick firstDue observedAt := by
  obtain ⟨⟨_, hlt⟩, hleast⟩ := hcron.next observedAt
  ext t
  constructor
  · intro ht
    exact ⟨ht.1, ht.2.1, not_lt.mp fun hgt => absurd (hleast ⟨ht.1, hgt⟩) (not_le.mpr ht.2.2)⟩
  · intro ht
    exact ⟨ht.1, ht.2.1, ht.2.2.trans_lt hlt⟩

/-- The last due tick is the one before the next tick. -/
theorem Cron.Walks.last_due (hcron : cron.Walks tick) (hdue : (dueTicks tick firstDue observedAt).Nonempty) :
    IsGreatest (dueTicks tick firstDue observedAt) (cron.prev (cron.next observedAt)) := by
  have hbefore := hcron.before_next firstDue observedAt
  obtain ⟨_, hempty⟩ | ⟨_, hlast⟩ := hcron.prev_spec firstDue (cron.next observedAt)
  · rw [← hbefore, hempty] at hdue
    exact absurd hdue Set.not_nonempty_empty
  · rwa [hbefore] at hlast

/-- The backlog has more than the cursor when the tick after the cursor is due. -/
theorem Cron.Walks.dueTicks_eq_singleton_iff (hcron : cron.Walks tick) (htick : tick firstDue)
    (hdue : firstDue ≤ observedAt) :
    dueTicks tick firstDue observedAt = {firstDue} ↔ observedAt < cron.next firstDue := by
  obtain ⟨⟨hnext, hlt⟩, hleast⟩ := hcron.next firstDue
  constructor
  · intro heq
    by_contra hle
    have hmem : cron.next firstDue ∈ dueTicks tick firstDue observedAt := ⟨hnext, hlt.le, not_lt.mp hle⟩
    rw [heq] at hmem
    exact hlt.ne' hmem
  · intro hfuture
    refine Set.eq_singleton_iff_unique_mem.mpr ⟨⟨htick, le_rfl, hdue⟩, fun t ht => ?_⟩
    by_contra hne
    have hle := hleast ⟨ht.1, lt_of_le_of_ne ht.2.1 (Ne.symm hne)⟩
    exact absurd (hle.trans ht.2.2) (not_le.mpr hfuture)

theorem selectTicks_selects (hcron : cron.Walks tick) (htick : tick firstDue) (hdue : firstDue ≤ observedAt)
    (missed : MissedTickPolicy) :
    Selects tick missed firstDue observedAt (selectTicks cron missed firstDue observedAt) := by
  have hsingle := hcron.dueTicks_eq_singleton_iff htick hdue
  unfold Selects selectTicks
  dsimp only
  by_cases hfuture : observedAt < cron.next firstDue
  · rw [if_pos (hsingle.mpr hfuture), if_pos (not_le.mpr hfuture)]
  · rw [if_neg fun h => hfuture (hsingle.mp h), if_neg (not_not.mpr (not_lt.mp hfuture))]
    cases missed with
    | skip => rfl
    | coalesce => exact ⟨_, hcron.last_due ⟨firstDue, htick, le_rfl, hdue⟩, rfl⟩
    | backfill maxBackfill =>
      have hnewest := backfillFrom_newest hcron firstDue (natural maxBackfill) (cron.next observedAt)
      rwa [hcron.before_next firstDue observedAt] at hnewest

/-- A selected tick lies between the cursor and the observed time. -/
theorem mem_selectTicks (hcron : cron.Walks tick) {missed : MissedTickPolicy} {t : ℤ} (hdue : firstDue ≤ observedAt)
    (ht : t ∈ selectTicks cron missed firstDue observedAt) : firstDue ≤ t ∧ t ≤ observedAt := by
  unfold selectTicks at ht
  dsimp only at ht
  split at ht
  · rw [List.mem_singleton.mp ht]
    exact ⟨le_rfl, hdue⟩
  · next hbacklog =>
    have hfollowing := not_not.mp hbacklog
    obtain ⟨⟨hnext, hlt⟩, -⟩ := hcron.next firstDue
    cases missed with
    | skip => exact absurd ht (List.not_mem_nil)
    | coalesce =>
      rw [List.mem_singleton.mp ht]
      exact (hcron.last_due ⟨cron.next firstDue, hnext, hlt.le, hfollowing⟩).1.2
    | backfill maxBackfill =>
      have hmem := (backfillFrom_newest hcron firstDue (natural maxBackfill) (cron.next observedAt)).mem t ht
      rw [hcron.before_next firstDue observedAt] at hmem
      exact hmem.2

end EffectMQ
