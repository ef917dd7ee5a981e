import EffectMQ.EventEngine.Scenario

/-!
# The representation of an event queue

In every reachable state the indexes of a queue say of each event what its record says, and nothing of an event that
has no record. A pending recipient is therefore in the index from which it is taken until it is acknowledged, waived or
settled, whatever the order and the size of the sweeps.
-/

namespace EffectMQ.EventEngine

open Redis Transition

/-- What the indexes of a queue say of its records. -/
structure IndexesAgree (s : EventStore) : Prop where
  delivery : ∀ id generation, (∃ score, (s.delivery generation).score id = some score) ↔
    ∃ r recipient, s.record id = some r ∧ r.status = .active ∧ r.recipients.lookup generation = some recipient ∧
      recipient.status = .pending
  leased : ∀ id generation r recipient time, s.record id = some r → r.status = .active →
    r.recipients.lookup generation = some recipient → recipient.status = .pending → recipient.leaseUntil = some time →
    (s.delivery generation).score id = some (time : ℚ)
  deadline : ∀ id score, s.deadlines.score id = some score ↔
    ∃ r time, s.record id = some r ∧ r.status = .active ∧ r.expiresAt = some time ∧ score = time
  archived : ∀ id, (∃ score, s.archives.score id = some score) ↔ ∃ r, s.record id = some r ∧ r.status ≠ .active
  settledAt : ∀ id r, s.record id = some r → r.status ≠ .active →
    ∃ time, r.settledAt = some time ∧ s.archives.score id = some (time : ℚ)
  archiveDeadline : ∀ id score, s.archiveDeadlines.score id = some score ↔
    ∃ r time, s.record id = some r ∧ r.status ≠ .active ∧ r.archiveUntil = some time ∧ score = time
  owed : ∀ id generation r recipient, s.record id = some r → r.status = .active →
    r.recipients.lookup generation = some recipient → recipient.status = .pending →
    (∃ name, s.subscriptions.lookup name = some generation) ∨
      ∃ time, s.removed.lookup generation = some time ∧ s.retired.score generation = some (time : ℚ)
  deleted : ∀ p, s.config = some p → p.onCompletion = .delete → ∀ id r, s.record id = some r → r.status = .active
  absent : ∀ id, s.record id = none → (∀ generation, (s.delivery generation).score id = none) ∧
    s.deadlines.score id = none ∧ s.archives.score id = none ∧ s.archiveDeadlines.score id = none

theorem IndexesAgree.empty : IndexesAgree .empty where
  delivery _ _ := ⟨fun ⟨_, h⟩ => absurd h (by simp [EventStore.empty]), fun ⟨_, _, h, _⟩ => absurd h (by simp [EventStore.empty])⟩
  leased _ _ _ _ _ h := absurd h (by simp [EventStore.empty])
  deadline _ _ := ⟨fun h => absurd h (by simp [EventStore.empty]), fun ⟨_, _, h, _⟩ => absurd h (by simp [EventStore.empty])⟩
  archived _ := ⟨fun ⟨_, h⟩ => absurd h (by simp [EventStore.empty]), fun ⟨_, h, _⟩ => absurd h (by simp [EventStore.empty])⟩
  settledAt _ _ h := absurd h (by simp [EventStore.empty])
  archiveDeadline _ _ := ⟨fun h => absurd h (by simp [EventStore.empty]), fun ⟨_, _, h, _⟩ => absurd h (by simp [EventStore.empty])⟩
  owed _ _ _ _ h := absurd h (by simp [EventStore.empty])
  deleted _ h := absurd h (by simp [EventStore.empty])
  absent _ _ := ⟨fun _ => rfl, rfl, rfl, rfl⟩

section

variable {p : Policy} {now : ℕ} {s : EventStore}

/-- The time of a settled event is in its record and in the archive. -/
theorem EventInvariant.settledAt (h : EventInvariant p now s) {id : String} {r : EventRecord} (hr : s.record id = some r)
    (hsettled : r.status ≠ .active) : ∃ time, r.settledAt = some time ∧ s.archives.score id = some (time : ℚ) := by
  obtain ⟨_, time, htime, _⟩ := (h.sound id r hr).settled hsettled
  refine ⟨time, htime, ?_⟩
  have harchive : s.archives.score id = (s.record id).bind fun r => r.archivedAt.map Nat.cast := (h.indexed id).archive
  rw [harchive, hr, Option.bind_some, EventRecord.archivedAt, if_neg hsettled, htime]
  rfl

theorem EventInvariant.indexesAgree (h : EventInvariant p now s) (hconfig : s.config = some p) : IndexesAgree s where
  delivery id generation := by
    rw [← Option.isSome_iff_exists]
    refine ((h.indexed id).delivered generation).trans ?_
    constructor
    · rintro ⟨r, hr, hactive, recipient, hlookup, hpending⟩
      exact ⟨r, recipient, hr, hactive, hlookup, hpending⟩
    · rintro ⟨r, recipient, hr, hactive, hlookup, hpending⟩
      exact ⟨r, hr, hactive, recipient, hlookup, hpending⟩
  leased id generation r recipient time hr hactive hlookup hpending htime :=
    (h.indexed id).leased r hr generation recipient hactive hlookup hpending time htime
  deadline id score := by
    have hdeadline : s.deadlines.score id = (s.record id).bind fun r => r.deadline.map Nat.cast := (h.indexed id).deadline
    rw [hdeadline, Option.bind_eq_some_iff]
    refine exists_congr fun r => ?_
    simp only [EventRecord.deadline, Option.map_eq_some_iff]
    constructor
    · rintro ⟨hr, time, htime, rfl⟩
      split at htime
      · next hactive => exact ⟨time, hr, hactive, htime, rfl⟩
      · exact absurd htime (by simp)
    · rintro ⟨time, hr, hactive, htime, rfl⟩
      exact ⟨hr, time, by rw [if_pos hactive, htime], rfl⟩
  archived id := by
    have harchive : s.archives.score id = (s.record id).bind fun r => r.archivedAt.map Nat.cast := (h.indexed id).archive
    constructor
    · rintro ⟨score, hscore⟩
      rw [harchive] at hscore
      obtain ⟨r, hr, hscore⟩ := Option.bind_eq_some_iff.mp hscore
      refine ⟨r, hr, fun hactive => ?_⟩
      rw [EventRecord.archivedAt, if_pos hactive] at hscore
      exact absurd hscore (by simp)
    · rintro ⟨r, hr, hsettled⟩
      obtain ⟨time, _, hscore⟩ := h.settledAt hr hsettled
      exact ⟨time, hscore⟩
  settledAt id r hr hsettled := h.settledAt hr hsettled
  archiveDeadline id score := by
    have harchiveDeadline : s.archiveDeadlines.score id = (s.record id).bind fun r => r.archiveUntil.map Nat.cast :=
      (h.indexed id).archiveDeadline
    rw [harchiveDeadline, Option.bind_eq_some_iff]
    refine exists_congr fun r => ?_
    rw [Option.map_eq_some_iff]
    constructor
    · rintro ⟨hr, time, htime, rfl⟩
      refine ⟨time, hr, fun hactive => ?_, htime, rfl⟩
      exact absurd (((h.sound id r hr).unsettled hactive).2.symm.trans htime) (by simp)
    · rintro ⟨time, hr, _, htime, rfl⟩
      exact ⟨hr, time, htime, rfl⟩
  owed id generation r recipient hr hactive hlookup hpending := by
    refine (h.owed id r recipient.name generation hr ⟨hactive, recipient, hlookup, hpending, rfl⟩).imp (fun hname => ⟨_, hname⟩)
      fun hremoved => ?_
    obtain ⟨time, htime⟩ := Option.isSome_iff_exists.mp hremoved
    refine ⟨time, htime, ?_⟩
    rw [h.retired generation, htime]
    rfl
  deleted p' hp' hdelete id r hr := by
    obtain rfl := Option.some.inj (hconfig.symm.trans hp')
    by_contra hsettled
    exact absurd (hdelete.symm.trans ((h.sound id r hr).settled hsettled).1) (by simp)
  absent id hnone := by
    have hempty := (h.indexed id).eq_empty hnone
    exact ⟨fun generation => congrFun (congrArg EventView.delivery hempty) generation,
      congrArg EventView.deadline hempty, congrArg EventView.archive hempty, congrArg EventView.archiveDeadline hempty⟩

end

/-- In every state of an event queue the indexes agree with the records. -/
theorem run_eventIndexes {calls : List EventCall} {state : ℕ × EventStore} (h : events.Run calls state) :
    IndexesAgree state.2 := by
  have hkept := run_kept h
  unfold Kept at hkept
  cases hconfig : state.2.config with
  | none =>
    rw [hconfig] at hkept
    rw [show state.2 = .empty from hkept]
    exact .empty
  | some p =>
    rw [hconfig] at hkept
    exact EventInvariant.indexesAgree hkept hconfig

/-- An event is acknowledged by one recipient and waived for the other, and its archive is swept. -/
theorem run_eventIndexes_acknowledged : IndexesAgree (serve (0, .empty) acknowledgedOnce).2.2 :=
  run_eventIndexes (serve_run (by decide))

end EffectMQ.EventEngine
