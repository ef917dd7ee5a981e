import EffectMQ.EventEngine.Operations

/-!
# The recipients of an event

Only a pending recipient has a lease, and no lease outlasts its event. A recipient is settled once: from then on it
stays as it is, whatever happens to the event.
-/

namespace EffectMQ.EventEngine

open Redis

/-- The leases of a record. -/
structure Leased (r : EventRecord) : Prop where
  pending : ∀ generation recipient, r.recipients.lookup generation = some recipient → recipient.status ≠ .pending →
    recipient.leaseUntil = none
  capped : ∀ generation recipient, r.recipients.lookup generation = some recipient →
    ∀ time ∈ recipient.leaseUntil, ∀ deadline ∈ r.expiresAt, time ≤ deadline

/-- The recipients of a record at two instants: they are the same, and those that are settled stay. -/
def Evolves (r r' : EventRecord) : Prop :=
  ∀ generation, (r.recipients.lookup generation = none → r'.recipients.lookup generation = none) ∧
    ∀ recipient, r.recipients.lookup generation = some recipient → ∃ recipient',
      r'.recipients.lookup generation = some recipient' ∧ recipient'.name = recipient.name ∧
        (recipient.status ≠ .pending → recipient' = recipient)

section

variable {env : EventEnv} {p : Policy} {removed : Hash ℕ} {now : ℕ} {id generation : String} {r r' r'' : EventRecord}
  {recipient : Recipient}

theorem Evolves.refl (r : EventRecord) : Evolves r r := fun _ =>
  ⟨fun h => h, fun recipient h => ⟨recipient, h, rfl, fun _ => rfl⟩⟩

theorem Evolves.trans (h : Evolves r r') (h' : Evolves r' r'') : Evolves r r'' := by
  intro generation
  refine ⟨fun hnone => (h' generation).1 ((h generation).1 hnone), fun recipient hlookup => ?_⟩
  obtain ⟨recipient', hlookup', hname, hsettled⟩ := (h generation).2 recipient hlookup
  obtain ⟨recipient'', hlookup'', hname', hsettled'⟩ := (h' generation).2 recipient' hlookup'
  refine ⟨recipient'', hlookup'', hname'.trans hname, fun hstatus => ?_⟩
  obtain rfl := hsettled hstatus
  exact hsettled' hstatus

/-- Recipients that are changed one by one, those that are settled not at all. -/
theorem evolves_of_map {f : String → Recipient → Recipient}
    (hlookup : ∀ generation, r'.recipients.lookup generation = (r.recipients.lookup generation).map (f generation))
    (hname : ∀ generation recipient, (f generation recipient).name = recipient.name)
    (hsettled : ∀ generation recipient, r.recipients.lookup generation = some recipient → recipient.status ≠ .pending →
      f generation recipient = recipient) : Evolves r r' := by
  intro generation
  rw [hlookup]
  refine ⟨fun hnone => by rw [hnone]; rfl, fun recipient hrecipient => ?_⟩
  rw [hrecipient]
  exact ⟨f generation recipient, rfl, hname generation recipient, hsettled generation recipient hrecipient⟩

/-! ### The instants of an event -/

theorem lookup_settledRecord {status : EventStatus} {time : ℕ} :
    (settledRecord p status time r).recipients.lookup generation =
      (r.recipients.lookup generation).map fun recipient => { recipient with leaseUntil := none } :=
  Hash.lookup_mapValues _ _ _

theorem Leased.waiveAll (h : Leased r) : Leased (waiveAll removed r) where
  pending generation recipient hlookup hstatus := by
    rw [lookup_waiveAll] at hlookup
    obtain ⟨before, hbefore, rfl⟩ := Option.map_eq_some_iff.mp hlookup
    split
    · rfl
    · next hnot =>
      rw [if_neg hnot] at hstatus
      exact h.pending generation before hbefore hstatus
  capped generation recipient hlookup time htime := by
    rw [lookup_waiveAll] at hlookup
    obtain ⟨before, hbefore, rfl⟩ := Option.map_eq_some_iff.mp hlookup
    split at htime
    · exact absurd htime (by simp [waive])
    · exact h.capped generation before hbefore time htime

theorem evolves_waiveAll : Evolves r (waiveAll removed r) := by
  refine evolves_of_map (fun generation => lookup_waiveAll removed r generation) (fun generation recipient => ?_)
    fun generation recipient _ hstatus => ?_
  · split <;> rfl
  · rw [waivedAt_of_not_pending hstatus]
    rfl

theorem leased_settledRecord {status : EventStatus} {time : ℕ} : Leased (settledRecord p status time r) where
  pending generation recipient hlookup _ := by
    rw [lookup_settledRecord] at hlookup
    obtain ⟨_, _, rfl⟩ := Option.map_eq_some_iff.mp hlookup
    rfl
  capped generation recipient hlookup time htime := by
    rw [lookup_settledRecord] at hlookup
    obtain ⟨_, _, rfl⟩ := Option.map_eq_some_iff.mp hlookup
    exact absurd htime (by simp)

theorem Leased.evolves_settledRecord (h : Leased r) {status : EventStatus} {time : ℕ} :
    Evolves r (settledRecord p status time r) := by
  refine evolves_of_map (fun _ => lookup_settledRecord) (fun _ _ => rfl) fun generation recipient hlookup hstatus => ?_
  have hnone := h.pending generation recipient hlookup hstatus
  cases recipient
  simp only [Recipient.mk.injEq, true_and]
  exact hnone.symm

theorem Leased.finish (h : Leased r) : Leased (finish p now r) ∧ Evolves r (finish p now r) := by
  by_cases hactive : r.status = .active
  · rcases finish_cases p now hactive with ⟨_, hfinish⟩ | ⟨_, _, _, _, hfinish⟩ | ⟨_, _, hfinish⟩
    · rw [hfinish]
      exact ⟨leased_settledRecord, h.evolves_settledRecord⟩
    · rw [hfinish]
      exact ⟨leased_settledRecord, h.evolves_settledRecord⟩
    · rw [hfinish]
      exact ⟨h, .refl r⟩
  · rw [finish_of_settled hactive]
    exact ⟨h, .refl r⟩

theorem Leased.advance (h : Leased r) (hr' : advance p now r = some r') : Leased r' ∧ Evolves r r' := by
  obtain ⟨rfl, _⟩ := advance_eq_some.mp hr'
  exact h.finish

theorem Leased.resolve (h : Leased r) (hr' : resolve p removed now r = some r') : Leased r' ∧ Evolves r r' := by
  have hwaived : Leased (waiveActive removed r) ∧ Evolves r (waiveActive removed r) := by
    unfold waiveActive
    split
    · exact ⟨h.waiveAll, evolves_waiveAll⟩
    · exact ⟨h, .refl r⟩
  obtain ⟨hleased, hevolves⟩ := hwaived.1.advance hr'
  exact ⟨hleased, hwaived.2.trans hevolves⟩

/-- Before its deadline an event settles without a pending recipient, so no lease is lost. -/
theorem Leased.lookup_advance (h : Leased r) (hlater : r.status = .active → ∀ time ∈ r.expiresAt, now < time)
    (hr' : EventEngine.advance p now r = some r') (generation : String) :
    r'.recipients.lookup generation = r.recipients.lookup generation := by
  obtain ⟨rfl, _⟩ := advance_eq_some.mp hr'
  by_cases hactive : r.status = .active
  · rcases finish_cases p now hactive with ⟨hzero, hfinish⟩ | ⟨_, time, htime, hle, _⟩ | ⟨_, _, hfinish⟩
    · rw [hfinish, lookup_settledRecord]
      cases hlookup : r.recipients.lookup generation with
      | none => rfl
      | some recipient =>
        have hnone := h.pending generation recipient hlookup
          (EventRecord.pending_eq_zero_iff.mp hzero generation recipient hlookup)
        cases recipient
        simp only [Option.map_some, Option.some.injEq, Recipient.mk.injEq, true_and]
        exact hnone.symm
    · exact absurd (hlater hactive time htime) (not_lt.mpr hle)
    · rw [hfinish]
  · rw [finish_of_settled hactive]

/-- What a reading makes of one recipient: it carries out the waiver of a removed generation, or the end of a lease that
is over. -/
theorem Leased.lookup_resolve (h : Leased r) (hr' : EventEngine.resolve p removed now r = some r')
    (hlookup : r.recipients.lookup generation = some recipient) :
    r'.recipients.lookup generation = some recipient ∨
    (recipient.status = .pending ∧ (removed.lookup generation).isSome ∧
      r'.recipients.lookup generation = some (waive recipient)) ∨
    r.status = .active ∧ r'.status = .expired ∧ (∀ time ∈ recipient.leaseUntil, time ≤ now) ∧
      r'.recipients.lookup generation = some { recipient with leaseUntil := none } := by
  by_cases hactive : r.status = .active
  · obtain ⟨rfl, _⟩ := advance_eq_some.mp hr'
    rw [waiveActive_of_active hactive]
    have hwaived := lookup_waiveAll removed r generation
    rw [hlookup, Option.map_some] at hwaived
    have hcases : (EventEngine.finish p now (EventEngine.waiveAll removed r)).recipients.lookup generation =
          (EventEngine.waiveAll removed r).recipients.lookup generation ∨
        (EventEngine.finish p now (EventEngine.waiveAll removed r)).status = .expired ∧ (∃ time ∈ r.expiresAt, time ≤ now) ∧
          (EventEngine.finish p now (EventEngine.waiveAll removed r)).recipients.lookup generation =
            ((EventEngine.waiveAll removed r).recipients.lookup generation).map fun recipient =>
              { recipient with leaseUntil := none } := by
      rcases finish_cases p now (r := EventEngine.waiveAll removed r) hactive with
        ⟨hzero, hfinish⟩ | ⟨_, time, htime, hle, hfinish⟩ | ⟨_, _, hfinish⟩
      · refine Or.inl ?_
        rw [hfinish, lookup_settledRecord, hwaived, Option.map_some, Option.some.injEq]
        have hnone := h.waiveAll.pending generation _ hwaived
          (EventRecord.pending_eq_zero_iff.mp hzero generation _ hwaived)
        generalize (if (waivedAt removed r generation recipient).isSome = true then waive recipient else recipient) = result
          at hnone
        cases result
        simp only [Recipient.mk.injEq, true_and]
        exact hnone.symm
      · rw [hfinish]
        exact Or.inr ⟨rfl, ⟨time, htime, hle⟩, lookup_settledRecord⟩
      · rw [hfinish]
        exact Or.inl rfl
    cases hwaiver : waivedAt removed r generation recipient with
    | some time =>
      obtain ⟨hpending, hremoved, _⟩ := waivedAt_eq_some.mp hwaiver
      refine Or.inr (Or.inl ⟨hpending, by rw [hremoved]; rfl, ?_⟩)
      rw [hwaiver] at hwaived
      rcases hcases with heq | ⟨_, _, heq⟩
      · rw [heq, hwaived]
        rfl
      · rw [heq, hwaived]
        rfl
    | none =>
      rw [hwaiver] at hwaived
      rcases hcases with heq | ⟨hexpired, ⟨deadline, hdeadline, hle⟩, heq⟩
      · exact Or.inl (heq.trans hwaived)
      · refine Or.inr (Or.inr ⟨hactive, hexpired, fun time htime => ?_, ?_⟩)
        · exact (h.capped generation recipient hlookup time htime deadline hdeadline).trans hle
        · rw [heq, hwaived]
          rfl
  · rw [EventEngine.resolve, waiveActive_of_settled hactive] at hr'
    obtain ⟨rfl, _⟩ := advance_eq_some.mp hr'
    rw [finish_of_settled hactive]
    exact Or.inl hlookup

/-! ### The changes of a call -/

/-- A pending recipient is changed: its lease ends by the deadline, and there is none when the recipient is settled. -/
theorem Leased.setRecipient (h : Leased r) {f : Recipient → Recipient}
    (hpending : ∀ recipient, r.recipients.lookup generation = some recipient → recipient.status = .pending)
    (hname : ∀ recipient, (f recipient).name = recipient.name)
    (hidle : ∀ recipient, recipient.status = .pending → (f recipient).status = .pending ∨ (f recipient).leaseUntil = none)
    (hcapped : ∀ recipient, ∀ time ∈ (f recipient).leaseUntil, ∀ deadline ∈ r.expiresAt, time ≤ deadline) :
    Leased (r.setRecipient generation f) ∧ Evolves r (r.setRecipient generation f) := by
  refine ⟨⟨fun other recipient hlookup hstatus => ?_, fun other recipient hlookup time htime => ?_⟩, fun other => ?_⟩
  · by_cases heq : other = generation
    · subst heq
      rw [lookup_setRecipient_self] at hlookup
      obtain ⟨before, hbefore, rfl⟩ := Option.map_eq_some_iff.mp hlookup
      exact (hidle before (hpending before hbefore)).resolve_left hstatus
    · rw [lookup_setRecipient_of_ne heq] at hlookup
      exact h.pending other recipient hlookup hstatus
  · by_cases heq : other = generation
    · subst heq
      rw [lookup_setRecipient_self] at hlookup
      obtain ⟨before, _, rfl⟩ := Option.map_eq_some_iff.mp hlookup
      exact hcapped before time htime
    · rw [lookup_setRecipient_of_ne heq] at hlookup
      exact h.capped other recipient hlookup time htime
  · by_cases heq : other = generation
    · subst heq
      rw [lookup_setRecipient_self]
      refine ⟨fun hnone => by rw [hnone]; rfl, fun recipient hlookup => ?_⟩
      rw [hlookup]
      exact ⟨f recipient, rfl, hname recipient, fun hstatus => absurd (hpending recipient hlookup) hstatus⟩
    · rw [lookup_setRecipient_of_ne heq]
      exact Evolves.refl r other

theorem EventRecord.Awaits.pending (h : r.Awaits generation) (hlookup : r.recipients.lookup generation = some recipient) :
    recipient.status = .pending := by
  obtain ⟨_, recipient', hlookup', hpending⟩ := h
  obtain rfl := Option.some.inj (hlookup.symm.trans hlookup')
  exact hpending

theorem leaseEnd_le (env : EventEnv) (r : EventRecord) (leaseMs : ℕ) :
    ∀ deadline ∈ r.expiresAt, leaseEnd env r leaseMs ≤ deadline := by
  intro deadline hdeadline
  rw [leaseEnd, Option.mem_def.mp hdeadline]
  exact min_le_right _ _

theorem Leased.leased (h : Leased r) (hawaits : r.Awaits generation) (env : EventEnv) (token : String) (leaseMs : ℕ) :
    Leased (r.leased generation token (leaseEnd env r leaseMs)) ∧
      Evolves r (r.leased generation token (leaseEnd env r leaseMs)) := by
  refine h.setRecipient (fun _ => hawaits.pending) (fun _ => rfl) (fun _ => Or.inl) fun _ time htime deadline hdeadline => ?_
  obtain rfl := Option.some.inj htime
  exact leaseEnd_le env r leaseMs deadline hdeadline

theorem Leased.acknowledged (h : Leased r) (hawaits : r.Awaits generation) (now : ℕ) :
    Leased (r.acknowledged generation now) ∧ Evolves r (r.acknowledged generation now) := by
  obtain ⟨hleased, hevolves⟩ := h.setRecipient
    (f := fun recipient => { recipient with status := .acknowledged, leaseUntil := none }) (fun _ => hawaits.pending)
    (fun _ => rfl) (fun _ _ => Or.inr rfl) fun _ time htime => absurd htime (by simp)
  exact ⟨⟨hleased.pending, hleased.capped⟩, hevolves⟩

/-- What an owner leaves of its event. -/
theorem Leased.handled (h : Leased r) (hawaits : r.Awaits generation) {handling : Handling}
    (hr' : handled env generation handling r = some r') : Leased r' ∧ Evolves r r' := by
  cases handling with
  | acknowledge =>
    obtain ⟨hleased, hevolves⟩ := h.acknowledged hawaits env.now
    obtain ⟨hleased', hevolves'⟩ := hleased.advance hr'
    exact ⟨hleased', hevolves.trans hevolves'⟩
  | renew leaseMs =>
    obtain rfl := Option.some.inj hr'
    refine h.setRecipient (fun _ => hawaits.pending) (fun _ => rfl) (fun _ => Or.inl) fun _ time htime deadline hdeadline => ?_
    obtain rfl := Option.some.inj htime
    exact leaseEnd_le env r leaseMs deadline hdeadline
  | release delayMs =>
    obtain rfl := Option.some.inj hr'
    exact h.setRecipient (fun _ => hawaits.pending) (fun _ => rfl) (fun _ => Or.inl) fun _ time htime =>
      absurd htime (by simp)

theorem leased_newEvent {queue payload : String} {ttlMs : Option ℕ} {subscriptions : Hash String} :
    Leased (newEvent env id queue payload ttlMs subscriptions) where
  pending generation recipient hlookup _ := by rw [(lookup_recipientsOf.1 recipient hlookup).1]
  capped generation recipient hlookup time htime := by
    rw [(lookup_recipientsOf.1 recipient hlookup).1] at htime
    exact absurd htime (by simp)

theorem Leased.waiveAt (h : Leased r) (now : ℕ) (generation : String) :
    Leased (waiveAt now generation r) ∧ Evolves r (waiveAt now generation r) := by
  unfold EventEngine.waiveAt
  split
  · next hwaives =>
    have hawaits : r.Awaits generation := ⟨hwaives.1, hwaives.2.1⟩
    obtain ⟨hleased, hevolves⟩ := h.setRecipient (f := waive) (fun _ => hawaits.pending) (fun _ => rfl)
      (fun _ _ => Or.inr rfl) fun _ time htime => absurd htime (by simp [waive])
    exact ⟨⟨hleased.pending, hleased.capped⟩, hevolves⟩
  · exact ⟨h, .refl r⟩

/-! ### The other recipients -/

/-- An owner leaves the other recipients as they are. -/
theorem Leased.lookup_handled (h : Leased r) (hawaits : r.Awaits generation)
    (hlater : ∀ time ∈ r.expiresAt, env.now < time) {handling : Handling}
    (hr' : EventEngine.handled env generation handling r = some r') {other : String} (hne : other ≠ generation) :
    r'.recipients.lookup other = r.recipients.lookup other := by
  cases handling with
  | acknowledge =>
    have hleased := (h.acknowledged hawaits env.now).1
    rw [hleased.lookup_advance (fun _ => hlater) hr', lookup_acknowledged_of_ne hne]
  | renew leaseMs =>
    obtain rfl := Option.some.inj hr'
    exact lookup_setRecipient_of_ne hne _
  | release delayMs =>
    obtain rfl := Option.some.inj hr'
    exact lookup_setRecipient_of_ne hne _

/-- A removal leaves the other recipients as they are. -/
theorem Leased.lookup_waiveAt (h : Leased r) (hlater : r.status = .active → ∀ time ∈ r.expiresAt, now < time)
    (hr' : EventEngine.advance p now (EventEngine.waiveAt now generation r) = some r') {other : String}
    (hne : other ≠ generation) : r'.recipients.lookup other = r.recipients.lookup other := by
  have hlater' : (EventEngine.waiveAt now generation r).status = .active →
      ∀ time ∈ (EventEngine.waiveAt now generation r).expiresAt, now < time := by
    unfold EventEngine.waiveAt
    split <;> exact hlater
  rw [(h.waiveAt now generation).1.lookup_advance hlater' hr']
  unfold EventEngine.waiveAt
  split
  · exact Hash.lookup_modify_of_ne hne _ _
  · rfl

end

end EffectMQ.EventEngine
