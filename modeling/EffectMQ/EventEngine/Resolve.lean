import EffectMQ.EventEngine.Record

/-!
# What an instant does to an event

The eager reading of a record: at every instant an event whose obligations are all resolved completes, one that is
still pending at its deadline expires, and what has settled stays as long as the policy retains it. The script applies
the removals of subscriptions late; applying them to what it has stored gives the eager reading of the event.
-/

namespace EffectMQ.EventEngine

open Redis

/-- A settled event. -/
def settledRecord (p : Policy) (status : EventStatus) (time : ℕ) (r : EventRecord) : EventRecord :=
  { r with
    status := status
    settledAt := some time
    archiveUntil := match p.onCompletion with
      | .delete => r.archiveUntil
      | .archive => p.archiveRetentionMs.elim r.archiveUntil fun ms => some (time + ms)
    recipients := r.recipients.mapValues fun _ recipient => { recipient with leaseUntil := none } }

/-- Whether a record is there at an instant. -/
def lasts (p : Policy) (now : ℕ) (r : EventRecord) : Bool :=
  r.status = .active ∨ p.onCompletion = .archive ∧ r.archiveUntil.all (fun time => now < time) = true

/-- What an instant makes of a record. -/
def finish (p : Policy) (now : ℕ) (r : EventRecord) : EventRecord :=
  if r.status ≠ .active then r
  else if r.pending = 0 then settledRecord p .completed r.resolvedAt r
  else
    match r.expiresAt with
    | some time => if time ≤ now then settledRecord p .expired time r else r
    | none => r

/-- An event at an instant, if it is there. -/
def advance (p : Policy) (now : ℕ) (r : EventRecord) : Option EventRecord :=
  (some (finish p now r)).filter (lasts p now)

/-- The removals of subscriptions applied to a record. -/
def waiveAll (removed : Hash ℕ) (r : EventRecord) : EventRecord :=
  { r with
    recipients := r.recipients.mapValues fun generation recipient =>
      if (waivedAt removed r generation recipient).isSome then waive recipient else recipient
    resolvedAt := r.recipients.entries.foldl
      (fun resolvedAt entry => (waivedAt removed r entry.1 entry.2).elim resolvedAt (max resolvedAt)) r.resolvedAt }

/-- The removals that a record has coming: none once it has settled. -/
def waiveActive (removed : Hash ℕ) (r : EventRecord) : EventRecord :=
  if r.status = .active then waiveAll removed r else r

/-- The eager reading of a stored record. -/
def resolve (p : Policy) (removed : Hash ℕ) (now : ℕ) (r : EventRecord) : Option EventRecord :=
  advance p now (waiveActive removed r)

/-- The removal of a generation, eagerly: a pending recipient is waived if the deadline is still to come. -/
def waiveAt (now : ℕ) (generation : String) (r : EventRecord) : EventRecord :=
  if r.status = .active ∧ (∃ recipient ∈ r.recipients.lookup generation, recipient.status = .pending) ∧
      r.expiresAt.all (fun time => now < time) = true then
    { r with
      recipients := r.recipients.modify generation waive
      resolvedAt := max r.resolvedAt now }
  else r

section

variable {p : Policy} {removed removed' : Hash ℕ} {now now' : ℕ} {r r' : EventRecord} {generation : String}
  {recipient : Recipient}

/-! ### Pending recipients -/

/-- A generation that an event waits for. -/
def EventRecord.Awaits (r : EventRecord) (generation : String) : Prop :=
  r.status = .active ∧ ∃ recipient, r.recipients.lookup generation = some recipient ∧ recipient.status = .pending

/-- A subscription that an event waits for. -/
def EventRecord.Expects (r : EventRecord) (name generation : String) : Prop :=
  r.status = .active ∧ ∃ recipient, r.recipients.lookup generation = some recipient ∧ recipient.status = .pending ∧
    recipient.name = name

theorem EventRecord.Expects.awaits {name : String} (h : r.Expects name generation) : r.Awaits generation :=
  ⟨h.1, h.2.imp fun _ hrecipient => ⟨hrecipient.1, hrecipient.2.1⟩⟩

theorem EventRecord.pending_pos_iff :
    0 < r.pending ↔ ∃ generation recipient, r.recipients.lookup generation = some recipient ∧
      recipient.status = .pending := by
  rw [EventRecord.pending, List.length_pos_iff_exists_mem]
  constructor
  · rintro ⟨⟨generation, recipient⟩, hmem⟩
    obtain ⟨hentry, hstatus⟩ := List.mem_filter.mp hmem
    exact ⟨generation, recipient, AList.mem_lookup_iff.mpr hentry, of_decide_eq_true hstatus⟩
  · rintro ⟨generation, recipient, hlookup, hstatus⟩
    exact ⟨⟨generation, recipient⟩, List.mem_filter.mpr ⟨AList.mem_lookup_iff.mp hlookup, decide_eq_true hstatus⟩⟩

theorem EventRecord.pending_eq_zero_iff :
    r.pending = 0 ↔ ∀ generation recipient, r.recipients.lookup generation = some recipient →
      recipient.status ≠ .pending := by
  rw [← not_iff_not, ← ne_eq, ← Nat.pos_iff_ne_zero, EventRecord.pending_pos_iff]
  push Not
  rfl

/-! ### Waivers -/

theorem waivedAt_eq_some {time : ℕ} :
    waivedAt removed r generation recipient = some time ↔
      recipient.status = .pending ∧ removed.lookup generation = some time ∧
        ∀ deadline ∈ r.expiresAt, time < deadline := by
  unfold waivedAt
  split
  · next hpending =>
    rw [Option.filter_eq_some_iff]
    simp only [hpending, true_and, Option.all_eq_true, decide_eq_true_eq]
    rfl
  · next hnot => simp [hnot]

theorem waivedAt_of_not_pending (h : recipient.status ≠ .pending) :
    waivedAt removed r generation recipient = none := if_neg h

theorem waivedAt_of_not_removed (h : removed.lookup generation = none) :
    waivedAt removed r generation recipient = none := by
  rw [waivedAt, h, Option.filter_none, ite_self]

theorem lookup_waiveAll (removed : Hash ℕ) (r : EventRecord) (generation : String) :
    (waiveAll removed r).recipients.lookup generation = (r.recipients.lookup generation).map fun recipient =>
      if (waivedAt removed r generation recipient).isSome then waive recipient else recipient :=
  Hash.lookup_mapValues _ _ _

/-- A record whose recipients are not affected by any removal. -/
def Clean (removed : Hash ℕ) (r : EventRecord) : Prop :=
  ∀ generation recipient, r.recipients.lookup generation = some recipient →
    waivedAt removed r generation recipient = none

theorem foldl_waived_none {entries : List (Σ _ : String, Recipient)} {f : (Σ _ : String, Recipient) → Option ℕ}
    (h : ∀ entry ∈ entries, f entry = none) (time : ℕ) :
    entries.foldl (fun resolvedAt entry => (f entry).elim resolvedAt (max resolvedAt)) time = time := by
  induction entries generalizing time with
  | nil => rfl
  | cons entry rest ih =>
    rw [List.foldl_cons, h entry List.mem_cons_self, Option.elim_none]
    exact ih (fun entry hentry => h entry (List.mem_cons_of_mem _ hentry)) time

theorem Clean.waiveAll (h : Clean removed r) : waiveAll removed r = r := by
  have hrecipients : (r.recipients.mapValues fun generation recipient =>
      if (waivedAt removed r generation recipient).isSome then waive recipient else recipient) = r.recipients :=
    Hash.mapValues_eq_self fun generation recipient hlookup => by
      rw [h generation recipient hlookup]
      rfl
  rw [EventEngine.waiveAll, hrecipients,
    foldl_waived_none (f := fun entry => waivedAt removed r entry.1 entry.2) fun entry hentry =>
      h entry.1 entry.2 (AList.mem_lookup_iff.mpr hentry)]

/-- What is waived stays so, and nothing else is. -/
theorem clean_waiveAll : Clean removed (waiveAll removed r) := by
  intro generation recipient hlookup
  rw [lookup_waiveAll] at hlookup
  obtain ⟨before, hbefore, rfl⟩ := Option.map_eq_some_iff.mp hlookup
  cases hwaived : waivedAt removed r generation before with
  | some time => exact waivedAt_of_not_pending (by simp [waive])
  | none =>
    simp only [Option.isSome_none, Bool.false_eq_true, ↓reduceIte]
    exact hwaived

theorem waiveActive_of_active (h : r.status = .active) : waiveActive removed r = waiveAll removed r := if_pos h

theorem waiveActive_of_settled (h : r.status ≠ .active) : waiveActive removed r = r := if_neg h

theorem status_waiveActive : (waiveActive removed r).status = r.status := by
  unfold waiveActive
  split <;> rfl

theorem Clean.waiveActive (h : Clean removed r) : waiveActive removed r = r := by
  unfold EventEngine.waiveActive
  split
  · exact h.waiveAll
  · rfl

/-- Only the removals of pending recipients matter. -/
theorem waiveAll_congr (h : ∀ generation recipient, r.recipients.lookup generation = some recipient →
    recipient.status = .pending → removed'.lookup generation = removed.lookup generation) :
    waiveAll removed' r = waiveAll removed r := by
  have hwaived : ∀ generation recipient, r.recipients.lookup generation = some recipient →
      waivedAt removed' r generation recipient = waivedAt removed r generation recipient := by
    intro generation recipient hlookup
    unfold waivedAt
    split
    · next hpending => rw [h generation recipient hlookup hpending]
    · rfl
  unfold waiveAll
  congr 1
  · refine List.foldl_ext _ _ _ fun resolvedAt entry hentry => ?_
    rw [hwaived entry.1 entry.2 (AList.mem_lookup_iff.mpr hentry)]
  · refine Hash.mapValues_congr fun generation recipient hlookup => ?_
    rw [hwaived generation recipient hlookup]

/-! ### Instants -/

theorem finish_of_settled (h : r.status ≠ .active) : finish p now r = r := if_pos h

theorem lasts_of_active (h : r.status = .active) : lasts p now r = true := decide_eq_true (Or.inl h)

theorem lasts_of_settled (h : r.status ≠ .active) :
    lasts p now r = true ↔ p.onCompletion = .archive ∧ ∀ time ∈ r.archiveUntil, now < time := by
  simp [lasts, h, Option.all_eq_true]

/-- What an instant does to an active event. -/
theorem finish_cases (p : Policy) (now : ℕ) (hactive : r.status = .active) :
    r.pending = 0 ∧ finish p now r = settledRecord p .completed r.resolvedAt r ∨
    0 < r.pending ∧ (∃ time ∈ r.expiresAt, time ≤ now ∧ finish p now r = settledRecord p .expired time r) ∨
    0 < r.pending ∧ (∀ time ∈ r.expiresAt, now < time) ∧ finish p now r = r := by
  rw [finish, if_neg (not_not.mpr hactive)]
  by_cases hzero : r.pending = 0
  · exact Or.inl ⟨hzero, if_pos hzero⟩
  · rw [if_neg hzero]
    cases hexpires : r.expiresAt with
    | none => exact Or.inr (Or.inr ⟨Nat.pos_of_ne_zero hzero, by simp, rfl⟩)
    | some time =>
      by_cases hle : time ≤ now
      · exact Or.inr (Or.inl ⟨Nat.pos_of_ne_zero hzero, time, rfl, hle, if_pos hle⟩)
      · refine Or.inr (Or.inr ⟨Nat.pos_of_ne_zero hzero, fun time' htime' => ?_, if_neg hle⟩)
        obtain rfl := Option.some.inj htime'
        exact not_le.mp hle

theorem advance_eq_some : advance p now r = some r' ↔ r' = finish p now r ∧ lasts p now r' = true := by
  rw [advance, Option.filter_eq_some_iff, Option.some.injEq]
  constructor
  · rintro ⟨rfl, hlasts⟩
    exact ⟨rfl, hlasts⟩
  · rintro ⟨rfl, hlasts⟩
    exact ⟨rfl, hlasts⟩

/-- An event that is active at an instant was active before it, and nothing has happened to it. -/
theorem active_of_advance (h : advance p now r = some r') (hactive : r'.status = .active) :
    r' = r ∧ 0 < r.pending ∧ ∀ time ∈ r.expiresAt, now < time := by
  obtain ⟨rfl, _⟩ := advance_eq_some.mp h
  by_cases hr : r.status = .active
  · rcases finish_cases p now hr with ⟨_, hfinish⟩ | ⟨_, time, _, _, hfinish⟩ | ⟨hpos, hlater, hfinish⟩
    · rw [hfinish] at hactive
      exact absurd hactive (by simp [settledRecord])
    · rw [hfinish] at hactive
      exact absurd hactive (by simp [settledRecord])
    · exact ⟨hfinish, hpos, hlater⟩
  · rw [finish_of_settled hr] at hactive
    exact absurd hactive hr

theorem advance_of_active (hactive : r.status = .active) (hpos : 0 < r.pending)
    (hlater : ∀ time ∈ r.expiresAt, now < time) : advance p now r = some r := by
  refine advance_eq_some.mpr ⟨?_, lasts_of_active hactive⟩
  rcases finish_cases p now hactive with ⟨hzero, _⟩ | ⟨_, time, htime, hle, _⟩ | ⟨_, _, hfinish⟩
  · omega
  · exact absurd (hlater time htime) (not_lt.mpr hle)
  · exact hfinish.symm

/-- What settles at an instant has settled by every later one. -/
theorem finish_finish (hle : now ≤ now') : finish p now' (finish p now r) = finish p now' r := by
  by_cases hactive : r.status = .active
  · rcases finish_cases p now hactive with ⟨hzero, hfinish⟩ | ⟨hpos, time, htime, hexpired, hfinish⟩ |
      ⟨_, _, hfinish⟩
    · rw [hfinish, finish_of_settled (by simp [settledRecord]), finish, if_neg (not_not.mpr hactive), if_pos hzero]
    · rw [hfinish, finish_of_settled (by simp [settledRecord]), finish, if_neg (not_not.mpr hactive),
        if_neg (by omega), htime]
      exact (if_pos (hexpired.trans hle)).symm
    · rw [hfinish]
  · rw [finish_of_settled hactive]

theorem lasts_mono (hle : now ≤ now') (h : lasts p now' r = true) : lasts p now r = true := by
  by_cases hactive : r.status = .active
  · exact lasts_of_active hactive
  · rw [lasts_of_settled hactive] at h ⊢
    exact ⟨h.1, fun time htime => lt_of_le_of_lt hle (h.2 time htime)⟩

/-- Instants add up to the last of them. -/
theorem advance_advance (hle : now ≤ now') : (advance p now r).bind (advance p now') = advance p now' r := by
  by_cases hlasts : lasts p now (finish p now r) = true
  · rw [advance_eq_some.mpr ⟨rfl, hlasts⟩, Option.bind_some, advance, advance, finish_finish hle]
  · have hnone : advance p now r = none := by
      rw [advance, Option.filter_eq_none_iff]
      rintro _ hsome
      obtain rfl := Option.some.inj hsome
      exact hlasts
    rw [hnone, Option.bind_none, eq_comm, advance, Option.filter_eq_none_iff]
    rintro _ hsome hlasts'
    obtain rfl := Option.some.inj hsome
    -- a record that is gone at an instant had settled by then
    have hsettled : (finish p now r).status ≠ .active := fun hactive => hlasts (lasts_of_active hactive)
    rw [← finish_finish hle, finish_of_settled hsettled] at hlasts'
    exact hlasts (lasts_mono hle hlasts')

/-! ### The eager reading -/

theorem resolve_of_clean (h : Clean removed r) : resolve p removed now r = advance p now r := by
  rw [resolve, h.waiveActive]

/-- Reading a reading again gives the reading of the later instant. -/
theorem resolve_resolve (hle : now ≤ now') :
    (resolve p removed now r).bind (resolve p removed now') = resolve p removed now' r := by
  have hread : ∀ r' ∈ resolve p removed now r, resolve p removed now' r' = advance p now' r' := by
    intro r' hr'
    by_cases hactive : r'.status = .active
    · obtain ⟨rfl, _, _⟩ := active_of_advance hr' hactive
      rw [status_waiveActive] at hactive
      rw [waiveActive_of_active hactive]
      exact resolve_of_clean clean_waiveAll
    · rw [resolve, waiveActive_of_settled hactive]
  calc (resolve p removed now r).bind (resolve p removed now')
      = (resolve p removed now r).bind (advance p now') := by
        cases hr' : resolve p removed now r with
        | none => rfl
        | some r' => exact hread r' hr'
    _ = resolve p removed now' r := advance_advance hle

/-- Whatever is read as active is stored that way, after its waivers. -/
theorem active_of_resolve (h : resolve p removed now r = some r') (hactive : r'.status = .active) :
    r' = waiveAll removed r ∧ r.status = .active ∧ 0 < r'.pending ∧ ∀ time ∈ r'.expiresAt, now < time := by
  obtain ⟨rfl, hpos, hlater⟩ := active_of_advance h hactive
  rw [status_waiveActive] at hactive
  exact ⟨waiveActive_of_active hactive, hactive, hpos, hlater⟩

theorem clean_of_resolve (h : resolve p removed now r = some r') (hactive : r'.status = .active) : Clean removed r' := by
  obtain ⟨rfl, _⟩ := active_of_resolve h hactive
  exact clean_waiveAll

/-! ### A further removal -/

theorem foldl_waived_le {entries : List (Σ _ : String, Recipient)} {f : (Σ _ : String, Recipient) → Option ℕ}
    {time bound : ℕ} :
    entries.foldl (fun resolvedAt entry => (f entry).elim resolvedAt (max resolvedAt)) time ≤ bound ↔
      time ≤ bound ∧ ∀ entry ∈ entries, ∀ waived ∈ f entry, waived ≤ bound := by
  induction entries generalizing time with
  | nil => simp
  | cons entry rest ih =>
    rw [List.foldl_cons, ih, List.forall_mem_cons, ← and_assoc]
    refine and_congr_left fun _ => ?_
    cases f entry with
    | none => simp
    | some waived => simp

theorem waivedAt_insert_of_ne {time : ℕ} {other : String} (hne : other ≠ generation) :
    waivedAt (removed.insert generation time) r other recipient = waivedAt removed r other recipient := by
  rw [waivedAt, AList.lookup_insert_ne hne, waivedAt]

theorem waivedAt_insert_self (hpending : recipient.status = .pending)
    (hlater : ∀ time ∈ r.expiresAt, now < time) :
    waivedAt (removed.insert generation now) r generation recipient = some now :=
  waivedAt_eq_some.mpr ⟨hpending, AList.lookup_insert _, hlater⟩

/-- One more removal is one more waiver, unless it comes after the deadline. -/
theorem waiveAll_insert (hactive : r.status = .active) (hnew : removed.lookup generation = none) :
    waiveAll (removed.insert generation now) r = waiveAt now generation (waiveAll removed r) := by
  have hlookup : (waiveAll removed r).recipients.lookup generation = r.recipients.lookup generation := by
    rw [lookup_waiveAll]
    cases r.recipients.lookup generation with
    | none => rfl
    | some recipient =>
      rw [Option.map_some, waivedAt_of_not_removed hnew]
      rfl
  have hexpires : (waiveAll removed r).expiresAt = r.expiresAt := rfl
  unfold waiveAt
  rw [hlookup, hexpires]
  by_cases hwaives : (∃ recipient ∈ r.recipients.lookup generation, recipient.status = .pending) ∧
      ∀ time ∈ r.expiresAt, now < time
  · obtain ⟨⟨recipient, hrecipient, hpending⟩, hlater⟩ := hwaives
    rw [if_pos ⟨hactive, ⟨recipient, hrecipient, hpending⟩, by simpa [Option.all_eq_true] using hlater⟩]
    simp only [waiveAll, Hash.modify, Hash.mapValues_mapValues]
    congr 1
    · refine eq_of_forall_ge_iff fun bound => ?_
      rw [max_le_iff, foldl_waived_le (f := fun entry => waivedAt (removed.insert generation now) r entry.1 entry.2),
        foldl_waived_le (f := fun entry => waivedAt removed r entry.1 entry.2), and_assoc]
      refine and_congr_right fun _ => ?_
      constructor
      · intro h
        refine ⟨fun entry hentry waived hwaived => h entry hentry waived ?_, ?_⟩
        · rw [waivedAt_insert_of_ne]
          · exact hwaived
          · rintro heq
            rw [heq, waivedAt_of_not_removed hnew] at hwaived
            exact absurd hwaived (by simp)
        · exact h ⟨generation, recipient⟩ (AList.mem_lookup_iff.mp hrecipient) now (waivedAt_insert_self hpending hlater)
      · rintro ⟨h, hnow⟩ entry hentry waived hwaived
        by_cases heq : entry.1 = generation
        · rw [heq] at hwaived
          obtain ⟨_, hlookup', _⟩ := waivedAt_eq_some.mp hwaived
          rw [AList.lookup_insert] at hlookup'
          exact Option.some.inj hlookup' ▸ hnow
        · rw [waivedAt_insert_of_ne heq] at hwaived
          exact h entry hentry waived hwaived
    · refine Hash.mapValues_congr fun other recipient' hrecipient' => ?_
      by_cases heq : other = generation
      · subst heq
        obtain rfl := Option.some.inj (hrecipient'.symm.trans hrecipient)
        simp [waivedAt_insert_self hpending hlater, waivedAt_of_not_removed hnew]
      · rw [waivedAt_insert_of_ne heq, if_neg heq]
  · rw [if_neg]
    · unfold waiveAll
      have hsame : ∀ other recipient, r.recipients.lookup other = some recipient →
          waivedAt (removed.insert generation now) r other recipient = waivedAt removed r other recipient := by
        intro other recipient hrecipient
        by_cases heq : other = generation
        · subst heq
          rw [waivedAt_of_not_removed hnew, Option.eq_none_iff_forall_ne_some]
          intro time htime
          obtain ⟨hpending, hlookup', hlater⟩ := waivedAt_eq_some.mp htime
          rw [AList.lookup_insert, Option.some.injEq] at hlookup'
          subst hlookup'
          exact hwaives ⟨⟨recipient, hrecipient, hpending⟩, hlater⟩
        · exact waivedAt_insert_of_ne heq
      congr 1
      · refine List.foldl_ext _ _ _ fun resolvedAt entry hentry => ?_
        rw [hsame entry.1 entry.2 (AList.mem_lookup_iff.mpr hentry)]
      · refine Hash.mapValues_congr fun other recipient hrecipient => ?_
        rw [hsame other recipient hrecipient]
    · rintro ⟨_, hpending, hlater⟩
      exact hwaives ⟨hpending, by simpa [Option.all_eq_true] using hlater⟩

theorem waiveAt_of_settled (h : r.status ≠ .active) : waiveAt now generation r = r := if_neg fun hwaives => h hwaives.1

/-- A removal does not reach an event that has settled by then. -/
theorem advance_waiveAt_of_settled (h : ∀ r' ∈ advance p now r, r'.status ≠ .active) :
    ((advance p now r).bind fun r' => advance p now (waiveAt now generation r')) = advance p now r := by
  cases hadvance : advance p now r with
  | none => rfl
  | some r' =>
    have hagain := advance_advance (p := p) (r := r) (le_refl now)
    rw [hadvance, Option.bind_some] at hagain
    rw [Option.bind_some, waiveAt_of_settled (h r' hadvance), hagain]

/-- What the eager reading makes of a removal at the instant at which it happens. -/
theorem resolve_insert (hnew : removed.lookup generation = none) :
    resolve p (removed.insert generation now) now r =
      (resolve p removed now r).bind fun r' => advance p now (waiveAt now generation r') := by
  by_cases hactive : r.status = .active
  · rw [resolve, resolve, waiveActive_of_active hactive, waiveActive_of_active hactive, waiveAll_insert hactive hnew]
    generalize hr' : waiveAll removed r = r'
    have hactive' : r'.status = .active := hr' ▸ hactive
    rcases finish_cases p now hactive' with ⟨hzero, _⟩ | ⟨_, time, htime, hle, _⟩ |
      ⟨hpos, hlater, _⟩
    · -- nothing is pending, so the removal changes nothing
      have hsame : waiveAt now generation r' = r' := if_neg fun ⟨_, ⟨recipient, hrecipient, hpending⟩, _⟩ =>
        EventRecord.pending_eq_zero_iff.mp hzero generation recipient hrecipient hpending
      rw [hsame, advance_waiveAt_of_settled fun r'' hr'' h => ?_]
      obtain ⟨_, hpos, _⟩ := active_of_advance hr'' h
      omega
    · -- the deadline has passed, so the removal comes too late
      have hsame : waiveAt now generation r' = r' := if_neg fun ⟨_, _, hlater⟩ => by
        have hlt : now < time := by simpa [Option.mem_def.mp htime] using hlater
        omega
      rw [hsame, advance_waiveAt_of_settled fun r'' hr'' h => ?_]
      obtain ⟨_, _, hlater⟩ := active_of_advance hr'' h
      exact absurd (hlater time htime) (not_lt.mpr hle)
    · rw [advance_of_active hactive' hpos hlater, Option.bind_some]
  · rw [resolve, resolve, waiveActive_of_settled hactive, waiveActive_of_settled hactive,
      advance_waiveAt_of_settled fun r' hr' h => ?_]
    obtain ⟨rfl, _⟩ := advance_eq_some.mp hr'
    rw [finish_of_settled hactive] at h
    exact hactive h

/-- A removal that no pending recipient needs can be forgotten. -/
theorem resolve_erase (h : ¬ r.Awaits generation) :
    resolve p (removed.erase generation) now r = resolve p removed now r := by
  by_cases hactive : r.status = .active
  · rw [resolve, resolve, waiveActive_of_active hactive, waiveActive_of_active hactive]
    congr 1
    refine waiveAll_congr fun other recipient hlookup hpending => ?_
    have hne : other ≠ generation := by
      rintro rfl
      exact h ⟨hactive, recipient, hlookup, hpending⟩
    exact AList.lookup_erase_ne hne
  · rw [resolve, resolve, waiveActive_of_settled hactive, waiveActive_of_settled hactive]

end

end EffectMQ.EventEngine
