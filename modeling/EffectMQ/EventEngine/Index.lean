import EffectMQ.EventEngine.Resolve

/-!
# The indexes of an event

Everything a queue keeps about one event: its record, and its scores in the indexes. The script reads and writes
records one at a time, so each of its functions is described by what it does to one event.
-/

namespace EffectMQ.EventEngine

open Redis

/-- An event in a store: its record and its scores in the delivery indexes and the others. -/
@[ext] structure EventView where
  record : Option EventRecord
  delivery : String → Option ℚ
  deadline : Option ℚ
  archive : Option ℚ
  archiveDeadline : Option ℚ

def EventStore.event (s : EventStore) (id : String) : EventView where
  record := s.record id
  delivery generation := (s.delivery generation).score id
  deadline := s.deadlines.score id
  archive := s.archives.score id
  archiveDeadline := s.archiveDeadlines.score id

instance (r : EventRecord) (generation : String) : Decidable (r.Awaits generation) :=
  decidable_of_iff (r.status = .active ∧ (r.recipients.lookup generation).any (fun recipient =>
    recipient.status = .pending) = true) (by simp [EventRecord.Awaits, Option.any_eq_true])

/-- The deadline that an event is indexed with. -/
def EventRecord.deadline (r : EventRecord) : Option ℕ := if r.status = .active then r.expiresAt else none

/-- The score of an event in the archive. -/
def EventRecord.archivedAt (r : EventRecord) : Option ℕ := if r.status = .active then none else r.settledAt

/-- An event that is indexed as its record says, given its delivery scores. -/
def filed (record : Option EventRecord) (delivery : String → Option ℚ) : EventView where
  record := record
  delivery generation := if ∃ r ∈ record, r.Awaits generation then delivery generation else none
  deadline := record.bind fun r => r.deadline.map Nat.cast
  archive := record.bind fun r => r.archivedAt.map Nat.cast
  archiveDeadline := record.bind fun r => r.archiveUntil.map Nat.cast

/-- The indexes of an event agree with its record. -/
structure Indexed (v : EventView) : Prop where
  delivered : ∀ generation, (v.delivery generation).isSome ↔ ∃ r ∈ v.record, r.Awaits generation
  leased : ∀ r ∈ v.record, ∀ generation recipient, r.status = .active →
    r.recipients.lookup generation = some recipient → recipient.status = .pending →
    ∀ time ∈ recipient.leaseUntil, v.delivery generation = some (time : ℚ)
  deadline : v.deadline = v.record.bind fun r => r.deadline.map Nat.cast
  archive : v.archive = v.record.bind fun r => r.archivedAt.map Nat.cast
  archiveDeadline : v.archiveDeadline = v.record.bind fun r => r.archiveUntil.map Nat.cast

/-- A record as the script stores it under a policy. -/
structure Sound (p : Policy) (id : String) (r : EventRecord) : Prop where
  version : r.version = 1
  id : r.id = id
  generations : ∀ generation recipient, r.recipients.lookup generation = some recipient →
    recipient.generation = generation
  unsettled : r.status = .active → r.settledAt = none ∧ r.archiveUntil = none
  settled : r.status ≠ .active → p.onCompletion = .archive ∧
    ∃ time, r.settledAt = some time ∧ r.archiveUntil = p.archiveRetentionMs.map (time + ·)

/-- A function that works on one event. -/
structure Touches (id : String) (s s' : EventStore) : Prop where
  config : s'.config = s.config
  subscriptions : s'.subscriptions = s.subscriptions
  removed : s'.removed = s.removed
  retired : s'.retired = s.retired
  others : ∀ other, other ≠ id → s'.event other = s.event other

theorem Touches.refl (id : String) (s : EventStore) : Touches id s s := ⟨rfl, rfl, rfl, rfl, fun _ _ => rfl⟩

theorem Touches.trans {id : String} {s s' s'' : EventStore} (h : Touches id s s') (h' : Touches id s' s'') :
    Touches id s s'' where
  config := h'.config.trans h.config
  subscriptions := h'.subscriptions.trans h.subscriptions
  removed := h'.removed.trans h.removed
  retired := h'.retired.trans h.retired
  others other hne := (h'.others other hne).trans (h.others other hne)

section

variable {env : EventEnv} {p : Policy} {removed : Hash ℕ} {now : ℕ} {id generation : String} {r r' : EventRecord}
  {s : EventStore} {v : EventView}

/-! ### The script's functions on one event -/

theorem score_undeliver (r : EventRecord) (q : String → Recipient → Bool) (s : EventStore) (generation id : String) :
    ((undeliver r q s).delivery generation).score id =
      if id = r.id ∧ ∃ recipient ∈ r.recipients.lookup generation, q generation recipient = true then none
      else (s.delivery generation).score id := by
  unfold undeliver
  dsimp only
  by_cases hq : ∃ recipient ∈ r.recipients.lookup generation, q generation recipient = true
  · rw [if_pos hq, SortedSet.score_remove]
    by_cases hid : id = r.id
    · rw [if_pos hid, if_pos ⟨hid, hq⟩]
    · rw [if_neg hid, if_neg fun h => hid h.1]
  · rw [if_neg hq, if_neg fun h => hq h.2]

theorem touches_undeliver (r : EventRecord) (q : String → Recipient → Bool) (s : EventStore) :
    Touches r.id s (undeliver r q s) := by
  refine ⟨rfl, rfl, rfl, rfl, fun other hne => ?_⟩
  ext1
  · rfl
  · funext generation
    exact (score_undeliver r q s generation other).trans (if_neg fun h => hne h.1)
  · rfl
  · rfl
  · rfl

theorem touches_save (r : EventRecord) (s : EventStore) : Touches r.id s (save r s) := by
  refine ⟨rfl, rfl, rfl, rfl, fun other hne => ?_⟩
  ext1
  · exact Function.update_of_ne hne _ _
  all_goals rfl

theorem event_save (r : EventRecord) (s : EventStore) : (save r s).event r.id = { s.event r.id with record := some r } := by
  ext1
  · exact Function.update_self _ _ _
  all_goals rfl

theorem touches_purge (r : EventRecord) (s : EventStore) : Touches r.id s (purge r s) := by
  refine ⟨rfl, rfl, rfl, rfl, fun other hne => ?_⟩
  have hundeliver := congrArg EventView.delivery ((touches_undeliver r (fun _ _ => true) s).others other hne)
  ext1
  · exact Function.update_of_ne hne _ _
  · exact hundeliver
  · exact SortedSet.score_remove_of_ne _ hne
  · exact SortedSet.score_remove_of_ne _ hne
  · exact SortedSet.score_remove_of_ne _ hne

/-- An event that is in no other delivery index than those of its recipients. -/
def Addressed (r : EventRecord) (v : EventView) : Prop :=
  ∀ generation, (v.delivery generation).isSome → (r.recipients.lookup generation).isSome

theorem Addressed.eq_none (h : Addressed r v) (hlookup : r.recipients.lookup generation = none) :
    v.delivery generation = none := by
  by_contra hne
  have hsome := h generation (Option.isSome_iff_ne_none.mpr hne)
  rw [hlookup] at hsome
  exact absurd hsome (by simp)

theorem event_undeliver (h : Addressed r (s.event r.id)) :
    (undeliver r (fun _ _ => true) s).event r.id = { s.event r.id with delivery := fun _ => none } := by
  ext1
  · rfl
  · funext generation
    refine (score_undeliver r (fun _ _ => true) s generation r.id).trans ?_
    cases hlookup : r.recipients.lookup generation with
    | some recipient => simp
    | none => exact (if_neg (by simp)).trans (h.eq_none hlookup)
  all_goals rfl

theorem event_purge (h : Addressed r (s.event r.id)) (delivery : String → Option ℚ) :
    (purge r s).event r.id = filed none delivery := by
  have hundeliver := congrArg EventView.delivery (event_undeliver h)
  ext1
  · exact Function.update_self _ _ _
  · refine hundeliver.trans (funext fun generation => ?_)
    simp [filed]
  all_goals exact SortedSet.score_remove_self _ _

theorem Indexed.addressed (h : Indexed v) (hr : v.record = some r) : Addressed r v := by
  intro generation hsome
  obtain ⟨r', hr', hawaits⟩ := (h.delivered generation).mp hsome
  obtain rfl := Option.some.inj (hr.symm.trans hr')
  obtain ⟨_, recipient, hlookup, _⟩ := hawaits
  rw [hlookup]
  rfl

/-- A settled record is indexed in the archive only. -/
theorem filed_of_settled (h : r.status ≠ .active) (delivery : String → Option ℚ) :
    filed (some r) delivery =
      ⟨some r, fun _ => none, none, r.settledAt.map Nat.cast, r.archiveUntil.map Nat.cast⟩ := by
  simp [filed, EventRecord.Awaits, EventRecord.deadline, EventRecord.archivedAt, h]

/-- The first half of a settlement: the record leaves the delivery indexes and the deadlines. -/
def unschedule (r : EventRecord) (s : EventStore) : EventStore :=
  { undeliver r (fun _ _ => true) s with deadlines := s.deadlines.remove r.id }

theorem event_unschedule (h : Addressed r (s.event r.id)) :
    (unschedule r s).event r.id = { s.event r.id with delivery := fun _ => none, deadline := none } := by
  have hundeliver := congrArg EventView.delivery (event_undeliver h)
  ext1
  · rfl
  · exact hundeliver
  · exact SortedSet.score_remove_self _ _
  all_goals rfl

theorem touches_unschedule (r : EventRecord) (s : EventStore) : Touches r.id s (unschedule r s) := by
  refine ⟨rfl, rfl, rfl, rfl, fun other hne => ?_⟩
  have hundeliver := congrArg EventView.delivery ((touches_undeliver r (fun _ _ => true) s).others other hne)
  ext1
  · rfl
  · exact hundeliver
  · exact SortedSet.score_remove_of_ne _ hne
  all_goals rfl

/-- The second half: an event that the policy retains is archived, and any other is purged. -/
def store (p : Policy) (now : ℕ) (settled : EventRecord) (time : ℕ) (s : EventStore) : EventStore :=
  if lasts p now settled then
    { save settled s with
      archives := s.archives.add settled.id time
      archiveDeadlines := match settled.archiveUntil with
        | some time => s.archiveDeadlines.add settled.id time
        | none => s.archiveDeadlines }
  else purge settled s

theorem settle_eq {status : EventStatus} (hstatus : status ≠ .active) (time : ℕ) (harchiveUntil : r.archiveUntil = none) :
    settle env r status time s = (settledRecord env.policy status time r,
      store env.policy env.now (settledRecord env.policy status time r) time (unschedule r s)) := by
  unfold settle store settledRecord lasts unschedule
  cases env.policy.onCompletion with
  | delete => simp [hstatus]
  | archive =>
    cases env.policy.archiveRetentionMs with
    | none => simp [hstatus, harchiveUntil]
    | some ms =>
      by_cases hle : time + ms ≤ env.now
      · simp [hstatus, hle]
      · simp [hstatus, hle]

theorem event_store {settled : EventRecord} {time : ℕ} (hsettled : settled.status ≠ .active)
    (htime : settled.settledAt = some time) {record : Option EventRecord}
    (hevent : s.event settled.id = ⟨record, fun _ => none, none, none, none⟩) (delivery : String → Option ℚ) :
    (store p now settled time s).event settled.id = filed ((some settled).filter (lasts p now)) delivery := by
  have hdelivery := congrArg EventView.delivery hevent
  have hdeadline := congrArg EventView.deadline hevent
  have harchiveDeadline := congrArg EventView.archiveDeadline hevent
  unfold store
  by_cases hlasts : lasts p now settled = true
  · rw [if_pos hlasts, Option.filter_some, if_pos hlasts, filed_of_settled hsettled, htime]
    ext1
    · exact Function.update_self _ _ _
    · exact hdelivery
    · exact hdeadline
    · exact SortedSet.score_add_self _ _ _
    · cases harchiveUntil : settled.archiveUntil with
      | none => simpa [EventStore.event] using harchiveDeadline
      | some time => simp [EventStore.event]
  · rw [if_neg hlasts, Option.filter_some, if_neg hlasts]
    refine event_purge (fun generation hsome => ?_) delivery
    rw [hevent] at hsome
    exact absurd hsome (by simp)

theorem touches_store (p : Policy) (now : ℕ) (settled : EventRecord) (time : ℕ) (s : EventStore) :
    Touches settled.id s (store p now settled time s) := by
  unfold store
  split
  · refine ⟨rfl, rfl, rfl, rfl, fun other hne => ?_⟩
    ext1
    · exact Function.update_of_ne hne _ _
    · rfl
    · rfl
    · exact SortedSet.score_add_of_ne _ _ hne
    · change (match settled.archiveUntil with
        | some time => s.archiveDeadlines.add settled.id time
        | none => s.archiveDeadlines).score other = s.archiveDeadlines.score other
      split
      · exact SortedSet.score_add_of_ne _ _ hne
      · rfl
  · exact touches_purge settled s

/-- Settling a record that is in no archive index yet. -/
theorem settle_spec (env : EventEnv) {status : EventStatus} (hstatus : status ≠ .active) (time : ℕ)
    (haddressed : Addressed r (s.event r.id)) (harchiveUntil : r.archiveUntil = none)
    (harchive : (s.event r.id).archive = none) (harchiveDeadline : (s.event r.id).archiveDeadline = none)
    (delivery : String → Option ℚ) :
    (settle env r status time s).1 = settledRecord env.policy status time r ∧
      (settle env r status time s).2.event r.id =
        filed ((some (settledRecord env.policy status time r)).filter (lasts env.policy env.now)) delivery ∧
      Touches r.id s (settle env r status time s).2 := by
  rw [settle_eq hstatus time harchiveUntil]
  have hevent : (unschedule r s).event (settledRecord env.policy status time r).id =
      ⟨s.record r.id, fun _ => none, none, none, none⟩ :=
    (event_unschedule haddressed).trans (EventView.ext rfl rfl rfl harchive harchiveDeadline)
  have htouches := touches_store env.policy env.now (settledRecord env.policy status time r) time (unschedule r s)
  exact ⟨rfl, event_store hstatus rfl hevent delivery, (touches_unschedule r s).trans htouches⟩

/-! ### Normalization -/

theorem Indexed.archive_of_active (h : Indexed v) (hr : v.record = some r) (hactive : r.status = .active) :
    v.archive = none := by
  rw [h.archive, hr]
  simp [EventRecord.archivedAt, hactive]

theorem Indexed.archiveDeadline_of_active (h : Indexed v) (hr : v.record = some r) (hnone : r.archiveUntil = none) :
    v.archiveDeadline = none := by
  rw [h.archiveDeadline, hr]
  simp [hnone]

/-- An indexed event is filed as its record says. -/
theorem Indexed.filed_eq (h : Indexed v) : filed v.record v.delivery = v := by
  ext1
  · rfl
  · funext generation
    simp only [filed]
    split
    · rfl
    · next hnot =>
      have hnone := mt (h.delivered generation).mp hnot
      exact (Option.not_isSome_iff_eq_none.mp hnone).symm
  · exact h.deadline.symm
  · exact h.archive.symm
  · exact h.archiveDeadline.symm

/-- The waivers that are due leave the delivery indexes. -/
theorem event_undeliver_waived (h : Indexed (s.event r.id)) (hr : s.record r.id = some r) :
    (undeliver r (fun generation recipient => (waivedAt s.removed r generation recipient).isSome) s).event r.id =
      { s.event r.id with
        delivery := fun generation =>
          if (waiveAll s.removed r).Awaits generation then (s.event r.id).delivery generation else none } := by
  ext1
  · rfl
  · funext generation
    refine (score_undeliver r _ s generation r.id).trans ?_
    dsimp only
    have hdelivered := h.delivered generation
    have hawaits : (waiveAll s.removed r).Awaits generation ↔ r.Awaits generation ∧
        ¬ ∃ recipient ∈ r.recipients.lookup generation, (waivedAt s.removed r generation recipient).isSome = true := by
      unfold EventRecord.Awaits
      rw [lookup_waiveAll]
      cases r.recipients.lookup generation with
      | none => simp
      | some recipient =>
        by_cases hwaived : (waivedAt s.removed r generation recipient).isSome = true
        · simp [hwaived, waive]
        · simp [hwaived, waiveAll]
    by_cases hwaived : ∃ recipient ∈ r.recipients.lookup generation,
        (waivedAt s.removed r generation recipient).isSome = true
    · rw [if_pos ⟨rfl, hwaived⟩, if_neg fun h => (hawaits.mp h).2 hwaived]
    · rw [if_neg fun h => hwaived h.2]
      by_cases hpending : r.Awaits generation
      · rw [if_pos (hawaits.mpr ⟨hpending, hwaived⟩)]
        rfl
      · rw [if_neg fun h => hpending (hawaits.mp h).1]
        refine Option.not_isSome_iff_eq_none.mp fun hsome => hpending ?_
        obtain ⟨r', hr', hawaits'⟩ := hdelivered.mp hsome
        obtain rfl := Option.some.inj (hr.symm.trans hr')
        exact hawaits'
  all_goals rfl

/-- Normalization brings a record to its eager reading, and files it. -/
theorem normalize_spec (hsound : Sound env.policy r.id r) (hindexed : Indexed (s.event r.id))
    (hr : s.record r.id = some r) :
    (normalize env r s).1 = finish env.policy env.now (waiveActive s.removed r) ∧
      (normalize env r s).2.event r.id = filed (resolve env.policy s.removed env.now r) (s.event r.id).delivery ∧
      Touches r.id s (normalize env r s).2 := by
  by_cases hactive : r.status = .active
  · obtain ⟨_, hnone⟩ := hsound.unsettled hactive
    have hcases := finish_cases env.policy env.now (r := waiveAll s.removed r) hactive
    obtain ⟨s', hs'⟩ : ∃ s', s' = undeliver r (fun generation recipient =>
      (waivedAt s.removed r generation recipient).isSome) s := ⟨_, rfl⟩
    have hundeliver := event_undeliver_waived hindexed hr
    have htouches := touches_undeliver r (fun generation recipient => (waivedAt s.removed r generation recipient).isSome) s
    rw [← hs'] at hundeliver htouches
    have hnormalize : normalize env r s =
        if (waiveAll s.removed r).pending = 0 then
          settle env (waiveAll s.removed r) .completed (waiveAll s.removed r).resolvedAt s'
        else
          match r.expiresAt with
          | some time =>
            if time ≤ env.now then settle env (waiveAll s.removed r) .expired time s'
            else if r.recipients.entries.any fun entry => (waivedAt s.removed r entry.1 entry.2).isSome
              then (waiveAll s.removed r, save (waiveAll s.removed r) s') else (waiveAll s.removed r, s')
          | none =>
            if r.recipients.entries.any fun entry => (waivedAt s.removed r entry.1 entry.2).isSome
              then (waiveAll s.removed r, save (waiveAll s.removed r) s') else (waiveAll s.removed r, s') := by
      rw [normalize, if_neg (not_not.mpr hactive), hs']
      rfl
    have haddressed : Addressed (waiveAll s.removed r) (s'.event (waiveAll s.removed r).id) := by
      rw [show (waiveAll s.removed r).id = r.id from rfl, hundeliver]
      intro generation hsome
      dsimp only at hsome
      split at hsome
      · next hawaits =>
        obtain ⟨_, recipient, hlookup, _⟩ := hawaits
        rw [hlookup]
        rfl
      · exact absurd hsome (by simp)
    have harchive : (s'.event r.id).archive = none := by
      rw [hundeliver]
      exact hindexed.archive_of_active hr hactive
    have harchiveDeadline : (s'.event r.id).archiveDeadline = none := by
      rw [hundeliver]
      exact hindexed.archiveDeadline_of_active hr hnone
    have hsettle := fun (status : EventStatus) (hstatus : status ≠ .active) (time : ℕ) =>
      settle_spec env hstatus time haddressed hnone harchive harchiveDeadline (s.event r.id).delivery
    rw [waiveActive_of_active hactive, resolve, waiveActive_of_active hactive, advance]
    rcases hcases with ⟨hzero, hfinish⟩ | ⟨hpos, time, htime, hle, hfinish⟩ | ⟨hpos, hlater, hfinish⟩
    · obtain ⟨hfst, hevent, htouches'⟩ := hsettle .completed (by simp) (waiveAll s.removed r).resolvedAt
      rw [hnormalize, if_pos hzero, hfinish]
      exact ⟨hfst, hevent, htouches.trans htouches'⟩
    · obtain ⟨hfst, hevent, htouches'⟩ := hsettle .expired (by simp) time
      have htime : r.expiresAt = some time := htime
      rw [hnormalize, if_neg (by omega), hfinish, htime]
      dsimp only
      rw [if_pos hle]
      exact ⟨hfst, hevent, htouches.trans htouches'⟩
    · -- the record stays active; it is written when something was waived
      have hawaits : (s'.event r.id).delivery = (filed (some (waiveAll s.removed r)) (s.event r.id).delivery).delivery := by
        rw [hundeliver]
        funext generation
        simp [filed]
      have hfiled : { s'.event r.id with record := some (waiveAll s.removed r) } =
          filed (some (waiveAll s.removed r)) (s.event r.id).delivery := by
        ext1
        · rfl
        · exact hawaits
        · rw [hundeliver]
          exact hindexed.deadline.trans (by rw [show (s.event r.id).record = some r from hr]; rfl)
        · rw [harchive]
          simp [filed, EventRecord.archivedAt, waiveAll, hactive]
        · rw [harchiveDeadline]
          simp [filed, waiveAll, hnone]
      have hresult : normalize env r s = (waiveAll s.removed r, save (waiveAll s.removed r) s') ∨
          Clean s.removed r ∧ normalize env r s = (waiveAll s.removed r, s') := by
        have hwritten : ∀ (b : Bool), b = (r.recipients.entries.any fun entry =>
            (waivedAt s.removed r entry.1 entry.2).isSome) →
            (if b then (waiveAll s.removed r, save (waiveAll s.removed r) s') else (waiveAll s.removed r, s')) =
              (waiveAll s.removed r, save (waiveAll s.removed r) s') ∨ Clean s.removed r ∧
            (if b then (waiveAll s.removed r, save (waiveAll s.removed r) s') else (waiveAll s.removed r, s')) =
              (waiveAll s.removed r, s') := by
          rintro b hb
          cases b with
          | true => exact Or.inl rfl
          | false =>
            refine Or.inr ⟨fun generation recipient hlookup => ?_, rfl⟩
            have hnone := List.any_eq_false.mp hb.symm ⟨generation, recipient⟩ (AList.mem_lookup_iff.mp hlookup)
            simpa using hnone
        rw [hnormalize, if_neg (by omega)]
        cases hexpires : r.expiresAt with
        | none => exact hwritten _ rfl
        | some time =>
          dsimp only
          rw [if_neg (not_le.mpr (hlater time hexpires))]
          exact hwritten _ rfl
      have hsome : (some (waiveAll s.removed r)).filter (lasts env.policy env.now) = some (waiveAll s.removed r) := by
        have hlasts : lasts env.policy env.now (waiveAll s.removed r) = true := lasts_of_active hactive
        rw [Option.filter_some, if_pos hlasts]
      rw [hfinish, hsome]
      rcases hresult with hresult | ⟨hclean, hresult⟩
      · rw [hresult]
        have hsaved := touches_save (waiveAll s.removed r) s'
        exact ⟨rfl, (event_save _ _).trans hfiled, htouches.trans hsaved⟩
      · rw [hresult]
        refine ⟨rfl, Eq.trans ?_ hfiled, htouches⟩
        rw [hclean.waiveAll, hundeliver]
        exact EventView.ext hr rfl rfl rfl rfl
  · obtain ⟨harchive, _⟩ := hsound.settled hactive
    rw [waiveActive_of_settled hactive, resolve, waiveActive_of_settled hactive, advance, finish_of_settled hactive,
      Option.filter_some, normalize, if_pos hactive]
    by_cases hgone : ∃ time ∈ r.archiveUntil, time ≤ env.now
    · rw [if_pos hgone, if_neg]
      · exact ⟨rfl, event_purge (hindexed.addressed hr) _, touches_purge r s⟩
      · intro hlasts
        obtain ⟨time, htime, hle⟩ := hgone
        exact absurd (((lasts_of_settled hactive).mp hlasts).2 time htime) (not_lt.mpr hle)
    · rw [if_neg hgone, if_pos]
      · refine ⟨rfl, ?_, .refl _ _⟩
        have hfiled := hindexed.filed_eq
        rw [show (s.event r.id).record = some r from hr] at hfiled
        exact hfiled.symm
      · refine (lasts_of_settled hactive).mpr ⟨harchive, fun time htime => ?_⟩
        by_contra hle
        exact hgone ⟨time, htime, not_lt.mp hle⟩

end

end EffectMQ.EventEngine
