import EffectMQ.EventEngine.Invariant

/-!
# Reads and maintenance

Under the invariant the script raises no error, and its reads and its maintenance only bring events to their eager
reading, whatever the batch size.
-/

namespace EffectMQ.EventEngine

open Redis

section

variable {env : EventEnv} {p : Policy} {now : ℕ} {id generation : String} {r r' : EventRecord} {s s' s'' : EventStore}
  {α β : Type}

/-! ### Scripts -/

theorem bind_ok {x : Script α} {f : α → Script β} {a : α} (h : x s = .ok a s') : (x >>= f) s = f a s' := by
  change EStateM.bind x f s = f a s'
  rw [EStateM.bind, h]

theorem get_ok (s : EventStore) : (get : Script EventStore) s = .ok s s := rfl

theorem EventInvariant.load (h : EventInvariant p now s) (id : String) : load id s = .ok (s.record id) s := by
  unfold EventEngine.load
  cases hr : s.record id with
  | none => rfl
  | some r =>
    have hsound := h.sound id r hr
    dsimp only
    rw [if_neg, if_neg]
    · rintro ⟨⟨generation, recipient⟩, hentry, hne⟩
      exact hne (hsound.generations generation recipient (AList.mem_lookup_iff.mpr hentry))
    · rintro (hversion | hid)
      · exact hversion hsound.version
      · exact hid hsound.id

/-- A read brings the event to its eager reading, and returns it. -/
theorem EventInvariant.current (h : EventInvariant env.policy env.now s) (id : String) :
    ∃ s', current env id s = .ok (s.reading env.policy env.now id) s' ∧ Sweeps env.policy env.now s s' ∧
      s'.removed = s.removed ∧ s'.record id = s.reading env.policy env.now id := by
  unfold EventEngine.current
  rw [bind_ok (h.load id)]
  cases hr : s.record id with
  | none =>
    have hread : s.reading env.policy env.now id = none := by rw [EventStore.reading, hr, Option.bind_none]
    exact ⟨s, by rw [hread]; rfl, .refl h, rfl, by rw [hr, hread]⟩
  | some r =>
    obtain ⟨hsweeps, hremoved, hrecord, hfst⟩ := h.normalize hr
    refine ⟨(EventEngine.normalize env r s).2, ?_, hsweeps, hremoved, hrecord⟩
    have hread : s.reading env.policy env.now id = resolve env.policy s.removed env.now r := by
      rw [EventStore.reading, hr, Option.bind_some]
    change (if (EventEngine.normalize env r s).2.record id = none then pure none
      else pure (some (EventEngine.normalize env r s).1) : Script (Option EventRecord)) (EventEngine.normalize env r s).2 = _
    rw [hrecord]
    cases hresolve : s.reading env.policy env.now id with
    | none => rfl
    | some r' =>
      obtain ⟨rfl, _⟩ := advance_eq_some.mp (hread.symm.trans hresolve)
      rw [hfst, if_neg (by simp)]
      rfl

/-! ### Maintenance -/

theorem remove_of_record_none (h : EventInvariant p now s) (hr : s.record id = none) :
    s.deadlines.remove id = s.deadlines ∧ s.archives.remove id = s.archives ∧
      s.archiveDeadlines.remove id = s.archiveDeadlines := by
  have hrecord : (s.event id).record = none := hr
  have hdeadline := (h.indexed id).deadline
  have harchive := (h.indexed id).archive
  have harchiveDeadline := (h.indexed id).archiveDeadline
  rw [hrecord, Option.bind_none] at hdeadline harchive harchiveDeadline
  exact ⟨SortedSet.remove_of_score_none hdeadline, SortedSet.remove_of_score_none harchive,
    SortedSet.remove_of_score_none harchiveDeadline⟩

/-- An event that is stored as it reads. -/
def CaughtUp (p : Policy) (now : ℕ) (id : String) (s : EventStore) : Prop := s.record id = s.reading p now id

theorem Sweeps.caughtUp (h : Sweeps p now s s') (hid : CaughtUp p now id s) : CaughtUp p now id s' := by
  rcases h.record id with hrecord | hrecord
  · exact hrecord.trans (hid.trans (h.reading id).symm)
  · exact hrecord.trans (h.reading id).symm

/-- Rounds over the events of a list: they sweep, forget no removal, and touch no other event. -/
structure Rounds (p : Policy) (now : ℕ) (ids : List String) (s s' : EventStore) : Prop where
  sweeps : Sweeps p now s s'
  removed : s'.removed = s.removed
  retired : s'.retired = s.retired
  others : ∀ id, id ∉ ids → s'.event id = s.event id

theorem Rounds.nil (h : EventInvariant p now s) : Rounds p now [] s s := ⟨.refl h, rfl, rfl, fun _ _ => rfl⟩

theorem Rounds.cons {ids : List String} (hsweeps : Sweeps p now s s') (htouches : Touches id s s')
    (hrounds : Rounds p now ids s' s'') : Rounds p now (id :: ids) s s'' where
  sweeps := hsweeps.trans hrounds.sweeps
  removed := hrounds.removed.trans htouches.removed
  retired := hrounds.retired.trans htouches.retired
  others other hother := by
    obtain ⟨hne, hrest⟩ := not_or.mp (mt List.mem_cons.mpr hother)
    exact (hrounds.others other hrest).trans (htouches.others other hne)

/-- A loop whose rounds all succeed. What a round establishes of its event, the later rounds keep. -/
theorem EventInvariant.rounds {P : String → EventStore → Prop}
    (hkeep : ∀ id s s', EventInvariant p now s → Sweeps p now s s' → P id s → P id s') {f : String → Script Unit}
    (ids : List String) (h : EventInvariant p now s)
    (hf : ∀ id ∈ ids, ∀ s', Sweeps p now s s' → s'.removed = s.removed →
      ∃ s'', f id s' = .ok () s'' ∧ Sweeps p now s' s'' ∧ Touches id s' s'' ∧ P id s'') :
    ∃ s', ids.forM f s = .ok () s' ∧ Rounds p now ids s s' ∧ ∀ id ∈ ids, P id s' := by
  induction ids generalizing s with
  | nil => exact ⟨s, rfl, .nil h, by simp⟩
  | cons id rest ih =>
    obtain ⟨s₁, hrun, hsweeps, htouches, hid⟩ := hf id List.mem_cons_self s (.refl h) rfl
    obtain ⟨s₂, hrest, hrounds, hids⟩ := ih hsweeps.invariant fun other hother s' hs' hremoved =>
      hf other (List.mem_cons_of_mem _ hother) s' (hsweeps.trans hs') (hremoved.trans htouches.removed)
    refine ⟨s₂, (bind_ok hrun).trans hrest, .cons hsweeps htouches hrounds, fun other hother => ?_⟩
    rcases List.mem_cons.mp hother with rfl | hmem
    · exact hkeep other s₁ s₂ hsweeps.invariant hrounds.sweeps hid
    · exact hids other hmem

theorem EventInvariant.expireDue (h : EventInvariant env.policy env.now s) (id : String) :
    ∃ s', EventEngine.expireDue env id s = .ok () s' ∧ Sweeps env.policy env.now s s' ∧ Touches id s s' ∧
      CaughtUp env.policy env.now id s' := by
  unfold EventEngine.expireDue
  rw [bind_ok (h.load id)]
  cases hr : s.record id with
  | none =>
    refine ⟨s, ?_, .refl h, .refl id s, by rw [CaughtUp, EventStore.reading, hr, Option.bind_none]⟩
    have hremove := (remove_of_record_none h hr).1
    change EStateM.Result.ok () { s with deadlines := s.deadlines.remove id } = _
    rw [hremove]
  | some r =>
    obtain ⟨hsweeps, _, hrecord, _⟩ := h.normalize hr
    exact ⟨_, rfl, hsweeps, h.touches_normalize hr, hrecord.trans (hsweeps.reading id).symm⟩

/-- An archived event whose retention has passed is purged. -/
theorem EventInvariant.purge (h : EventInvariant p now s) (hr : s.record id = some r) {time : ℕ}
    (htime : r.archiveUntil = some time) (hle : time ≤ now) : Sweeps p now s (purge r s) := by
  have hsound := h.sound id r hr
  obtain rfl := hsound.id
  have htouches := touches_purge r s
  have hevent := event_purge ((h.indexed r.id).addressed hr) (s.event r.id).delivery
  have hrecord : (EventEngine.purge r s).record r.id = none := congrArg EventView.record hevent
  have hsettled : r.status ≠ .active := fun hactive => by
    rw [(hsound.unsettled hactive).2] at htime
    exact absurd htime (by simp)
  have hread : s.reading p now r.id = none := by
    rw [EventStore.reading, hr, Option.bind_some, resolve, waiveActive_of_settled hsettled, advance,
      finish_of_settled hsettled, Option.filter_some, if_neg]
    intro hlasts
    exact absurd (((lasts_of_settled hsettled).mp hlasts).2 time htime) (not_lt.mpr hle)
  have hnone : ∀ r', (EventEngine.purge r s).record r.id ≠ some r' := fun r' hr' =>
    absurd (hrecord.symm.trans hr') (by simp)
  refine ⟨htouches.config, htouches.subscriptions, ?_, fun other => ?_, fun other => ?_, fun generation => ?_⟩
  · refine h.touch htouches (fun r' hr' => absurd hr' (hnone r')) ?_ (fun r' hr' => absurd hr' (hnone r'))
      fun r' _ _ hr' => absurd hr' (hnone r')
    rw [hevent]
    exact ⟨fun generation => by simp [filed], fun r' hr' => absurd hr' (by simp [filed]), rfl, rfl, rfl⟩
  · by_cases hid : other = r.id
    · rw [hid, hread, EventStore.reading, hrecord, Option.bind_none]
    · exact htouches.reading hid
  · by_cases hid : other = r.id
    · rw [hid, hrecord, hread]
      exact Or.inr rfl
    · exact Or.inl (congrArg EventView.record (htouches.others other hid))
  · exact Or.inl (by rw [htouches.removed])

/-- An event whose retention has passed. -/
def Lapsed (now : ℕ) (id : String) (s : EventStore) : Prop :=
  ∀ r, s.record id = some r → ∃ time ∈ r.archiveUntil, time ≤ now

theorem Lapsed.sweeps (h : Lapsed now id s) (hinvariant : EventInvariant p now s) (hsweeps : Sweeps p now s s') :
    Lapsed now id s' := by
  intro r hr
  rcases hsweeps.record id with hrecord | hrecord
  · exact h r (hrecord.symm.trans hr)
  · -- a lapsed event is read as gone
    obtain ⟨before, hbefore, hresolve⟩ := Option.bind_eq_some_iff.mp (hrecord.symm.trans hr)
    obtain ⟨time, htime, hle⟩ := h before hbefore
    have hsettled : before.status ≠ .active := fun hactive => by
      have hnone := ((hinvariant.sound id before hbefore).unsettled hactive).2
      exact absurd (hnone.symm.trans htime) (by simp)
    obtain ⟨rfl, hlasts⟩ := advance_eq_some.mp hresolve
    rw [waiveActive_of_settled hsettled, finish_of_settled hsettled] at hlasts
    exact absurd (((lasts_of_settled hsettled).mp hlasts).2 time htime) (not_lt.mpr hle)

theorem EventInvariant.lapsed (h : EventInvariant p now s) (hid : id ∈ s.archiveDeadlines.within fun score => score ≤ now) :
    Lapsed now id s := by
  intro r hr
  obtain ⟨score, hscore, hle⟩ := SortedSet.mem_within_iff.mp hid
  have harchiveDeadline := (h.indexed id).archiveDeadline
  rw [show (s.event id).archiveDeadline = some score from hscore, show (s.event id).record = some r from hr,
    Option.bind_some] at harchiveDeadline
  obtain ⟨time, htime, rfl⟩ := Option.map_eq_some_iff.mp harchiveDeadline.symm
  exact ⟨time, htime, Nat.cast_le.mp (of_decide_eq_true hle)⟩

theorem EventInvariant.purgeDue (h : EventInvariant p now s) (hlapsed : Lapsed now id s) :
    ∃ s', EventEngine.purgeDue id s = .ok () s' ∧ Sweeps p now s s' ∧ Touches id s s' ∧ CaughtUp p now id s' := by
  unfold EventEngine.purgeDue
  rw [bind_ok (h.load id)]
  cases hr : s.record id with
  | none =>
    refine ⟨s, ?_, .refl h, .refl id s, by rw [CaughtUp, EventStore.reading, hr, Option.bind_none]⟩
    obtain ⟨_, harchives, harchiveDeadlines⟩ := remove_of_record_none h hr
    change EStateM.Result.ok () { s with
      archiveDeadlines := s.archiveDeadlines.remove id, archives := s.archives.remove id } = _
    rw [harchives, harchiveDeadlines]
  | some r =>
    obtain ⟨time, htime, hle⟩ := hlapsed r hr
    have hsweeps := h.purge hr htime hle
    obtain rfl := (h.sound id r hr).id
    have hrecord : (EventEngine.purge r s).record r.id = none := Function.update_self _ _ _
    exact ⟨_, rfl, hsweeps, touches_purge r s, by rw [CaughtUp, EventStore.reading, hrecord, Option.bind_none]⟩

/-- A read event is in the delivery index of no removed generation. -/
theorem score_of_removed (h : EventInvariant p now s) {time : ℕ} (hremoved : s.removed.lookup generation = some time)
    (hrecord : s.record id = s.reading p now id) : (s.delivery generation).score id = none := by
  by_contra hne
  obtain ⟨r, hr, hawaits⟩ := ((h.indexed id).delivered generation).mp (Option.isSome_iff_ne_none.mpr hne)
  have hread : s.reading p now id = some r := hrecord.symm.trans hr
  obtain ⟨before, _, hresolve⟩ := Option.bind_eq_some_iff.mp hread
  exact not_awaits_of_resolve hresolve hremoved (h.removedAt generation time hremoved) hawaits

theorem withdraw_of_score_none (h : (s.delivery generation).score id = none) : withdraw generation id s = s := by
  unfold withdraw
  rw [SortedSet.remove_of_score_none h, Function.update_eq_self]

theorem EventInvariant.drainDelivery (h : EventInvariant env.policy env.now s) {time : ℕ}
    (hremoved : s.removed.lookup generation = some time) (id : String) :
    ∃ s', EventEngine.drainDelivery env generation id s = .ok () s' ∧ Sweeps env.policy env.now s s' ∧ Touches id s s' ∧
      (s'.delivery generation).score id = none := by
  unfold EventEngine.drainDelivery
  rw [bind_ok (h.load id)]
  cases hr : s.record id with
  | none =>
    have hread : s.reading env.policy env.now id = none := by rw [EventStore.reading, hr, Option.bind_none]
    have hscore := score_of_removed h hremoved (hr.trans hread.symm)
    refine ⟨s, ?_, .refl h, .refl id s, hscore⟩
    change EStateM.Result.ok () (withdraw generation id s) = _
    rw [withdraw_of_score_none hscore]
  | some r =>
    obtain ⟨hsweeps, hremoved', hrecord, _⟩ := h.normalize hr
    have hscore := score_of_removed hsweeps.invariant (hremoved' ▸ hremoved) (hrecord.trans (hsweeps.reading id).symm)
    refine ⟨_, ?_, hsweeps, h.touches_normalize hr, hscore⟩
    change EStateM.Result.ok () (withdraw generation id (EventEngine.normalize env r s).2) = _
    rw [withdraw_of_score_none hscore]

/-- A removed generation without deliveries is awaited by no event. -/
theorem EventInvariant.forgetDrained (h : EventInvariant p now s) (generation : String) :
    Sweeps p now s (forgetDrained generation s) ∧ ∀ other, other ≠ generation →
      (EventEngine.forgetDrained generation s).removed.lookup other = s.removed.lookup other := by
  unfold EventEngine.forgetDrained
  split
  · next hempty =>
    have hscore := SortedSet.card_eq_zero_iff.mp hempty
    have hnot : ∀ id r, s.record id = some r → ¬ r.Awaits generation := fun id r hr hawaits => by
      have hsome := ((h.indexed id).delivered generation).mpr ⟨r, hr, hawaits⟩
      rw [show (s.event id).delivery generation = none from hscore id] at hsome
      exact absurd hsome (by simp)
    refine ⟨⟨rfl, rfl, ?_, fun id => ?_, fun _ => Or.inl rfl, fun other => ?_⟩, fun other hne => ?_⟩
    · refine ⟨h.sound, h.indexed, h.live, fun other => ?_, fun other time htime => ?_, fun id r name other hr hexpects => ?_⟩
      · by_cases heq : other = generation
        · subst heq
          simp only [SortedSet.score_remove_self, AList.lookup_erase, Option.map_none]
        · simp only [SortedSet.score_remove_of_ne _ heq, AList.lookup_erase_ne heq]
          exact h.retired other
      · by_cases heq : other = generation
        · subst heq
          exact absurd htime (by simp)
        · exact h.removedAt other time ((AList.lookup_erase_ne heq).symm.trans htime)
      · have hne : other ≠ generation := by
          rintro rfl
          exact hnot id r hr hexpects.awaits
        simp only [AList.lookup_erase_ne hne]
        exact h.owed id r name other hr hexpects
    · unfold EventStore.reading
      dsimp only
      cases hr : s.record id with
      | none => rfl
      | some r => exact resolve_erase (hnot id r hr)
    · by_cases heq : other = generation
      · subst heq
        exact Or.inr (AList.lookup_erase _ _)
      · exact Or.inl (AList.lookup_erase_ne heq)
    · exact AList.lookup_erase_ne hne
  · exact ⟨.refl h, fun _ _ => rfl⟩

/-- A sweep puts no event into a delivery index. -/
theorem Sweeps.delivery (h : Sweeps p now s s') (hinvariant : EventInvariant p now s)
    (hscore : ((s'.delivery generation).score id).isSome) : ((s.delivery generation).score id).isSome := by
  obtain ⟨r', hr', hawaits⟩ := ((h.invariant.indexed id).delivered generation).mp hscore
  refine ((hinvariant.indexed id).delivered generation).mpr ?_
  rcases h.record id with hrecord | hrecord
  · exact ⟨r', hrecord.symm.trans hr', hawaits⟩
  · obtain ⟨r, hr, hresolve⟩ := Option.bind_eq_some_iff.mp (hrecord.symm.trans hr')
    exact ⟨r, hr, awaits_of_resolve hresolve hawaits⟩

/-- Something of a removed generation is done: it is forgotten, or one of its deliveries is. -/
def Worked (generation : String) (s s' : EventStore) : Prop :=
  s'.removed.lookup generation = none ∨
    ∃ id, ((s.delivery generation).score id).isSome ∧ (s'.delivery generation).score id = none

theorem Worked.sweeps (h : Worked generation s s') (hinvariant : EventInvariant p now s') (hsweeps : Sweeps p now s' s'') :
    Worked generation s s'' := by
  rcases h with hnone | ⟨id, hsome, hnone⟩
  · refine Or.inl ?_
    rcases hsweeps.removed generation with heq | heq
    · exact heq.trans hnone
    · exact heq
  · refine Or.inr ⟨id, hsome, ?_⟩
    by_contra hne
    have hbefore := hsweeps.delivery hinvariant (Option.isSome_iff_ne_none.mpr hne)
    rw [hnone] at hbefore
    exact absurd hbefore (by simp)

/-- The deliveries of a removed generation, or the generation itself when it has none. -/
theorem EventInvariant.drainGeneration (h : EventInvariant env.policy env.now s) {time : ℕ}
    (htime : s.removed.lookup generation = some time) {remaining : ℕ} (hpos : 0 < remaining) :
    ∃ s₁, ((s.delivery generation).members.take remaining).forM (EventEngine.drainDelivery env generation) s = .ok () s₁ ∧
      Rounds env.policy env.now ((s.delivery generation).members.take remaining) s s₁ ∧
      Worked generation s (EventEngine.forgetDrained generation s₁) := by
  obtain ⟨s₁, hloop, hrounds, hids⟩ := h.rounds
    (P := fun id s => (s.delivery generation).score id = none)
    (fun id s s' hinvariant hsweeps hnone => by
      by_contra hne
      have hbefore := hsweeps.delivery hinvariant (Option.isSome_iff_ne_none.mpr hne)
      rw [hnone] at hbefore
      exact absurd hbefore (by simp))
    (f := EventEngine.drainDelivery env generation) ((s.delivery generation).members.take remaining)
    fun id _ s' hsweeps hremoved => hsweeps.invariant.drainDelivery (hremoved ▸ htime) id
  refine ⟨s₁, hloop, hrounds, ?_⟩
  unfold EventEngine.forgetDrained
  cases hmembers : (s.delivery generation).members with
  | nil =>
    rw [hmembers, List.take_nil] at hloop
    have heq : s = s₁ := congrArg (fun result => match result with | .ok _ t => t | .error _ t => t) hloop
    have hempty : (s₁.delivery generation).card = 0 := by
      rw [← heq, SortedSet.card_eq_zero_iff]
      intro id
      by_contra hne
      have hmem := SortedSet.mem_members_iff.mpr (Option.isSome_iff_ne_none.mpr hne)
      rw [hmembers] at hmem
      exact absurd hmem List.not_mem_nil
    rw [if_pos hempty]
    exact Or.inl (AList.lookup_erase _ _)
  | cons id rest =>
    have hsome : ((s.delivery generation).score id).isSome :=
      SortedSet.mem_members_iff.mp (by rw [hmembers]; exact List.mem_cons_self)
    have hnone := hids id (by
      rw [hmembers, List.take_cons hpos]
      exact List.mem_cons_self)
    split
    · exact Or.inr ⟨id, hsome, hnone⟩
    · exact Or.inr ⟨id, hsome, hnone⟩

theorem event_forgetDrained (id : String) : (EventEngine.forgetDrained generation s).event id = s.event id := by
  unfold EventEngine.forgetDrained
  split <;> rfl

/-- The removed generations in turn: no more deliveries than the budget, and work on the first generation. -/
theorem EventInvariant.drainRetired {generations : List String} (h : EventInvariant env.policy env.now s)
    (remaining : ℕ) (hnodup : generations.Nodup)
    (hremoved : ∀ generation ∈ generations, (s.removed.lookup generation).isSome) :
    ∃ (handled : List String) (s' : EventStore), EventEngine.drainRetired env remaining generations s = .ok handled.length s' ∧
      handled.length ≤ remaining ∧ Sweeps env.policy env.now s s' ∧ (∀ id, id ∉ handled → s'.event id = s.event id) ∧
      ∀ generation ∈ generations.head?, 0 < remaining → Worked generation s s' := by
  induction generations generalizing s remaining with
  | nil => exact ⟨[], s, by rw [EventEngine.drainRetired]; rfl, Nat.zero_le _, .refl h, fun _ _ => rfl, by simp⟩
  | cons generation rest ih =>
    rw [EventEngine.drainRetired]
    split
    · next hzero =>
      exact ⟨[], s, rfl, Nat.zero_le _, .refl h, fun _ _ => rfl, fun _ _ hpos => absurd hzero hpos.ne'⟩
    · next hpos =>
      obtain ⟨time, htime⟩ := Option.isSome_iff_exists.mp (hremoved generation List.mem_cons_self)
      obtain ⟨hnot, hnodup⟩ := List.nodup_cons.mp hnodup
      rw [bind_ok (get_ok s)]
      obtain ⟨s₁, hloop, hrounds, hworked⟩ := h.drainGeneration htime (Nat.pos_of_ne_zero hpos)
      generalize hids : (s.delivery generation).members.take remaining = ids at hloop hrounds ⊢
      have hlength : ids.length ≤ remaining := by
        rw [← hids]
        exact List.length_take_le _ _
      obtain ⟨hsweeps₂, hothers⟩ := hrounds.sweeps.invariant.forgetDrained generation
      have hmodify : (modify (EventEngine.forgetDrained generation) : Script Unit) s₁ =
          .ok () (EventEngine.forgetDrained generation s₁) := rfl
      obtain ⟨handled, s₃, hrest, hle, hsweeps₃, hkept, _⟩ := ih hsweeps₂.invariant (remaining - max ids.length 1) hnodup
        fun other hother => by
          have hne : other ≠ generation := fun heq => hnot (heq ▸ hother)
          rw [hothers other hne, hrounds.removed]
          exact hremoved other (List.mem_cons_of_mem _ hother)
      refine ⟨ids ++ handled, s₃, ?_, ?_, (hrounds.sweeps.trans hsweeps₂).trans hsweeps₃, fun id hid => ?_, fun other hother _ => ?_⟩
      · rw [bind_ok hloop, bind_ok hmodify, bind_ok hrest, List.length_append]
        rfl
      · rw [List.length_append]
        omega
      · obtain ⟨hfirst, hlater⟩ := not_or.mp (mt List.mem_append.mpr hid)
        rw [hkept id hlater, event_forgetDrained, hrounds.others id hfirst]
      · obtain rfl : generation = other := Option.some.inj hother
        exact hworked.sweeps hsweeps₂.invariant hsweeps₃

/-- A maintenance, with the store after each phase and the events whose deliveries it handles. -/
structure Phases (env : EventEnv) (s s₁ s₂ s' : EventStore) (drained : List String) : Prop where
  expire : (dueIn env s.deadlines).forM (EventEngine.expireDue env) s = .ok () s₁
  expired : Rounds env.policy env.now (dueIn env s.deadlines) s s₁
  purge : (dueIn env s₁.archiveDeadlines).forM EventEngine.purgeDue s₁ = .ok () s₂
  purged : Rounds env.policy env.now (dueIn env s₁.archiveDeadlines) s₁ s₂
  drain : EventEngine.drainRetired env env.batch (s₂.retired.members.take env.batch) s₂ = .ok drained.length s'
  drained_length : drained.length ≤ env.batch
  drained_others : ∀ id, id ∉ drained → s'.event id = s₂.event id

/-- What a maintenance has brought to an end. -/
structure Progress (env : EventEnv) (s s₁ s' : EventStore) : Prop where
  first : Sweeps env.policy env.now s s₁
  rest : Sweeps env.policy env.now s₁ s'
  expired : ∀ id ∈ dueIn env s.deadlines, CaughtUp env.policy env.now id s'
  purged : ∀ id ∈ dueIn env s₁.archiveDeadlines, CaughtUp env.policy env.now id s'
  worked : ∀ generation ∈ s.retired.members.head?, Worked generation s s'

/-- Maintenance only sweeps, no more than a batch in each phase. -/
theorem EventInvariant.maintain (h : EventInvariant env.policy env.now s) :
    ∃ s₁ s₂ s' drained, Phases env s s₁ s₂ s' drained ∧ Progress env s s₁ s' ∧
      EventEngine.maintain env s = .ok ((dueIn env s.deadlines).length + (dueIn env s₁.archiveDeadlines).length +
        drained.length, pendingWork env s') s' := by
  have hkeep : ∀ id s s', EventInvariant env.policy env.now s → Sweeps env.policy env.now s s' →
      CaughtUp env.policy env.now id s → CaughtUp env.policy env.now id s' := fun _ _ _ _ hsweeps => hsweeps.caughtUp
  obtain ⟨s₁, hexpire, hrounds₁, hexpired⟩ := h.rounds hkeep (f := EventEngine.expireDue env) (dueIn env s.deadlines)
    fun id _ s' hsweeps _ => hsweeps.invariant.expireDue id
  have hinvariant₁ := hrounds₁.sweeps.invariant
  obtain ⟨s₂, hpurge, hrounds₂, hpurged⟩ := hinvariant₁.rounds hkeep (f := EventEngine.purgeDue)
    (dueIn env s₁.archiveDeadlines) fun id hid s' hsweeps _ => hsweeps.invariant.purgeDue
      ((hinvariant₁.lapsed (List.mem_of_mem_take hid)).sweeps hinvariant₁ hsweeps)
  have hinvariant₂ := hrounds₂.sweeps.invariant
  have hnodup : (s₂.retired.members.take env.batch).Nodup := s₂.retired.nodup.sublist (List.take_sublist _ _)
  obtain ⟨drained, s₃, hdrain, hle, hsweeps₃, hothers, hworked⟩ := hinvariant₂.drainRetired env.batch hnodup
    fun generation hmem => by
      have hscore := SortedSet.mem_members_iff.mp (List.mem_of_mem_take hmem)
      rw [hinvariant₂.retired, Option.isSome_map] at hscore
      exact hscore
  refine ⟨s₁, s₂, s₃, drained, ⟨hexpire, hrounds₁, hpurge, hrounds₂, hdrain, hle, hothers⟩,
    ⟨hrounds₁.sweeps, hrounds₂.sweeps.trans hsweeps₃, fun id hid => ?_, fun id hid => hsweeps₃.caughtUp (hpurged id hid),
      fun generation hhead => ?_⟩, ?_⟩
  · exact (hrounds₂.sweeps.trans hsweeps₃).caughtUp (hexpired id hid)
  · have hretired : s₂.retired = s.retired := hrounds₂.retired.trans hrounds₁.retired
    rw [hretired] at hworked
    have hfirst : generation ∈ (s.retired.members.take env.batch).head? := by
      rw [List.head?_take, if_neg env.batch_pos.ne']
      exact hhead
    rcases hworked generation hfirst env.batch_pos with hnone | ⟨id, hsome, hnone⟩
    · exact Or.inl hnone
    · exact Or.inr ⟨id, hrounds₁.sweeps.delivery h (hrounds₂.sweeps.delivery hinvariant₁ hsome), hnone⟩
  · unfold EventEngine.maintain
    rw [bind_ok (get_ok s), bind_ok hexpire, bind_ok (get_ok s₁), bind_ok hpurge, bind_ok (get_ok s₂), bind_ok hdrain,
      bind_ok (get_ok s₃)]
    rfl

theorem EventInvariant.maintain_sweeps (h : EventInvariant env.policy env.now s) :
    ∃ processed s', EventEngine.maintain env s = .ok (processed, pendingWork env s') s' ∧
      Sweeps env.policy env.now s s' := by
  obtain ⟨s₁, s₂, s', drained, _, hprogress, hmaintain⟩ := h.maintain
  exact ⟨_, s', hmaintain, hprogress.first.trans hprogress.rest⟩

theorem length_dueIn_le (index : SortedSet String) : (dueIn env index).length ≤ env.batch := List.length_take_le _ _

end

end EffectMQ.EventEngine
