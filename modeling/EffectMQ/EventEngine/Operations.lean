import EffectMQ.EventEngine.Sweep

/-!
# What the operations do to the eager reading

Each operation sweeps, changes the reading of at most one event, and leaves every other reading as it is. What it
stores is what was there before, or the reading.
-/

namespace EffectMQ.EventEngine

open Redis

/-- A store after an operation, with the readings that it leaves. -/
structure Answered (p : Policy) (now : ℕ) (s s' : EventStore) (after : String → Option EventRecord) : Prop where
  invariant : EventInvariant p now s'
  config : s'.config = s.config
  subscriptions : s'.subscriptions = s.subscriptions
  reading : ∀ id, s'.reading p now id = after id
  record : ∀ id, s'.record id = s.record id ∨ s'.record id = after id
  removed : ∀ generation, s'.removed.lookup generation = s.removed.lookup generation ∨
    s'.removed.lookup generation = none

section

variable {env : EventEnv} {p : Policy} {now : ℕ} {id name generation token : String} {r r' : EventRecord}
  {recipient : Recipient} {s s' s'' : EventStore} {subscriptions : Hash String}

/-- A sweep, and then one event put in its place. -/
theorem Sweeps.put (h : Sweeps p now s s') (hinvariant : EventInvariant p now s'') (htouches : Touches id s' s'')
    (hfixed : (s''.record id).bind (resolve p s'.removed now) = s''.record id) :
    Answered p now s s'' (Function.update (s.reading p now) id (s''.record id)) where
  invariant := hinvariant
  config := htouches.config.trans h.config
  subscriptions := htouches.subscriptions.trans h.subscriptions
  removed generation := by
    rw [htouches.removed]
    exact h.removed generation
  reading other := by
    by_cases hid : other = id
    · subst hid
      rw [Function.update_self, EventStore.reading, htouches.removed, hfixed]
    · rw [Function.update_of_ne hid, htouches.reading hid, h.reading other]
  record other := by
    by_cases hid : other = id
    · subst hid
      rw [Function.update_self]
      exact Or.inr rfl
    · have hrecord : s''.record other = s'.record other := congrArg EventView.record (htouches.others other hid)
      rw [Function.update_of_ne hid, hrecord]
      exact h.record other

/-- Changing the score of one event in one delivery index. -/
theorem touches_delivery (generation id : String) {index : SortedSet String} (s : EventStore)
    (hindex : ∀ other, other ≠ id → index.score other = (s.delivery generation).score other) :
    Touches id s { s with delivery := Function.update s.delivery generation index } := by
  refine ⟨rfl, rfl, rfl, rfl, fun other hne => ?_⟩
  ext1
  · rfl
  · funext generation'
    by_cases heq : generation' = generation
    · subst heq
      simp only [EventStore.event, Function.update_self]
      exact hindex other hne
    · simp only [EventStore.event, Function.update_of_ne heq]
  all_goals rfl

theorem event_delivery (generation id : String) {index : SortedSet String} (s : EventStore) :
    EventStore.event { s with delivery := Function.update s.delivery generation index } id =
      { s.event id with delivery := Function.update (s.event id).delivery generation (index.score id) } := by
  ext1
  · rfl
  · funext generation'
    by_cases heq : generation' = generation
    · subst heq
      simp only [EventStore.event, Function.update_self]
    · simp only [EventStore.event, Function.update_of_ne heq]
  all_goals rfl

theorem touches_deliver (generation id : String) (time : ℕ) (s : EventStore) :
    Touches id s (deliver generation id time s) :=
  touches_delivery generation id s fun _ hne => SortedSet.score_add_of_ne _ _ hne

theorem event_deliver (generation id : String) (time : ℕ) (s : EventStore) :
    (deliver generation id time s).event id =
      { s.event id with delivery := Function.update (s.event id).delivery generation (some (time : ℚ)) } := by
  rw [deliver, event_delivery, SortedSet.score_add_self]

theorem touches_withdraw (generation id : String) (s : EventStore) : Touches id s (withdraw generation id s) :=
  touches_delivery generation id s fun _ hne => SortedSet.score_remove_of_ne _ hne

theorem event_withdraw (generation id : String) (s : EventStore) :
    (withdraw generation id s).event id =
      { s.event id with delivery := Function.update (s.event id).delivery generation none } := by
  rw [withdraw, event_delivery, SortedSet.score_remove_self]

/-! ### Changing a recipient -/

theorem lookup_setRecipient_self (f : Recipient → Recipient) :
    (r.setRecipient generation f).recipients.lookup generation = (r.recipients.lookup generation).map f :=
  Hash.lookup_modify_self _ _ _

theorem lookup_setRecipient_of_ne {other : String} (hne : other ≠ generation) (f : Recipient → Recipient) :
    (r.setRecipient generation f).recipients.lookup other = r.recipients.lookup other :=
  Hash.lookup_modify_of_ne hne _ _

theorem Sound.setRecipient (h : Sound p id r) {f : Recipient → Recipient}
    (hf : ∀ recipient, (f recipient).generation = recipient.generation) : Sound p id (r.setRecipient generation f) where
  version := h.version
  id := h.id
  generations other recipient hlookup := by
    by_cases heq : other = generation
    · subst heq
      rw [lookup_setRecipient_self] at hlookup
      obtain ⟨before, hbefore, rfl⟩ := Option.map_eq_some_iff.mp hlookup
      rw [hf]
      exact h.generations _ before hbefore
    · rw [lookup_setRecipient_of_ne heq] at hlookup
      exact h.generations other recipient hlookup
  unsettled := h.unsettled
  settled := h.settled

/-- A change of a lease leaves every generation as awaited as it was. -/
theorem awaits_setRecipient {f : Recipient → Recipient} (hf : ∀ recipient, (f recipient).status = recipient.status)
    (other : String) : (r.setRecipient generation f).Awaits other ↔ r.Awaits other := by
  unfold EventRecord.Awaits
  by_cases heq : other = generation
  · subst heq
    rw [lookup_setRecipient_self]
    cases r.recipients.lookup other with
    | none => simp
    | some recipient => simp [hf, EventRecord.setRecipient]
  · rw [lookup_setRecipient_of_ne heq]
    rfl

/-- A changed lease stays with its subscription. -/
theorem expects_setRecipient {f : Recipient → Recipient} {name other : String}
    (hf : ∀ recipient, (f recipient).status = recipient.status ∧ (f recipient).name = recipient.name)
    (h : (r.setRecipient generation f).Expects name other) : r.Expects name other := by
  obtain ⟨hactive, recipient, hlookup, hpending, hname⟩ := h
  by_cases heq : other = generation
  · subst heq
    rw [lookup_setRecipient_self] at hlookup
    obtain ⟨before, hbefore, rfl⟩ := Option.map_eq_some_iff.mp hlookup
    exact ⟨hactive, before, hbefore, (hf before).1.symm.trans hpending, (hf before).2.symm.trans hname⟩
  · rw [lookup_setRecipient_of_ne heq] at hlookup
    exact ⟨hactive, recipient, hlookup, hpending, hname⟩

theorem waivedAt_setRecipient {removed : Hash ℕ} {f : Recipient → Recipient} :
    waivedAt removed (r.setRecipient generation f) = waivedAt removed r := rfl

/-- A changed recipient that is pending was pending before. -/
theorem Clean.setRecipient {removed : Hash ℕ} (h : Clean removed r) {f : Recipient → Recipient}
    (hf : ∀ recipient, (f recipient).status = .pending → recipient.status = .pending) :
    Clean removed (r.setRecipient generation f) := by
  intro other recipient hlookup
  rw [waivedAt_setRecipient]
  by_cases heq : other = generation
  · subst heq
    rw [lookup_setRecipient_self] at hlookup
    obtain ⟨before, hbefore, rfl⟩ := Option.map_eq_some_iff.mp hlookup
    have hclean := h _ before hbefore
    by_cases hpending : (f before).status = .pending
    · unfold waivedAt at hclean ⊢
      rw [if_pos (hf before hpending)] at hclean
      rwa [if_pos hpending]
    · exact waivedAt_of_not_pending hpending
  · rw [lookup_setRecipient_of_ne heq] at hlookup
    exact h other recipient hlookup

theorem resolve_of_clean_active {removed : Hash ℕ} (hclean : Clean removed r) (hactive : r.status = .active)
    (hpos : 0 < r.pending) (hlater : ∀ time ∈ r.expiresAt, now < time) : resolve p removed now r = some r :=
  (resolve_of_clean hclean).trans (advance_of_active hactive hpos hlater)

/-- An event that is read and stored, and whose lease on one delivery changes. -/
theorem Sweeps.changeLease (h : Sweeps p now s s') (hread : s.reading p now id = some r) (hrecord : s'.record id = some r)
    (hawaits : r.Awaits generation) {f : Recipient → Recipient}
    (hf : ∀ recipient, (f recipient).status = recipient.status ∧ (f recipient).generation = recipient.generation ∧
      (f recipient).name = recipient.name)
    (time : ℕ) (htime : ∀ recipient, r.recipients.lookup generation = some recipient →
      ∀ until' ∈ (f recipient).leaseUntil, until' = time) :
    Answered p now s (save (r.setRecipient generation f) (deliver generation id time s'))
      (Function.update (s.reading p now) id (some (r.setRecipient generation f))) := by
  have hsound := h.invariant.sound id r hrecord
  obtain rfl := hsound.id
  obtain ⟨r₀, hr₀, hresolve⟩ := Option.bind_eq_some_iff.mp ((h.reading r.id).trans hread)
  obtain ⟨_, _, hpos, hlater⟩ := active_of_resolve hresolve hawaits.1
  have hclean : Clean s'.removed r := clean_of_resolve hresolve hawaits.1
  have hstatus : ∀ recipient, (f recipient).status = recipient.status := fun recipient => (hf recipient).1
  have hsame : ∀ other, (r.setRecipient generation f).Awaits other ↔ r.Awaits other := awaits_setRecipient hstatus
  obtain ⟨other, recipient, hlookup, hpending⟩ := EventRecord.pending_pos_iff.mp hpos
  have hpos' : 0 < (r.setRecipient generation f).pending := by
    obtain ⟨_, recipient', hlookup', hpending'⟩ := (hsame other).mpr ⟨hawaits.1, recipient, hlookup, hpending⟩
    exact EventRecord.pending_pos_iff.mpr ⟨other, recipient', hlookup', hpending'⟩
  have htouches : Touches r.id s' (save (r.setRecipient generation f) (deliver generation r.id time s')) :=
    (touches_deliver generation r.id time s').trans (touches_save (r.setRecipient generation f) _)
  have hevent : (save (r.setRecipient generation f) (deliver generation r.id time s')).event r.id =
      { s'.event r.id with
        record := some (r.setRecipient generation f)
        delivery := Function.update (s'.event r.id).delivery generation (some (time : ℚ)) } := by
    have hsave := event_save (r.setRecipient generation f) (deliver generation r.id time s')
    rw [show (r.setRecipient generation f).id = r.id from rfl, event_deliver] at hsave
    exact hsave
  have hrecord' := congrArg EventView.record hevent
  have hindexed := h.invariant.indexed r.id
  have hput := h.put ?_ htouches ?_
  · rw [show (save (r.setRecipient generation f) (deliver generation r.id time s')).record r.id = _ from hrecord'] at hput
    exact hput
  · refine h.invariant.touch htouches (fun r' hr' => ?_) ?_ (fun r' hr' _ => ?_) fun r' name other hr' hexpects => ?_
    · obtain rfl := Option.some.inj (hrecord'.symm.trans hr')
      exact hsound.setRecipient fun recipient => (hf recipient).2.1
    · rw [hevent]
      refine ⟨fun other => ?_, fun r' hr' other recipient hactive hlookup hpending until' huntil => ?_, ?_, ?_, ?_⟩
      · have hdelivered := hindexed.delivered other
        rw [show (s'.event r.id).record = some r from hrecord] at hdelivered
        simp only [Option.mem_def, Option.some.injEq, exists_eq_left', hsame] at hdelivered ⊢
        by_cases heq : other = generation
        · subst heq
          simpa using hawaits
        · rw [Function.update_of_ne heq]
          exact hdelivered
      · obtain rfl := Option.some.inj hr'
        by_cases heq : other = generation
        · subst heq
          rw [lookup_setRecipient_self] at hlookup
          obtain ⟨before, hbefore, rfl⟩ := Option.map_eq_some_iff.mp hlookup
          rw [htime before hbefore until' huntil]
          exact Function.update_self _ _ _
        · rw [lookup_setRecipient_of_ne heq] at hlookup
          dsimp only
          rw [Function.update_of_ne heq]
          exact hindexed.leased r hrecord other recipient hactive hlookup hpending until' huntil
      · have hdeadline := hindexed.deadline
        rw [show (s'.event r.id).record = some r from hrecord] at hdeadline
        exact hdeadline
      · have harchive := hindexed.archive
        rw [show (s'.event r.id).record = some r from hrecord] at harchive
        exact harchive
      · have harchiveDeadline := hindexed.archiveDeadline
        rw [show (s'.event r.id).record = some r from hrecord] at harchiveDeadline
        exact harchiveDeadline
    · obtain rfl := Option.some.inj (hrecord'.symm.trans hr')
      exact hpos'
    · obtain rfl := Option.some.inj (hrecord'.symm.trans hr')
      refine h.invariant.owed r.id r name other hrecord (expects_setRecipient (fun recipient => ?_) hexpects)
      exact ⟨(hf recipient).1, (hf recipient).2.2⟩
  · rw [show (save (r.setRecipient generation f) (deliver generation r.id time s')).record r.id = _ from hrecord']
    refine resolve_of_clean_active (hclean.setRecipient fun recipient hpending => ?_) hawaits.1 hpos' hlater
    rwa [← (hf recipient).1]

theorem lookup_acknowledged_of_ne {other : String} (hne : other ≠ generation) :
    (r.acknowledged generation now).recipients.lookup other = r.recipients.lookup other :=
  lookup_setRecipient_of_ne hne _

theorem not_awaits_acknowledged : ¬ (r.acknowledged generation now).Awaits generation := by
  rintro ⟨_, recipient, hlookup, hpending⟩
  have hlookup : (r.setRecipient generation fun recipient =>
    { recipient with status := .acknowledged, leaseUntil := none }).recipients.lookup generation = some recipient := hlookup
  rw [lookup_setRecipient_self] at hlookup
  obtain ⟨_, _, rfl⟩ := Option.map_eq_some_iff.mp hlookup
  exact absurd hpending (by simp)

theorem awaits_acknowledged_of_ne {other : String} (hne : other ≠ generation) :
    (r.acknowledged generation now).Awaits other ↔ r.Awaits other := by
  unfold EventRecord.Awaits
  rw [lookup_acknowledged_of_ne hne]
  rfl

theorem Clean.acknowledged {removed : Hash ℕ} (h : Clean removed r) : Clean removed (r.acknowledged generation now) :=
  h.setRecipient (f := fun recipient => { recipient with status := .acknowledged, leaseUntil := none }) fun _ hpending =>
    absurd hpending (by simp)

/-- An event that is read and stored, and one of whose deliveries is acknowledged. -/
theorem Sweeps.acknowledge (h : Sweeps env.policy env.now s s') (hread : s.reading env.policy env.now id = some r)
    (hrecord : s'.record id = some r) (hawaits : r.Awaits generation) :
    Answered env.policy env.now s
      (normalize env (r.acknowledged generation env.now)
        (save (r.acknowledged generation env.now) (withdraw generation id s'))).2
      (Function.update (s.reading env.policy env.now) id (advance env.policy env.now (r.acknowledged generation env.now))) := by
  have hsound := h.invariant.sound id r hrecord
  obtain rfl := hsound.id
  obtain ⟨r₀, hr₀, hresolve⟩ := Option.bind_eq_some_iff.mp ((h.reading r.id).trans hread)
  have hclean : Clean s'.removed r := clean_of_resolve hresolve hawaits.1
  have hindexed := h.invariant.indexed r.id
  have hstored : (s'.event r.id).record = some r := hrecord
  have hset : Sound env.policy r.id (r.setRecipient generation fun recipient =>
      { recipient with status := .acknowledged, leaseUntil := none }) := hsound.setRecipient fun _ => rfl
  have hsound' : Sound env.policy r.id (r.acknowledged generation env.now) := { hset with }
  have htouches : Touches r.id s' (save (r.acknowledged generation env.now) (withdraw generation r.id s')) :=
    (touches_withdraw generation r.id s').trans (touches_save (r.acknowledged generation env.now) _)
  have hevent : (save (r.acknowledged generation env.now) (withdraw generation r.id s')).event r.id =
      { s'.event r.id with
        record := some (r.acknowledged generation env.now)
        delivery := Function.update (s'.event r.id).delivery generation none } := by
    have hsave := event_save (r.acknowledged generation env.now) (withdraw generation r.id s')
    rw [show (r.acknowledged generation env.now).id = r.id from rfl, event_withdraw] at hsave
    exact hsave
  have hindexed' : Indexed ((save (r.acknowledged generation env.now) (withdraw generation r.id s')).event r.id) := by
    rw [hevent]
    refine ⟨fun other => ?_, fun r' hr' other recipient hactive hlookup hpending until' huntil => ?_, ?_, ?_, ?_⟩
    · have hdelivered := hindexed.delivered other
      rw [hstored] at hdelivered
      simp only [Option.mem_def, Option.some.injEq, exists_eq_left'] at hdelivered ⊢
      by_cases heq : other = generation
      · subst heq
        simpa using not_awaits_acknowledged
      · rw [Function.update_of_ne heq, awaits_acknowledged_of_ne heq]
        exact hdelivered
    · obtain rfl := Option.some.inj hr'
      have hne : other ≠ generation := by
        rintro rfl
        exact not_awaits_acknowledged ⟨hactive, recipient, hlookup, hpending⟩
      rw [lookup_acknowledged_of_ne hne] at hlookup
      dsimp only
      rw [Function.update_of_ne hne]
      exact hindexed.leased r hstored other recipient hactive hlookup hpending until' huntil
    · exact hindexed.deadline.trans (by rw [hstored]; rfl)
    · exact hindexed.archive.trans (by rw [hstored]; rfl)
    · exact hindexed.archiveDeadline.trans (by rw [hstored]; rfl)
  have howed : ∀ name other, (r.acknowledged generation env.now).Expects name other →
      s'.subscriptions.lookup name = some other ∨ (s'.removed.lookup other).isSome := by
    intro name other hexpects
    have hne : other ≠ generation := by
      rintro rfl
      exact not_awaits_acknowledged hexpects.awaits
    unfold EventRecord.Expects at hexpects
    rw [lookup_acknowledged_of_ne hne] at hexpects
    exact h.invariant.owed r.id r name other hrecord hexpects
  obtain ⟨hinvariant, htouches', hrecord', _⟩ :=
    h.invariant.normalize_put htouches (congrArg EventView.record hevent) hsound' hindexed' howed
  have hclean' : resolve env.policy s'.removed env.now (r.acknowledged generation env.now) =
      advance env.policy env.now (r.acknowledged generation env.now) := resolve_of_clean hclean.acknowledged
  rw [hclean'] at hrecord'
  have hfixed : (advance env.policy env.now (r.acknowledged generation env.now)).bind
      (resolve env.policy s'.removed env.now) = advance env.policy env.now (r.acknowledged generation env.now) := by
    rw [← hclean']
    exact resolve_resolve (le_refl _)
  rw [← hrecord'] at hfixed ⊢
  exact h.put hinvariant htouches' hfixed

/-! ### Taking -/

/-- A pending delivery is indexed with the end of its lease, before and after a sweep. -/
theorem leased_of_reading (h : EventInvariant p now s) (hread : s.reading p now id = some r)
    (hactive : r.status = .active) (hlookup : r.recipients.lookup generation = some recipient)
    (hpending : recipient.status = .pending) {time : ℕ} (htime : recipient.leaseUntil = some time) :
    (s.delivery generation).score id = some (time : ℚ) := by
  obtain ⟨r₀, hr₀, hresolve⟩ := Option.bind_eq_some_iff.mp hread
  obtain ⟨rfl, hactive₀, _⟩ := active_of_resolve hresolve hactive
  exact (h.indexed id).leased r₀ hr₀ generation recipient hactive₀ (lookup_of_waiveAll hlookup hpending) hpending time htime

/-- The outcome of a take: nothing, or one pending delivery whose lease, if it had one, has ended. -/
structure Takes (env : EventEnv) (generation : String) (s : EventStore) (id : String)
    (r : EventRecord) : Prop where
  read : s.reading env.policy env.now id = some r
  awaits : r.Awaits generation
  due : ∃ score ∈ (s.delivery generation).score id, score ≤ env.now

theorem takeFrom_spec {leaseMs : ℕ} {ids : List String} (h : Sweeps env.policy env.now s s')
    (hids : ∀ id ∈ ids, ∃ score ∈ (s.delivery generation).score id, score ≤ env.now) :
    (∃ s'', takeFrom env generation token leaseMs ids s' = .ok (.delivery none) s'' ∧ Sweeps env.policy env.now s s'') ∨
    ∃ id r s'', Takes env generation s id r ∧
      takeFrom env generation token leaseMs ids s' =
        .ok (.delivery (some (r.leased generation token (leaseEnd env r leaseMs), token))) s'' ∧
      Answered env.policy env.now s s''
        (Function.update (s.reading env.policy env.now) id (some (r.leased generation token (leaseEnd env r leaseMs)))) := by
  induction ids generalizing s' with
  | nil => exact Or.inl ⟨s', rfl, h⟩
  | cons id rest ih =>
    obtain ⟨s₁, hcurrent, hsweeps, hremoved, hrecord⟩ := h.invariant.current id
    have hsweeps₁ := h.trans hsweeps
    rw [h.reading id] at hcurrent hrecord
    have hrest := fun other hother => hids other (List.mem_cons_of_mem id hother)
    have hskip : (s₁.delivery generation).score id = none →
        takeFrom env generation token leaseMs rest s₁ =
          (modify (withdraw generation id) >>= fun _ => takeFrom env generation token leaseMs rest : Script EventReply) s₁ := by
      intro hscore
      have hmodify : (modify (withdraw generation id) : Script Unit) s₁ = .ok () (withdraw generation id s₁) := rfl
      rw [bind_ok hmodify, withdraw_of_score_none hscore]
    have hscore : ¬ (∃ r, s.reading env.policy env.now id = some r ∧ r.Awaits generation) →
        (s₁.delivery generation).score id = none := by
      intro hnot
      by_contra hne
      obtain ⟨r, hr, hawaits⟩ := ((hsweeps₁.invariant.indexed id).delivered generation).mp
        (Option.isSome_iff_ne_none.mpr hne)
      exact hnot ⟨r, hrecord.symm.trans hr, hawaits⟩
    rw [takeFrom, bind_ok hcurrent]
    cases hread : s.reading env.policy env.now id with
    | none =>
      have hnone := hscore fun ⟨r, hr, _⟩ => absurd (hread.symm.trans hr) (by simp)
      dsimp only
      rw [← hskip hnone]
      exact ih hsweeps₁ hrest
    | some r =>
      dsimp only
      split
      · next hpending =>
        have hawaits : r.Awaits generation := hpending
        refine Or.inr ⟨id, r, _, ⟨hread, hawaits, hids id List.mem_cons_self⟩, rfl, ?_⟩
        refine hsweeps₁.changeLease (f := fun recipient =>
          { recipient with leaseToken := some token, leaseUntil := some (leaseEnd env r leaseMs) })
          hread (hrecord.trans hread) hawaits (fun _ => ⟨rfl, rfl, rfl⟩) _ fun _ _ time htime => ?_
        exact (Option.some.inj htime).symm
      · next hnot =>
        have hnone := hscore fun ⟨r', hr', hawaits⟩ => by
          obtain rfl := Option.some.inj (hread.symm.trans hr')
          exact hnot hawaits
        rw [← hskip hnone]
        exact ih hsweeps₁ hrest

theorem take_spec (h : EventInvariant env.policy env.now s) (name generation token : String) (leaseMs : ℕ) :
    (registered name generation s.subscriptions = false ∧ take env name generation token leaseMs s =
      .ok (.fail .subscriptionMissing "Subscription generation is no longer registered") s) ∨
    registered name generation s.subscriptions = true ∧
      ((∃ s', take env name generation token leaseMs s = .ok (.delivery none) s' ∧ Sweeps env.policy env.now s s') ∨
      ∃ id r s', Takes env generation s id r ∧
        take env name generation token leaseMs s =
          .ok (.delivery (some (r.leased generation token (leaseEnd env r leaseMs), token))) s' ∧
        Answered env.policy env.now s s'
          (Function.update (s.reading env.policy env.now) id (some (r.leased generation token (leaseEnd env r leaseMs))))) := by
  unfold take
  rw [bind_ok (get_ok s)]
  cases hregistered : registered name generation s.subscriptions with
  | false => exact Or.inl ⟨rfl, rfl⟩
  | true =>
    refine Or.inr ⟨rfl, ?_⟩
    simp only [Bool.true_eq_false, ↓reduceIte]
    rw [bind_ok (get_ok s)]
    refine takeFrom_spec (.refl h) fun id hid => ?_
    obtain ⟨score, hscore, hle⟩ := SortedSet.mem_within_iff.mp (List.mem_of_mem_take hid)
    exact ⟨score, hscore, of_decide_eq_true hle⟩

/-! ### Owners -/

/-- What the owner of a delivery leaves of its event. -/
def handled (env : EventEnv) (generation : String) (handling : Handling) (r : EventRecord) : Option EventRecord :=
  match handling with
  | .acknowledge => advance env.policy env.now (r.acknowledged generation env.now)
  | .renew leaseMs => some (r.renewed generation (leaseEnd env r leaseMs))
  | .release _ => some (r.released generation)

/-- The reply of an owner's operation that passes its checks. -/
def Handling.reply : Handling → EventReply
  | .acknowledge => .acknowledgement .acknowledged
  | .renew _ | .release _ => .done

/-- The reply of an owner's operation on an event that is gone. -/
def Handling.gone : Handling → EventReply
  | .acknowledge => .acknowledgement .gone
  | .renew _ | .release _ => .fail .leaseLost "Event is no longer retained"

/-- An operation that passes the checks comes from the owner of a pending delivery. -/
structure Owns (env : EventEnv) (name generation token : String) (r : EventRecord) (subscriptions : Hash String) :
    Prop where
  active : r.status = .active
  recipient : ∃ recipient, r.recipients.lookup generation = some recipient ∧ recipient.name = name ∧
    recipient.status = .pending ∧ recipient.leaseToken = some token ∧ ∃ time, recipient.leaseUntil = some time ∧ env.now < time
  registered : subscriptions.lookup name = some generation

theorem Owns.awaits (h : Owns env name generation token r subscriptions) : r.Awaits generation := by
  obtain ⟨recipient, hlookup, _, hpending, _⟩ := h.recipient
  exact ⟨h.active, recipient, hlookup, hpending⟩

theorem handlingFault_eq_none {handling : Handling} :
    handlingFault env name generation token handling r subscriptions = none ↔
      Owns env name generation token r subscriptions := by
  unfold handlingFault
  cases hlookup : r.recipients.lookup generation with
  | none =>
    simp only [reduceCtorEq, false_iff]
    rintro ⟨_, ⟨recipient, hrecipient, _⟩, _⟩
    exact absurd (hlookup.symm.trans hrecipient) (by simp)
  | some recipient =>
    dsimp only
    constructor
    · intro h
      split at h
      · exact absurd h (by simp)
      · next htoken =>
        split at h
        · exact absurd h (by simp)
        · split at h
          · exact absurd h (by simp)
          · next hactive =>
            split at h
            · exact absurd h (by simp)
            · next hlease =>
              simp only [ne_eq, not_or, not_not, Bool.not_eq_true] at htoken hactive hlease
              obtain ⟨hpending, hlater, hregistered⟩ := hlease
              refine ⟨hactive, ⟨recipient, hlookup, htoken.1, hpending, htoken.2, ?_⟩, ?_⟩
              · cases htime : recipient.leaseUntil with
                | none => simp [htime] at hlater
                | some time => exact ⟨time, rfl, by simpa [htime] using hlater⟩
              · simpa [registered] using hregistered
    · rintro ⟨hactive, ⟨recipient', hrecipient', hname, hpending, htoken, time, htime, hlater⟩, hregistered⟩
      obtain rfl := Option.some.inj (hlookup.symm.trans hrecipient')
      simp [hname, htoken, hpending, hactive, htime, hlater, registered, hregistered]

theorem handle_spec (h : EventInvariant env.policy env.now s) (id name generation token : String) (handling : Handling) :
    ∃ s', match s.reading env.policy env.now id with
      | none => handle env id name generation token handling s = .ok handling.gone s' ∧ Sweeps env.policy env.now s s'
      | some r =>
        match handlingFault env name generation token handling r s.subscriptions with
        | some fault => handle env id name generation token handling s = .ok fault s' ∧ Sweeps env.policy env.now s s'
        | none => handle env id name generation token handling s = .ok handling.reply s' ∧
          Answered env.policy env.now s s'
            (Function.update (s.reading env.policy env.now) id (handled env generation handling r)) := by
  obtain ⟨s₁, hcurrent, hsweeps, _, hrecord⟩ := h.current id
  unfold handle
  rw [bind_ok hcurrent]
  cases hread : s.reading env.policy env.now id with
  | none =>
    refine ⟨s₁, ?_, hsweeps⟩
    cases handling <;> rfl
  | some r =>
    dsimp only
    rw [bind_ok (get_ok s₁), hsweeps.subscriptions]
    cases hfault : handlingFault env name generation token handling r s.subscriptions with
    | some fault => exact ⟨s₁, rfl, hsweeps⟩
    | none =>
      have hawaits := (handlingFault_eq_none.mp hfault).awaits
      dsimp only
      cases handling with
      | acknowledge =>
        exact ⟨_, rfl, hsweeps.acknowledge hread (hrecord.trans hread) hawaits⟩
      | renew leaseMs =>
        have hanswered := hsweeps.changeLease (f := fun recipient =>
          { recipient with leaseUntil := some (leaseEnd env r leaseMs) })
          hread (hrecord.trans hread) hawaits (fun _ => ⟨rfl, rfl, rfl⟩) (leaseEnd env r leaseMs)
          fun _ _ time htime => (Option.some.inj htime).symm
        exact ⟨save (r.renewed generation (leaseEnd env r leaseMs)) (deliver generation id (leaseEnd env r leaseMs) s₁),
          rfl, hanswered⟩
      | release delayMs =>
        have hanswered := hsweeps.changeLease (f := fun recipient =>
          { recipient with leaseToken := none, leaseUntil := none })
          hread (hrecord.trans hread) hawaits (fun _ => ⟨rfl, rfl, rfl⟩) (env.now + delayMs) fun _ _ time htime => absurd htime (by simp)
        exact ⟨save (r.released generation) (deliver generation id (env.now + delayMs) s₁), rfl, hanswered⟩

/-! ### Emission -/

theorem lookup_recipientsOf {subscriptions : Hash String} :
    (∀ recipient, (recipientsOf subscriptions).lookup generation = some recipient →
      recipient = { name := recipient.name, generation := generation, status := .pending, leaseToken := none, leaseUntil := none } ∧
        subscriptions.lookup recipient.name = some generation) ∧
      ((recipientsOf subscriptions).lookup generation = none → ∀ name, subscriptions.lookup name ≠ some generation) := by
  have hfold : ∀ (entries : List (Σ _ : String, String)) (before : Hash Recipient),
      (∀ recipient, (entries.foldl (fun recipients entry => recipients.insert entry.2
          { name := entry.1, generation := entry.2, status := .pending, leaseToken := none, leaseUntil := none })
          before).lookup generation = some recipient →
        before.lookup generation = some recipient ∨
        recipient = { name := recipient.name, generation := generation, status := .pending, leaseToken := none, leaseUntil := none } ∧
          ⟨recipient.name, generation⟩ ∈ entries) ∧
      ((entries.foldl (fun recipients entry => recipients.insert entry.2
          { name := entry.1, generation := entry.2, status := .pending, leaseToken := none, leaseUntil := none })
          before).lookup generation = none →
        before.lookup generation = none ∧ ∀ name, ⟨name, generation⟩ ∉ entries) := by
    intro entries
    induction entries with
    | nil => exact fun before => ⟨fun _ h => Or.inl h, fun h => ⟨h, fun _ => List.not_mem_nil⟩⟩
    | cons entry rest ih =>
      intro before
      obtain ⟨hsome, hnone⟩ := ih (before.insert entry.2
        { name := entry.1, generation := entry.2, status := .pending, leaseToken := none, leaseUntil := none })
      constructor
      · intro recipient hlookup
        rcases hsome recipient hlookup with hbefore | ⟨heq, hmem⟩
        · by_cases hgeneration : generation = entry.2
          · subst hgeneration
            rw [AList.lookup_insert, Option.some.injEq] at hbefore
            subst hbefore
            exact Or.inr ⟨rfl, List.mem_cons_self⟩
          · rw [AList.lookup_insert_ne hgeneration] at hbefore
            exact Or.inl hbefore
        · exact Or.inr ⟨heq, List.mem_cons_of_mem _ hmem⟩
      · intro hlookup
        obtain ⟨hbefore, hrest⟩ := hnone hlookup
        rw [AList.lookup_insert_eq_none] at hbefore
        refine ⟨hbefore.2, fun name hmem => ?_⟩
        rcases List.mem_cons.mp hmem with heq | hmem
        · exact hbefore.1 (congrArg Sigma.snd heq)
        · exact hrest name hmem
  obtain ⟨hsome, hnone⟩ := hfold subscriptions.entries ∅
  constructor
  · intro recipient hlookup
    rcases hsome recipient hlookup with hempty | ⟨heq, hmem⟩
    · exact absurd hempty (by simp)
    · exact ⟨heq, AList.mem_lookup_iff.mpr hmem⟩
  · intro hlookup name hname
    exact (hnone hlookup).2 name (AList.mem_lookup_iff.mp hname)

/-- The generations that an emitted event awaits are the registered ones. -/
theorem awaits_newEvent {queue payload : String} {ttlMs : Option ℕ} :
    (newEvent env id queue payload ttlMs subscriptions).Awaits generation ↔
      ∃ name, subscriptions.lookup name = some generation := by
  obtain ⟨hsome, hnone⟩ := @lookup_recipientsOf generation subscriptions
  constructor
  · rintro ⟨_, recipient, hlookup, _⟩
    exact ⟨recipient.name, (hsome recipient hlookup).2⟩
  · rintro ⟨name, hname⟩
    cases hlookup : (recipientsOf subscriptions).lookup generation with
    | none => exact absurd hname (hnone hlookup name)
    | some recipient =>
      refine ⟨rfl, recipient, hlookup, ?_⟩
      rw [(hsome recipient hlookup).1]

theorem registered_of_expects {queue payload : String} {ttlMs : Option ℕ} {name : String}
    (h : (newEvent env id queue payload ttlMs subscriptions).Expects name generation) :
    subscriptions.lookup name = some generation := by
  obtain ⟨_, recipient, hlookup, _, rfl⟩ := h
  exact (lookup_recipientsOf.1 recipient hlookup).2

theorem sound_newEvent {queue payload : String} {ttlMs : Option ℕ} :
    Sound p id (newEvent env id queue payload ttlMs subscriptions) where
  version := rfl
  id := rfl
  generations generation recipient hlookup := by rw [(lookup_recipientsOf.1 recipient hlookup).1]
  unsettled _ := ⟨rfl, rfl⟩
  settled h := absurd rfl h

/-- The deliveries of an emission, one for each registered generation. -/
theorem deliver_all (entries : List (Σ _ : String, String)) (id : String) (time : ℕ) (s : EventStore) :
    Touches id s (entries.foldl (fun s entry => deliver entry.2 id time s) s) ∧
      (entries.foldl (fun s entry => deliver entry.2 id time s) s).event id =
        { s.event id with
          delivery := fun generation =>
            if generation ∈ entries.map Sigma.snd then some (time : ℚ) else (s.event id).delivery generation } := by
  induction entries generalizing s with
  | nil => exact ⟨.refl id s, by simp⟩
  | cons entry rest ih =>
    obtain ⟨htouches, hevent⟩ := ih (deliver entry.2 id time s)
    refine ⟨(touches_deliver entry.2 id time s).trans htouches, ?_⟩
    rw [List.foldl_cons, hevent, event_deliver]
    ext1
    · rfl
    · funext generation
      dsimp only
      rw [List.map_cons]
      by_cases hrest : generation ∈ rest.map Sigma.snd
      · rw [if_pos hrest, if_pos (List.mem_cons_of_mem _ hrest)]
      · rw [if_neg hrest]
        by_cases heq : generation = entry.2
        · rw [if_pos (heq ▸ List.mem_cons_self), heq, Function.update_self]
        · rw [Function.update_of_ne heq, if_neg fun hmem => ?_]
          rcases List.mem_cons.mp hmem with hentry | hmem
          · exact heq hentry
          · exact hrest hmem
    all_goals rfl

/-- An event without a record is in no index. -/
theorem Indexed.eq_empty {v : EventView} (h : Indexed v) (hnone : v.record = none) :
    v = ⟨none, fun _ => none, none, none, none⟩ := by
  ext1
  · exact hnone
  · funext generation
    have hdelivered := h.delivered generation
    rw [hnone] at hdelivered
    simpa using hdelivered
  · rw [h.deadline, hnone, Option.bind_none]
  · rw [h.archive, hnone, Option.bind_none]
  · rw [h.archiveDeadline, hnone, Option.bind_none]

/-- An emission under a new id stores the event as it is at its instant. -/
theorem emit_spec (h : EventInvariant env.policy env.now s) (queue payload : String) (ttlMs : Option ℕ)
    (hnew : s.record id = none) :
    (emit env id queue payload ttlMs s).1 = .emitted (finish env.policy env.now
        (waiveActive s.removed (newEvent env id queue payload ttlMs s.subscriptions))) ∧
      Answered env.policy env.now s (emit env id queue payload ttlMs s).2
        (Function.update (s.reading env.policy env.now) id
          (resolve env.policy s.removed env.now (newEvent env id queue payload ttlMs s.subscriptions))) := by
  obtain ⟨htouches, hevent⟩ := deliver_all s.subscriptions.entries id env.now s
  generalize hr : newEvent env id queue payload ttlMs s.subscriptions = r
  have hid : r.id = id := hr ▸ rfl
  have hsound : Sound env.policy id r := hr ▸ sound_newEvent
  have hawaits : ∀ generation, r.Awaits generation ↔ ∃ name, s.subscriptions.lookup name = some generation := fun generation =>
    hr ▸ awaits_newEvent
  -- the store before the normalization
  generalize hs₁ : s.subscriptions.entries.foldl (fun s entry => deliver entry.2 id env.now s) s = s₁ at htouches hevent
  obtain ⟨s₂, hs₂⟩ : ∃ s₂ : EventStore, s₂ = r.expiresAt.elim (save r s₁) fun time =>
      { save r s₁ with deadlines := s₁.deadlines.add id time } := ⟨_, rfl⟩
  have hemit : emit env id queue payload ttlMs s = (.emitted (normalize env r s₂).1, (normalize env r s₂).2) := by
    unfold emit
    rw [hnew, hr, hs₁, hs₂, if_neg (by simp)]
    dsimp only
    cases r.expiresAt <;> rfl
  have hsave := event_save r s₁
  rw [hid, hevent] at hsave
  have htouches₁ : Touches id s (save r s₁) := htouches.trans (hid ▸ touches_save r s₁)
  have hempty := (h.indexed id).eq_empty hnew
  have hevent₂ : s₂.event id = ⟨some r, fun generation => if r.Awaits generation then some (env.now : ℚ) else none,
      r.expiresAt.map Nat.cast, none, none⟩ := by
    have hscores : (fun generation => if generation ∈ s.subscriptions.entries.map Sigma.snd then some (env.now : ℚ)
        else none) =
        fun generation => if r.Awaits generation then some (env.now : ℚ) else none := by
      funext generation
      refine if_congr ?_ rfl rfl
      rw [hawaits, List.mem_map]
      constructor
      · rintro ⟨⟨name, generation⟩, hmem, rfl⟩
        exact ⟨name, AList.mem_lookup_iff.mpr hmem⟩
      · rintro ⟨name, hname⟩
        exact ⟨⟨name, generation⟩, AList.mem_lookup_iff.mp hname, rfl⟩
    rw [hs₂]
    cases hexpires : r.expiresAt with
    | none =>
      rw [Option.elim_none, hsave, hempty, hscores]
      rfl
    | some time =>
      rw [Option.elim_some]
      have hset : EventStore.event { save r s₁ with deadlines := s₁.deadlines.add id time } id =
          { (save r s₁).event id with deadline := some (time : ℚ) } := by
        ext1
        · rfl
        · rfl
        · exact SortedSet.score_add_self _ _ _
        all_goals rfl
      rw [hset, hsave, hempty, hscores]
      rfl
  have htouches₂ : Touches id s s₂ := by
    rw [hs₂]
    cases r.expiresAt with
    | none => exact htouches₁
    | some time =>
      refine ⟨htouches₁.config, htouches₁.subscriptions, htouches₁.removed, htouches₁.retired, fun other hne => ?_⟩
      have hother := htouches₁.others other hne
      have hset : EventStore.event { save r s₁ with deadlines := s₁.deadlines.add id time } other =
          (save r s₁).event other := by
        ext1
        · rfl
        · rfl
        · exact SortedSet.score_add_of_ne _ _ hne
        all_goals rfl
      exact hset.trans hother
  have hactive : r.status = .active := hr ▸ rfl
  have hindexed₂ : Indexed (s₂.event id) := by
    rw [hevent₂]
    refine ⟨fun generation => ?_, fun r' hr' generation recipient _ hlookup _ time htime => ?_, ?_, ?_, ?_⟩
    · by_cases hgeneration : r.Awaits generation <;> simp [hgeneration]
    · obtain rfl := Option.some.inj hr'
      have hnone : recipient.leaseUntil = none := by
        rw [← hr] at hlookup
        rw [(lookup_recipientsOf.1 recipient hlookup).1]
      exact absurd (hnone.symm.trans htime) (by simp)
    · simp [EventRecord.deadline, hactive]
    · simp [EventRecord.archivedAt, hactive]
    · simp [(hsound.unsettled hactive).2]
  obtain ⟨hinvariant, htouches₃, hrecord, hfst⟩ := h.normalize_put htouches₂ (congrArg EventView.record hevent₂) hsound
    hindexed₂ fun name generation hexpects => Or.inl (registered_of_expects (hr ▸ hexpects))
  rw [hemit]
  refine ⟨by rw [hfst], ?_⟩
  have hfixed : (resolve env.policy s.removed env.now r).bind (resolve env.policy s.removed env.now) =
      resolve env.policy s.removed env.now r := resolve_resolve (le_refl _)
  rw [← hrecord] at hfixed ⊢
  exact (Sweeps.refl h).put hinvariant htouches₃ hfixed

/-! ### Subscriptions -/

/-- The invariant and the readings do not depend on which other generations are registered. -/
theorem EventInvariant.setSubscriptions (h : EventInvariant p now s)
    (howed : ∀ name generation, s.subscriptions.lookup name = some generation → subscriptions.lookup name = some generation) :
    EventInvariant p now { s with subscriptions := subscriptions } :=
  { h with
    owed := fun id r name generation hr hexpects => (h.owed id r name generation hr hexpects).imp_left
      (howed name generation) }

/-- A subscription is stored under a name that has none. -/
theorem subscribe_cases (name generation : String) (s : EventStore) :
    (subscribe name generation s).2 = s ∨ s.subscriptions.lookup name = none ∧
      (subscribe name generation s).2 = { s with subscriptions := s.subscriptions.insert name generation } := by
  unfold subscribe
  cases hlookup : s.subscriptions.lookup name with
  | some existing => exact Or.inl rfl
  | none =>
    dsimp only
    split
    · exact Or.inl rfl
    · exact Or.inr ⟨rfl, rfl⟩

theorem subscribe_spec (h : EventInvariant p now s) (name generation : String) :
    EventInvariant p now (subscribe name generation s).2 := by
  rcases subscribe_cases name generation s with heq | ⟨hlookup, heq⟩
  · rw [heq]
    exact h
  · rw [heq]
    refine h.setSubscriptions fun other generation' hother => ?_
    rw [AList.lookup_insert_ne, hother]
    rintro rfl
    exact absurd (hlookup.symm.trans hother) (by simp)

theorem reading_subscribe (name generation : String) (s : EventStore) :
    (subscribe name generation s).2.reading p now = s.reading p now := by
  rcases subscribe_cases name generation s with heq | ⟨_, heq⟩ <;> rw [heq]
  rfl

/-- The store of a removal, before the sweep that follows it. -/
def unregister (now : ℕ) (name generation : String) (s : EventStore) : EventStore :=
  { s with
    subscriptions := s.subscriptions.erase name
    removed := s.removed.insert generation now
    retired := s.retired.add generation now }

theorem EventInvariant.unregister (h : EventInvariant p now s) (hname : s.subscriptions.lookup name = some generation) :
    EventInvariant p now (unregister now name generation s) where
  sound := h.sound
  indexed := h.indexed
  live := h.live
  retired other := by
    by_cases heq : other = generation
    · subst heq
      simp [EventEngine.unregister, SortedSet.score_add_self]
    · simp only [EventEngine.unregister, SortedSet.score_add_of_ne _ _ heq, AList.lookup_insert_ne heq]
      exact h.retired other
  removedAt other time htime := by
    by_cases heq : other = generation
    · subst heq
      simp only [EventEngine.unregister, AList.lookup_insert, Option.some.injEq] at htime
      exact htime.ge
    · simp only [EventEngine.unregister, AList.lookup_insert_ne heq] at htime
      exact h.removedAt other time htime
  owed id r name' other hr hexpects := by
    by_cases heq : other = generation
    · subst heq
      exact Or.inr (by simp [EventEngine.unregister])
    · rcases h.owed id r name' other hr hexpects with hname' | hremoved
      · refine Or.inl ?_
        have hne : name' ≠ name := by
          rintro rfl
          exact heq (Option.some.inj (hname'.symm.trans hname))
        exact (AList.lookup_erase_ne hne).trans hname'
      · refine Or.inr ?_
        simp only [EventEngine.unregister, AList.lookup_insert_ne heq]
        exact hremoved

theorem unsubscribe_spec (h : EventInvariant env.policy env.now s) (name generation : String) :
    (registered name generation s.subscriptions = false ∧
      unsubscribe env name generation s = .ok (.unsubscribed false) s) ∨
    registered name generation s.subscriptions = true ∧
      ∃ s', unsubscribe env name generation s = .ok (.unsubscribed true) s' ∧
        Sweeps env.policy env.now (unregister env.now name generation s) s' := by
  unfold unsubscribe
  rw [bind_ok (get_ok s)]
  cases hregistered : registered name generation s.subscriptions with
  | false => exact Or.inl ⟨rfl, rfl⟩
  | true =>
    refine Or.inr ⟨rfl, ?_⟩
    have hname : s.subscriptions.lookup name = some generation := of_decide_eq_true hregistered
    obtain ⟨processed, s', hmaintain, hsweeps⟩ := (h.unregister hname).maintain_sweeps
    refine ⟨s', ?_, hsweeps⟩
    have hmodify : (modify fun s => { s with
        subscriptions := s.subscriptions.erase name
        removed := s.removed.insert generation env.now
        retired := s.retired.add generation env.now } : Script Unit) s = .ok () (unregister env.now name generation s) := rfl
    simp only [Bool.true_eq_false, ↓reduceIte]
    rw [bind_ok hmodify, bind_ok hmaintain]
    rfl

/-- What a removal does to the readings, when the generation was not removed before. -/
theorem reading_unregister (hnew : s.removed.lookup generation = none) (id : String) :
    (unregister now name generation s).reading p now id =
      (s.reading p now id).bind fun r => advance p now (waiveAt now generation r) := by
  unfold EventStore.reading
  cases hr : s.record id with
  | none => simp [unregister, hr]
  | some r =>
    rw [show (unregister now name generation s).record id = some r from hr]
    exact resolve_insert hnew

end

end EffectMQ.EventEngine
