import EffectMQ.EventEngine.Ownership
import EffectMQ.EventEngine.Scenario

/-!
# The deliveries of an event queue

Whatever the consumers do and in whatever order, each delivery has one owner at a time, an owner acts under its own
unexpired lease only, and a recipient is settled once. A call on one generation leaves the other recipients of an event
as they read at its instant; in the stored record it may carry out what is due to them already.
-/

namespace EffectMQ.EventEngine

open Redis Transition

/-- The subscription generation that a call is for. -/
def EventOp.generation : EventOp → Option String
  | .subscribe _ generation | .unsubscribe _ generation | .take _ generation _ _ | .acknowledge _ _ generation _
  | .renew _ _ generation _ _ | .release _ _ generation _ _ => some generation
  | .emit _ _ _ _ | .get _ | .maintain | .listArchived _ _ => none

/-- What one call does to the deliveries of a queue, after the calls before it. -/
structure Exclusive (calls : List EventCall) (state : ℕ × EventStore) (call : EventCall) (state' : ℕ × EventStore) :
    Prop where
  /-- Of one delivery at most one lease is not over. -/
  exclusive : ∀ id generation token token' time time' now, state'.1 ≤ now →
    leaseOf (calls ++ [call]) id generation token = some time → leaseOf (calls ++ [call]) id generation token' = some time' →
    now < time → now < time' → token = token'
  /-- An owner succeeds with the token of the latest take, whose lease is not over, on an active event. -/
  owner : ∀ id name generation token handling, call.op = Handling.op id name generation token handling →
    call.reply = handling.reply → lastTaker calls id generation = some token ∧
      (∃ time, leaseOf calls id generation token = some time ∧ call.env.now < time) ∧
      state.2.subscriptions.lookup name = some generation ∧
      ∃ r recipient, state.2.reading call.env.policy call.env.now id = some r ∧ r.status = .active ∧
        r.recipients.lookup generation = some recipient ∧ recipient.status = .pending
  /-- The other recipients of a stored event stay, but for what is due to them. -/
  others : ∀ id r r' generation recipient, state.2.record id = some r → state'.2.record id = some r' →
    call.op.generation ≠ some generation → r.recipients.lookup generation = some recipient →
    r'.recipients.lookup generation = some recipient ∨
    (recipient.status = .pending ∧ (state.2.removed.lookup generation).isSome ∧
      r'.recipients.lookup generation = some (waive recipient)) ∨
    r.status = .active ∧ r'.status = .expired ∧ (∀ time ∈ recipient.leaseUntil, time ≤ call.env.now) ∧
      r'.recipients.lookup generation = some { recipient with leaseUntil := none }
  /-- The other recipients of an event read the same before and after the call. -/
  othersRead : ∀ id r r' generation, state.2.reading call.env.policy call.env.now id = some r →
    state'.2.reading call.env.policy call.env.now id = some r' → call.op.generation ≠ some generation →
    r'.recipients.lookup generation = r.recipients.lookup generation
  /-- A call that is refused leaves every event as it reads. -/
  rejected : ∀ code message, call.reply = .fail code message → state'.2.subscriptions = state.2.subscriptions ∧
    ∀ id, state'.2.reading call.env.policy call.env.now id = state.2.reading call.env.policy call.env.now id
  /-- One acknowledgement of a delivery counts. -/
  once : ∀ id name generation token, call.Acknowledges id name generation token →
    ∀ earlier ∈ calls, ∀ name' token', ¬ earlier.Acknowledges id name' generation token'
  /-- Repeating it under the same token changes nothing. -/
  repeated : ∀ earlier ∈ calls, ∀ id name generation token, earlier.Acknowledges id name generation token →
    call.op = .acknowledge id name generation token → (∀ existing ∈ state.2.config, existing = call.env.policy) →
    (call.reply = .acknowledgement .alreadyAcknowledged ∨ call.reply = .acknowledgement .gone) ∧
    ∀ id, state'.2.reading call.env.policy call.env.now id = state.2.reading call.env.policy call.env.now id

section

variable {env : EventEnv} {p : Policy} {now : ℕ} {id name generation token : String} {op : EventOp} {reply : EventReply}
  {handling : Handling} {r r' : EventRecord} {recipient : Recipient} {s s' : EventStore} {calls later : List EventCall}
  {call : EventCall} {state state' final : ℕ × EventStore} {subscriptions : Hash String}

/-- The other recipients of an event, as they read. -/
theorem Outcome.othersRead (h : Outcome env s op reply s') (hleases : ∀ id r, s.reading env.policy env.now id = some r → Leased r)
    (hcurrent : ∀ name generation, s.subscriptions.lookup name = some generation → s.removed.lookup generation = none)
    (hemits : ∀ id, op.emits = some id → s.record id = none)
    (hr : s.reading env.policy env.now id = some r) (hr' : s'.reading env.policy env.now id = some r')
    (hne : op.generation ≠ some generation) : r'.recipients.lookup generation = r.recipients.lookup generation := by
  have hsame : s'.reading env.policy env.now id = s.reading env.policy env.now id →
      r'.recipients.lookup generation = r.recipients.lookup generation := by
    intro heq
    rw [Option.some.inj ((hr'.symm.trans heq).trans hr)]
  have hupdate : ∀ {other : String} {after : Option EventRecord},
      Answered env.policy env.now s s' (Function.update (s.reading env.policy env.now) other after) →
      (id = other → after = some r' → r'.recipients.lookup generation = r.recipients.lookup generation) →
      r'.recipients.lookup generation = r.recipients.lookup generation := by
    intro other after hanswered hself
    have hread := hanswered.reading id
    by_cases heq : id = other
    · subst heq
      rw [Function.update_self] at hread
      exact hself rfl (hread.symm.trans hr')
    · rw [Function.update_of_ne heq] at hread
      exact hsame hread
  cases h with
  | subscribed => exact hsame (congrFun (reading_subscribe _ _ s) id)
  | unregistered _ | duplicate _ | missing _ => exact hsame rfl
  | @unsubscribed name other _ hregistered hsweeps =>
    rw [hsweeps.reading id, reading_unregister (hcurrent name other (of_decide_eq_true hregistered)) id, hr] at hr'
    exact (hleases id r hr).lookup_waiveAt (fun hactive _ htime => later_of_reading hr hactive htime) hr'
      fun heq => hne (congrArg some heq.symm)
  | read hsweeps | idle _ hsweeps | gone _ hsweeps | refused _ _ hsweeps | maintained hsweeps | listed hsweeps _ =>
    exact hsame (hsweeps.reading id)
  | emitted hnew hanswered =>
    refine hupdate hanswered fun hid _ => ?_
    rw [EventStore.reading, hid, hnew] at hr
    exact absurd hr (by simp)
  | taken _ htakes hanswered =>
    refine hupdate hanswered fun hid hafter => ?_
    subst hid
    obtain rfl := Option.some.inj (htakes.read.symm.trans hr)
    obtain rfl := Option.some.inj hafter
    exact lookup_setRecipient_of_ne (fun heq => hne (congrArg some heq.symm)) _
  | @handled _ _ other _ handling _ _ hread howns hanswered =>
    refine hupdate hanswered fun hid hafter => ?_
    subst hid
    obtain rfl := Option.some.inj (hread.symm.trans hr)
    refine (hleases _ _ hr).lookup_handled howns.awaits (fun _ htime => later_of_reading hr howns.active htime) hafter ?_
    rintro rfl
    exact hne (by cases handling <;> rfl)

/-- An event that reads as settled stays. -/
theorem Outcome.settled (h : Outcome env s op reply s')
    (hcurrent : ∀ name generation, s.subscriptions.lookup name = some generation → s.removed.lookup generation = none)
    (hemits : ∀ id, op.emits = some id → s.record id = none) (hr : s.reading env.policy env.now id = some r)
    (hsettled : r.status ≠ .active) : s'.reading env.policy env.now id = some r := by
  have hupdate : ∀ {other : String} {after : Option EventRecord},
      Answered env.policy env.now s s' (Function.update (s.reading env.policy env.now) other after) → id ≠ other →
      s'.reading env.policy env.now id = some r := by
    intro other after hanswered hne
    rw [hanswered.reading id, Function.update_of_ne hne, hr]
  cases h with
  | subscribed => exact (congrFun (reading_subscribe _ _ s) id).trans hr
  | unregistered _ | duplicate _ | missing _ => exact hr
  | @unsubscribed name generation _ hregistered hsweeps =>
    rw [hsweeps.reading id, reading_unregister (hcurrent name generation (of_decide_eq_true hregistered)) id, hr,
      Option.bind_some, waiveAt_of_settled hsettled]
    have hfixed : (s.reading env.policy env.now id).bind (advance env.policy env.now) = s.reading env.policy env.now id :=
      reading_advance (le_refl env.now)
    rwa [hr] at hfixed
  | read hsweeps | idle _ hsweeps | gone _ hsweeps | refused _ _ hsweeps | maintained hsweeps | listed hsweeps _ =>
    exact (hsweeps.reading id).trans hr
  | emitted hnew hanswered =>
    refine hupdate hanswered ?_
    rintro rfl
    rw [EventStore.reading, hnew] at hr
    exact absurd hr (by simp)
  | taken _ htakes hanswered =>
    refine hupdate hanswered ?_
    rintro rfl
    obtain rfl := Option.some.inj (htakes.read.symm.trans hr)
    exact hsettled htakes.awaits.1
  | handled hread howns hanswered =>
    refine hupdate hanswered ?_
    rintro rfl
    obtain rfl := Option.some.inj (hread.symm.trans hr)
    exact hsettled howns.active

/-- The other recipients of a stored event. -/
theorem Outcome.others (h : Outcome env s op reply s') (hstored : Leased r)
    (hleases : ∀ id r, s.reading env.policy env.now id = some r → Leased r)
    (hcurrent : ∀ name generation, s.subscriptions.lookup name = some generation → s.removed.lookup generation = none)
    (hemits : ∀ id, op.emits = some id → s.record id = none) (hr : s.record id = some r) (hr' : s'.record id = some r')
    (hne : op.generation ≠ some generation) (hlookup : r.recipients.lookup generation = some recipient) :
    r'.recipients.lookup generation = some recipient ∨
    (recipient.status = .pending ∧ (s.removed.lookup generation).isSome ∧
      r'.recipients.lookup generation = some (waive recipient)) ∨
    r.status = .active ∧ r'.status = .expired ∧ (∀ time ∈ recipient.leaseUntil, time ≤ env.now) ∧
      r'.recipients.lookup generation = some { recipient with leaseUntil := none } := by
  rcases h.stored id with heq | heq
  · obtain rfl := Option.some.inj (hr.symm.trans (heq.symm.trans hr'))
    exact Or.inl hlookup
  · have hread' : s'.reading env.policy env.now id = some r' := heq.symm.trans hr'
    obtain ⟨r₁, hread, _⟩ := (h.evolves hleases hcurrent hread').resolve_right fun hid =>
      absurd (hr.symm.trans (hemits id hid)) (by simp)
    have hresolve : resolve env.policy s.removed env.now r = some r₁ := by
      rw [EventStore.reading, hr] at hread
      exact hread
    rw [h.othersRead hleases hcurrent hemits hread hread' hne]
    refine (hstored.lookup_resolve hresolve hlookup).imp_right (Or.imp_right ?_)
    rintro ⟨hactive, hexpired, hover, hlookup'⟩
    have hsettled := h.settled hcurrent hemits hread (by simp [hexpired])
    obtain rfl := Option.some.inj (hread'.symm.trans hsettled)
    exact ⟨hactive, hexpired, hover, hlookup'⟩

/-- A refusal leaves every event as it reads. -/
theorem Outcome.rejected (h : Outcome env s op reply s') {code : ErrorCode} {message : String}
    (hreply : reply = .fail code message) : s'.subscriptions = s.subscriptions ∧
    ∀ id, s'.reading env.policy env.now id = s.reading env.policy env.now id := by
  cases h with
  | @subscribed name generation =>
    unfold subscribe at hreply ⊢
    cases hlookup : s.subscriptions.lookup name with
    | some existing => exact ⟨rfl, fun _ => rfl⟩
    | none =>
      rw [hlookup] at hreply
      dsimp only at hreply ⊢
      split at hreply
      · next hfull =>
        rw [if_pos hfull]
        exact ⟨rfl, fun _ => rfl⟩
      · exact absurd hreply (by simp)
  | unregistered _ | duplicate _ | missing _ => exact ⟨rfl, fun _ => rfl⟩
  | read hsweeps | idle _ hsweeps | gone _ hsweeps | refused _ _ hsweeps | maintained hsweeps | listed hsweeps _ =>
    exact ⟨hsweeps.subscriptions, hsweeps.reading⟩
  | @handled _ _ _ _ handling => cases handling <;> exact absurd hreply (by simp [Handling.reply])
  | unsubscribed _ _ | emitted _ _ | taken _ _ _ => exact absurd hreply (by simp)

theorem op_inj {handling' : Handling} {id' name' generation' token' : String}
    (h : handling.op id name generation token = handling'.op id' name' generation' token') :
    handling = handling' ∧ id = id' ∧ name = name' ∧ generation = generation' ∧ token = token' := by
  cases handling <;> cases handling' <;> simp_all [Handling.op]

/-- An owner's operation that succeeds. -/
theorem Outcome.owns (h : Outcome env s op reply s') (hop : op = handling.op id name generation token)
    (hreply : reply = handling.reply) : ∃ r, s.reading env.policy env.now id = some r ∧
      Owns env name generation token r s.subscriptions := by
  have hfails : ∀ fault, fault = handling.reply → fault = .done ∨ fault = .acknowledgement .acknowledged := by
    rintro _ rfl
    cases handling <;> simp [Handling.reply]
  cases h with
  | handled hread howns _ =>
    obtain ⟨rfl, rfl, rfl, rfl, rfl⟩ := op_inj hop
    exact ⟨_, hread, howns⟩
  | refused _ hfault _ =>
    rcases hfails _ hreply with heq | heq
    · exact absurd heq (handlingFault_ne hfault).1
    · exact absurd heq (handlingFault_ne hfault).2
  | @gone _ _ _ _ handling' _ _ _ =>
    obtain ⟨rfl, _⟩ := op_inj hop
    cases handling' <;> exact absurd hreply (by simp [Handling.gone, Handling.reply])
  | subscribed | unregistered _ | unsubscribed _ _ | duplicate _ | emitted _ _ | read _ | missing _ | idle _ _ | taken _ _ _
  | maintained _ | listed _ _ => cases handling <;> exact absurd hop (by simp [Handling.op])

/-- A repeated acknowledgement. -/
theorem Outcome.repeated (h : Outcome env s op reply s') (hop : op = .acknowledge id name generation token)
    (hwon : ∀ r, s.reading env.policy env.now id = some r → ∃ recipient, r.recipients.lookup generation = some recipient ∧
      recipient.name = name ∧ recipient.status = .acknowledged ∧ recipient.leaseToken = some token) :
    (reply = .acknowledgement .alreadyAcknowledged ∨ reply = .acknowledgement .gone) ∧
    ∀ id, s'.reading env.policy env.now id = s.reading env.policy env.now id := by
  have hop : op = Handling.acknowledge.op id name generation token := hop
  cases h with
  | gone _ hsweeps =>
    obtain ⟨rfl, _⟩ := op_inj hop
    exact ⟨Or.inr rfl, hsweeps.reading⟩
  | refused hread hfault hsweeps =>
    obtain ⟨rfl, rfl, rfl, rfl, rfl⟩ := op_inj hop
    obtain ⟨recipient, hlookup, hname, hstatus, htoken⟩ := hwon _ hread
    refine ⟨Or.inl ?_, hsweeps.reading⟩
    rw [handlingFault, hlookup] at hfault
    simpa [hname, hstatus, htoken, eq_comm] using hfault
  | handled hread howns _ =>
    obtain ⟨rfl, rfl, rfl, rfl, rfl⟩ := op_inj hop
    obtain ⟨recipient, hlookup, _, hstatus, _⟩ := hwon _ hread
    exact absurd (howns.awaits.pending hlookup) (by simp [hstatus])
  | subscribed | unregistered _ | unsubscribed _ _ | duplicate _ | emitted _ _ | read _ | missing _ | idle _ _ | taken _ _ _
  | maintained _ | listed _ _ => exact absurd hop (by simp [Handling.op])

theorem Owned.exclusive (h : Owned calls state) (hkept : Kept state) (hfresh : Fresh (calls ++ [call]))
    (hstep : events.step state call state') : Exclusive calls state call state' := by
  have hlast := h.step hkept hfresh hstep
  have hexclusive : ∀ id generation token token' time time' now, state'.1 ≤ now →
      leaseOf (calls ++ [call]) id generation token = some time → leaseOf (calls ++ [call]) id generation token' = some time' →
      now < time → now < time' → token = token' := by
    intro id generation token token' time time' now hle hlease hlease' hlater hlater'
    exact (hlast.ledger.known id generation).exclusive token token' time time' hlease hlease' (lt_of_le_of_lt hle hlater)
      (lt_of_le_of_lt hle hlater')
  rcases step_cases hkept hstep with ⟨⟨existing, hexisting, hconflict⟩, hreply, heq⟩ | ⟨hagree, hinvariant, houtcome⟩
  · refine ⟨hexclusive, fun id name generation token handling _ hsuccess => ?_,
      fun id r r' generation recipient hr hr' _ hlookup => ?_, fun id r r' generation hr hr' _ => ?_, fun _ _ _ => ?_,
      fun id name generation token hacknowledges => ?_,
      fun _ _ _ _ _ _ _ _ hagree => absurd (hagree existing hexisting) hconflict⟩
    · rw [hreply] at hsuccess
      cases handling <;> exact absurd hsuccess (by simp [Handling.reply])
    · rw [heq] at hr'
      obtain rfl := Option.some.inj (hr.symm.trans hr')
      exact Or.inl hlookup
    · rw [heq] at hr'
      rw [Option.some.inj (hr'.symm.trans hr)]
    · rw [heq]
      exact ⟨rfl, fun _ => rfl⟩
    · exact absurd (hreply.symm.trans hacknowledges.2) (by simp)
  · have hledger : Ledger calls call.env.now ((state.2.opened call.env.policy).reading call.env.policy call.env.now) :=
      h.ledger_at hkept hagree hstep.1
    have hcurrent : ∀ name generation, (state.2.opened call.env.policy).subscriptions.lookup name = some generation →
        (state.2.opened call.env.policy).removed.lookup generation = none := h.identified.current
    have hnew : ∀ id, call.op.emits = some id → (state.2.opened call.env.policy).record id = none := by
      intro id hid
      by_contra hne
      exact not_mem_of_nodup hfresh.ids hid (h.identified.emitted id (Option.isSome_iff_ne_none.mpr hne))
    refine ⟨hexclusive, fun id name generation token handling hop hreply => ?_,
      fun id r r' generation recipient hr hr' hne hlookup => ?_, fun id r r' generation hr hr' hne => ?_,
      fun code message hreply => houtcome.rejected hreply, fun id name generation token hacknowledges earlier hearlier name' token' hbefore => ?_,
      fun earlier hearlier id name generation token hbefore hop _ => ?_⟩
    · obtain ⟨r, hread, howns⟩ := houtcome.owns hop hreply
      obtain ⟨recipient, hlookup, _, hpending, htoken, time, huntil, hunexpired⟩ := howns.recipient
      obtain ⟨htaker, time', hlease, hcap⟩ := (hledger.known id generation).holder r hread howns.awaits recipient hlookup token htoken
      refine ⟨htaker, ⟨time', hlease, ?_⟩, howns.registered, r, recipient, hread, howns.active, hlookup, hpending⟩
      obtain rfl := Option.some.inj (huntil.symm.trans hcap)
      exact lt_of_lt_of_le hunexpired (cap_le r time')
    · exact houtcome.others (h.leases id r hr) hledger.leases hcurrent hnew hr hr' hne hlookup
    · exact houtcome.othersRead hledger.leases hcurrent hnew hr hr' hne
    · have hop : call.op = Handling.acknowledge.op id name generation token := hacknowledges.1
      have hreply : call.reply = Handling.acknowledge.reply := hacknowledges.2
      obtain ⟨r, hread, howns⟩ := houtcome.owns hop hreply
      obtain ⟨recipient, hlookup, _, hstatus, _⟩ := (hledger.winners earlier hearlier id name' generation token' hbefore).2 r hread
      exact absurd (howns.awaits.pending hlookup) (by simp [hstatus])
    · exact houtcome.repeated hop (hledger.winners earlier hearlier id name generation token hbefore).2

/-! ### The recipients of an event -/

theorem Evolves.lookup_iff (h : Evolves r r') (generation : String) :
    (∃ recipient, r'.recipients.lookup generation = some recipient) ↔
      ∃ recipient, r.recipients.lookup generation = some recipient := by
  constructor
  · rintro ⟨recipient', hlookup'⟩
    cases hlookup : r.recipients.lookup generation with
    | none => exact absurd (((h generation).1 hlookup).symm.trans hlookup') (by simp)
    | some recipient => exact ⟨recipient, rfl⟩
  · rintro ⟨recipient, hlookup⟩
    obtain ⟨recipient', hlookup', _⟩ := (h generation).2 recipient hlookup
    exact ⟨recipient', hlookup'⟩

theorem lookup_newEvent {queue payload : String} {ttlMs : Option ℕ} :
    (∃ recipient, (newEvent env id queue payload ttlMs subscriptions).recipients.lookup generation = some recipient) ↔
      ∃ name, subscriptions.lookup name = some generation := by
  obtain ⟨hsome, hnone⟩ := @lookup_recipientsOf generation subscriptions
  constructor
  · rintro ⟨recipient, hlookup⟩
    exact ⟨recipient.name, (hsome recipient hlookup).2⟩
  · rintro ⟨name, hname⟩
    cases hlookup : (recipientsOf subscriptions).lookup generation with
    | none => exact absurd hname (hnone hlookup name)
    | some recipient => exact ⟨recipient, hlookup⟩

/-- An emission stores its event for the registered generations. -/
theorem Outcome.audience (h : Outcome env s op reply s') {event : EventRecord} (hop : op.emits = some id)
    (hreply : reply = .emitted event) (hr' : s'.record id = some r') (generation : String) :
    (∃ recipient, r'.recipients.lookup generation = some recipient) ↔
      ∃ name, s.subscriptions.lookup name = some generation := by
  cases h with
  | @emitted other _ _ _ _ hnew hanswered =>
    obtain rfl : other = id := Option.some.inj hop
    rcases hanswered.record other with heq | heq
    · exact absurd (hnew.symm.trans (heq.symm.trans hr')) (by simp)
    · rw [Function.update_self, hr'] at heq
      rw [(leased_newEvent.resolve heq.symm).2.lookup_iff, lookup_newEvent]
  | @gone _ _ _ _ handling | @refused _ _ _ _ handling | @handled _ _ _ _ handling =>
    cases handling <;> exact absurd hop (by simp [Handling.op, EventOp.emits])
  | duplicate _ => exact absurd hreply (by simp)
  | subscribed | unregistered _ | unsubscribed _ _ | read _ | missing _ | idle _ _ | taken _ _ _ | maintained _ | listed _ _ =>
    exact absurd hop (by simp [EventOp.emits])

/-- Who an event is for, from its emission on: a later subscription never takes it. -/
structure Audience (state : ℕ × EventStore) (id : String) (final : ℕ × EventStore) : Prop where
  recipients : ∀ r, final.2.record id = some r → ∀ generation,
    (∃ recipient, r.recipients.lookup generation = some recipient) ↔
      ∃ name, state.2.subscriptions.lookup name = some generation
  takes : ∀ call next name generation token leaseMs event token', events.step final call next →
    call.op = .take name generation token leaseMs → call.reply = .delivery (some (event, token')) → event.id = id →
    ∃ name, state.2.subscriptions.lookup name = some generation

theorem run_audience (h : events.Run calls state) (hstep : events.step state call state')
    (hpath : events.Path state' later final) (hfresh : Fresh (calls ++ [call] ++ later)) {event : EventRecord}
    (hop : call.op.emits = some id) (hreply : call.reply = .emitted event) : Audience state id final := by
  have hrun := h.snoc hstep
  have hemitted : ∃ earlier ∈ calls ++ [call], earlier.op.emits = some id := ⟨call, by simp, hop⟩
  have hrecipients : ∀ r, final.2.record id = some r → ∀ generation,
      (∃ recipient, r.recipients.lookup generation = some recipient) ↔
        ∃ name, state.2.subscriptions.lookup name = some generation := by
    intro r hr generation
    obtain ⟨r₀, hr₀, hevolves⟩ := path_evolves hrun hpath hfresh hemitted hr
    rw [hevolves.lookup_iff]
    rcases step_cases (run_kept h) hstep with ⟨_, hconflict, _⟩ | ⟨_, _, houtcome⟩
    · exact absurd (hconflict.symm.trans hreply) (by simp)
    · exact houtcome.audience hop hreply hr₀ generation
  refine ⟨hrecipients, fun take next name generation token leaseMs event token' htake hop hreply hid => ?_⟩
  rcases step_cases (run_kept (hrun.extend hpath)) htake with ⟨_, hconflict, _⟩ | ⟨_, hinvariant, houtcome⟩
  · exact absurd (hconflict.symm.trans hreply) (by simp)
  · obtain ⟨r₁, hread, hawaits⟩ := houtcome.leased hinvariant.opened hop hreply
    obtain ⟨r, hr, hresolve⟩ := Option.bind_eq_some_iff.mp hread
    obtain ⟨_, recipient, hlookup, _⟩ := awaits_of_resolve hresolve hawaits
    exact (hrecipients r (hid ▸ hr) generation).mp ⟨recipient, hlookup⟩

end

/-- Every call of a run keeps the deliveries exclusive; the recipients of an event are those of its emission, and each of
them is settled once. -/
theorem run_deliveries {calls : List EventCall} {state : ℕ × EventStore} {call : EventCall} {state' : ℕ × EventStore}
    {later : List EventCall} {final : ℕ × EventStore} (h : events.Run calls state) (hstep : events.step state call state')
    (hpath : events.Path state' later final) (hfresh : Fresh (calls ++ [call] ++ later)) :
    Exclusive calls state call state' ∧
    (∀ id r r', state.2.record id = some r → final.2.record id = some r' → Evolves r r') ∧
    ∀ id event, call.op.emits = some id → call.reply = .emitted event → Audience state id final := by
  refine ⟨(run_owned h hfresh.of_append.of_append).exclusive (run_kept h) hfresh.of_append hstep,
    fun id r r' hr hr' => ?_, fun id event => run_audience h hstep hpath hfresh⟩
  have hemitted := (run_owned h hfresh.of_append.of_append).identified.emitted id (by rw [hr]; rfl)
  rw [List.append_assoc] at hfresh
  obtain ⟨r₀, hr₀, hevolves⟩ := path_evolves h ((System.Path.single hstep).trans hpath) hfresh hemitted hr'
  obtain rfl := Option.some.inj (hr.symm.trans hr₀)
  exact hevolves

/-- Two events for two recipients, of which one is removed: the sweep of the removal reaches one of the events. -/
def halfWaived : List (EventEnv × EventOp) :=
  [(.at 1, .subscribe "a" "g"), (.at 2, .subscribe "b" "h"), (.at 3, .emit "e" "mail" "payload" none),
    (.at 4, .emit "f" "mail" "payload" none), (.at 5, .unsubscribe "b" "h"), (.at 6, .take "a" "g" "t" 10)]

/-- The take that reads the other event waives its removed recipient in the record. -/
theorem not_independent_of_removed :
    ¬ ∀ calls state call state', events.Run calls state → events.step state call state' → Fresh (calls ++ [call]) →
      ∀ id r r' generation other recipient, state.2.record id = some r → state'.2.record id = some r' →
        call.op.generation = some generation → other ≠ generation → r.recipients.lookup other = some recipient →
        ∃ recipient', r'.recipients.lookup other = some recipient' ∧ recipient'.status = recipient.status ∧
          recipient'.leaseUntil = recipient.leaseUntil ∧ recipient'.leaseToken = recipient.leaseToken := by
  intro hall
  have hstep := answer_step (serve (0, .empty) halfWaived).2 (.at 7) (.take "a" "g" "u" 10) (by decide +kernel)
  have hbefore : (((serve (0, .empty) halfWaived).2.2.record "f").bind fun r => r.recipients.lookup "h").map
      Recipient.status = some .pending := by decide +kernel
  have hafter : (((answer (serve (0, .empty) halfWaived).2 (.at 7) (.take "a" "g" "u" 10)).2.2.record "f").bind
      fun r => r.recipients.lookup "h").map Recipient.status = some .waived := by decide +kernel
  obtain ⟨recipient, hrecipient, hpending⟩ := Option.map_eq_some_iff.mp hbefore
  obtain ⟨r, hr, hlookup⟩ := Option.bind_eq_some_iff.mp hrecipient
  obtain ⟨waived, hwaived, hstatus⟩ := Option.map_eq_some_iff.mp hafter
  obtain ⟨r', hr', hlookup'⟩ := Option.bind_eq_some_iff.mp hwaived
  obtain ⟨recipient', hrecipient', hsame, _⟩ := hall _ _ _ _ (serve_run (by decide)) hstep
    ⟨by decide +kernel, by decide +kernel⟩ "f" r r' "g" "h" recipient hr hr' rfl (by decide) hlookup
  obtain rfl := Option.some.inj (hlookup'.symm.trans hrecipient')
  rw [hstatus, hpending] at hsame
  exact absurd hsame (by simp)

/-- The second take of that run. -/
theorem run_deliveries_halfWaived : Exclusive (serve (0, .empty) halfWaived).1 (serve (0, .empty) halfWaived).2
    (answer (serve (0, .empty) halfWaived).2 (.at 7) (.take "a" "g" "u" 10)).1
    (answer (serve (0, .empty) halfWaived).2 (.at 7) (.take "a" "g" "u" 10)).2 :=
  (run_deliveries (serve_run (by decide)) (answer_step _ _ _ (by decide +kernel)) .nil
    ⟨by decide +kernel, by decide +kernel⟩).1

end EffectMQ.EventEngine
