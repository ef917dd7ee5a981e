import EffectMQ.EventEngine.Ledger

/-!
# The ledger over a run

Every call keeps the ledger: a take leases a delivery whose last lease is over, an owner acts under the one lease that is
not, and everything else that happens to an event leaves its pending deliveries alone or settles them.
-/

namespace EffectMQ.EventEngine

open Redis Transition

section

variable {env : EventEnv} {p : Policy} {now : ℕ} {id name generation token : String} {op : EventOp} {reply : EventReply}
  {handling : Handling} {r r' : EventRecord} {s s' : EventStore} {calls : List EventCall} {call : EventCall}
  {subscriptions : Hash String}

/-! ### Quiet calls -/

/-- A refusal is no success. -/
theorem handlingFault_ne {fault : EventReply} (h : handlingFault env name generation token handling r subscriptions = some fault) :
    fault ≠ .done ∧ fault ≠ .acknowledgement .acknowledged := by
  unfold handlingFault at h
  split at h
  · obtain rfl := Option.some.inj h
    simp
  · split at h
    · obtain rfl := Option.some.inj h
      simp
    · split at h
      · obtain rfl := Option.some.inj h
        simp
      · split at h
        · obtain rfl := Option.some.inj h
          simp
        · split at h
          · obtain rfl := Option.some.inj h
            simp
          · exact absurd h (by simp)

theorem quiet_of_refused (hdone : reply ≠ .done) (hacknowledged : reply ≠ .acknowledgement .acknowledged) :
    EventCall.Quiet ⟨env, handling.op id name generation token, reply⟩ where
  leaseAfter other generation' token' before := by
    cases handling <;> simp only [EventCall.leaseAfter, Handling.op] <;> split <;> simp_all
  takerAfter other generation' before := by cases handling <;> rfl
  acknowledges _ _ _ _ h := hacknowledged h.2

theorem quiet_of_idle {leaseMs : ℕ} (h : ∀ delivered, reply ≠ .delivery (some delivered)) :
    EventCall.Quiet ⟨env, .take name generation token leaseMs, reply⟩ where
  leaseAfter other generation' token' before := by
    simp only [EventCall.leaseAfter]
    split
    · next event given _ => exact absurd rfl (h (event, given))
    all_goals simp_all
  takerAfter other generation' before := by
    simp only [EventCall.takerAfter]
    split
    · next event given _ => exact absurd rfl (h (event, given))
    · rfl
  acknowledges _ _ _ _ h := absurd h.1 (by simp)

/-! ### A take -/

theorem leaseAfter_taken {event : EventRecord} {leaseMs : ℕ} (other generation' token' : String) (before : Option ℕ) :
    EventCall.leaseAfter ⟨env, .take name generation token leaseMs, .delivery (some (event, token))⟩ other generation' token'
        before =
      if event.id = other ∧ generation = generation' ∧ token = token' then
        (event.recipients.lookup generation').bind fun recipient => recipient.leaseUntil
      else before := rfl

theorem Ledger.taken (h : Ledger calls env.now (s.reading env.policy env.now)) (hinvariant : EventInvariant env.policy env.now s)
    (hidentified : Identified calls s) (htakes : Takes env generation s id r) (name token : String) (leaseMs : ℕ) :
    Ledger (calls ++ [⟨env, .take name generation token leaseMs,
        .delivery (some (r.leased generation token (leaseEnd env r leaseMs), token))⟩]) env.now
      (Function.update (s.reading env.policy env.now) id (some (r.leased generation token (leaseEnd env r leaseMs)))) := by
  have hid := id_of_reading hinvariant htakes.read
  have hleases := h.leases id r htakes.read
  have hawaits := htakes.awaits
  obtain ⟨recipient, hlookup, _⟩ := hawaits.2
  have hlookup' : (r.leased generation token (leaseEnd env r leaseMs)).recipients.lookup generation =
      some { recipient with leaseToken := some token, leaseUntil := some (leaseEnd env r leaseMs) } := by
    rw [EventRecord.leased, lookup_setRecipient_self, hlookup]
    rfl
  obtain ⟨hleased, hevolves⟩ := hleases.leased hawaits env token leaseMs
  have hlater : ∀ deadline ∈ r.expiresAt, env.now < deadline := by
    obtain ⟨r₀, _, hresolve⟩ := Option.bind_eq_some_iff.mp htakes.read
    exact (active_of_resolve hresolve hawaits.1).2.2.2
  have hdue : ∀ recipient, r.recipients.lookup generation = some recipient → ∀ time ∈ recipient.leaseUntil, time ≤ env.now := by
    intro recipient hlookup time htime
    have hscore := leased_of_reading hinvariant htakes.read hawaits.1 hlookup (hawaits.pending hlookup) htime
    obtain ⟨score, hscore', hle⟩ := htakes.due
    obtain rfl := Option.some.inj (hscore.symm.trans hscore')
    exact_mod_cast hle
  have hsome : (s.reading env.policy env.now id).isSome := by rw [htakes.read]; rfl
  refine h.update generation htakes.read (hidentified.emitted id (isSome_of_reading hsome))
    (fun other generation' hpair => ⟨fun token' before => ?_, fun before => ?_⟩) ?_ (fun r' hr' => ?_) fun _ _ _ _ hacknowledges => absurd hacknowledges.1 (by simp)
  · rw [leaseAfter_taken, if_neg fun hsame => hpair (hsame.1.symm.trans hid) hsame.2.1.symm]
  · exact if_neg fun hsame => hpair (hsame.1.symm.trans hid) hsame.2.symm
  · have hlease : leaseOf (calls ++ [⟨env, .take name generation token leaseMs,
        .delivery (some (r.leased generation token (leaseEnd env r leaseMs), token))⟩]) id generation =
        Function.update (leaseOf calls id generation) token (some (leaseEnd env r leaseMs)) := by
      funext token'
      rw [leaseOf_append, leaseAfter_taken]
      by_cases heq : token' = token
      · subst heq
        rw [if_pos ⟨hid, rfl, rfl⟩, hlookup', Function.update_self]
        rfl
      · rw [if_neg fun hsame => heq hsame.2.2.symm, Function.update_of_ne heq]
    have htaker : lastTaker (calls ++ [⟨env, .take name generation token leaseMs,
        .delivery (some (r.leased generation token (leaseEnd env r leaseMs), token))⟩]) id generation = some token := by
      rw [lastTaker_append]
      exact if_pos ⟨hid, rfl⟩
    have hknown := h.known id generation
    rw [htakes.read] at hknown
    rw [hlease, htaker]
    exact hknown.taken hawaits hlater hdue token (env.now + leaseMs)
  · obtain rfl := Option.some.inj hr'
    refine ⟨hleased, hevolves, fun generation' hne hawaits' => ?_⟩
    rw [EventRecord.Awaits, EventRecord.leased, lookup_setRecipient_of_ne hne] at hawaits'
    exact ⟨hawaits', rfl, (lookup_setRecipient_of_ne hne _).symm⟩

/-! ### An owner -/

theorem handled_of_active (hr' : handled env generation handling r = some r')
    (hactive' : r'.status = .active) : r'.expiresAt = r.expiresAt := by
  cases handling with
  | acknowledge =>
    obtain ⟨rfl, _⟩ := active_of_advance hr' hactive'
    rfl
  | renew leaseMs =>
    obtain rfl := Option.some.inj hr'
    rfl
  | release delayMs =>
    obtain rfl := Option.some.inj hr'
    rfl

/-- The end of the lease that an owner leaves to itself. -/
def Handling.ends (now : ℕ) : Handling → Option ℕ
  | .renew leaseMs => some (now + leaseMs)
  | .acknowledge | .release _ => none

theorem leaseAfter_handled (other generation' token' : String) (before : Option ℕ) :
    EventCall.leaseAfter ⟨env, handling.op id name generation token, handling.reply⟩ other generation' token' before =
      if id = other ∧ generation = generation' ∧ token = token' then handling.ends env.now else before := by
  cases handling <;> rfl

theorem Ledger.handled (h : Ledger calls env.now (s.reading env.policy env.now)) (hidentified : Identified calls s)
    (hread : s.reading env.policy env.now id = some r) (howns : Owns env name generation token r s.subscriptions) :
    Ledger (calls ++ [⟨env, handling.op id name generation token, handling.reply⟩]) env.now
      (Function.update (s.reading env.policy env.now) id (EventEngine.handled env generation handling r)) := by
  have hleases := h.leases id r hread
  have hawaits := howns.awaits
  obtain ⟨recipient, hlookup, hname, hpending, htoken, time, huntil, hunexpired⟩ := howns.recipient
  have hlater : ∀ deadline ∈ r.expiresAt, env.now < deadline := by
    obtain ⟨r₀, _, hresolve⟩ := Option.bind_eq_some_iff.mp hread
    exact (active_of_resolve hresolve hawaits.1).2.2.2
  have hsome : (s.reading env.policy env.now id).isSome := by rw [hread]; rfl
  refine h.update generation hread (hidentified.emitted id (isSome_of_reading hsome))
    (fun other generation' hpair => ⟨fun token' before => ?_, fun before => ?_⟩) ?_ (fun r' hr' => ?_) fun other name' generation' token' hacknowledges => ?_
  · rw [leaseAfter_handled, if_neg fun hsame => hpair hsame.1.symm hsame.2.1.symm]
  · cases handling <;> rfl
  · have hlease : leaseOf (calls ++ [⟨env, handling.op id name generation token, handling.reply⟩]) id generation =
        Function.update (leaseOf calls id generation) token (handling.ends env.now) := by
      funext token'
      rw [leaseOf_append, leaseAfter_handled]
      by_cases heq : token' = token
      · subst heq
        rw [if_pos ⟨rfl, rfl, rfl⟩, Function.update_self]
      · rw [if_neg fun hsame => heq hsame.2.2.symm, Function.update_of_ne heq]
    have htaker : lastTaker (calls ++ [⟨env, handling.op id name generation token, handling.reply⟩]) id generation =
        lastTaker calls id generation := by
      rw [lastTaker_append]
      cases handling <;> rfl
    have hknown := h.known id generation
    rw [hread] at hknown
    rw [hlease, htaker]
    refine hknown.handled hawaits hlookup htoken huntil hunexpired (handling.ends env.now)
      fun r' hr' hawaits' recipient' hlookup' => ?_
    cases handling with
    | acknowledge =>
      obtain ⟨rfl, _⟩ := active_of_advance hr' hawaits'.1
      exact absurd hawaits' not_awaits_acknowledged
    | renew leaseMs =>
      obtain rfl := Option.some.inj hr'
      rw [EventRecord.renewed, lookup_setRecipient_self, hlookup] at hlookup'
      obtain rfl := Option.some.inj hlookup'
      exact ⟨htoken, rfl⟩
    | release delayMs =>
      obtain rfl := Option.some.inj hr'
      rw [EventRecord.released, lookup_setRecipient_self, hlookup] at hlookup'
      obtain rfl := Option.some.inj hlookup'
      exact ⟨rfl, rfl⟩
  · obtain ⟨hleased, hevolves⟩ := hleases.handled hawaits hr'
    refine ⟨hleased, hevolves, fun generation' hne hawaits' => ?_⟩
    have hsame := hleases.lookup_handled hawaits hlater hr' hne
    obtain ⟨hactive', recipient', hlookup', hpending'⟩ := hawaits'
    rw [hsame] at hlookup'
    exact ⟨⟨hawaits.1, recipient', hlookup', hpending'⟩, (handled_of_active hr' hactive').symm, hsame.symm⟩
  · obtain ⟨hop, hreply⟩ := hacknowledges
    cases handling with
    | acknowledge =>
      obtain ⟨rfl, rfl, rfl, rfl⟩ := EventOp.acknowledge.inj hop
      refine ⟨rfl, fun r' hr' => ?_⟩
      have hlookup' : (r.acknowledged generation env.now).recipients.lookup generation =
          some { recipient with status := .acknowledged, leaseUntil := none } := by
        refine (lookup_setRecipient_self _).trans ?_
        rw [hlookup]
        rfl
      have hevolves := ((hleases.acknowledged hawaits env.now).1.advance hr').2
      exact ⟨_, hevolves.acknowledged hlookup' rfl, hname, rfl, htoken⟩
    | renew leaseMs => exact absurd hop (by simp [Handling.op])
    | release delayMs => exact absurd hop (by simp [Handling.op])

/-! ### Every call -/

theorem later_of_reading {time : ℕ} (hread : s.reading p now id = some r) (hactive : r.status = .active)
    (htime : r.expiresAt = some time) : now < time := by
  obtain ⟨r₀, _, hresolve⟩ := Option.bind_eq_some_iff.mp hread
  exact (active_of_resolve hresolve hactive).2.2.2 time htime

/-- The event of a generation that is removed. -/
theorem Ledger.removal (h : Ledger calls now (s.reading p now)) (generation : String) :
    Ledger calls now fun id => (s.reading p now id).bind fun r => advance p now (waiveAt now generation r) := by
  refine h.mono (le_refl now) fun id r' hr' => ?_
  obtain ⟨r, hr, hadvance⟩ := Option.bind_eq_some_iff.mp hr'
  obtain ⟨hleased, hevolves⟩ := (h.leases id r hr).waiveAt now generation
  obtain ⟨hleased', hevolves'⟩ := hleased.advance hadvance
  refine ⟨r, hr, hleased', hevolves.trans hevolves', fun other hawaits => ?_⟩
  obtain ⟨rfl, _⟩ := active_of_advance hadvance hawaits.1
  unfold EventEngine.waiveAt at hawaits ⊢
  split at hawaits
  · next hwaives =>
    rw [if_pos hwaives]
    obtain ⟨hactive, recipient, hlookup, hpending⟩ := hawaits
    have hne : other ≠ generation := by
      rintro rfl
      have hwaived : (r.recipients.modify other waive).lookup other = some recipient := hlookup
      rw [Hash.lookup_modify_self] at hwaived
      obtain ⟨_, _, rfl⟩ := Option.map_eq_some_iff.mp hwaived
      exact absurd hpending (by simp [waive])
    have hsame : (r.recipients.modify generation waive).lookup other = r.recipients.lookup other :=
      Hash.lookup_modify_of_ne hne _ _
    exact ⟨⟨hactive, recipient, hsame.symm.trans hlookup, hpending⟩, rfl, hsame.symm⟩
  · next hnot =>
    rw [if_neg hnot]
    exact ⟨hawaits, rfl, rfl⟩

/-- A call that changes no reading. -/
theorem Ledger.sweeps (h : Ledger calls now (s.reading p now)) (hsweeps : Sweeps p now s s') (hquiet : call.Quiet) :
    Ledger (calls ++ [call]) now (s'.reading p now) := by
  rw [show s'.reading p now = s.reading p now from funext hsweeps.reading]
  exact h.quiet hquiet

theorem Ledger.outcome (h : Ledger calls call.env.now (s.reading call.env.policy call.env.now))
    (houtcome : Outcome call.env s call.op call.reply s') (hinvariant : EventInvariant call.env.policy call.env.now s)
    (hidentified : Identified calls s) (hfresh : Fresh (calls ++ [call])) :
    Ledger (calls ++ [call]) call.env.now (s'.reading call.env.policy call.env.now) := by
  have hnew : ∀ id, call.op.emits = some id → ¬ ∃ earlier ∈ calls, earlier.op.emits = some id :=
    fun id hid => not_mem_of_nodup hfresh.ids hid
  obtain ⟨env, op, reply⟩ := call
  dsimp only at h houtcome hinvariant hnew ⊢
  cases houtcome with
  | @subscribed name generation =>
    rw [reading_subscribe]
    exact h.quiet ⟨fun _ _ _ _ => rfl, fun _ _ _ => rfl, fun _ _ _ _ hop => absurd hop.1 (by simp)⟩
  | unregistered _ | duplicate _ =>
    exact h.quiet ⟨fun _ _ _ _ => rfl, fun _ _ _ => rfl, fun _ _ _ _ hop => absurd hop.1 (by simp)⟩
  | @unsubscribed name generation _ hregistered hsweeps =>
    have hread : s'.reading env.policy env.now = fun id =>
        (s.reading env.policy env.now id).bind fun r => advance env.policy env.now (waiveAt env.now generation r) :=
      funext fun id => (hsweeps.reading id).trans
        (reading_unregister (hidentified.current name generation (of_decide_eq_true hregistered)) id)
    rw [hread]
    exact (h.removal generation).quiet
      ⟨fun _ _ _ _ => rfl, fun _ _ _ => rfl, fun _ _ _ _ hop => absurd hop.1 (by simp)⟩
  | @emitted id queue payload ttlMs _ _ hanswered =>
    rw [show s'.reading env.policy env.now = _ from funext hanswered.reading,
      resolve_of_clean (clean_newEvent hidentified.current)]
    refine (h.emit (hnew id rfl) fun r' hr' => ?_).quiet
      ⟨fun _ _ _ _ => rfl, fun _ _ _ => rfl, fun _ _ _ _ hop => absurd hop.1 (by simp)⟩
    refine ⟨(leased_newEvent.advance hr').1, fun generation hawaits recipient hlookup => ?_⟩
    obtain ⟨rfl, _⟩ := active_of_advance hr' hawaits.1
    rw [(lookup_recipientsOf.1 recipient hlookup).1]
  | read hsweeps | maintained hsweeps | listed hsweeps _ =>
    exact h.sweeps hsweeps ⟨fun _ _ _ _ => rfl, fun _ _ _ => rfl, fun _ _ _ _ hop => absurd hop.1 (by simp)⟩
  | missing _ => exact h.quiet (quiet_of_idle (by simp))
  | idle _ hsweeps => exact h.sweeps hsweeps (quiet_of_idle (by simp))
  | @taken name generation token leaseMs id r _ _ htakes hanswered =>
    rw [show s'.reading env.policy env.now = _ from funext hanswered.reading]
    exact h.taken hinvariant hidentified htakes name token leaseMs
  | @gone _ _ _ _ handling _ _ hsweeps =>
    refine h.sweeps hsweeps (quiet_of_refused ?_ ?_) <;> cases handling <;> simp [Handling.gone]
  | refused _ hfault hsweeps =>
    exact h.sweeps hsweeps (quiet_of_refused (handlingFault_ne hfault).1 (handlingFault_ne hfault).2)
  | handled hread howns hanswered =>
    rw [show s'.reading env.policy env.now = _ from funext hanswered.reading]
    exact h.handled hidentified hread howns

/-! ### What is stored -/

/-- What a call stores was stored, or is the reading that it leaves. -/
theorem Outcome.stored (h : Outcome env s op reply s') (id : String) :
    s'.record id = s.record id ∨ s'.record id = s'.reading env.policy env.now id := by
  cases h with
  | @subscribed name generation =>
    rcases subscribe_cases name generation s with heq | ⟨_, heq⟩ <;> exact Or.inl (by rw [heq])
  | unregistered _ | duplicate _ | missing _ => exact Or.inl rfl
  | unsubscribed _ hsweeps =>
    rw [hsweeps.reading id]
    exact hsweeps.record id
  | read hsweeps | idle _ hsweeps | gone _ hsweeps | refused _ _ hsweeps | maintained hsweeps | listed hsweeps _ =>
    rw [hsweeps.reading id]
    exact hsweeps.record id
  | emitted _ hanswered | taken _ _ hanswered | handled _ _ hanswered =>
    rw [hanswered.reading id]
    exact hanswered.record id

/-- What an event is after a call, unless it is new. -/
theorem Outcome.evolves (h : Outcome env s op reply s') (hleases : ∀ id r, s.reading env.policy env.now id = some r → Leased r)
    (hcurrent : ∀ name generation, s.subscriptions.lookup name = some generation → s.removed.lookup generation = none)
    (hr' : s'.reading env.policy env.now id = some r') :
    (∃ r, s.reading env.policy env.now id = some r ∧ Evolves r r') ∨ op.emits = some id := by
  have hupdate : ∀ {other : String} {after : Option EventRecord},
      Answered env.policy env.now s s' (Function.update (s.reading env.policy env.now) other after) →
      (id = other → after = some r' → (∃ r, s.reading env.policy env.now id = some r ∧ Evolves r r') ∨ op.emits = some id) →
      (∃ r, s.reading env.policy env.now id = some r ∧ Evolves r r') ∨ op.emits = some id := by
    intro other after hanswered hself
    have hread := (hanswered.reading id).symm.trans hr'
    by_cases heq : id = other
    · subst heq
      rw [Function.update_self] at hread
      exact hself rfl hread
    · rw [Function.update_of_ne heq] at hread
      exact Or.inl ⟨r', hread, .refl r'⟩
  cases h with
  | @subscribed name generation =>
    rw [reading_subscribe] at hr'
    exact Or.inl ⟨r', hr', .refl r'⟩
  | unregistered _ | duplicate _ | missing _ => exact Or.inl ⟨r', hr', .refl r'⟩
  | @unsubscribed name generation _ hregistered hsweeps =>
    rw [hsweeps.reading id, reading_unregister (hcurrent name generation (of_decide_eq_true hregistered)) id] at hr'
    obtain ⟨r, hr, hadvance⟩ := Option.bind_eq_some_iff.mp hr'
    obtain ⟨hleased, hevolves⟩ := (hleases id r hr).waiveAt env.now generation
    exact Or.inl ⟨r, hr, hevolves.trans (hleased.advance hadvance).2⟩
  | read hsweeps | idle _ hsweeps | gone _ hsweeps | refused _ _ hsweeps | maintained hsweeps | listed hsweeps _ =>
    exact Or.inl ⟨r', (hsweeps.reading id).symm.trans hr', .refl r'⟩
  | emitted _ hanswered => exact hupdate hanswered fun hid _ => Or.inr (hid ▸ rfl)
  | @taken _ _ token leaseMs _ r _ _ htakes hanswered =>
    refine hupdate hanswered fun hid hafter => Or.inl ?_
    subst hid
    obtain rfl := Option.some.inj hafter
    exact ⟨r, htakes.read, ((hleases id r htakes.read).leased htakes.awaits env token leaseMs).2⟩
  | handled hread howns hanswered =>
    refine hupdate hanswered fun hid hafter => Or.inl ?_
    subst hid
    exact ⟨_, hread, ((hleases id _ hread).handled howns.awaits hafter).2⟩

end

/-! ### Runs -/

/-- What a run with fresh identities knows of its deliveries. -/
structure Owned (calls : List EventCall) (state : ℕ × EventStore) : Prop where
  identified : Identified calls state.2
  ledger : Ledger calls state.1 fun id => state.2.config.bind fun p => state.2.reading p state.1 id
  leases : ∀ id r, state.2.record id = some r → Leased r

section

variable {calls later : List EventCall} {call : EventCall} {state state' final : ℕ × EventStore} {id : String}
  {r r' : EventRecord}

/-- The ledger at the instant of a call. -/
theorem Owned.ledger_at (h : Owned calls state) (hkept : Kept state) (hagree : ∀ existing ∈ state.2.config, existing = call.env.policy)
    (hle : state.1 ≤ call.env.now) : Ledger calls call.env.now (state.2.reading call.env.policy call.env.now) := by
  refine h.ledger.pass (p := call.env.policy) hle fun id => ?_
  unfold Kept at hkept
  cases hconfig : state.2.config with
  | none =>
    rw [hconfig] at hkept
    rw [show state.2 = .empty from hkept]
    rfl
  | some p =>
    obtain rfl := hagree p hconfig
    exact (reading_advance hle).symm

theorem quiet_of_conflict (hreply : call.reply = .fail .configurationConflict "Queue already exists with a different policy") :
    call.Quiet := by
  obtain ⟨env, op, reply⟩ := call
  dsimp only at hreply
  subst hreply
  refine ⟨fun _ _ _ _ => ?_, fun _ _ _ => ?_, fun _ _ _ _ h => absurd h.2 (by simp)⟩
  · cases op <;> rfl
  · cases op <;> rfl

theorem Owned.step (h : Owned calls state) (hkept : Kept state) (hfresh : Fresh (calls ++ [call]))
    (hstep : events.step state call state') : Owned (calls ++ [call]) state' := by
  rcases step_cases hkept hstep with ⟨⟨existing, hexisting, _⟩, hreply, heq⟩ | ⟨hagree, hinvariant, houtcome⟩
  · refine ⟨heq ▸ h.identified.append call, ?_, heq ▸ h.leases⟩
    rw [heq]
    refine (h.ledger.pass (p := existing) (hstep.2.1 ▸ hstep.1) fun id => ?_).quiet (quiet_of_conflict hreply)
    rw [show state.2.config = some existing from hexisting]
    exact (reading_advance (hstep.2.1 ▸ hstep.1)).symm
  · have hidentified : Identified calls (state.2.opened call.env.policy) := { h.identified with }
    have hledger : Ledger calls call.env.now ((state.2.opened call.env.policy).reading call.env.policy call.env.now) :=
      h.ledger_at hkept hagree hstep.1
    have hledger' := hledger.outcome houtcome hinvariant.opened hidentified hfresh
    refine ⟨hidentified.outcome hfresh houtcome, ?_, fun id r hr => ?_⟩
    · rw [show state'.2.config = some call.env.policy from houtcome.config, hstep.2.1]
      exact hledger'
    · rcases houtcome.stored id with heq | heq
      · exact h.leases id r (heq.symm.trans hr)
      · exact hledger'.leases id r (heq.symm.trans hr)

theorem run_owned (h : events.Run calls state) (hfresh : Fresh calls) : Owned calls state := by
  refine h.induction (P := fun calls state => Fresh calls → Owned calls state)
    (fun state hinitial _ => ?_) (fun calls state call state' hrun ih hstep hfresh => ?_) hfresh
  · rw [show state = (state.1, .empty) from Prod.ext rfl hinitial]
    exact ⟨.empty, .empty, fun _ _ hr => absurd hr (by simp [EventStore.empty])⟩
  · exact (ih hfresh.of_append).step (run_kept hrun) hfresh hstep

/-- A stored event was stored before, unless a call emits it. -/
theorem Owned.step_evolves (h : Owned calls state) (hkept : Kept state) (hstep : events.step state call state')
    (hr' : state'.2.record id = some r') :
    (∃ r, state.2.record id = some r ∧ Evolves r r') ∨ call.op.emits = some id := by
  rcases step_cases hkept hstep with ⟨_, _, heq⟩ | ⟨hagree, hinvariant, houtcome⟩
  · rw [heq] at hr'
    exact Or.inl ⟨r', hr', .refl r'⟩
  · rcases houtcome.stored id with heq | heq
    · exact Or.inl ⟨r', heq.symm.trans hr', .refl r'⟩
    · have hledger : Ledger calls call.env.now ((state.2.opened call.env.policy).reading call.env.policy call.env.now) :=
        h.ledger_at hkept hagree hstep.1
      refine (houtcome.evolves hledger.leases h.identified.current (heq.symm.trans hr')).imp_left ?_
      rintro ⟨r₁, hread, hevolves⟩
      obtain ⟨r, hr, hresolve⟩ := Option.bind_eq_some_iff.mp hread
      exact ⟨r, hr, ((h.leases id r hr).resolve hresolve).2.trans hevolves⟩

/-- An event that has been emitted is stored once: what is stored of it later evolves from what is stored now. -/
theorem path_evolves (h : events.Run calls state) (hpath : events.Path state later final) (hfresh : Fresh (calls ++ later))
    (hemitted : ∃ call ∈ calls, call.op.emits = some id) (hr' : final.2.record id = some r') :
    ∃ r, state.2.record id = some r ∧ Evolves r r' := by
  induction hpath generalizing r' with
  | nil => exact ⟨r', hr', .refl r'⟩
  | @snoc later middle _ call hpath hstep ih =>
    rw [← List.append_assoc] at hfresh
    have hrun := h.extend hpath
    rcases (run_owned hrun hfresh.of_append).step_evolves (run_kept hrun) hstep hr' with ⟨r₁, hr₁, hevolves⟩ | hemits
    · obtain ⟨r, hr, hevolves'⟩ := ih hfresh.of_append hr₁
      exact ⟨r, hr, hevolves'.trans hevolves⟩
    · obtain ⟨earlier, hearlier, hid⟩ := hemitted
      exact absurd ⟨earlier, List.mem_append_left _ hearlier, hid⟩ (not_mem_of_nodup hfresh.ids hemits)

end

end EffectMQ.EventEngine
