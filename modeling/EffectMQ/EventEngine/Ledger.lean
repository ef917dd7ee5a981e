import EffectMQ.EventEngine.Leases
import EffectMQ.EventEngine.Reference

/-!
# What the consumers know of their leases

A ledger that the consumers could keep from the calls and their replies alone: for each token the end of its lease, and
for each delivery the token that took it last. The records agree with it as long as the delivery is pending.
-/

namespace EffectMQ.EventEngine

open Redis Transition

/-- The end of the lease of a token after a call. A release or an acknowledgement gives the lease up. -/
def EventCall.leaseAfter (call : EventCall) (id generation token : String) (before : Option ℕ) : Option ℕ :=
  match call.op, call.reply with
  | .take _ taker _ _, .delivery (some (event, given)) =>
    if event.id = id ∧ taker = generation ∧ given = token then
      (event.recipients.lookup generation).bind fun recipient => recipient.leaseUntil
    else before
  | .renew event _ owner held leaseMs, .done =>
    if event = id ∧ owner = generation ∧ held = token then some (call.env.now + leaseMs) else before
  | .release event _ owner held _, .done => if event = id ∧ owner = generation ∧ held = token then none else before
  | .acknowledge event _ owner held, .acknowledgement .acknowledged =>
    if event = id ∧ owner = generation ∧ held = token then none else before
  | _, _ => before

def leaseOf (calls : List EventCall) (id generation token : String) : Option ℕ :=
  calls.foldl (fun before call => call.leaseAfter id generation token before) none

/-- The token of the latest take of a delivery. -/
def EventCall.takerAfter (call : EventCall) (id generation : String) (before : Option String) : Option String :=
  match call.op, call.reply with
  | .take _ taker _ _, .delivery (some (event, given)) => if event.id = id ∧ taker = generation then some given else before
  | _, _ => before

def lastTaker (calls : List EventCall) (id generation : String) : Option String :=
  calls.foldl (fun before call => call.takerAfter id generation before) none

/-- An acknowledgement that counts. -/
def EventCall.Acknowledges (call : EventCall) (id name generation token : String) : Prop :=
  call.op = .acknowledge id name generation token ∧ call.reply = .acknowledgement .acknowledged

/-- The instant by which a lease until `time` ends. -/
def EventRecord.cap (r : EventRecord) (time : ℕ) : ℕ := r.expiresAt.elim time (min time)

/-- What is known of one delivery, while its recipient is pending and always. -/
structure DeliveryKnown (now : ℕ) (lease : String → Option ℕ) (taker : Option String) (read : Option EventRecord)
    (generation : String) : Prop where
  holder : ∀ r ∈ read, r.Awaits generation → ∀ recipient, r.recipients.lookup generation = some recipient →
    ∀ token, recipient.leaseToken = some token →
      taker = some token ∧ ∃ time, lease token = some time ∧ recipient.leaseUntil = some (r.cap time)
  current : ∀ r ∈ read, r.Awaits generation → ∀ recipient, r.recipients.lookup generation = some recipient →
    ∀ token time, lease token = some time → now < time → recipient.leaseToken = some token
  exclusive : ∀ token token' time time', lease token = some time → lease token' = some time' → now < time →
    now < time' → token = token'

section

variable {env : EventEnv} {p : Policy} {now now' : ℕ} {id name generation token : String} {lease : String → Option ℕ}
  {taker : Option String} {read read' : Option EventRecord} {r r' : EventRecord} {s s' : EventStore}
  {subscriptions : Hash String}

theorem cap_cap (r : EventRecord) (time : ℕ) : r.cap (r.cap time) = r.cap time := by
  unfold EventRecord.cap
  cases r.expiresAt with
  | none => rfl
  | some deadline => simp

theorem cap_le (r : EventRecord) (time : ℕ) : r.cap time ≤ time := by
  unfold EventRecord.cap
  cases r.expiresAt with
  | none => exact le_refl _
  | some deadline => exact min_le_left _ _

theorem lt_cap (hlater : ∀ deadline ∈ r.expiresAt, now < deadline) {time : ℕ} (h : now < time) : now < r.cap time := by
  unfold EventRecord.cap
  cases hexpires : r.expiresAt with
  | none => exact h
  | some deadline => exact lt_min h (hlater deadline hexpires)

/-! ### One delivery -/

/-- A delivery that nothing was done to. -/
theorem DeliveryKnown.mono (h : DeliveryKnown now lease taker read generation) (hle : now ≤ now')
    (hread : ∀ r' ∈ read', r'.Awaits generation → ∃ r ∈ read, r.Awaits generation ∧ r.expiresAt = r'.expiresAt ∧
      r.recipients.lookup generation = r'.recipients.lookup generation) :
    DeliveryKnown now' lease taker read' generation where
  holder r' hr' hawaits recipient hlookup token htoken := by
    obtain ⟨r, hr, hawaits, hexpires, hsame⟩ := hread r' hr' hawaits
    obtain ⟨htaker, time, hlease, huntil⟩ := h.holder r hr hawaits recipient (hsame.trans hlookup) token htoken
    refine ⟨htaker, time, hlease, ?_⟩
    rw [huntil, EventRecord.cap, hexpires, EventRecord.cap]
  current r' hr' hawaits recipient hlookup token time hlease hlater := by
    obtain ⟨r, hr, hawaits, _, hsame⟩ := hread r' hr' hawaits
    exact h.current r hr hawaits recipient (hsame.trans hlookup) token time hlease (lt_of_le_of_lt hle hlater)
  exclusive token token' time time' hlease hlease' hlater hlater' :=
    h.exclusive token token' time time' hlease hlease' (lt_of_le_of_lt hle hlater) (lt_of_le_of_lt hle hlater')

/-- A delivery that has never been leased. -/
theorem DeliveryKnown.unleased (hlease : ∀ token, lease token = none)
    (hread : ∀ r ∈ read, r.Awaits generation → ∀ recipient, r.recipients.lookup generation = some recipient →
      recipient.leaseToken = none) : DeliveryKnown now lease taker read generation where
  holder r hr hawaits recipient hlookup token htoken := by
    rw [hread r hr hawaits recipient hlookup] at htoken
    exact absurd htoken (by simp)
  current _ _ _ _ _ token _ htime := absurd ((hlease token).symm.trans htime) (by simp)
  exclusive token _ _ _ htime := absurd ((hlease token).symm.trans htime) (by simp)

/-- A take, when no lease of the delivery is left. -/
theorem DeliveryKnown.taken (h : DeliveryKnown now lease taker (some r) generation) (hawaits : r.Awaits generation)
    (hlater : ∀ deadline ∈ r.expiresAt, now < deadline)
    (hdue : ∀ recipient, r.recipients.lookup generation = some recipient → ∀ time ∈ recipient.leaseUntil, time ≤ now)
    (token : String) (time : ℕ) :
    DeliveryKnown now (Function.update lease token (some (r.cap time))) (some token)
      (some (r.leased generation token (r.cap time))) generation := by
  obtain ⟨recipient, hlookup, _⟩ := hawaits.2
  -- an older lease that is not over would be in the record, and the delivery would not be due
  have hover : ∀ token' time', lease token' = some time' → time' ≤ now := by
    intro token' time' hlease
    by_contra hnot
    have htoken := h.current r rfl hawaits recipient hlookup token' time' hlease (not_le.mp hnot)
    obtain ⟨_, time'', hlease', huntil⟩ := h.holder r rfl hawaits recipient hlookup token' htoken
    obtain rfl := Option.some.inj (hlease.symm.trans hlease')
    exact absurd (hdue recipient hlookup _ huntil) (not_le.mpr (lt_cap hlater (not_le.mp hnot)))
  have hlookup' : (r.leased generation token (r.cap time)).recipients.lookup generation =
      some { recipient with leaseToken := some token, leaseUntil := some (r.cap time) } := by
    rw [EventRecord.leased, lookup_setRecipient_self, hlookup]
    rfl
  have hnew : ∀ token' time', Function.update lease token (some (r.cap time)) token' = some time' → now < time' →
      token' = token := by
    intro token' time' hlease hlater'
    by_contra hne
    rw [Function.update_of_ne hne] at hlease
    exact absurd (hover token' time' hlease) (not_le.mpr hlater')
  refine ⟨fun r' hr' _ recipient' hrecipient' token' htoken' => ?_, fun r' hr' _ recipient' hrecipient' token' time' hlease hlater' => ?_,
    fun token₁ token₂ time₁ time₂ h₁ h₂ hlater₁ hlater₂ => ?_⟩
  · obtain rfl := Option.some.inj hr'
    obtain rfl := Option.some.inj (hlookup'.symm.trans hrecipient')
    obtain rfl := Option.some.inj htoken'
    exact ⟨rfl, r.cap time, Function.update_self _ _ _, congrArg some (cap_cap r time).symm⟩
  · obtain rfl := Option.some.inj hr'
    obtain rfl := Option.some.inj (hlookup'.symm.trans hrecipient')
    rw [hnew token' time' hlease hlater']
  · rw [hnew token₁ time₁ h₁ hlater₁, hnew token₂ time₂ h₂ hlater₂]

/-- The end of a lease is moved or given up by its owner. -/
theorem DeliveryKnown.handled (h : DeliveryKnown now lease taker (some r) generation) (hawaits : r.Awaits generation)
    {recipient : Recipient} (hlookup : r.recipients.lookup generation = some recipient)
    (htoken : recipient.leaseToken = some token) {time : ℕ} (hunexpired : recipient.leaseUntil = some time)
    (hlater : now < time) (ends : Option ℕ)
    (hread : ∀ r' ∈ read', r'.Awaits generation → ∀ recipient', r'.recipients.lookup generation = some recipient' →
      recipient'.leaseToken = ends.map (fun _ => token) ∧ recipient'.leaseUntil = ends.map r'.cap) :
    DeliveryKnown now (Function.update lease token ends) taker read' generation := by
  obtain ⟨htaker, until', hlease, huntil⟩ := h.holder r rfl hawaits recipient hlookup token htoken
  have hunexpired' : now < until' := by
    obtain rfl := Option.some.inj (hunexpired.symm.trans huntil)
    exact lt_of_lt_of_le hlater (cap_le r until')
  -- the owner's lease is the only one that is not over
  have honly : ∀ token' time', Function.update lease token ends token' = some time' → now < time' →
      token' = token ∧ ends = some time' := by
    intro token' time' hends hlater'
    by_cases heq : token' = token
    · subst heq
      rw [Function.update_self] at hends
      exact ⟨rfl, hends⟩
    · rw [Function.update_of_ne heq] at hends
      exact absurd (h.exclusive token' token time' until' hends hlease hlater' hunexpired') heq
  refine ⟨fun r' hr' hawaits' recipient' hrecipient' token' htoken' => ?_,
    fun r' hr' hawaits' recipient' hrecipient' token' time' hends hlater' => ?_,
    fun token₁ token₂ time₁ time₂ h₁ h₂ hlater₁ hlater₂ => ?_⟩
  · obtain ⟨htoken'', huntil''⟩ := hread r' hr' hawaits' recipient' hrecipient'
    rw [htoken'] at htoken''
    obtain ⟨time', hends, rfl⟩ := Option.map_eq_some_iff.mp htoken''.symm
    refine ⟨htaker, time', by rw [Function.update_self, hends], ?_⟩
    rw [huntil'', hends]
    rfl
  · obtain ⟨rfl, hends'⟩ := honly token' time' hends hlater'
    rw [(hread r' hr' hawaits' recipient' hrecipient').1, hends']
    rfl
  · rw [(honly token₁ time₁ h₁ hlater₁).1, (honly token₂ time₂ h₂ hlater₂).1]

end

/-! ### The ledger -/

/-- The ledger agrees with what the events are at an instant. -/
structure Ledger (calls : List EventCall) (now : ℕ) (read : String → Option EventRecord) : Prop where
  leases : ∀ id r, read id = some r → Leased r
  known : ∀ id generation, DeliveryKnown now (leaseOf calls id generation) (lastTaker calls id generation) (read id) generation
  emitted : ∀ id generation token time, leaseOf calls id generation token = some time →
    ∃ call ∈ calls, call.op.emits = some id
  winners : ∀ call ∈ calls, ∀ id name generation token, call.Acknowledges id name generation token →
    (∃ call ∈ calls, call.op.emits = some id) ∧ ∀ r, read id = some r → ∃ recipient,
      r.recipients.lookup generation = some recipient ∧ recipient.name = name ∧ recipient.status = .acknowledged ∧
        recipient.leaseToken = some token

/-- A call that no lease and no acknowledgement depends on. -/
structure EventCall.Quiet (call : EventCall) : Prop where
  leaseAfter : ∀ id generation token before, call.leaseAfter id generation token before = before
  takerAfter : ∀ id generation before, call.takerAfter id generation before = before
  acknowledges : ∀ id name generation token, ¬ call.Acknowledges id name generation token

section

variable {env : EventEnv} {p : Policy} {now now' : ℕ} {id generation : String} {calls : List EventCall} {call : EventCall}
  {read read' : String → Option EventRecord} {after : Option EventRecord} {r r' : EventRecord}

theorem leaseOf_append (calls : List EventCall) (call : EventCall) (id generation token : String) :
    leaseOf (calls ++ [call]) id generation token = call.leaseAfter id generation token (leaseOf calls id generation token) := by
  rw [leaseOf, List.foldl_append]
  rfl

theorem lastTaker_append (calls : List EventCall) (call : EventCall) (id generation : String) :
    lastTaker (calls ++ [call]) id generation = call.takerAfter id generation (lastTaker calls id generation) := by
  rw [lastTaker, List.foldl_append]
  rfl

theorem emits_append (h : ∃ call ∈ calls, call.op.emits = some id) (call : EventCall) :
    ∃ earlier ∈ calls ++ [call], earlier.op.emits = some id :=
  h.imp fun _ hcall => ⟨List.mem_append_left _ hcall.1, hcall.2⟩

theorem Ledger.empty : Ledger [] now fun _ => none where
  leases _ _ h := absurd h (by simp)
  known _ _ := .unleased (fun _ => rfl) fun _ h => absurd h (by simp)
  emitted _ _ _ _ h := absurd h (by simp [leaseOf])
  winners _ h := absurd h (by simp)

/-- A recipient that is acknowledged stays so. -/
theorem Evolves.acknowledged (h : Evolves r r') {recipient : Recipient}
    (hlookup : r.recipients.lookup generation = some recipient) (hstatus : recipient.status = .acknowledged) :
    r'.recipients.lookup generation = some recipient := by
  obtain ⟨recipient', hlookup', _, hsettled⟩ := (h generation).2 recipient hlookup
  rwa [hsettled (by simp [hstatus])] at hlookup'

/-- Events that go on by themselves. -/
theorem Ledger.mono (h : Ledger calls now read) (hle : now ≤ now')
    (hread : ∀ id r', read' id = some r' → ∃ r, read id = some r ∧ Leased r' ∧ Evolves r r' ∧
      ∀ generation, r'.Awaits generation → r.Awaits generation ∧ r.expiresAt = r'.expiresAt ∧
        r.recipients.lookup generation = r'.recipients.lookup generation) : Ledger calls now' read' where
  leases id r' hr' := by
    obtain ⟨_, _, hleased, _⟩ := hread id r' hr'
    exact hleased
  known id generation := (h.known id generation).mono hle fun r' hr' hawaits => by
    obtain ⟨r, hr, _, _, hsame⟩ := hread id r' hr'
    exact ⟨r, hr, hsame generation hawaits⟩
  emitted := h.emitted
  winners call hcall id name generation token hacknowledges := by
    obtain ⟨hemits, hwon⟩ := h.winners call hcall id name generation token hacknowledges
    refine ⟨hemits, fun r' hr' => ?_⟩
    obtain ⟨r, hr, _, hevolves, _⟩ := hread id r' hr'
    obtain ⟨recipient, hlookup, hrecipient⟩ := hwon r hr
    exact ⟨recipient, hevolves.acknowledged hlookup hrecipient.2.1, hrecipient⟩

/-- Time passes. -/
theorem Ledger.pass (h : Ledger calls now read) (hle : now ≤ now')
    (hread : ∀ id, read' id = (read id).bind (advance p now')) : Ledger calls now' read' := by
  refine h.mono hle fun id r' hr' => ?_
  rw [hread] at hr'
  obtain ⟨r, hr, hadvance⟩ := Option.bind_eq_some_iff.mp hr'
  obtain ⟨hleased, hevolves⟩ := (h.leases id r hr).advance hadvance
  refine ⟨r, hr, hleased, hevolves, fun generation hawaits => ?_⟩
  obtain ⟨rfl, _⟩ := active_of_advance hadvance hawaits.1
  exact ⟨hawaits, rfl, rfl⟩

theorem Ledger.quiet (h : Ledger calls now read) (hquiet : call.Quiet) : Ledger (calls ++ [call]) now read where
  leases := h.leases
  known id generation := by
    have hlease : leaseOf (calls ++ [call]) id generation = leaseOf calls id generation :=
      funext fun token => (leaseOf_append calls call id generation token).trans (hquiet.leaseAfter _ _ _ _)
    rw [hlease, lastTaker_append, hquiet.takerAfter]
    exact h.known id generation
  emitted id generation token time hlease := by
    rw [leaseOf_append, hquiet.leaseAfter] at hlease
    exact emits_append (h.emitted id generation token time hlease) call
  winners earlier hearlier id name generation token hacknowledges := by
    rcases List.mem_append.mp hearlier with hmem | hmem
    · exact (h.winners earlier hmem id name generation token hacknowledges).imp_left fun hemits => emits_append hemits call
    · obtain rfl := List.mem_singleton.mp hmem
      exact absurd hacknowledges (hquiet.acknowledges id name generation token)

/-- An event that is new to the ledger. -/
theorem Ledger.emit (h : Ledger calls now read) (hnew : ¬ ∃ call ∈ calls, call.op.emits = some id)
    (hafter : ∀ r' ∈ after, Leased r' ∧ ∀ generation, r'.Awaits generation → ∀ recipient,
      r'.recipients.lookup generation = some recipient → recipient.leaseToken = none) : Ledger calls now (Function.update read id after) where
  leases other r' hr' := by
    by_cases heq : other = id
    · subst heq
      rw [Function.update_self] at hr'
      exact (hafter r' hr').1
    · rw [Function.update_of_ne heq] at hr'
      exact h.leases other r' hr'
  known other generation := by
    by_cases heq : other = id
    · subst heq
      rw [Function.update_self]
      refine .unleased (fun token => ?_) fun r' hr' => (hafter r' hr').2 generation
      by_contra hne
      obtain ⟨time, htime⟩ := Option.ne_none_iff_exists'.mp hne
      exact hnew (h.emitted other generation token time htime)
    · rw [Function.update_of_ne heq]
      exact h.known other generation
  emitted := h.emitted
  winners call hcall other name generation token hacknowledges := by
    obtain ⟨hemits, hwon⟩ := h.winners call hcall other name generation token hacknowledges
    refine ⟨hemits, fun r' hr' => ?_⟩
    have hne : other ≠ id := by
      rintro rfl
      exact hnew hemits
    rw [Function.update_of_ne hne] at hr'
    exact hwon r' hr'

/-- A call on one delivery. -/
theorem Ledger.update (h : Ledger calls now read) (generation : String) (hr : read id = some r) (hemits : ∃ call ∈ calls, call.op.emits = some id)
    (hothers : ∀ other generation', (other = id → generation' = generation → False) →
      (∀ token before, call.leaseAfter other generation' token before = before) ∧
        ∀ before, call.takerAfter other generation' before = before)
    (hself : DeliveryKnown now (leaseOf (calls ++ [call]) id generation) (lastTaker (calls ++ [call]) id generation) after
      generation)
    (hafter : ∀ r' ∈ after, Leased r' ∧ Evolves r r' ∧ ∀ generation', generation' ≠ generation → r'.Awaits generation' →
      r.Awaits generation' ∧ r.expiresAt = r'.expiresAt ∧
        r.recipients.lookup generation' = r'.recipients.lookup generation')
    (hwins : ∀ other name generation' token, call.Acknowledges other name generation' token → other = id ∧
      ∀ r' ∈ after, ∃ recipient, r'.recipients.lookup generation' = some recipient ∧ recipient.name = name ∧
        recipient.status = .acknowledged ∧ recipient.leaseToken = some token) :
    Ledger (calls ++ [call]) now (Function.update read id after) where
  leases other r' hr' := by
    by_cases heq : other = id
    · subst heq
      rw [Function.update_self] at hr'
      exact (hafter r' hr').1
    · rw [Function.update_of_ne heq] at hr'
      exact h.leases other r' hr'
  known other generation' := by
    by_cases hpair : other = id ∧ generation' = generation
    · obtain ⟨rfl, rfl⟩ := hpair
      rw [Function.update_self]
      exact hself
    · obtain ⟨hlease, htaker⟩ := hothers other generation' fun hid hgeneration => hpair ⟨hid, hgeneration⟩
      have hlease : leaseOf (calls ++ [call]) other generation' = leaseOf calls other generation' :=
        funext fun token => (leaseOf_append calls call other generation' token).trans (hlease _ _)
      rw [hlease, lastTaker_append, htaker]
      by_cases heq : other = id
      · subst heq
        rw [Function.update_self]
        refine (h.known other generation').mono (le_refl now) fun r' hr' hawaits => ⟨r, hr, ?_⟩
        exact (hafter r' hr').2.2 generation' (fun hgeneration => hpair ⟨rfl, hgeneration⟩) hawaits
      · rw [Function.update_of_ne heq]
        exact h.known other generation'
  emitted other generation' token time hlease := by
    by_cases hpair : other = id ∧ generation' = generation
    · exact hpair.1 ▸ emits_append hemits call
    · rw [leaseOf_append, (hothers other generation' fun hid hgeneration => hpair ⟨hid, hgeneration⟩).1] at hlease
      exact emits_append (h.emitted other generation' token time hlease) call
  winners earlier hearlier other name generation' token hacknowledges := by
    rcases List.mem_append.mp hearlier with hmem | hmem
    · obtain ⟨hemits', hwon⟩ := h.winners earlier hmem other name generation' token hacknowledges
      refine ⟨emits_append hemits' call, fun r' hr' => ?_⟩
      by_cases heq : other = id
      · subst heq
        rw [Function.update_self] at hr'
        obtain ⟨recipient, hlookup, hrecipient⟩ := hwon r hr
        exact ⟨recipient, (hafter r' hr').2.1.acknowledged hlookup hrecipient.2.1, hrecipient⟩
      · rw [Function.update_of_ne heq] at hr'
        exact hwon r' hr'
    · obtain rfl := List.mem_singleton.mp hmem
      obtain ⟨rfl, hwon⟩ := hwins other name generation' token hacknowledges
      refine ⟨emits_append hemits earlier, fun r' hr' => ?_⟩
      rw [Function.update_self] at hr'
      exact hwon r' hr'

end

end EffectMQ.EventEngine
