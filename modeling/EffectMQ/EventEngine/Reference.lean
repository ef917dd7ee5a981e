import EffectMQ.EventEngine.Calls

/-!
# The reference event queue

A queue in which everything happens on time: a removed generation is waived when it is removed, an event completes or
expires at its moment and is gone when its retention runs out. Nothing is indexed and nothing is swept.
-/

namespace EffectMQ.EventEngine

open Redis Transition

/-- The reference state: every event as it is at the present instant. -/
structure Reference where
  config : Option Policy
  subscriptions : Hash String
  event : String → Option EventRecord

def Reference.empty : Reference where
  config := none
  subscriptions := ∅
  event _ := none

def Reference.put (R : Reference) (id : String) (r : Option EventRecord) : Reference :=
  { R with event := Function.update R.event id r }

/-- Time passes for every event. -/
def Reference.pass (now : ℕ) (R : Reference) : Reference :=
  { R with event := fun id => R.config.bind fun p => (R.event id).bind (advance p now) }

def Reference.subscribe (name generation : String) (R : Reference) : Option EventReply × Reference :=
  match R.subscriptions.lookup name with
  | some existing => (some (.subscription name existing), R)
  | none =>
    if 1000 ≤ R.subscriptions.keys.length then (some (.fail .capacityExceeded "Queue has 1000 active subscriptions"), R)
    else (some (.subscription name generation), { R with subscriptions := R.subscriptions.insert name generation })

def Reference.handle (env : EventEnv) (id name generation token : String) (handling : Handling) (R : Reference) :
    Option EventReply × Reference :=
  match R.event id with
  | none => (some handling.gone, R)
  | some r =>
    match handlingFault env name generation token handling r R.subscriptions with
    | some fault => (some fault, R)
    | none => (some handling.reply, R.put id (handled env generation handling r))

/-- One call at its instant, where a take leases the event `leased`. What a sweep replies is its own affair. -/
def Reference.call (env : EventEnv) (leased : Option String) (R : Reference) : EventOp → Option EventReply × Reference
  | .subscribe name generation => R.subscribe name generation
  | .unsubscribe name generation =>
    if registered name generation R.subscriptions = false then (some (.unsubscribed false), R)
    else
      (some (.unsubscribed true), { R with
        subscriptions := R.subscriptions.erase name
        event := fun id => (R.event id).bind fun r => advance env.policy env.now (waiveAt env.now generation r) })
  | .emit id queue payload ttlMs =>
    let r := newEvent env id queue payload ttlMs R.subscriptions
    (some (.emitted (finish env.policy env.now r)), R.put id (advance env.policy env.now r))
  | .get id => (some (.event (R.event id)), R)
  | .take name generation token leaseMs =>
    if registered name generation R.subscriptions = false then
      (some (.fail .subscriptionMissing "Subscription generation is no longer registered"), R)
    else
      match leased with
      | none => (some (.delivery none), R)
      | some id =>
        let leaseOf := fun r : EventRecord => r.leased generation token (leaseEnd env r leaseMs)
        (some (.delivery ((R.event id).map fun r => (leaseOf r, token))), R.put id ((R.event id).map leaseOf))
  | .acknowledge id name generation token => R.handle env id name generation token .acknowledge
  | .renew id name generation token leaseMs => R.handle env id name generation token (.renew leaseMs)
  | .release id name generation token delayMs => R.handle env id name generation token (.release delayMs)
  | .maintain => (none, R)
  | .listArchived _ _ => (none, R)

/-- The event that a take leased. -/
def EventReply.leased : EventReply → Option String
  | .delivery delivered => delivered.map fun d => d.1.id
  | _ => none

/-- A call after the time that has passed; only a call with the policy of the queue is served. -/
def Reference.serve (R : Reference) (call : EventCall) : Option EventReply × Reference :=
  let R := R.pass call.env.now
  if ∃ existing ∈ R.config, existing ≠ call.env.policy then
    (some (.fail .configurationConflict "Queue already exists with a different policy"), R)
  else { R with config := some call.env.policy }.call call.env call.reply.leased call.op

/-- The reference after a list of calls. -/
def Reference.follow (calls : List EventCall) : Reference := calls.foldl (fun R call => (R.serve call).2) .empty

/-! ### Identities -/

/-- The id that a call gives to a new event. -/
def EventOp.emits : EventOp → Option String
  | .emit id _ _ _ => some id
  | _ => none

/-- The generation that a call proposes for a subscription. -/
def EventOp.proposes : EventOp → Option String
  | .subscribe _ generation => some generation
  | _ => none

/-- Every event has an id of its own and every subscription that is proposed a generation of its own. -/
structure Fresh (calls : List EventCall) : Prop where
  ids : (calls.filterMap fun call => call.op.emits).Nodup
  generations : (calls.filterMap fun call => call.op.proposes).Nodup

/-- What fresh identities make of a store. -/
structure Identified (calls : List EventCall) (s : EventStore) : Prop where
  emitted : ∀ id, (s.record id).isSome → ∃ call ∈ calls, call.op.emits = some id
  proposed : ∀ name generation, s.subscriptions.lookup name = some generation →
    ∃ call ∈ calls, call.op.proposes = some generation
  removed : ∀ generation, (s.removed.lookup generation).isSome → ∃ call ∈ calls, call.op.proposes = some generation
  current : ∀ name generation, s.subscriptions.lookup name = some generation → s.removed.lookup generation = none
  unique : ∀ name name' generation, s.subscriptions.lookup name = some generation →
    s.subscriptions.lookup name' = some generation → name' = name

section

variable {env : EventEnv} {p : Policy} {now now' : ℕ} {id generation : String} {op : EventOp} {reply : EventReply}
  {s s' : EventStore} {calls : List EventCall} {call : EventCall} {state state' : ℕ × EventStore} {R : Reference}

theorem Fresh.of_append {rest : List EventCall} (h : Fresh (calls ++ rest)) : Fresh calls where
  ids := by
    have hids := h.ids
    rw [List.filterMap_append] at hids
    exact hids.of_append_left
  generations := by
    have hgenerations := h.generations
    rw [List.filterMap_append] at hgenerations
    exact hgenerations.of_append_left

/-- A fresh identity does not occur before. -/
theorem not_mem_of_nodup {f : EventCall → Option String} {a : String} (h : ((calls ++ [call]).filterMap f).Nodup)
    (ha : f call = some a) : ¬ ∃ earlier ∈ calls, f earlier = some a := by
  rintro ⟨earlier, hmem, hearlier⟩
  rw [List.filterMap_append, List.nodup_append] at h
  exact h.2.2 a (List.mem_filterMap.mpr ⟨earlier, hmem, hearlier⟩) a (by simp [ha]) rfl

theorem isSome_of_reading (h : (s.reading p now id).isSome) : (s.record id).isSome := by
  unfold EventStore.reading at h
  cases hr : s.record id with
  | none =>
    rw [hr] at h
    exact absurd h (by simp)
  | some r => rfl

theorem Sweeps.isSome (h : Sweeps p now s s') (hsome : (s'.record id).isSome) : (s.record id).isSome := by
  rcases h.record id with heq | heq
  · rwa [← heq]
  · exact isSome_of_reading (heq ▸ hsome)

theorem Answered.isSome {other : String} {r : Option EventRecord}
    (h : Answered p now s s' (Function.update (s.reading p now) other r)) (hsome : (s'.record id).isSome) :
    id = other ∨ (s.record id).isSome := by
  by_cases hid : id = other
  · exact Or.inl hid
  · refine Or.inr ?_
    rcases h.record id with heq | heq
    · rwa [← heq]
    · rw [Function.update_of_ne hid] at heq
      exact isSome_of_reading (heq ▸ hsome)

/-- Only an emission stores an event that was not there. -/
theorem Outcome.isSome (h : Outcome env s op reply s') (hsome : (s'.record id).isSome) :
    (s.record id).isSome ∨ op.emits = some id := by
  cases h with
  | @subscribed name generation =>
    refine Or.inl ?_
    rcases subscribe_cases name generation s with heq | ⟨_, heq⟩ <;> rwa [heq] at hsome
  | unregistered _ | duplicate _ | missing _ => exact Or.inl hsome
  | unsubscribed _ hsweeps => exact Or.inl (hsweeps.isSome hsome)
  | read hsweeps | idle _ hsweeps | gone _ hsweeps | refused _ _ hsweeps | maintained hsweeps | listed hsweeps _ =>
    exact Or.inl (hsweeps.isSome hsome)
  | emitted _ hanswered =>
    rcases hanswered.isSome hsome with rfl | hbefore
    · exact Or.inr rfl
    · exact Or.inl hbefore
  | taken _ htakes hanswered =>
    rcases hanswered.isSome hsome with rfl | hbefore
    · exact Or.inl (isSome_of_reading (p := env.policy) (by rw [htakes.read]; rfl))
    · exact Or.inl hbefore
  | handled hread _ hanswered =>
    rcases hanswered.isSome hsome with rfl | hbefore
    · exact Or.inl (isSome_of_reading (p := env.policy) (by rw [hread]; rfl))
    · exact Or.inl hbefore

/-- Only a removal remembers a generation. -/
theorem Outcome.removed (h : Outcome env s op reply s') (hsome : (s'.removed.lookup generation).isSome) :
    (s.removed.lookup generation).isSome ∨
      ∃ name, op = .unsubscribe name generation ∧ s.subscriptions.lookup name = some generation ∧
        s'.subscriptions = s.subscriptions.erase name := by
  have hforgets : ∀ {t t' : EventStore}, (t'.removed.lookup generation = t.removed.lookup generation ∨
      t'.removed.lookup generation = none) → (t'.removed.lookup generation).isSome → (t.removed.lookup generation).isSome := by
    rintro t t' (heq | heq) hsome
    · rwa [← heq]
    · rw [heq] at hsome
      exact absurd hsome (by simp)
  cases h with
  | @subscribed name generation =>
    refine Or.inl ?_
    rcases subscribe_cases name generation s with heq | ⟨_, heq⟩ <;> rwa [heq] at hsome
  | unregistered _ | duplicate _ | missing _ => exact Or.inl hsome
  | @unsubscribed name generation' _ hregistered hsweeps =>
    have hsome' := hforgets (hsweeps.removed generation) hsome
    by_cases heq : generation = generation'
    · subst heq
      exact Or.inr ⟨name, rfl, of_decide_eq_true hregistered, hsweeps.subscriptions⟩
    · rw [unregister, AList.lookup_insert_ne heq] at hsome'
      exact Or.inl hsome'
  | read hsweeps | idle _ hsweeps | gone _ hsweeps | refused _ _ hsweeps | maintained hsweeps | listed hsweeps _ =>
    exact Or.inl (hforgets (hsweeps.removed generation) hsome)
  | emitted _ hanswered | taken _ _ hanswered | handled _ _ hanswered =>
    exact Or.inl (hforgets (hanswered.removed generation) hsome)

/-- What a call does to the subscriptions. -/
theorem Outcome.subscriptions (h : Outcome env s op reply s') :
    s'.subscriptions = s.subscriptions ∨
    (∃ name generation, op = .subscribe name generation ∧ s.subscriptions.lookup name = none ∧
      s' = { s with subscriptions := s.subscriptions.insert name generation }) ∨
    ∃ name generation, op = .unsubscribe name generation ∧ s.subscriptions.lookup name = some generation ∧
      s'.subscriptions = s.subscriptions.erase name := by
  cases h with
  | @subscribed name generation =>
    rcases subscribe_cases name generation s with heq | ⟨hlookup, heq⟩
    · exact Or.inl (by rw [heq])
    · exact Or.inr (Or.inl ⟨name, generation, rfl, hlookup, heq⟩)
  | unregistered _ | duplicate _ | missing _ => exact Or.inl rfl
  | @unsubscribed name generation _ hregistered hsweeps =>
    exact Or.inr (Or.inr ⟨name, generation, rfl, of_decide_eq_true hregistered, hsweeps.subscriptions⟩)
  | read hsweeps | idle _ hsweeps | gone _ hsweeps | refused _ _ hsweeps | maintained hsweeps | listed hsweeps _ =>
    exact Or.inl hsweeps.subscriptions
  | emitted _ hanswered | taken _ _ hanswered | handled _ _ hanswered => exact Or.inl hanswered.subscriptions

theorem Identified.empty : Identified [] .empty where
  emitted _ h := absurd h (by simp [EventStore.empty])
  proposed _ _ h := absurd h (by simp [EventStore.empty])
  removed _ h := absurd h (by simp [EventStore.empty])
  current _ _ h := absurd h (by simp [EventStore.empty])
  unique _ _ _ h := absurd h (by simp [EventStore.empty])

/-- A call that changes nothing. -/
theorem Identified.append (h : Identified calls s) (call : EventCall) : Identified (calls ++ [call]) s where
  emitted id hid := (h.emitted id hid).imp fun _ hcall => ⟨List.mem_append_left _ hcall.1, hcall.2⟩
  proposed name generation hname := (h.proposed name generation hname).imp fun _ hcall =>
    ⟨List.mem_append_left _ hcall.1, hcall.2⟩
  removed generation hsome := (h.removed generation hsome).imp fun _ hcall => ⟨List.mem_append_left _ hcall.1, hcall.2⟩
  current := h.current
  unique := h.unique

theorem Identified.outcome (h : Identified calls s) (hfresh : Fresh (calls ++ [call]))
    (houtcome : Outcome env s call.op reply s') : Identified (calls ++ [call]) s' := by
  have hlast : call ∈ calls ++ [call] := by simp
  have happend := h.append call
  -- a generation stays unremembered while it is registered
  have hstays : ∀ name generation, s.subscriptions.lookup name = some generation →
      s'.subscriptions.lookup name = some generation → s'.removed.lookup generation = none := by
    intro name generation hname hname'
    by_contra hne
    rcases houtcome.removed (Option.isSome_iff_ne_none.mpr hne) with hbefore | ⟨name', _, hregistered, heq⟩
    · rw [h.current name generation hname] at hbefore
      exact absurd hbefore (by simp)
    · obtain rfl := h.unique name name' generation hname hregistered
      rw [heq, AList.lookup_erase] at hname'
      exact absurd hname' (by simp)
  have hremoved : ∀ generation, (s'.removed.lookup generation).isSome →
      ∃ earlier ∈ calls ++ [call], earlier.op.proposes = some generation := by
    intro generation hsome
    rcases houtcome.removed hsome with hbefore | ⟨name, _, hname, _⟩
    · exact happend.removed generation hbefore
    · exact happend.proposed name generation hname
  have hemitted : ∀ id, (s'.record id).isSome → ∃ earlier ∈ calls ++ [call], earlier.op.emits = some id := by
    intro id hid
    rcases houtcome.isSome hid with hbefore | hemits
    · exact happend.emitted id hbefore
    · exact ⟨call, hlast, hemits⟩
  rcases houtcome.subscriptions with heq | ⟨name, generation, hop, hnone, rfl⟩ | ⟨name, generation, _, _, heq⟩
  · rw [heq] at hstays
    exact ⟨hemitted, heq ▸ happend.proposed, hremoved, fun name generation hname =>
      hstays name generation (heq ▸ hname) (heq ▸ hname), heq ▸ h.unique⟩
  · have hproposes : call.op.proposes = some generation := by rw [hop]; rfl
    have hnew := not_mem_of_nodup hfresh.generations hproposes
    have hlookup : ∀ other generation', (s.subscriptions.insert name generation).lookup other = some generation' →
        other = name ∧ generation' = generation ∨ other ≠ name ∧ s.subscriptions.lookup other = some generation' := by
      intro other generation' hother
      by_cases heq : other = name
      · subst heq
        rw [AList.lookup_insert, Option.some.injEq] at hother
        exact Or.inl ⟨rfl, hother.symm⟩
      · rw [AList.lookup_insert_ne heq] at hother
        exact Or.inr ⟨heq, hother⟩
    refine ⟨hemitted, fun other generation' hother => ?_, hremoved, fun other generation' hother => ?_,
      fun other other' generation' hother hother' => ?_⟩
    · rcases hlookup other generation' hother with ⟨rfl, rfl⟩ | ⟨_, hbefore⟩
      · exact ⟨call, hlast, hproposes⟩
      · exact happend.proposed other generation' hbefore
    · rcases hlookup other generation' hother with ⟨rfl, rfl⟩ | ⟨_, hbefore⟩
      · by_contra hne
        exact hnew (h.removed generation' (Option.isSome_iff_ne_none.mpr hne))
      · exact h.current other generation' hbefore
    · rcases hlookup other generation' hother with ⟨rfl, rfl⟩ | ⟨_, hbefore⟩
      · rcases hlookup other' generation' hother' with ⟨rfl, _⟩ | ⟨_, hbefore'⟩
        · rfl
        · exact absurd (h.proposed other' generation' hbefore') hnew
      · rcases hlookup other' generation' hother' with ⟨rfl, rfl⟩ | ⟨_, hbefore'⟩
        · exact absurd (h.proposed other generation' hbefore) hnew
        · exact h.unique other other' generation' hbefore hbefore'
  · have hbefore : ∀ other generation', s'.subscriptions.lookup other = some generation' →
        s.subscriptions.lookup other = some generation' := by
      intro other generation' hother
      rw [heq] at hother
      by_cases hname : other = name
      · subst hname
        rw [AList.lookup_erase] at hother
        exact absurd hother (by simp)
      · rwa [AList.lookup_erase_ne hname] at hother
    exact ⟨hemitted, fun other generation' hother => happend.proposed other generation' (hbefore other generation' hother),
      hremoved, fun other generation' hother => hstays other generation' (hbefore other generation' hother) hother,
      fun other other' generation' hother hother' =>
        h.unique other other' generation' (hbefore other generation' hother) (hbefore other' generation' hother')⟩

/-- A new event is waived for nobody: its recipients are registered. -/
theorem clean_newEvent {queue payload : String} {ttlMs : Option ℕ}
    (h : ∀ name generation, s.subscriptions.lookup name = some generation → s.removed.lookup generation = none) :
    Clean s.removed (newEvent env id queue payload ttlMs s.subscriptions) := fun generation recipient hlookup =>
  waivedAt_of_not_removed (h recipient.name generation (lookup_recipientsOf.1 recipient hlookup).2)

end

end EffectMQ.EventEngine
