import EffectMQ.EventEngine.Operations
import EffectMQ.Transition.System

/-!
# Runs of an event queue

What one call can do, and an event queue as a transition system of calls, under a clock that does not go back.
-/

namespace EffectMQ.EventEngine

open Redis Transition

def Handling.op (id name generation token : String) : Handling → EventOp
  | .acknowledge => .acknowledge id name generation token
  | .renew leaseMs => .renew id name generation token leaseMs
  | .release delayMs => .release id name generation token delayMs

/-- What a call can reply and leave, in a queue that has its policy. -/
inductive Outcome (env : EventEnv) (s : EventStore) : EventOp → EventReply → EventStore → Prop
  | subscribed {name generation : String} :
    Outcome env s (.subscribe name generation) (subscribe name generation s).1 (subscribe name generation s).2
  | unregistered {name generation : String} (hunregistered : registered name generation s.subscriptions = false) :
    Outcome env s (.unsubscribe name generation) (.unsubscribed false) s
  | unsubscribed {name generation : String} {s' : EventStore} (hregistered : registered name generation s.subscriptions = true)
      (hsweeps : Sweeps env.policy env.now (unregister env.now name generation s) s') :
    Outcome env s (.unsubscribe name generation) (.unsubscribed true) s'
  | duplicate {id queue payload : String} {ttlMs : Option ℕ} (hexists : (s.record id).isSome) :
    Outcome env s (.emit id queue payload ttlMs) (.fail .invalidInput "Event id already exists") s
  | emitted {id queue payload : String} {ttlMs : Option ℕ} {s' : EventStore} (hnew : s.record id = none)
      (hanswered : Answered env.policy env.now s s' (Function.update (s.reading env.policy env.now) id
        (resolve env.policy s.removed env.now (newEvent env id queue payload ttlMs s.subscriptions)))) :
    Outcome env s (.emit id queue payload ttlMs) (.emitted (finish env.policy env.now
      (waiveActive s.removed (newEvent env id queue payload ttlMs s.subscriptions)))) s'
  | read {id : String} {s' : EventStore} (hsweeps : Sweeps env.policy env.now s s') :
    Outcome env s (.get id) (.event (s.reading env.policy env.now id)) s'
  | missing {name generation token : String} {leaseMs : ℕ}
      (hunregistered : registered name generation s.subscriptions = false) :
    Outcome env s (.take name generation token leaseMs)
      (.fail .subscriptionMissing "Subscription generation is no longer registered") s
  | idle {name generation token : String} {leaseMs : ℕ} {s' : EventStore}
      (hregistered : registered name generation s.subscriptions = true) (hsweeps : Sweeps env.policy env.now s s') :
    Outcome env s (.take name generation token leaseMs) (.delivery none) s'
  | taken {name generation token : String} {leaseMs : ℕ} {id : String} {r : EventRecord} {s' : EventStore}
      (hregistered : registered name generation s.subscriptions = true) (htakes : Takes env generation s id r)
      (hanswered : Answered env.policy env.now s s' (Function.update (s.reading env.policy env.now) id
        (some (r.leased generation token (leaseEnd env r leaseMs))))) :
    Outcome env s (.take name generation token leaseMs)
      (.delivery (some (r.leased generation token (leaseEnd env r leaseMs), token))) s'
  | gone {id name generation token : String} {handling : Handling} {s' : EventStore}
      (hread : s.reading env.policy env.now id = none) (hsweeps : Sweeps env.policy env.now s s') :
    Outcome env s (handling.op id name generation token) handling.gone s'
  | refused {id name generation token : String} {handling : Handling} {r : EventRecord} {fault : EventReply}
      {s' : EventStore} (hread : s.reading env.policy env.now id = some r)
      (hfault : handlingFault env name generation token handling r s.subscriptions = some fault)
      (hsweeps : Sweeps env.policy env.now s s') :
    Outcome env s (handling.op id name generation token) fault s'
  | handled {id name generation token : String} {handling : Handling} {r : EventRecord} {s' : EventStore}
      (hread : s.reading env.policy env.now id = some r)
      (howns : Owns env name generation token r s.subscriptions)
      (hanswered : Answered env.policy env.now s s'
        (Function.update (s.reading env.policy env.now) id (EventEngine.handled env generation handling r))) :
    Outcome env s (handling.op id name generation token) handling.reply s'
  | maintained {processed : ℕ} {s' : EventStore} (hsweeps : Sweeps env.policy env.now s s') :
    Outcome env s .maintain (.maintenance processed (pendingWork env s')) s'
  | listed {offset limit : ℕ} {ids : List String} {s' : EventStore} (hsweeps : Sweeps env.policy env.now s s')
      (hids : ∀ id ∈ ids, ∃ r, s.reading env.policy env.now id = some r ∧ r.status ≠ .active) :
    Outcome env s (.listArchived offset limit) (.archived ids) s'

/-- A queue once its policy is stored. -/
def EventStore.opened (s : EventStore) (p : Policy) : EventStore := { s with config := some p }

section

variable {env : EventEnv} {p : Policy} {now : ℕ} {id name generation : String} {op : EventOp} {reply : EventReply}
  {r : EventRecord} {s s' : EventStore}

theorem EventInvariant.opened (h : EventInvariant p now s) : EventInvariant p now (s.opened p) := { h with }

theorem EventInvariant.empty : EventInvariant p now .empty where
  sound _ _ h := absurd h (by simp [EventStore.empty])
  indexed _ := ⟨fun _ => by simp [EventStore.event, EventStore.empty], fun _ h => absurd h (by simp [EventStore.event, EventStore.empty]),
    rfl, rfl, rfl⟩
  live _ _ h := absurd h (by simp [EventStore.empty])
  retired _ := rfl
  removedAt _ _ h := absurd h (by simp [EventStore.empty])
  owed _ _ _ _ h := absurd h (by simp [EventStore.empty])

/-- A call with another policy than that of the queue changes nothing. -/
theorem exec_of_conflict (h : ∃ existing ∈ s.config, existing ≠ env.policy) :
    exec env op s = (.fail .configurationConflict "Queue already exists with a different policy", s) := by
  have hdispatch : dispatch env op s =
      .ok (.fail .configurationConflict "Queue already exists with a different policy") s := by
    unfold dispatch
    rw [bind_ok (get_ok s), if_pos h]
    rfl
  rw [exec, hdispatch]

theorem handle_outcome (h : EventInvariant env.policy env.now s) (id name generation token : String) (handling : Handling) :
    ∃ reply s', handle env id name generation token handling s = .ok reply s' ∧
      Outcome env s (handling.op id name generation token) reply s' := by
  obtain ⟨s', hspec⟩ := handle_spec h id name generation token handling
  cases hread : s.reading env.policy env.now id with
  | none =>
    rw [hread] at hspec
    exact ⟨_, s', hspec.1, .gone hread hspec.2⟩
  | some r =>
    rw [hread] at hspec
    dsimp only at hspec
    cases hfault : handlingFault env name generation token handling r s.subscriptions with
    | some fault =>
      rw [hfault] at hspec
      exact ⟨_, s', hspec.1, .refused hread hfault hspec.2⟩
    | none =>
      rw [hfault] at hspec
      exact ⟨_, s', hspec.1, .handled hread (handlingFault_eq_none.mp hfault) hspec.2⟩

/-- An archived event whose retention has not run out is settled for good. -/
theorem EventInvariant.retained (h : EventInvariant p now s) {id : String} {score : ℚ}
    (hscore : s.archives.score id = some score)
    (hlow : (p.archiveRetentionMs.map fun ms : ℕ => (now : ℚ) - ms).all fun low => low < score) :
    ∃ r, s.reading p now id = some r ∧ r.status ≠ .active := by
  have harchive : s.archives.score id = (s.record id).bind fun r => r.archivedAt.map Nat.cast := (h.indexed id).archive
  rw [hscore] at harchive
  obtain ⟨r, hr, harchivedAt⟩ := Option.bind_eq_some_iff.mp harchive.symm
  obtain ⟨time, htime, rfl⟩ := Option.map_eq_some_iff.mp harchivedAt
  unfold EventRecord.archivedAt at htime
  split at htime
  · exact absurd htime (by simp)
  · next hsettled =>
    obtain ⟨hpolicy, time', htime', harchiveUntil⟩ := (h.sound id r hr).settled hsettled
    obtain rfl := Option.some.inj (htime'.symm.trans htime)
    refine ⟨r, ?_, hsettled⟩
    rw [EventStore.reading, hr, Option.bind_some, resolve, waiveActive_of_settled hsettled, advance_eq_some,
      finish_of_settled hsettled, lasts_of_settled hsettled]
    refine ⟨rfl, hpolicy, fun until' huntil => ?_⟩
    rw [harchiveUntil] at huntil
    obtain ⟨ms, hms, rfl⟩ := Option.map_eq_some_iff.mp huntil
    rw [hms] at hlow
    have hlow : (now : ℚ) - ms < time' := by simpa using hlow
    have hcast : (now : ℚ) < ((time' + ms : ℕ) : ℚ) := by
      push_cast
      linarith
    exact_mod_cast hcast

theorem listArchived_outcome (h : EventInvariant env.policy env.now s) (offset limit : ℕ) :
    ∃ reply s', listArchived env offset limit s = .ok reply s' ∧ Outcome env s (.listArchived offset limit) reply s' := by
  obtain ⟨processed, s', hmaintain, hsweeps⟩ := h.maintain_sweeps
  unfold listArchived
  rw [bind_ok hmaintain, bind_ok (get_ok s')]
  refine ⟨_, s', rfl, .listed hsweeps fun id hid => ?_⟩
  obtain ⟨score, hscore, hlow⟩ := SortedSet.mem_within_iff.mp (List.mem_of_mem_drop (List.mem_of_mem_take hid))
  rw [← hsweeps.reading id]
  exact hsweeps.invariant.retained hscore hlow

/-- A call with the policy of the queue. -/
theorem exec_outcome (op : EventOp) (hagree : ∀ existing ∈ s.config, existing = env.policy) (h : EventInvariant env.policy env.now s) :
    Outcome env (s.opened env.policy) op (exec env op s).1 (exec env op s).2 := by
  suffices hsuffices : ∃ reply s', dispatch env op s = .ok reply s' ∧ Outcome env (s.opened env.policy) op reply s' by
    obtain ⟨reply, s', hdispatch, houtcome⟩ := hsuffices
    rw [exec, hdispatch]
    exact houtcome
  have hopened := h.opened
  have hset : (modify fun s => { s with config := some env.policy } : Script Unit) s = .ok () (s.opened env.policy) := rfl
  unfold dispatch
  rw [bind_ok (get_ok s), if_neg (by rintro ⟨existing, hexisting, hne⟩; exact hne (hagree existing hexisting)), bind_ok hset]
  generalize s.opened env.policy = s at hopened
  cases op with
  | subscribe name generation => exact ⟨_, _, rfl, .subscribed⟩
  | unsubscribe name generation =>
    rcases unsubscribe_spec hopened name generation with ⟨hunregistered, heq⟩ | ⟨hregistered, s', heq, hsweeps⟩
    · exact ⟨_, _, heq, .unregistered hunregistered⟩
    · exact ⟨_, _, heq, .unsubscribed hregistered hsweeps⟩
  | emit id queue payload ttlMs =>
    refine ⟨(emit env id queue payload ttlMs s).1, (emit env id queue payload ttlMs s).2, rfl, ?_⟩
    cases hrecord : s.record id with
    | some r =>
      have hexists : (s.record id).isSome := by rw [hrecord]; rfl
      rw [emit, if_pos hexists]
      exact .duplicate hexists
    | none =>
      obtain ⟨hreply, hanswered⟩ := emit_spec hopened queue payload ttlMs hrecord
      rw [hreply]
      exact .emitted hrecord hanswered
  | get id =>
    obtain ⟨s', hcurrent, hsweeps, _⟩ := hopened.current id
    dsimp only
    rw [bind_ok hcurrent]
    exact ⟨_, s', rfl, .read hsweeps⟩
  | take name generation token leaseMs =>
    rcases take_spec hopened name generation token leaseMs with ⟨hunregistered, heq⟩ | ⟨hregistered, ⟨s', heq, hsweeps⟩ |
      ⟨id, r, s', htakes, heq, hanswered⟩⟩
    · exact ⟨_, _, heq, .missing hunregistered⟩
    · exact ⟨_, _, heq, .idle hregistered hsweeps⟩
    · exact ⟨_, _, heq, .taken hregistered htakes hanswered⟩
  | acknowledge id name generation token => exact handle_outcome hopened id name generation token .acknowledge
  | renew id name generation token leaseMs => exact handle_outcome hopened id name generation token (.renew leaseMs)
  | release id name generation token delayMs => exact handle_outcome hopened id name generation token (.release delayMs)
  | maintain =>
    obtain ⟨processed, s', hmaintain, hsweeps⟩ := hopened.maintain_sweeps
    dsimp only
    rw [bind_ok hmaintain]
    exact ⟨_, s', rfl, .maintained hsweeps⟩
  | listArchived offset limit => exact listArchived_outcome hopened offset limit

theorem Outcome.invariant (h : Outcome env s op reply s') (hs : EventInvariant env.policy env.now s) :
    EventInvariant env.policy env.now s' := by
  cases h with
  | subscribed => exact subscribe_spec hs _ _
  | unregistered _ | duplicate _ | missing _ => exact hs
  | unsubscribed _ hsweeps | read hsweeps | idle _ hsweeps | gone _ hsweeps | refused _ _ hsweeps | maintained hsweeps
  | listed hsweeps _ => exact hsweeps.invariant
  | emitted _ hanswered | taken _ _ hanswered | handled _ _ hanswered => exact hanswered.invariant

theorem Outcome.config (h : Outcome env s op reply s') : s'.config = s.config := by
  cases h with
  | @subscribed name generation =>
    rcases subscribe_cases name generation s with heq | ⟨_, heq⟩ <;> rw [heq]
  | unregistered _ | duplicate _ | missing _ => rfl
  | unsubscribed _ hsweeps | read hsweeps | idle _ hsweeps | gone _ hsweeps | refused _ _ hsweeps | maintained hsweeps
  | listed hsweeps _ => exact hsweeps.config
  | emitted _ hanswered | taken _ _ hanswered | handled _ _ hanswered => exact hanswered.config

theorem op_ne_take {handling : Handling} {token' : String} {name' generation' token : String} {leaseMs : ℕ} :
    handling.op id name generation token' ≠ .take name' generation' token leaseMs := by
  cases handling <;> simp [Handling.op]

/-- What a take leases is active and pending. -/
theorem Outcome.leased (h : Outcome env s op reply s') (hinvariant : EventInvariant env.policy env.now s)
    {token token' : String} {leaseMs : ℕ} (hop : op = .take name generation token leaseMs)
    (hreply : reply = .delivery (some (r, token'))) :
    ∃ r₀, s.reading env.policy env.now r.id = some r₀ ∧ r₀.Awaits generation := by
  cases h with
  | taken _ htakes _ =>
    obtain ⟨rfl, rfl, rfl, rfl⟩ := EventOp.take.inj hop
    obtain ⟨rfl, _⟩ := Prod.mk.inj (Option.some.inj (EventReply.delivery.inj hreply))
    have hid := id_of_reading hinvariant htakes.read
    exact ⟨_, hid ▸ htakes.read, htakes.awaits⟩
  | gone _ _ | refused _ _ _ | handled _ _ _ => exact absurd hop op_ne_take
  | missing _ | idle _ _ => exact absurd hreply (by simp)
  | subscribed | unregistered _ | unsubscribed _ _ | duplicate _ | emitted _ _ | read _ | maintained _ | listed _ _ =>
    exact absurd hop (by simp)

/-! ### Runs -/

/-- One call with its reply. -/
structure EventCall where
  env : EventEnv
  op : EventOp
  reply : EventReply

/-- The states are the clock with the store. -/
def events : System (ℕ × EventStore) EventCall where
  initial state := state.2 = .empty
  step state call state' := state.1 ≤ call.env.now ∧ state'.1 = call.env.now ∧
    exec call.env call.op state.2 = (call.reply, state'.2)

/-- The invariant of a queue: it is empty until it has a policy. -/
def Kept (state : ℕ × EventStore) : Prop :=
  match state.2.config with
  | none => state.2 = .empty
  | some p => EventInvariant p state.1 state.2

/-- A step either conflicts with the policy or is a call with it. -/
theorem step_cases {state state' : ℕ × EventStore} {call : EventCall} (hkept : Kept state)
    (hstep : events.step state call state') :
    ((∃ existing ∈ state.2.config, existing ≠ call.env.policy) ∧
      call.reply = .fail .configurationConflict "Queue already exists with a different policy" ∧ state'.2 = state.2) ∨
    (∀ existing ∈ state.2.config, existing = call.env.policy) ∧
      EventInvariant call.env.policy call.env.now state.2 ∧
      Outcome call.env (state.2.opened call.env.policy) call.op call.reply state'.2 := by
  obtain ⟨hclock, _, hexec⟩ := hstep
  by_cases hconflict : ∃ existing ∈ state.2.config, existing ≠ call.env.policy
  · rw [exec_of_conflict hconflict, Prod.mk.injEq] at hexec
    exact Or.inl ⟨hconflict, hexec.1.symm, hexec.2.symm⟩
  · push Not at hconflict
    have hinvariant : EventInvariant call.env.policy call.env.now state.2 := by
      unfold Kept at hkept
      cases hconfig : state.2.config with
      | none =>
        rw [hconfig] at hkept
        dsimp only at hkept
        rw [hkept]
        exact .empty
      | some p =>
        rw [hconfig] at hkept
        obtain rfl := hconflict p hconfig
        exact hkept.mono hclock
    have houtcome := exec_outcome call.op hconflict hinvariant
    rw [hexec] at houtcome
    exact Or.inr ⟨hconflict, hinvariant, houtcome⟩

theorem Kept.step {state state' : ℕ × EventStore} {call : EventCall} (hkept : Kept state)
    (hstep : events.step state call state') : Kept state' := by
  rcases step_cases hkept hstep with ⟨⟨existing, hexisting, _⟩, _, heq⟩ | ⟨_, hinvariant, houtcome⟩
  · unfold Kept at hkept ⊢
    rw [heq]
    rw [show state.2.config = some existing from hexisting] at hkept ⊢
    have hle : state.1 ≤ state'.1 := hstep.2.1 ▸ hstep.1
    exact hkept.mono hle
  · have hconfig : state'.2.config = some call.env.policy := houtcome.config
    unfold Kept
    rw [hconfig, hstep.2.1]
    exact houtcome.invariant hinvariant.opened

theorem run_kept {calls : List EventCall} {state : ℕ × EventStore} (h : events.Run calls state) : Kept state := by
  refine h.invariant (fun state hinitial => ?_) fun _ _ _ => Kept.step
  unfold Kept
  rw [show state.2 = .empty from hinitial]
  rfl

end

end EffectMQ.EventEngine
