import EffectMQ.EventEngine.Reference
import EffectMQ.EventEngine.Scenario

/-!
# Lazy resolution is eager resolution

The script applies waivers, completion, expiry and purges when it happens to touch a record. Reading every stored record
eagerly gives the reference queue in which each of them happens on time, in every state of every run, so every reply is
the reference's and what is stored catches up with it.
-/

namespace EffectMQ.EventEngine

open Redis Transition

/-- A reference that agrees with a store at an instant. -/
structure Tracks (env : EventEnv) (s : EventStore) (R : Reference) : Prop where
  config : R.config = s.config
  subscriptions : R.subscriptions = s.subscriptions
  event : R.event = s.reading env.policy env.now

/-- What a reference says of a call that it follows. -/
structure Agrees (R : Reference) (call : EventCall) : Prop where
  reply : ∀ reply, (R.serve call).1 = some reply → call.reply = reply
  leased : ∀ name generation token leaseMs r token', call.op = .take name generation token leaseMs →
    call.reply = .delivery (some (r, token')) → ∃ r₀ recipient, (R.pass call.env.now).event r.id = some r₀ ∧
      r₀.status = .active ∧ r₀.recipients.lookup generation = some recipient ∧ recipient.status = .pending
  archived : ∀ offset limit ids, call.op = .listArchived offset limit → call.reply = .archived ids → ∀ id ∈ ids,
    ∃ r, (R.pass call.env.now).event id = some r ∧ r.status ≠ .active

section

variable {env : EventEnv} {p : Policy} {now now' : ℕ} {id name generation : String} {op : EventOp} {reply : EventReply}
  {r : EventRecord} {s s' : EventStore} {calls : List EventCall} {call : EventCall} {state state' : ℕ × EventStore}
  {R : Reference}

theorem Sweeps.tracks (h : Sweeps env.policy env.now s s') (htracks : Tracks env s R) : Tracks env s' R where
  config := htracks.config.trans h.config.symm
  subscriptions := htracks.subscriptions.trans h.subscriptions.symm
  event := htracks.event.trans (funext fun id => (h.reading id).symm)

theorem Answered.tracks {r : Option EventRecord}
    (h : Answered env.policy env.now s s' (Function.update (s.reading env.policy env.now) id r)) (htracks : Tracks env s R) :
    Tracks env s' (R.put id r) where
  config := htracks.config.trans h.config.symm
  subscriptions := htracks.subscriptions.trans h.subscriptions.symm
  event := by
    funext other
    rw [h.reading other, Reference.put, htracks.event]

theorem call_op (R : Reference) (leased : Option String) (handling : Handling) (id name generation token : String) :
    R.call env leased (handling.op id name generation token) = R.handle env id name generation token handling := by
  cases handling <;> rfl

theorem Tracks.subscribe (h : Tracks env s R) (name generation : String) :
    (∀ expected, (R.subscribe name generation).1 = some expected → (subscribe name generation s).1 = expected) ∧
      Tracks env (EventEngine.subscribe name generation s).2 (R.subscribe name generation).2 := by
  unfold Reference.subscribe EventEngine.subscribe
  rw [h.subscriptions]
  cases s.subscriptions.lookup name with
  | some existing => exact ⟨fun _ hreply => Option.some.inj hreply, h⟩
  | none =>
    dsimp only
    split
    · exact ⟨fun _ hreply => Option.some.inj hreply, h⟩
    · exact ⟨fun _ hreply => Option.some.inj hreply, h.config, rfl, h.event⟩

/-- One call, served by the script and by the reference. -/
theorem Outcome.tracks (h : Outcome env s op reply s') (hinvariant : EventInvariant env.policy env.now s)
    (htracks : Tracks env s R) (hemits : ∀ id, op.emits = some id → s.record id = none)
    (hcurrent : ∀ name generation, s.subscriptions.lookup name = some generation → s.removed.lookup generation = none) :
    (∀ expected, (R.call env reply.leased op).1 = some expected → reply = expected) ∧
      Tracks env s' (R.call env reply.leased op).2 := by
  cases h with
  | @subscribed name generation => exact htracks.subscribe name generation
  | @unregistered name generation hunregistered =>
    have hcall : ∀ leased, R.call env leased (.unsubscribe name generation) = (some (.unsubscribed false), R) :=
      fun _ => if_pos (htracks.subscriptions ▸ hunregistered)
    rw [hcall]
    exact ⟨fun _ hreply => Option.some.inj hreply, htracks⟩
  | @unsubscribed name generation _ hregistered hsweeps =>
    have hcall : ∀ leased, R.call env leased (.unsubscribe name generation) = (some (.unsubscribed true), { R with
        subscriptions := R.subscriptions.erase name
        event := fun id => (R.event id).bind fun r => advance env.policy env.now (waiveAt env.now generation r) }) :=
      fun _ => if_neg (by rw [htracks.subscriptions, hregistered]; simp)
    rw [hcall]
    refine ⟨fun _ hreply => Option.some.inj hreply, hsweeps.tracks ⟨htracks.config, ?_, funext fun id => ?_⟩⟩
    · exact congrArg (AList.erase name) htracks.subscriptions
    · rw [reading_unregister (hcurrent name generation (of_decide_eq_true hregistered)) id, ← htracks.event]
  | duplicate hexists =>
    rw [hemits _ rfl] at hexists
    exact absurd hexists (by simp)
  | @emitted id queue payload ttlMs _ _ hanswered =>
    have hclean : Clean s.removed (newEvent env id queue payload ttlMs s.subscriptions) := clean_newEvent hcurrent
    rw [hclean.waiveActive, ← htracks.subscriptions]
    rw [resolve_of_clean hclean, ← htracks.subscriptions] at hanswered
    exact ⟨fun _ hreply => Option.some.inj hreply, hanswered.tracks htracks⟩
  | read hsweeps =>
    rw [← htracks.event]
    exact ⟨fun _ hreply => Option.some.inj hreply, hsweeps.tracks htracks⟩
  | @missing name generation token leaseMs hunregistered =>
    have hcall : ∀ leased, R.call env leased (.take name generation token leaseMs) =
        (some (.fail .subscriptionMissing "Subscription generation is no longer registered"), R) :=
      fun _ => if_pos (htracks.subscriptions ▸ hunregistered)
    rw [hcall]
    exact ⟨fun _ hreply => Option.some.inj hreply, htracks⟩
  | @idle name generation token leaseMs _ hregistered hsweeps =>
    have hcall : R.call env none (.take name generation token leaseMs) = (some (.delivery none), R) :=
      if_neg (by rw [htracks.subscriptions, hregistered]; simp)
    rw [show EventReply.leased (.delivery none) = none from rfl, hcall]
    exact ⟨fun _ hreply => Option.some.inj hreply, hsweeps.tracks htracks⟩
  | @taken name generation token leaseMs id r _ hregistered htakes hanswered =>
    have hid := id_of_reading hinvariant htakes.read
    have hleased : EventReply.leased (.delivery (some (r.leased generation token (leaseEnd env r leaseMs), token))) =
        some id := congrArg some hid
    have hevent : R.event id = some r := by rw [htracks.event, htakes.read]
    have hcall : R.call env (some id) (.take name generation token leaseMs) =
        (some (.delivery (some (r.leased generation token (leaseEnd env r leaseMs), token))),
          R.put id (some (r.leased generation token (leaseEnd env r leaseMs)))) := by
      rw [Reference.call, if_neg (by rw [htracks.subscriptions, hregistered]; simp), hevent]
      rfl
    rw [hleased, hcall]
    exact ⟨fun _ hreply => Option.some.inj hreply, hanswered.tracks htracks⟩
  | gone hread hsweeps =>
    rw [call_op, Reference.handle, htracks.event, hread]
    exact ⟨fun _ hreply => Option.some.inj hreply, hsweeps.tracks htracks⟩
  | refused hread hfault hsweeps =>
    rw [call_op, Reference.handle, htracks.event, hread, htracks.subscriptions]
    dsimp only
    rw [hfault]
    exact ⟨fun _ hreply => Option.some.inj hreply, hsweeps.tracks htracks⟩
  | handled hread howns hanswered =>
    rw [call_op, Reference.handle, htracks.event, hread, htracks.subscriptions]
    dsimp only
    rw [handlingFault_eq_none.mpr howns]
    exact ⟨fun _ hreply => Option.some.inj hreply, hanswered.tracks htracks⟩
  | maintained hsweeps => exact ⟨fun _ hreply => absurd hreply (by simp [Reference.call]), hsweeps.tracks htracks⟩
  | listed hsweeps _ => exact ⟨fun _ hreply => absurd hreply (by simp [Reference.call]), hsweeps.tracks htracks⟩

/-- A reference that agrees with the state of a queue. -/
structure Mirrors (state : ℕ × EventStore) (R : Reference) : Prop where
  config : R.config = state.2.config
  subscriptions : R.subscriptions = state.2.subscriptions
  event : ∀ id, R.event id = state.2.config.bind fun p => state.2.reading p state.1 id

/-- Time passes for the reference as it does for the readings. -/
theorem Mirrors.pass (h : Mirrors state R) (hle : state.1 ≤ now) (id : String) :
    (R.pass now).event id = state.2.config.bind fun p => state.2.reading p now id := by
  rw [Reference.pass, h.config]
  dsimp only
  rw [h.event]
  cases state.2.config with
  | none => rfl
  | some p => exact reading_advance hle

theorem Mirrors.of_tracks (h : Tracks env s R) (hconfig : s.config = some env.policy) : Mirrors (env.now, s) R where
  config := h.config
  subscriptions := h.subscriptions
  event id := by
    dsimp only
    rw [hconfig, Option.bind_some, h.event]

/-- What the archive lists is settled. -/
theorem Outcome.archived (h : Outcome env s op reply s') {offset limit : ℕ} {ids : List String}
    (hop : op = .listArchived offset limit) (hreply : reply = .archived ids) (hid : id ∈ ids) :
    ∃ r, s.reading env.policy env.now id = some r ∧ r.status ≠ .active := by
  cases h with
  | listed _ hids =>
    obtain rfl := EventReply.archived.inj hreply
    exact hids id hid
  | @gone _ _ _ _ handling | @refused _ _ _ _ handling | @handled _ _ _ _ handling =>
    cases handling <;> exact absurd hop (by simp [Handling.op])
  | subscribed | unregistered _ | unsubscribed _ _ | duplicate _ | emitted _ _ | read _ | missing _ | idle _ _ | taken _ _ _
  | maintained _ => exact absurd hop (by simp)

/-- A call follows the reference. -/
theorem Mirrors.step (h : Mirrors state R) (hkept : Kept state) (hidentified : Identified calls state.2)
    (hfresh : Fresh (calls ++ [call])) (hstep : events.step state call state') :
    Agrees R call ∧ Mirrors state' (R.serve call).2 ∧ Identified (calls ++ [call]) state'.2 := by
  have hpass := h.pass hstep.1
  have hclock : state' = (call.env.now, state'.2) := Prod.ext hstep.2.1 rfl
  rcases step_cases hkept hstep with ⟨hconflict, hreply, heq⟩ | ⟨hagree, hinvariant, houtcome⟩
  · have hserve : R.serve call =
        (some (.fail .configurationConflict "Queue already exists with a different policy"), R.pass call.env.now) :=
      if_pos (show ∃ existing ∈ R.config, existing ≠ call.env.policy from h.config ▸ hconflict)
    rw [hclock, heq]
    refine ⟨⟨fun reply hserved => ?_, ?_, ?_⟩, ?_, hidentified.append call⟩
    · rw [hserve] at hserved
      exact hreply.trans (Option.some.inj hserved)
    · exact fun _ _ _ _ _ _ _ hdelivery => absurd (hreply.symm.trans hdelivery) (by simp)
    · exact fun _ _ _ _ harchived => absurd (hreply.symm.trans harchived) (by simp)
    · rw [hserve]
      exact ⟨h.config, h.subscriptions, hpass⟩
  · have hserve : R.serve call =
        { R.pass call.env.now with config := some call.env.policy }.call call.env call.reply.leased call.op :=
      if_neg (by
        rintro ⟨existing, hexisting, hne⟩
        exact hne (hagree existing (h.config ▸ hexisting)))
    have hevent : (R.pass call.env.now).event = (state.2.opened call.env.policy).reading call.env.policy call.env.now := by
      funext id
      rw [hpass id]
      unfold Kept at hkept
      cases hconfig : state.2.config with
      | none =>
        rw [hconfig] at hkept
        rw [show state.2 = .empty from hkept]
        rfl
      | some existing =>
        obtain rfl := hagree existing hconfig
        rfl
    have htracks : Tracks call.env (state.2.opened call.env.policy)
        { R.pass call.env.now with config := some call.env.policy } := ⟨rfl, h.subscriptions, hevent⟩
    have hopened : EventInvariant call.env.policy call.env.now (state.2.opened call.env.policy) := hinvariant.opened
    have hopenedIds : Identified calls (state.2.opened call.env.policy) := { hidentified with }
    have hnew : ∀ id, call.op.emits = some id → (state.2.opened call.env.policy).record id = none := by
      intro id hid
      by_contra hne
      exact not_mem_of_nodup hfresh.ids hid (hidentified.emitted id (Option.isSome_iff_ne_none.mpr hne))
    obtain ⟨hreply, htracks'⟩ := houtcome.tracks hopened htracks hnew hidentified.current
    refine ⟨⟨fun reply hserved => ?_, ?_, ?_⟩, ?_, hopenedIds.outcome hfresh houtcome⟩
    · rw [hserve] at hserved
      exact hreply reply hserved
    · intro name generation token leaseMs r token' hop hdelivery
      rw [hevent]
      obtain ⟨r₀, hread, hactive, recipient, hlookup, hpending⟩ := houtcome.leased hopened hop hdelivery
      exact ⟨r₀, recipient, hread, hactive, hlookup, hpending⟩
    · intro offset limit ids hop harchived id hid
      rw [hevent]
      exact houtcome.archived hop harchived hid
    · rw [hserve, hclock]
      exact .of_tracks htracks' houtcome.config

theorem run_mirrors (h : events.Run calls state) (hfresh : Fresh calls) :
    Mirrors state (.follow calls) ∧ Identified calls state.2 := by
  refine h.induction (P := fun calls state => Fresh calls → Mirrors state (.follow calls) ∧ Identified calls state.2)
    (fun state hinitial _ => ?_) (fun calls state call state' hrun ih hstep hfresh => ?_) hfresh
  · rw [show state = (state.1, .empty) from Prod.ext rfl hinitial]
    exact ⟨⟨rfl, rfl, fun _ => rfl⟩, .empty⟩
  · obtain ⟨hmirrors, hidentified⟩ := ih hfresh.of_append
    have hfollow : Reference.follow (calls ++ [call]) = ((Reference.follow calls).serve call).2 := by
      rw [Reference.follow, List.foldl_append, List.foldl_cons, List.foldl_nil, Reference.follow]
    rw [hfollow]
    exact (hmirrors.step (run_kept hrun) hidentified hfresh hstep).2

/-- A store in which nothing is due has caught up with the reference. -/
theorem EventInvariant.caught_up (h : EventInvariant p env.now s) (hdue : pendingWork env s = false) (id : String) :
    s.reading p env.now id = s.record id := by
  have hnothing := of_decide_eq_false hdue
  push Not at hnothing
  obtain ⟨hretired, hdeadlines, harchiveDeadlines⟩ := hnothing
  have hremoved : ∀ generation, s.removed.lookup generation = none := by
    intro generation
    have hscore := SortedSet.card_eq_zero_iff.mp (Nat.le_zero.mp hretired) generation
    rw [h.retired] at hscore
    exact Option.map_eq_none_iff.mp hscore
  have hlater : ∀ {index : SortedSet String} {time : ℕ}, (index.within fun score => score ≤ env.now).length ≤ 0 →
      index.score id = some (time : ℚ) → env.now < time := by
    intro index time hlength hscore
    by_contra hle
    have hmem := SortedSet.mem_within_iff (p := fun score => score ≤ (env.now : ℚ)).mpr
      ⟨(time : ℚ), hscore, decide_eq_true (Nat.cast_le.mpr (not_lt.mp hle))⟩
    rw [List.length_eq_zero_iff.mp (Nat.le_zero.mp hlength)] at hmem
    exact absurd hmem List.not_mem_nil
  have hindexed := h.indexed id
  unfold EventStore.reading
  cases hr : s.record id with
  | none => rfl
  | some r =>
    have hview : (s.event id).record = some r := hr
    have hclean : Clean s.removed r := fun generation _ _ => waivedAt_of_not_removed (hremoved generation)
    rw [Option.bind_some, resolve_of_clean hclean]
    by_cases hactive : r.status = .active
    · refine advance_of_active hactive (h.live id r hr hactive) fun time htime => hlater hdeadlines ?_
      have hdeadline : s.deadlines.score id = _ := hindexed.deadline
      rw [hdeadline, hview, Option.bind_some, EventRecord.deadline, if_pos hactive, htime]
      rfl
    · rw [advance_eq_some, finish_of_settled hactive, lasts_of_settled hactive]
      refine ⟨rfl, ((h.sound id r hr).settled hactive).1, fun time htime => hlater harchiveDeadlines ?_⟩
      have harchiveDeadline : s.archiveDeadlines.score id = _ := hindexed.archiveDeadline
      rw [harchiveDeadline, hview, Option.bind_some, htime]
      rfl

end

/-- Every call of a run replies as the reference does, and leaves a store whose eager reading is the reference: any time
later, and as it is stored once no work is due. -/
theorem run_eagerResolution {calls : List EventCall} {state : ℕ × EventStore} (h : events.Run calls state)
    (hfresh : Fresh calls) :
    (∀ before call after, calls = before ++ call :: after → Agrees (.follow before) call) ∧
    (∀ now id, state.1 ≤ now → ((Reference.follow calls).pass now).event id =
      state.2.config.bind fun p => state.2.reading p now id) ∧
    ∀ env : EventEnv, env.now = state.1 → pendingWork env state.2 = false →
      (Reference.follow calls).event = state.2.record := by
  obtain ⟨hmirrors, _⟩ := run_mirrors h hfresh
  refine ⟨?_, fun now id hle => hmirrors.pass hle id, fun env hnow hdue => funext fun id => ?_⟩
  · rintro before call after rfl
    rw [← List.singleton_append, ← List.append_assoc] at h hfresh
    obtain ⟨next, hnext, _⟩ := h.split
    obtain ⟨state, hbefore, hpath⟩ := hnext.split
    obtain ⟨_, hnil, hstep⟩ := System.Path.of_snoc (l := []) hpath
    obtain rfl := hnil.eq_of_nil
    obtain ⟨hmirrors, hidentified⟩ := run_mirrors hbefore hfresh.of_append.of_append
    exact (hmirrors.step (run_kept hbefore) hidentified hfresh.of_append hstep).1
  · have hkept := run_kept h
    unfold Kept at hkept
    rw [hmirrors.event id]
    cases hconfig : state.2.config with
    | none =>
      rw [hconfig] at hkept
      rw [show state.2 = .empty from hkept]
      rfl
    | some p =>
      rw [hconfig] at hkept
      rw [← hnow] at hkept ⊢
      exact EventInvariant.caught_up hkept hdue id

/-- Once its archive is swept, the store of a run is its reference. -/
theorem run_eagerResolution_acknowledged :
    (Reference.follow (serve (0, .empty) acknowledgedOnce).1).event = (serve (0, .empty) acknowledgedOnce).2.2.record :=
  (run_eagerResolution (serve_run (by decide)) ⟨by decide +kernel, by decide +kernel⟩).2.2 (.at 120) (by decide +kernel)
    (by decide +kernel)

end EffectMQ.EventEngine
