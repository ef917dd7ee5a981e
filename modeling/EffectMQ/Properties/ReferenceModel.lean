import EffectMQ.Lifecycle.Scenario
import EffectMQ.Lifecycle.Subscription
import EffectMQ.TaskState.Steps
import EffectMQ.Transition.Simulation

/-!
# The engine runs in step with the reference model

A run of the engine goes through the states of a run of the reference model, in which the same operations succeed in the same
order. What the engine does on its own account is expiries, releases and removals of the model.
-/

namespace EffectMQ

open Redis Transition

/-- The operation of the model that a call asks for, when the reply says that it took effect. -/
def Call.own (c : Call) : Option QueueOp :=
  match c.op, c.reply with
  | .createTask a, .created _ task => some (.offer (a.queue, a.id) (some task.generation) false)
  | .takeTask queue _ _, .leased leaseToken id _ => some (.acquire (queue, id) leaseToken)
  | .extendLock queue leaseToken id _, .nil => some (.renew (queue, id) leaseToken)
  | .writeError queue leaseToken id error retryAt, .nil =>
    some (.fail (queue, id) leaseToken (willRetry error (retryAt.bind retryTime)))
  | .writeSuccess queue leaseToken id _, .nil => some (.succeed (queue, id) leaseToken)
  | _, _ => none

/-- The operations that the model knows: it promotes no delayed task, frees no lease and removes no task that is not settled. -/
def Op.Covered (s : Store) : Op → Prop
  | .createTask a => ¬ 0 < a.delay.getD 0
  | .removeTask queue id => s.SettledAt (queue, id)
  | .removeLock _ _ _ | .forceRemoveTask _ _ => False
  | _ => True

/-- The engine with the operations that the model knows. -/
def covered : System Engine Call := engine.restrict fun e c => c.op.Covered e.store

section

variable {env : Env} {m s : Store} {model : QueueModel} {k : TaskKey} {a : TaskAction}

/-- A settled attempt and the releases that follow it. -/
theorem ends_matched (hends : Ends env k a m s) (hs : Sane env.now m) (hkept : Kept none m) (hR : Represents model m)
    (hmodelled : a.Modelled (m.task k)) : Matched model s (a.shown k) := by
  obtain ⟨t, hstep, hrelease⟩ := hends
  refine (hstep.represented hs hkept hR hmodelled).trans fun model' hR' => ?_
  exact sweep_matched hrelease (fun _ hact => hact.isSweep) (hstep.sane hs) (hstep.kept hs hkept) hR'

theorem EnginePath.settledAt {b b' : Busy} (hpath : EnginePath env EngineAction.IsSweep b m b' s) (hs : Sane env.now m)
    (h : m.SettledAt k) : s.SettledAt k :=
  hpath.preserves hs (I := fun _ s => s.SettledAt k) h fun _ _ _ _ _ hs h hstep hact =>
    hstep.settledAt hs h hact.not_create

/-- The effect of an offer that replies with a generation. -/
theorem offered_matched {args : CreateArgs} {reply : Reply} (h : Offered env args m reply s) (hs : Sane env.now m)
    (hkept : Kept none m) (hR : Represents model m) (hdelay : ¬ 0 < args.delay.getD 0)
    (hgeneration : ∀ cursor task, reply = .created cursor task → task.generation = s.generations (args.queue, args.id)) :
    Matched model s (Call.own ⟨env, .createTask args, reply⟩) := by
  have hcreated : ∀ {t : Store} {replacedTask : Option TaskRecord} {holder : Option TaskIdentity} {cursor : StreamId}
      {task : TaskRecord} {model : QueueModel}, reply = .created cursor task → Sane env.now t → Kept none t →
      Represents model t → EngineStep env none t (.create args replacedTask holder) none s →
      Matched model s (some (.offer (args.queue, args.id) (some task.generation) false)) := by
    intro t replacedTask holder cursor task model hreply hs hkept hR hstep
    have hcounter : s.generations (args.queue, args.id) = t.generations (args.queue, args.id) + 1 := by
      rcases hstep.view (args.queue, args.id) with ⟨hon, _⟩ | ⟨a, hon, htask⟩
      · simp [EngineAction.on] at hon
      · obtain rfl : TaskAction.create args replacedTask = a := by simpa [EngineAction.on] using hon
        exact htask.created.2.1
    have hmatched := created_matched hR hs hkept hdelay hstep
    rw [← hcounter, ← hgeneration cursor task hreply] at hmatched
    exact hmatched
  cases h with
  | refused | existing => exact .same hR
  | held hr hmode hstep cursor => exact hstep.represented hs hkept hR trivial
  | created hr hstep cursor task => exact hcreated rfl hs hkept hR hstep
  | replaced hr hmode hdispose hstep cursor task =>
    exact (hdispose.represented hs hkept hR trivial).after fun model' hR' =>
      hcreated rfl (hdispose.sane hs) (hdispose.kept hs hkept) hR' hstep
  | disposed hr hoffer hmode hholder hlive hdispose hfull => exact hdispose.represented hs hkept hR trivial

theorem Call.own_of_fault {op : Op} {reply : Reply} (h : reply.IsFault) : Call.own ⟨env, op, reply⟩ = none := by
  cases reply <;> first | exact h.elim | (cases op <;> rfl)

theorem Call.own_of_quiet {op : Op} {reply : Reply} (hfence : op.fence = none) (hquiet : op.IsQuiet m reply) :
    Call.own ⟨env, op, reply⟩ = none := by
  cases op with
  | createTask a => exact absurd rfl (hquiet.created a)
  | takeTask queue leaseToken lockTimeout => rw [hquiet.leased _ _ _ rfl]; rfl
  | writeSuccess | writeError | extendLock => exact absurd hfence (by simp [Op.fence, Op.lease])
  | _ => rfl

/-- A reported failure, retried or not. -/
theorem failed_matched {queue id leaseToken : String} {error : LuaValue} {retryAt : ℚ}
    (ha : a.IsFailure (.reported leaseToken) error retryAt) (hends : Ends env (queue, id) a m s) (hs : Sane env.now m)
    (hkept : Kept none m) (hR : Represents model m) :
    Matched model s (some (.fail (queue, id) leaseToken (willRetry error (retryTime retryAt)))) := by
  have hstep := hends.choose_spec.1
  rcases ha with rfl | ⟨held, rfl⟩
  · have hwill : willRetry error (retryTime retryAt) = true := hstep.view_task.1.1.2.2
    rw [hwill]
    exact ends_matched hends hs hkept hR trivial
  · have hwill : willRetry error (retryTime retryAt) = false := hstep.view_task.1.1.2.2
    rw [hwill]
    exact ends_matched hends hs hkept hR trivial

theorem effect_matched {op : Op} {reply : Reply} (h : Effect env m op reply s) (hs : Sane env.now m) (hkept : Kept none m)
    (hR : Represents model m) (hcovered : op.Covered m)
    (hgeneration : ∀ args, op = .createTask args → ∀ cursor task, reply = .created cursor task →
      task.generation = s.generations (args.queue, args.id)) : Matched model s (Call.own ⟨env, op, reply⟩) := by
  cases h with
  | refused _ _ hfault hlease =>
    rw [Call.own_of_fault hfault]
    exact .same hR
  | answered _ _ hfence hquiet =>
    rw [Call.own_of_quiet hfence hquiet]
    exact .same hR
  | offered hvalid hoffered => exact offered_matched hoffered hs hkept hR hcovered (hgeneration _ rfl)
  | leased hhead htask hstep => exact hstep.represented hs hkept hR trivial
  | succeeded howner hends => exact ends_matched hends hs hkept hR trivial
  | failed howner ha hends => exact failed_matched ha hends hs hkept hR
  | renewed hstep => exact hstep.represented hs hkept hR trivial
  | released => exact hcovered.elim
  | progressed hgeneration hstep => exact hstep.represented hs hkept hR trivial
  | removed hidle hheld hpath => exact removal_matched hpath hs hkept hR hcovered
  | forced => exact hcovered.elim
  | scheduled _ _ hop hreply hstep =>
    rcases hop with ⟨_, _, _, rfl⟩ | ⟨_, _, _, _, rfl⟩ <;> exact hstep.represented hs hkept hR trivial

/-- A call of the engine is matched by operations of the model, among which its own. -/
theorem call_matched {calls : List Call} {e e' : Engine} {c : Call} (h : engine.Run calls e) (hR : Represents model e.store)
    (hcovered : c.op.Covered e.store) (hstep : engine.step e c e') : Matched model e'.store c.own := by
  have hkept := run_kept h
  have hgeneration : ∀ args, c.op = .createTask args → ∀ cursor task, c.reply = .created cursor task →
      task.generation = e'.store.generations (args.queue, args.id) := fun args hop cursor task hreply =>
    (offer_reached h hstep hop (Or.inl hreply)).1.1
  obtain ⟨env, op, reply⟩ := c
  obtain ⟨hclock, _, hexec⟩ := hstep
  have hs : Sane env.now e.store := (run_sane h).mono (Nat.cast_le.mpr hclock)
  have hsweep := swept_path hs op
  have hkept' : Kept none (op.swept env e.store) :=
    hsweep.preserves hs (I := Kept) hkept fun _ _ _ _ _ hs hkept hstep _ => hstep.kept hs hkept
  refine (sweep_matched hsweep (fun _ hact => hact) hs hkept hR).after fun model' hR' => ?_
  refine effect_matched (exec_effect hs hexec) (hsweep.sane hs) hkept' hR' ?_ hgeneration
  cases op with
  | removeTask queue id => exact hsweep.settledAt hs hcovered
  | _ => exact hcovered

/-- What `assertInvariants` checks holds of a model that represents a store. -/
theorem Represents.sound {now : ℚ} (hR : Represents model s) (hs : Sane now s) : model.Sound := by
  intro k t ht
  cases hr : s.task k with
  | none => exact absurd (ht.symm.trans (hR.absent k hr)) (by simp)
  | some r =>
    obtain ⟨t', ht', hshows⟩ := hR.present k r hr
    obtain rfl := Option.some.inj (ht.symm.trans ht')
    have hgeneration : 1 ≤ t.generation := by
      have hcounter := (hs.views k).generation r hr
      rw [hshows.generation]
      omega
    have hshown : (t.state = .leased ∧ t.leaseToken.isSome) ∨ (t.state ≠ .leased ∧ t.leaseToken = none) := by
      cases ho : r.outcome with
      | some outcome =>
        obtain ⟨hstate, htoken⟩ := hshows.settled outcome ho
        refine Or.inr ⟨?_, htoken⟩
        rcases outcome.state_cases with heq | heq <;> simp [hstate, heq]
      | none =>
        by_cases hplace : r.place = some .active
        · obtain ⟨hstate, token, htoken, _⟩ := hshows.leased ho hplace
          exact Or.inl ⟨hstate, by simp [htoken]⟩
        · obtain ⟨hstate, htoken⟩ := hshows.runnable ho hplace
          refine Or.inr ⟨?_, htoken⟩
          rcases hstate with heq | heq <;> simp [heq]
    refine ⟨hshows.id, hgeneration, fun hleased => ?_, fun hleased => ?_⟩
    · exact (hshown.resolve_right fun h => h.1 hleased).2
    · exact (hshown.resolve_left fun h => hleased h.1).2

theorem covered_simulated : Simulates covered (reference TaskKey TaskIdentity) (fun e model => Represents model e.store)
    Call.own ModelOp.shown where
  initial := by
    rintro _ rfl
    exact ⟨.make, rfl, represents_empty⟩
  step calls e c e' model h hR hstep := by
    obtain ⟨ops, model', hpath, hR', hshown⟩ := call_matched h.unrestrict hR hstep.1 hstep.2
    exact ⟨ops, model', hpath, hR', hshown⟩

/-- After every run there is a run of the reference model in which the operations of the callers succeeded in the same order,
and which leads to the tasks that are stored. -/
theorem covered_follows_reference {calls : List Call} {e : Engine} (h : covered.Run calls e) :
    ∃ ops model, (reference TaskKey TaskIdentity).Run ops model ∧ Represents model e.store ∧ model.Sound ∧
      ops.filterMap ModelOp.shown = calls.filterMap Call.own := by
  obtain ⟨ops, model, hrun, hR, hshown⟩ := covered_simulated.run h
  exact ⟨ops, model, hrun, hR, hR.sound (run_sane h.unrestrict), hshown⟩

theorem play_ops {steps : List (Env × Op)} {e e' : Engine} {calls : List Call} (h : play e steps = some (calls, e')) :
    calls.map Call.op = steps.map Prod.snd := by
  induction steps generalizing e calls with
  | nil =>
    obtain ⟨rfl, _⟩ := Prod.mk.inj (Option.some.inj h)
    rfl
  | cons step rest ih =>
    obtain ⟨⟨c, e₁⟩, hfirst, h⟩ := Option.bind_eq_some_iff.mp h
    obtain ⟨⟨calls', e₂⟩, hrest, heq⟩ := Option.map_eq_some_iff.mp h
    obtain ⟨rfl, rfl⟩ := Prod.mk.inj heq
    rw [List.map_cons, List.map_cons, ih hrest, perform_op hfirst]

/-- Operations that the model knows in every state, executed in turn. -/
theorem play_covered {steps : List (Env × Op)} {p : List Call → Bool}
    (hsteps : ∀ op ∈ steps.map Prod.snd, ∀ s, op.Covered s)
    (h : (play Engine.start steps).any (fun last => p last.1) = true) : ∃ calls e, covered.Run calls e ∧ p calls = true := by
  obtain ⟨⟨calls, e⟩, hplay, hp⟩ := (Option.any_eq_true _ _).mp h
  have hrun : engine.Run calls e := ⟨Engine.start, rfl, play_path hplay⟩
  refine ⟨calls, e, hrun.restrict fun c hc e => hsteps c.op ?_ e.store, hp⟩
  rw [← play_ops hplay]
  exact List.mem_map_of_mem hc

/-- A task that fails once and succeeds on its second attempt. -/
theorem covered_follows_reference_retried : ∃ calls e ops model, covered.Run calls e ∧
    calls.filterMap Call.own = [.offer ("mail", "a") (some 1) false, .acquire ("mail", "a") "first",
      .fail ("mail", "a") "first" true, .acquire ("mail", "a") "second", .succeed ("mail", "a") "second"] ∧
    (reference TaskKey TaskIdentity).Run ops model ∧ Represents model e.store ∧ model.Sound ∧
      ops.filterMap ModelOp.shown = calls.filterMap Call.own := by
  obtain ⟨calls, e, h, hplayed⟩ := @play_covered
    [(.at 1, .createTask (.default "mail" "a")), (.at 2, .takeTask "mail" "first" (some 30000)),
      (.at 3, .writeError "mail" "first" "a" (.string "lost") (some 10)), (.at 20, .takeTask "mail" "second" (some 30000)),
      (.at 21, .writeSuccess "mail" "second" "a" "sent")]
    (fun calls => decide (calls.filterMap Call.own = [.offer ("mail", "a") (some 1) false, .acquire ("mail", "a") "first",
      .fail ("mail", "a") "first" true, .acquire ("mail", "a") "second", .succeed ("mail", "a") "second"]))
    (by simp [Op.Covered, CreateArgs.default]) (by decide +kernel)
  obtain ⟨ops, model, hreference⟩ := covered_follows_reference h
  exact ⟨calls, e, ops, model, h, of_decide_eq_true hplayed, hreference⟩

end

end EffectMQ
