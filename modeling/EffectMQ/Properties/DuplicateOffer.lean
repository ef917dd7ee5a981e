import EffectMQ.Properties.Retention
import EffectMQ.Lifecycle.Events
import EffectMQ.Lifecycle.Scenario

/-!
# Duplicate offers

An offer of a stored task, in the mode that returns the existing one, reads: after its own sweep it changes nothing but
the hold that it asks for.
-/

namespace EffectMQ

open Redis Transition

/-- What a successful duplicate offer replies and leaves, given the record that its sweep left. -/
structure ReadsExisting (a : CreateArgs) (m : Store) (r : TaskRecord) (reply : Reply) (e' : Engine) : Prop where
  /-- The reply carries the record, with a cursor that lies before every later event of the queue. -/
  reply : ∃ cursor, reply = .existing cursor r ∧ ∀ calls e'', engine.Path e' calls e'' →
    ∃ later, (e''.store.events a.queue).published = (e'.store.events a.queue).published ++ later ∧
      ∀ entry ∈ later, StreamId.Lt cursor entry.1
  /-- The store is that of the sweep, up to the requested pair. -/
  store : e'.store = m ∨ ∃ holder, a.retentionHolder = some holder ∧
    holder ∉ m.retainedBy ⟨a.queue, a.id, r.generation⟩ ∧ e'.store = m.hold holder ⟨a.queue, a.id, r.generation⟩
  /-- The requested pair is in both sets. -/
  held : ∀ holder, a.retentionHolder = some holder → holder ∈ e'.store.retainedBy ⟨a.queue, a.id, r.generation⟩ ∧
    (⟨a.queue, a.id, r.generation⟩ : TaskIdentity) ∈ e'.store.retains holder

variable {env : Env} {calls : List Call} {e e' : Engine} {c : Call} {a : CreateArgs} {r : TaskRecord}

/-- What a duplicate offer does to the world that its sweep left, when it succeeds. -/
theorem offerSwept_existing {w : World} (hmode : a.onDuplicate = .returnExisting)
    (hr : w.store.task (a.queue, a.id) = some r) (hreply : ¬ (offerSwept env a w).1.IsFault) :
    (offerSwept env a w).1 = .existing (latestEventCursor w.store a.queue) r ∧
      ((∀ holder, a.retentionHolder = some holder → holder ∈ w.store.retainedBy ⟨a.queue, a.id, r.generation⟩) ∧
          (offerSwept env a w).2.store = w.store ∨
        ∃ holder, a.retentionHolder = some holder ∧ holder ∉ w.store.retainedBy ⟨a.queue, a.id, r.generation⟩ ∧
          (offerSwept env a w).2.store = w.store.hold holder ⟨a.queue, a.id, r.generation⟩) := by
  have hidentity : w.store.identity a.queue a.id = ⟨a.queue, a.id, r.generation⟩ := identity_of_record hr
  have hhistory : ¬ (a.historyEnabled = true ∧ (w.store.task (a.queue, a.id) = none ∨ a.onDuplicate = .newGeneration) ∧
      w.store.history ⟨a.queue, a.id, w.store.generations (a.queue, a.id) + 1⟩ ≠ []) := by
    simp [hr, hmode]
  unfold offerSwept at hreply ⊢
  rw [if_neg hhistory] at hreply ⊢
  cases hlive : a.retentionHolder.bind (validateLiveHolder w.store) with
  | some message =>
    rw [hlive] at hreply
    exact absurd trivial hreply
  | none =>
    simp only [hlive, hr] at hreply ⊢
    by_cases hthrow : a.throwOnExists = true
    · rw [if_pos hthrow] at hreply
      exact absurd trivial hreply
    · simp only [if_neg hthrow, hmode] at hreply ⊢
      unfold returnExisting at hreply ⊢
      cases hholder : a.retentionHolder with
      | none => exact ⟨rfl, Or.inl ⟨by simp, rfl⟩⟩
      | some holder =>
        simp only [hholder, hidentity] at hreply ⊢
        cases hacquire : acquireRetentionHold holder ⟨a.queue, a.id, r.generation⟩ w.store with
        | error message =>
          rw [hacquire] at hreply
          exact absurd trivial hreply
        | ok s =>
          dsimp only
          by_cases hmem : holder ∈ w.store.retainedBy ⟨a.queue, a.id, r.generation⟩
          · rw [acquireRetentionHold, if_pos hmem] at hacquire
            obtain rfl := Except.ok.inj hacquire
            refine ⟨rfl, Or.inl ⟨fun holder' heq => ?_, rfl⟩⟩
            obtain rfl := Option.some.inj heq
            exact hmem
          · rcases acquireRetentionHold_ok hacquire with ⟨hmem', _⟩ | ⟨rfl, _⟩
            · exact absurd hmem' hmem
            · exact ⟨rfl, Or.inr ⟨holder, rfl, hmem, rfl⟩⟩

/-- The sets of holders and retained tasks agree after a sweep. -/
theorem sweep_paired (h : engine.Run calls e) (hclock : e.clock ≤ env.clock) (queue : String) {holder x : TaskIdentity}
    (hx : holder ∈ (sweep env queue e.store).retainedBy x) : x ∈ (sweep env queue e.store).retains holder := by
  have hs : Sane env.now e.store := (run_sane h).mono (Nat.cast_le.mpr hclock)
  have hmatched := (sweep_path hs queue).preserves
    (I := fun b s => s.halves.Matched (Pending b) (ForceRemoved calls)) hs (run_matched h)
    fun b s act b' s' _ hmatched hstep hact => hstep.matched (fun x hx => absurd hact (by rw [hx]; exact id)) hmatched
  exact (hmatched.paired holder x hx).resolve_right (not_pending_none holder x)

/-- In every run, a successful offer in the mode that returns the existing task only reads, when its sweep leaves the
task its record. -/
theorem run_duplicateOffer (h : engine.Run calls e) (hstep : engine.step e c e') (hop : c.op = .createTask a)
    (hmode : a.onDuplicate = .returnExisting)
    (hr : (sweep c.env a.queue e.store).task (a.queue, a.id) = some r) (hreply : ¬ c.reply.IsFault) :
    ReadsExisting a (sweep c.env a.queue e.store) r c.reply e' := by
  have hrun := h.snoc hstep
  obtain ⟨env, op, reply⟩ := c
  subst hop
  obtain ⟨hclock, hclock', hexec⟩ := hstep
  obtain ⟨hrep, hstore⟩ := exec_replied hexec
  have hvalid : createFault a = none := by
    cases hfault : createFault a with
    | none => rfl
    | some message =>
      simp only [Op.run, createTask, hfault] at hrep
      exact absurd (hrep ▸ trivial) hreply
  simp only [Op.run, createTask, hvalid] at hrep hstore
  dsimp only at hreply
  rw [← hrep] at hreply
  obtain ⟨hexisting, hcases⟩ := offerSwept_existing (w := syncAll env a.queue (World.begin env e.store)) hmode hr hreply
  rw [hstore] at hcases
  have hevents : e'.store.events = (sweep env a.queue e.store).events := by
    rcases hcases with ⟨_, heq⟩ | ⟨holder, _, _, heq⟩ <;> rw [heq] <;> rfl
  refine ⟨⟨_, hrep.symm.trans hexisting, fun calls' e'' hpath => ?_⟩, ?_, fun holder hholder => ?_⟩
  · have hpublished := run_published hrun
    have hlater := path_published hrun hpath
    obtain ⟨later, heq⟩ := hlater.continued a.queue
    refine ⟨later, heq.symm, fun entry hentry => ?_⟩
    change StreamId.Lt (lastId ((sweep env a.queue e.store).events a.queue).retained) entry.1
    rw [← hevents, (hpublished.ordered a.queue).lastId_retained]
    exact (hlater.ordered a.queue).lt_of_appended heq.symm hentry
  · rcases hcases with ⟨_, heq⟩ | ⟨holder, hholder, hnew, heq⟩
    · exact Or.inl heq
    · exact Or.inr ⟨holder, hholder, hnew, heq⟩
  · rcases hcases with ⟨hall, heq⟩ | ⟨holder', hholder', hnew, heq⟩
    · rw [heq]
      exact ⟨hall holder hholder, sweep_paired h hclock a.queue (hall holder hholder)⟩
    · obtain rfl := Option.some.inj (hholder.symm.trans hholder')
      rw [heq]
      simp [Store.hold]

/-- A running task that is offered again for a holder, and is held from then on. -/
theorem run_duplicateOffer_held : ∃ calls e r reply s, engine.Run calls e ∧ r.attempt = 1 ∧
    s.retainedBy ⟨"mail", "a", 1⟩ = {⟨"mail", "b", 1⟩} ∧ e.store.retainedBy ⟨"mail", "a", 1⟩ = ∅ ∧
    ReadsExisting { CreateArgs.default "mail" "a" with retentionHolder := some ⟨"mail", "b", 1⟩ }
      (sweep (.at 4) "mail" e.store) r reply ⟨4, s⟩ := by
  obtain ⟨calls, e, reply, s, hrun, hstep, hp⟩ := @play_step
    [(.at 1, .createTask (.default "mail" "a")), (.at 2, .createTask (.default "mail" "b")),
      (.at 3, .takeTask "mail" "token" (some 30000))]
    (.at 4) (.createTask { CreateArgs.default "mail" "a" with retentionHolder := some ⟨"mail", "b", 1⟩ })
    (fun _ e reply s => decide (s.retainedBy ⟨"mail", "a", 1⟩ = {⟨"mail", "b", 1⟩}) &&
      decide (e.store.retainedBy ⟨"mail", "a", 1⟩ = ∅) &&
      ((sweep (.at 4) "mail" e.store).task ("mail", "a")).any (fun r => r.attempt == 1) &&
      (match reply with | .existing _ _ => true | _ => false)) (by decide +kernel)
  simp only [Bool.and_eq_true, decide_eq_true_eq] at hp
  obtain ⟨⟨⟨hheld, hfree⟩, hrecord⟩, hreply⟩ := hp
  obtain ⟨r, hr, hattempt⟩ := (Option.any_eq_true _ _).mp hrecord
  have hsuccess : ¬ reply.IsFault := by
    clear hstep
    cases reply <;> simp [Reply.IsFault] at hreply ⊢
  have hread := run_duplicateOffer hrun hstep rfl rfl hr hsuccess
  exact ⟨calls, e, r, reply, s, hrun, eq_of_beq hattempt, hheld, hfree, hread⟩

def Reply.isCreated : Reply → Bool
  | .created _ _ => true
  | _ => false

/-- The sweep of an offer removes the task whose time is over, and the offer creates its next generation. -/
theorem expired_offer_creates : ∃ calls e c e' a, engine.Run calls e ∧ engine.step e c e' ∧ c.op = .createTask a ∧
    a.onDuplicate = .returnExisting ∧ (e.store.task (a.queue, a.id)).isSome ∧ ¬ c.reply.IsFault ∧
    e'.store.generations (a.queue, a.id) ≠ (sweep c.env a.queue e.store).generations (a.queue, a.id) := by
  obtain ⟨calls, e, reply, s, hrun, hstep, hp⟩ := @play_step
    [(.at 1, .createTask { CreateArgs.default "mail" "a" with
        onSuccessPolicy := .markAsSuccess, taskRecordRetentionMs := some 10 }),
      (.at 2, .takeTask "mail" "token" (some 30000)), (.at 3, .writeSuccess "mail" "token" "a" "sent")]
    (.at 20) (.createTask (.default "mail" "a"))
    (fun _ e reply s => (e.store.task ("mail", "a")).isSome && decide (s.generations ("mail", "a") = 2) &&
      decide ((sweep (.at 20) "mail" e.store).generations ("mail", "a") = 1) &&
      reply.isCreated) (by decide +kernel)
  simp only [Bool.and_eq_true, decide_eq_true_eq] at hp
  obtain ⟨⟨⟨hstored, hnew⟩, hold⟩, hreply⟩ := hp
  refine ⟨calls, e, _, _, _, hrun, hstep, rfl, rfl, hstored, ?_, ?_⟩
  · cases reply <;> simp_all [Reply.IsFault, Reply.isCreated]
  · change s.generations ("mail", "a") ≠ (sweep (.at 20) "mail" e.store).generations ("mail", "a")
    rw [hnew, hold]
    decide

end EffectMQ
