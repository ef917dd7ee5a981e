import EffectMQ.EventEngine.Drain
import EffectMQ.EventEngine.Scenario
import EffectMQ.Transition.Drain

/-!
# Event maintenance is bounded and drains

One call handles at most a batch in each of its phases. With the clock fixed and no other operation, the calls take the
backlog down to nothing, so the loop over them does not see pending work for ever.
-/

namespace EffectMQ.EventEngine

open Redis Transition

/-- A maintenance of a queue at an instant, whatever its batch size. -/
def Maintenance (p : Policy) (now : ℕ) (call : EventCall) : Prop :=
  call.op = .maintain ∧ call.env.now = now ∧ call.env.policy = p

section

variable {env : EventEnv} {p : Policy} {now : ℕ} {s s' : EventStore} {calls later : List EventCall} {call : EventCall}
  {state state' : ℕ × EventStore}

theorem Kept.invariant (h : Kept state) (hagree : ∀ existing ∈ state.2.config, existing = p) (hclock : state.1 ≤ now) :
    EventInvariant p now state.2 := by
  unfold Kept at h
  cases hconfig : state.2.config with
  | none =>
    rw [hconfig] at h
    dsimp only at h
    rw [h]
    exact .empty
  | some existing =>
    rw [hconfig] at h
    obtain rfl := hagree existing hconfig
    exact h.mono hclock

theorem exec_maintain (h : EventInvariant env.policy env.now s) (hagree : ∀ existing ∈ s.config, existing = env.policy) :
    ∃ s₁ s₂ s' drained, Phases env (s.opened env.policy) s₁ s₂ s' drained ∧ Progress env (s.opened env.policy) s₁ s' ∧
      exec env .maintain s = (.maintenance ((dueIn env s.deadlines).length + (dueIn env s₁.archiveDeadlines).length +
        drained.length) (pendingWork env s'), s') := by
  obtain ⟨s₁, s₂, s', drained, hphases, hprogress, hmaintain⟩ := h.opened.maintain
  refine ⟨s₁, s₂, s', drained, hphases, hprogress, ?_⟩
  have hset : (modify fun s => { s with config := some env.policy } : Script Unit) s = .ok () (s.opened env.policy) := rfl
  unfold exec dispatch
  rw [bind_ok (get_ok s), if_neg (by rintro ⟨existing, hexisting, hne⟩; exact hne (hagree existing hexisting)), bind_ok hset]
  dsimp only
  rw [bind_ok hmaintain]
  rfl

/-- A store under its policy, at an instant that the clock has not passed. -/
def Maintainable (p : Policy) (now : ℕ) (state : ℕ × EventStore) : Prop :=
  state.1 ≤ now ∧ (∀ existing ∈ state.2.config, existing = p) ∧ EventInvariant p now state.2

theorem Maintainable.step (h : Maintainable p now state) (hcall : Maintenance p now call)
    (hstep : events.step state call state') :
    Maintainable p now state' ∧ backlog now state'.2 ≤ backlog now state.2 - 1 ∧
      ∃ processed, call.reply = .maintenance processed (decide (backlog now state'.2 ≠ 0)) := by
  obtain ⟨env, op, reply⟩ := call
  obtain ⟨hop, hnow, hpolicy⟩ := hcall
  dsimp only at hop hnow hpolicy
  subst hop hnow hpolicy
  obtain ⟨_, hclock, hexec⟩ := hstep
  obtain ⟨s₁, s₂, s', drained, _, hprogress, hmaintain⟩ := exec_maintain h.2.2 h.2.1
  rw [hmaintain, Prod.mk.injEq] at hexec
  obtain ⟨hreply, hstore⟩ := hexec
  have hsweeps := hprogress.first.trans hprogress.rest
  rw [← hstore]
  refine ⟨⟨hclock.le, ?_, ?_⟩, ?_, _, hreply.symm.trans (congrArg _ ?_)⟩
  · rw [← hstore, hsweeps.config]
    exact fun existing hexisting => (Option.some.inj hexisting).symm
  · rw [← hstore]
    exact hsweeps.invariant
  · rcases Nat.eq_zero_or_pos (backlog env.now state.2) with hzero | hpos
    · have hle : backlog env.now s' ≤ backlog env.now (state.2.opened env.policy) := hsweeps.backlog_le h.2.2.opened
      exact hle.trans (le_of_eq hzero |>.trans (Nat.zero_le _))
    · exact Nat.le_sub_one_of_lt (hprogress.backlog_lt h.2.2.opened hpos)
  · rw [Bool.eq_iff_iff, decide_eq_true_eq, ← Bool.not_eq_false, not_iff_not]
    exact pendingWork_eq_false_iff

/-- Maintenance at a fixed instant spends the backlog. -/
theorem Maintainable.path (h : Maintainable p now state) (hpath : events.Path state later state')
    (hlater : ∀ call ∈ later, Maintenance p now call) :
    Maintainable p now state' ∧ backlog now state'.2 ≤ backlog now state.2 - later.length :=
  hpath.spends (I := Maintainable p now) (Q := Maintenance p now) (fun state => backlog now state.2) h hlater (fun _ _ _ ht hcall hstep => (ht.step hcall hstep).1)
    fun _ _ _ ht hcall hstep => (ht.step hcall hstep).2.1

/-- The last of some calls says whether anything is left. -/
theorem Maintainable.last (h : Maintainable p now state) (hpath : events.Path state later state')
    (hlater : ∀ call ∈ later, Maintenance p now call) (hcall : call ∈ later.getLast?) :
    ∃ processed, call.reply = .maintenance processed (decide (backlog now state'.2 ≠ 0)) := by
  obtain ⟨before, rfl⟩ := List.getLast?_eq_some_iff.mp hcall
  obtain ⟨t, hbefore, hstep⟩ := hpath.of_snoc
  obtain ⟨ht, _⟩ := h.path hbefore fun call hcall => hlater call (List.mem_append_left _ hcall)
  exact (ht.step (hlater call (List.mem_append_right _ (List.mem_singleton_self call))) hstep).2.2

end

/-- In every state of every run, under the policy of the queue: a maintenance has its three phases, of at most a batch
each. At a fixed instant, maintenance and nothing else drains the queue after some number of calls, whatever their batch
sizes, and then replies that nothing is pending; a call that replies so leaves the queue drained. -/
theorem run_eventDrain {calls : List EventCall} {state : ℕ × EventStore} (h : events.Run calls state) (p : Policy)
    (hagree : ∀ existing ∈ state.2.config, existing = p) (now : ℕ) (hclock : state.1 ≤ now) :
    (∀ env, env.now = now → env.policy = p → ∃ s₁ s₂ s' drained,
      Phases env (state.2.opened p) s₁ s₂ s' drained ∧
      (dueIn env state.2.deadlines).length ≤ env.batch ∧ (dueIn env s₁.archiveDeadlines).length ≤ env.batch ∧
      drained.length ≤ env.batch ∧
      exec env .maintain state.2 = (.maintenance ((dueIn env state.2.deadlines).length +
        (dueIn env s₁.archiveDeadlines).length + drained.length) (pendingWork env s'), s')) ∧
    ∃ enough, ∀ (later : List EventCall) (state' : ℕ × EventStore), events.Path state later state' → (∀ call ∈ later, Maintenance p now call) →
      (∀ call ∈ later.getLast?, ∃ processed pending, call.reply = .maintenance processed pending ∧
        (pending = false → Drained now state'.2)) ∧
      (enough ≤ later.length → Drained now state'.2 ∧
        ∀ call ∈ later.getLast?, ∃ processed, call.reply = .maintenance processed false) := by
  have hmaintainable : Maintainable p now state := ⟨hclock, hagree, (run_kept h).invariant hagree hclock⟩
  constructor
  · rintro env rfl rfl
    obtain ⟨s₁, s₂, s', drained, hphases, _, hexec⟩ := exec_maintain hmaintainable.2.2 hagree
    exact ⟨s₁, s₂, s', drained, hphases, length_dueIn_le _, length_dueIn_le _, hphases.drained_length, hexec⟩
  refine ⟨backlog now state.2 + 1, fun later state' hpath hlater => ?_⟩
  obtain ⟨hend, hleft⟩ := hmaintainable.path hpath hlater
  constructor
  · intro call hcall
    obtain ⟨processed, hreply⟩ := hmaintainable.last hpath hlater hcall
    refine ⟨processed, _, hreply, fun hpending => hend.2.2.drained ?_⟩
    exact not_not.mp (of_decide_eq_false hpending)
  · intro henough
    have hzero : backlog now state'.2 = 0 := by omega
    refine ⟨hend.2.2.drained hzero, fun call hcall => ?_⟩
    obtain ⟨processed, hreply⟩ := hmaintainable.last hpath hlater hcall
    rw [hzero] at hreply
    exact ⟨processed, hreply⟩

theorem run_eventDrain_acknowledged : ∃ enough, ∀ (later : List EventCall) (state' : ℕ × EventStore),
    events.Path (serve (0, .empty) acknowledgedOnce).2 later state' →
    (∀ call ∈ later, Maintenance (EventEnv.at 0).policy 200 call) → enough ≤ later.length → Drained 200 state'.2 := by
  obtain ⟨_, enough, hdrains⟩ := run_eventDrain (@serve_run acknowledgedOnce (by decide)) (EventEnv.at 0).policy
    (by decide +kernel) 200 (by decide +kernel)
  exact ⟨enough, fun later state' hpath hlater henough => ((hdrains later state' hpath hlater).2 henough).1⟩

end EffectMQ.EventEngine
