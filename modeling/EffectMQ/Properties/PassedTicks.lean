import EffectMQ.Lifecycle.Subscription
import EffectMQ.Properties.TickGenerations

/-!
# Every passed tick has its task

Runs of one schedule over the engine, under any clocks and with any of them stopping anywhere. Each tick that the cursor has
passed has a generation of its task, unless the policy left it out where the cursor was moved over it.
-/

namespace EffectMQ

open Redis Transition Scheduler

/-- What a policy leaves out of the due ticks. -/
def MissedTickPolicy.LeavesOut (due : Set ℤ) (t : ℤ) : MissedTickPolicy → Prop
  | .skip => ∃ u ∈ due, u ≠ t
  | .coalesce => ∃ u ∈ due, t < u
  | .backfill maxBackfill => natural maxBackfill ≤ {u ∈ due | t < u}.ncard

theorem Newest.left_out {n : ℕ} {S : Set ℤ} {l : List ℤ} {t : ℤ} (h : Newest n S l) (hfinite : S.Finite) (ht : t ∈ S)
    (hnot : t ∉ l) : n ≤ {u ∈ S | t < u}.ncard := by
  have hnodup : l.Nodup := h.sorted.imp fun hlt => hlt.ne
  have hsubset : (l.toFinset : Set ℤ) ⊆ {u ∈ S | t < u} := by
    intro u hu
    have hu : u ∈ l := by simpa using hu
    exact ⟨h.mem u hu, h.older t ht hnot u hu⟩
  have hle := Set.ncard_le_ncard hsubset (hfinite.subset fun u hu => hu.1)
  rw [Set.ncard_coe_finset, List.toFinset_card_of_nodup hnodup] at hle
  have hlt : {u ∈ S | t < u}.ncard < S.ncard :=
    Set.ncard_lt_ncard ⟨fun u hu => hu.1, fun hback => lt_irrefl t (hback ht).2⟩ hfinite
  have hlength := h.length
  omega

/-- A due tick is selected, or the policy leaves it out. -/
theorem Selects.mem_or {tick : ℤ → Prop} {missed : MissedTickPolicy} {firstDue observedAt t : ℤ} {ticks : List ℤ}
    (h : Selects tick missed firstDue observedAt ticks) (htick : tick firstDue) (hdue : firstDue ≤ observedAt)
    (ht : t ∈ dueTicks tick firstDue observedAt) :
    t ∈ ticks ∨ missed.LeavesOut (dueTicks tick firstDue observedAt) t := by
  unfold Selects at h
  split at h
  · next hsingle =>
    rw [hsingle] at ht
    exact Or.inl (by rw [h, Set.mem_singleton_iff.mp ht]; exact List.mem_singleton_self _)
  · next hmany =>
    have hfinite : (dueTicks tick firstDue observedAt).Finite :=
      (Set.finite_Icc firstDue observedAt).subset fun u hu => hu.2
    cases missed with
    | skip =>
      refine Or.inr ?_
      by_contra hnone
      have hall : ∀ u ∈ dueTicks tick firstDue observedAt, u = t := fun u hu => by
        by_contra hne
        exact hnone ⟨u, hu, hne⟩
      have hfirst := hall firstDue ⟨htick, le_rfl, hdue⟩
      exact hmany (Set.eq_singleton_iff_unique_mem.mpr ⟨⟨htick, le_rfl, hdue⟩, fun u hu => (hall u hu).trans hfirst.symm⟩)
    | coalesce =>
      obtain ⟨last, hlast, rfl⟩ := h
      rcases (hlast.2 ht).lt_or_eq with hlt | rfl
      · exact Or.inr ⟨last, hlast.1, hlt⟩
      · exact Or.inl (List.mem_singleton_self _)
    | backfill maxBackfill =>
      by_cases hmem : t ∈ ticks
      · exact Or.inl hmem
      · exact Or.inr (Newest.left_out h hfinite ht hmem)

namespace Scheduler

variable {P : Type} (client : Client) (config : SchedulerConfig P)

/-- Runs of a schedule over the engine, beside whatever does not touch its cursor. -/
def engineRuns : System (SchedulerParties Engine) (Move (Option ℤ × ℤ) Call) :=
  schedulers client config engine fun c => c.op.namesSchedule (scheduleKey client config) = false

/-- A move that takes the cursor over a tick which the policy leaves out. -/
def Drops (tick : ℤ → Prop) (s : SchedulerParties Engine) (move : Move (Option ℤ × ℤ) Call) (t : ℤ) : Prop :=
  ∃ i c party f n, move = .call i c ∧ s.party i = some party ∧ c.op = .consumeSchedule client.keyPrefix config.name f n ∧
    c.reply = .consumed true (some n) ∧ t ∈ dueTicks tick f (observedAt party.start) ∧
    config.missed.LeavesOut (dueTicks tick f (observedAt party.start)) t

variable {client config} {tick : ℤ → Prop} {s s' : SchedulerParties Engine} {move : Move (Option ℤ × ℤ) Call}
  {moves moves' : List (Move (Option ℤ × ℤ) Call)} {t f n : ℤ}

theorem engineRuns_step (hrun : (engineRuns client config).Run moves s) (hstep : (engineRuns client config).step s move s') :
    (s'.shared.store.schedule (scheduleKey client config) = s.shared.store.schedule (scheduleKey client config) ∧
        consumed move = none) ∨
      (s.shared.store.schedule (scheduleKey client config) = none ∧ consumed move = none ∧
        ∃ o, s'.shared.store.schedule (scheduleKey client config) =
          some (config.startAt.getD (config.cron.next o))) ∨
      ∃ i c party firstDue, move = .call i c ∧ s.party i = some party ∧ Advances client config party c firstDue ∧
        s.shared.store.schedule (scheduleKey client config) = some firstDue ∧
        s'.shared.store.schedule (scheduleKey client config) = some (config.cron.next (observedAt party.start)) :=
  @cursor_step P Engine client config engine Engine.store _ s s' move moves (fun h => h.2.2) (fun _ h => h) hrun hstep

theorem engineRuns_tick (hcron : config.cron.Walks tick) (hstart : ∀ t, config.startAt = some t → tick t)
    (hrun : (engineRuns client config).Run moves s) (hf : s.shared.store.schedule (scheduleKey client config) = some f) :
    tick f := by
  refine hrun.induction (P := fun _ s => ∀ f, s.shared.store.schedule (scheduleKey client config) = some f → tick f)
    (fun s hs f hf => ?_) (fun l s move s' hrun ih hstep f hf => ?_) f hf
  · rw [hs.1] at hf
    exact absurd hf (by simp [Store.empty])
  · obtain ⟨hsame, _⟩ | ⟨_, _, o, hset⟩ | ⟨i, c, party, firstDue, _, _, _, _, hset⟩ := engineRuns_step hrun hstep
    · exact ih f (hsame.symm.trans hf)
    · obtain rfl := Option.some.inj (hset.symm.trans hf)
      cases hstartAt : config.startAt with
      | none => exact (hcron.next o).1.1
      | some t => exact hstart t hstartAt
    · obtain rfl := Option.some.inj (hset.symm.trans hf)
      exact (hcron.next _).1.1

theorem AllOffered.of_mem {firstDue : ℤ} {ticks : List ℤ} {l : List (Op × Reply)}
    (h : AllOffered client config firstDue ticks l) (ht : t ∈ ticks) :
    ∃ x ∈ l, tickRequest client config firstDue t = some x.1 ∧ x.2.IsOffered := by
  induction h with
  | nil => cases ht
  | @cons u x ticks l hx _ ih =>
    rcases List.mem_cons.mp ht with rfl | ht
    · exact ⟨x, List.mem_cons_self, hx⟩
    · obtain ⟨y, hy, hoffered⟩ := ih ht
      exact ⟨y, List.mem_cons_of_mem _ hy, hoffered⟩

/-- A tick that a run has offered has a generation. -/
theorem created_of_offered (hrun : (engineRuns client config).Run moves s) {i : ℕ} {party : SchedulerParty}
    (hi : s.party i = some party) {x : Op × Reply} (hx : x ∈ party.log) {firstDue : ℤ}
    (hrequest : tickRequest client config firstDue t = some x.1) (hoffered : x.2.IsOffered) :
    0 < s.shared.store.generations (tickKey client config t) := by
  obtain ⟨c, hmove, rfl⟩ := party_logged hrun hi hx
  have hc : c ∈ moves.filterMap Move.action := List.mem_filterMap.mpr ⟨_, hmove, rfl⟩
  obtain ⟨a, hop, hkey, _⟩ := tickRequest_spec hrequest
  obtain ⟨before, after, e, e', -, hbefore, hstep, hafter⟩ := (parties_run hrun).of_mem hc
  have hpositive : 0 < e'.store.generations (a.queue, a.id) := by
    cases hreply : c.reply with
    | created cursor task => exact (offer_reached hbefore hstep hop (Or.inl hreply)).1.2
    | existing cursor task => exact (offer_reached hbefore hstep hop (Or.inr hreply)).1.2
    | _ => exact absurd hoffered (by simp [hreply, Reply.IsOffered])
  rw [← hkey]
  exact hpositive.trans_le (path_counter_le (hbefore.snoc hstep) hafter _)

/-- Of a schedule that starts at a tick, between two values of the cursor every tick has a generation of its task, or some
move dropped it. -/
theorem passed_tick_created (hcron : config.cron.Walks tick) (hstart : ∀ t, config.startAt = some t → tick t)
    (hrun : (engineRuns client config).Run moves s) (hpath : (engineRuns client config).Path s moves' s')
    (hf : s.shared.store.schedule (scheduleKey client config) = some f)
    (hn : s'.shared.store.schedule (scheduleKey client config) = some n) (ht : tick t) (hft : f ≤ t) (htn : t < n) :
    0 < s'.shared.store.generations (tickKey client config t) ∨
      ∃ before move after s₁ s₂, moves' = before ++ move :: after ∧ (engineRuns client config).Path s before s₁ ∧
        (engineRuns client config).step s₁ move s₂ ∧ Drops client config tick s₁ move t := by
  suffices ∃ n, s'.shared.store.schedule (scheduleKey client config) = some n ∧
      (t < n → 0 < s'.shared.store.generations (tickKey client config t) ∨
        ∃ before move after s₁ s₂, moves' = before ++ move :: after ∧ (engineRuns client config).Path s before s₁ ∧
          (engineRuns client config).step s₁ move s₂ ∧ Drops client config tick s₁ move t) by
    obtain ⟨n', hn', hpassed⟩ := this
    obtain rfl := Option.some.inj (hn.symm.trans hn')
    exact hpassed htn
  clear hn htn
  induction hpath with
  | nil => exact ⟨f, hf, fun htf => absurd hft (not_le.mpr htf)⟩
  | @snoc l s₁ s₂ move hpath hstep ih =>
    obtain ⟨m, hm, hpassed⟩ := ih
    have hrun₁ := hrun.extend hpath
    -- what is known of the ticks before the last move stays known
    have hkeep : t < m → 0 < s₂.shared.store.generations (tickKey client config t) ∨
        ∃ before move' after s₃ s₄, l ++ [move] = before ++ move' :: after ∧ (engineRuns client config).Path s before s₃ ∧
          (engineRuns client config).step s₃ move' s₄ ∧ Drops client config tick s₃ move' t := by
      intro htm
      rcases hpassed htm with hcreated | ⟨before, move', after, s₃, s₄, rfl, hbefore, hdrop⟩
      · have hlast := parties_path (System.Path.single hstep)
        exact Or.inl (hcreated.trans_le (path_counter_le (parties_run hrun₁) hlast _))
      · exact Or.inr ⟨before, move', after ++ [move], s₃, s₄, by simp, hbefore, hdrop⟩
    obtain ⟨hsame, _⟩ | ⟨hunset, _⟩ | ⟨i, c, party, firstDue, rfl, hi, hadvances, hcursor, hset⟩ :=
      engineRuns_step hrun₁ hstep
    · exact ⟨m, hsame.trans hm, hkeep⟩
    · exact absurd (hunset.symm.trans hm) (by simp)
    · obtain rfl := Option.some.inj (hcursor.symm.trans hm)
      refine ⟨_, hset, fun hlt => ?_⟩
      by_cases hbefore : t < firstDue
      · exact hkeep hbefore
      · have hdue : t ∈ dueTicks tick firstDue (observedAt party.start) := by
          rw [← hcron.before_next firstDue (observedAt party.start)]
          exact ⟨ht, not_lt.mp hbefore, hlt⟩
        have htick := engineRuns_tick hcron hstart hrun₁ hcursor
        rcases (selectTicks_selects hcron htick hadvances.due config.missed).mem_or htick hadvances.due hdue with hmem | hout
        · obtain ⟨offers, hlog, hoffers⟩ := hadvances.log
          obtain ⟨x, hx, hrequest, hoffered⟩ := hoffers.of_mem hmem
          have hcreated := created_of_offered hrun₁ hi (by rw [hlog]; exact List.mem_cons_of_mem _ hx) hrequest hoffered
          have hlast := parties_path (System.Path.single hstep)
          exact Or.inl (hcreated.trans_le (path_counter_le (parties_run hrun₁) hlast _))
        · exact Or.inr ⟨l, _, [], s₁, s₂, rfl, hpath, hstep, i, c, party, firstDue, _, rfl, hi, hadvances.op,
            hadvances.reply, hdue, hout⟩

/-- A schedule that is set at the first minute, and a run that finds four ticks due and backfills two of them. -/
theorem passed_tick_created_backfill : ∃ moves s moves' s',
    (engineRuns reportClient (report (.backfill (some 2)))).Run moves s ∧
    (engineRuns reportClient (report (.backfill (some 2)))).Path s moves' s' ∧
    s.shared.store.schedule (scheduleKey reportClient (report (.backfill (some 2)))) = some 60000 ∧
    s'.shared.store.schedule (scheduleKey reportClient (report (.backfill (some 2)))) = some 300000 ∧
    (0 < s'.shared.store.generations (tickKey reportClient (report (.backfill (some 2))) 120000) ∨
      ∃ before move after s₁ s₂, moves' = before ++ move :: after ∧
        (engineRuns reportClient (report (.backfill (some 2)))).Path s before s₁ ∧
        (engineRuns reportClient (report (.backfill (some 2)))).step s₁ move s₂ ∧
        Drops reportClient (report (.backfill (some 2))) (fun t => 60000 ∣ t) s₁ move 120000) := by
  have hplay : (playSchedulers perform (report (.backfill (some 2))) (fun _ => false) ⟨Engine.start, fun _ => none⟩
      [.launch 0 (some 0, 0), .call 0 (.at 0)]).any (fun first =>
        (playSchedulers perform (report (.backfill (some 2))) (fun _ => false) first.2
          [.launch 1 (none, 250000), .call 1 (.at 250000), .call 1 (.at 250001), .call 1 (.at 250002),
            .call 1 (.at 250003)]).any fun last =>
          decide (first.2.shared.store.schedule (scheduleKey reportClient (report (.backfill (some 2)))) = some 60000 ∧
            last.2.shared.store.schedule (scheduleKey reportClient (report (.backfill (some 2)))) = some 300000)) = true := by
    decide +kernel
  obtain ⟨⟨moves, s⟩, hfirst, hlast⟩ := (Option.any_eq_true _ _).mp hplay
  obtain ⟨⟨moves', s'⟩, hlast, hshows⟩ := (Option.any_eq_true _ _).mp hlast
  obtain ⟨hf, hn⟩ := of_decide_eq_true hshows
  have hrun : (engineRuns reportClient (report (.backfill (some 2)))).Run moves s :=
    ⟨⟨Engine.start, fun _ => none⟩, ⟨rfl, fun _ => rfl⟩, playSchedulers_path (fun h => ⟨perform_step h, perform_op h⟩)
      (fun _ h => absurd h (by simp)) hfirst⟩
  have hpath : (engineRuns reportClient (report (.backfill (some 2)))).Path s moves' s' :=
    playSchedulers_path (fun h => ⟨perform_step h, perform_op h⟩) (fun _ h => absurd h (by simp)) hlast
  exact ⟨moves, s, moves', s', hrun, hpath, hf, hn, passed_tick_created everyMinute_walks
    (fun t ht => absurd ht (by simp [report])) hrun hpath hf hn (by decide) (by decide) (by decide)⟩

end Scheduler

end EffectMQ
