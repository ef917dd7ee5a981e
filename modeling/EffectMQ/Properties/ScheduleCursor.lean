import EffectMQ.Scheduler.Scenario

/-!
# The cursor of a schedule loses no tick

Runs of one schedule under any clocks, of which any may stop at any point. The cursor stays on ticks and never goes back,
each of its values is consumed once, and a run that moves it has offered exactly what its policy selects between where it
read the cursor and the time it observed.
-/

namespace EffectMQ

open Redis Transition Scheduler

/-- Invocations one after the other under a clock that may go anywhere, from a store in which a schedule was never set. -/
def invocations (key : String × String) : System Store Call where
  initial s := s.schedule key = none
  step s c s' := exec c.env c.op s = .replied c.reply s'

namespace Scheduler

variable {P : Type} (client : Client) (config : SchedulerConfig P)

/-- Runs of a schedule, beside whatever does not touch its cursor. -/
def cursorRuns : System (SchedulerParties Store) (Move (Option ℤ × ℤ) Call) :=
  schedulers client config (invocations (scheduleKey client config))
    fun c => c.op.namesSchedule (scheduleKey client config) = false

/-- The cursor of a schedule, once it is set. -/
def cursor (s : SchedulerParties Store) : Option ℤ := s.shared.schedule (scheduleKey client config)

variable {client config} {tick : ℤ → Prop} {s s' : SchedulerParties Store} {move : Move (Option ℤ × ℤ) Call}
  {moves moves' : List (Move (Option ℤ × ℤ) Call)}

theorem cursorRuns_step (hrun : (cursorRuns client config).Run moves s)
    (hstep : (cursorRuns client config).step s move s') :
    (cursor client config s' = cursor client config s ∧ consumed move = none) ∨
      (cursor client config s = none ∧ consumed move = none ∧
        ∃ o, cursor client config s' = some (config.startAt.getD (config.cron.next o))) ∨
      ∃ i c party firstDue, move = .call i c ∧ s.party i = some party ∧ Advances client config party c firstDue ∧
        cursor client config s = some firstDue ∧
        cursor client config s' = some (config.cron.next (observedAt party.start)) :=
  @cursor_step P Store client config _ id _ s s' move moves (fun h => h) (fun _ h => h) hrun hstep

/-- The cursor is on a tick. -/
theorem cursor_tick (hcron : config.cron.Walks tick) (hstart : ∀ t, config.startAt = some t → tick t)
    (hrun : (cursorRuns client config).Run moves s) : ∀ f, cursor client config s = some f → tick f := by
  refine hrun.induction (P := fun _ s => ∀ f, cursor client config s = some f → tick f)
    (fun s hs f hf => absurd (hs.1.symm.trans hf) (by simp)) fun l s move s' hrun ih hstep f hf => ?_
  obtain ⟨hsame, _⟩ | ⟨_, _, o, hset⟩ | ⟨i, c, party, firstDue, _, _, _, _, hset⟩ := cursorRuns_step hrun hstep
  · exact ih f (hsame.symm.trans hf)
  · obtain rfl := Option.some.inj (hset.symm.trans hf)
    cases hstartAt : config.startAt with
    | none => exact (hcron.next o).1.1
    | some t => exact hstart t hstartAt
  · obtain rfl := Option.some.inj (hset.symm.trans hf)
    exact (hcron.next _).1.1

/-- The cursor does not go back. -/
theorem cursor_mono (hrun : (cursorRuns client config).Run moves s)
    (hpath : (cursorRuns client config).Path s moves' s') {f : ℤ} (hf : cursor client config s = some f) :
    ∃ f', cursor client config s' = some f' ∧ f ≤ f' := by
  refine hpath.relates (I := fun s => ∃ moves, (cursorRuns client config).Run moves s)
    (R := fun s s' => ∀ f, cursor client config s = some f → ∃ f', cursor client config s' = some f' ∧ f ≤ f')
    ⟨moves, hrun⟩ (fun s move s' ⟨moves, hrun⟩ hstep => ⟨_, hrun.snoc hstep⟩) (fun s f hf => ⟨f, hf, le_rfl⟩) ?_ ?_ f hf
  · intro s t u hst htu f hf
    obtain ⟨f', hf', hle⟩ := hst f hf
    obtain ⟨f'', hf'', hle'⟩ := htu f' hf'
    exact ⟨f'', hf'', hle.trans hle'⟩
  · intro s move s' ⟨moves, hrun⟩ hstep f hf
    obtain ⟨hsame, _⟩ | ⟨hnone, _⟩ | ⟨i, c, party, firstDue, _, _, hadvances, hcursor, hset⟩ := cursorRuns_step hrun hstep
    · exact ⟨f, hsame.trans hf, le_rfl⟩
    · exact absurd (hnone.symm.trans hf) (by simp)
    · obtain rfl := Option.some.inj (hcursor.symm.trans hf)
      exact ⟨_, hset, hadvances.later.le⟩

/-- The consumed values increase, up to the cursor. -/
theorem consumed_sorted (hrun : (cursorRuns client config).Run moves s) :
    (moves.filterMap consumed).Pairwise (· < ·) ∧
      ∀ f ∈ moves.filterMap consumed, ∃ f', cursor client config s = some f' ∧ f < f' := by
  refine hrun.induction (P := fun moves s => (moves.filterMap consumed).Pairwise (· < ·) ∧
    ∀ f ∈ moves.filterMap consumed, ∃ f', cursor client config s = some f' ∧ f < f')
    (fun s _ => ⟨.nil, by simp⟩) fun l s move s' hrun ⟨hsorted, hbelow⟩ hstep => ?_
  have hnothing : consumed move = none → (l ++ [move]).filterMap consumed = l.filterMap consumed := by
    intro hnone
    rw [List.filterMap_append, List.filterMap_cons_none hnone, List.filterMap_nil, List.append_nil]
  obtain ⟨hsame, hnone⟩ | ⟨hunset, hnone, _⟩ | ⟨i, c, party, firstDue, rfl, _, hadvances, hcursor, hset⟩ :=
    cursorRuns_step hrun hstep
  · rw [hnothing hnone, hsame]
    exact ⟨hsorted, hbelow⟩
  · rw [hnothing hnone]
    refine ⟨hsorted, fun f hf => ?_⟩
    obtain ⟨f', hf', _⟩ := hbelow f hf
    exact absurd (hunset.symm.trans hf') (by simp)
  · have hlast : (l ++ [Move.call i c]).filterMap consumed = l.filterMap consumed ++ [firstDue] := by
      rw [List.filterMap_append, List.filterMap_cons_some hadvances.consumed_eq, List.filterMap_nil]
    have hearlier : ∀ f ∈ l.filterMap consumed, f < firstDue := by
      intro f hf
      obtain ⟨f', hf', hlt⟩ := hbelow f hf
      obtain rfl := Option.some.inj (hcursor.symm.trans hf')
      exact hlt
    rw [hlast]
    constructor
    · refine List.pairwise_append.mpr ⟨hsorted, List.pairwise_singleton _ _, fun f hf g hg => ?_⟩
      rw [List.mem_singleton.mp hg]
      exact hearlier f hf
    · intro f hf
      refine ⟨_, hset, ?_⟩
      rcases List.mem_append.mp hf with hf | hf
      · exact (hearlier f hf).trans hadvances.later
      · rw [List.mem_singleton.mp hf]
        exact hadvances.later

/-- What a run that moves the cursor has done before. -/
theorem cursor_advanced (hcron : config.cron.Walks tick) (hstart : ∀ t, config.startAt = some t → tick t)
    (hrun : (cursorRuns client config).Run moves s) (hstep : (cursorRuns client config).step s move s') {f n : ℤ}
    (hf : cursor client config s = some f) (hn : cursor client config s' = some n) (hne : f ≠ n) :
    ∃ i c party, move = .call i c ∧ s.party i = some party ∧
      c.op = .consumeSchedule client.keyPrefix config.name f n ∧ c.reply = .consumed true (some n) ∧
      f ≤ observedAt party.start ∧ IsLeast {t | tick t ∧ observedAt party.start < t} n ∧
      ∃ ticks offers, party.log = (readRequest client config (observedAt party.start), .schedule f) :: offers ∧
        AllOffered client config f ticks offers ∧ Selects tick config.missed f (observedAt party.start) ticks := by
  obtain ⟨hsame, _⟩ | ⟨hunset, _⟩ | ⟨i, c, party, firstDue, rfl, hi, hadvances, hcursor, hset⟩ :=
    cursorRuns_step hrun hstep
  · exact absurd (Option.some.inj (hf.symm.trans (hsame.symm.trans hn))) hne
  · exact absurd (hunset.symm.trans hf) (by simp)
  · obtain rfl := Option.some.inj (hcursor.symm.trans hf)
    obtain rfl := Option.some.inj (hset.symm.trans hn)
    obtain ⟨offers, hlog, hoffers⟩ := hadvances.log
    have htick := cursor_tick hcron hstart hrun firstDue hf
    exact ⟨i, c, party, rfl, hi, hadvances.op, hadvances.reply, hadvances.due, hcron.next _, _, offers, hlog, hoffers,
      selectTicks_selects hcron htick hadvances.due config.missed⟩

/-- Whatever runs of a schedule do beside each other, its cursor loses no tick. -/
theorem cursor_loses_no_tick (hcron : config.cron.Walks tick) (hstart : ∀ t, config.startAt = some t → tick t)
    (hrun : (cursorRuns client config).Run moves s) :
    (∀ f, cursor client config s = some f → tick f) ∧
      (∀ moves' s', (cursorRuns client config).Path s moves' s' → ∀ f, cursor client config s = some f →
        ∃ f', cursor client config s' = some f' ∧ f ≤ f') ∧
      (moves.filterMap consumed).Pairwise (· < ·) ∧
      ∀ move s', (cursorRuns client config).step s move s' → ∀ f n, cursor client config s = some f →
        cursor client config s' = some n → f ≠ n →
        ∃ i c party, move = .call i c ∧ s.party i = some party ∧
          c.op = .consumeSchedule client.keyPrefix config.name f n ∧ c.reply = .consumed true (some n) ∧
          f ≤ observedAt party.start ∧ IsLeast {t | tick t ∧ observedAt party.start < t} n ∧
          ∃ ticks offers, party.log = (readRequest client config (observedAt party.start), .schedule f) :: offers ∧
            AllOffered client config f ticks offers ∧ Selects tick config.missed f (observedAt party.start) ticks :=
  ⟨cursor_tick hcron hstart hrun, fun _ _ hpath _ hf => cursor_mono hrun hpath hf, (consumed_sorted hrun).1,
    fun _ _ hstep _ _ hf hn hne => cursor_advanced hcron hstart hrun hstep hf hn hne⟩

/-- The turns of a schedule that was set at the first minute and is observed late, with a backlog of four ticks. -/
def lateTurns : List (Turn (Option ℤ × ℤ) Env Op) :=
  [.launch 0 (some 0, 0), .call 0 (Env.at 0), .launch 1 (none, 250000), .launch 2 (some 200000, 0),
    .call 1 (Env.at 250000), .call 2 (Env.at 200000), .call 1 (Env.at 250000), .call 2 (Env.at 200000),
    .call 1 (Env.at 250000), .call 1 (Env.at 240000), .stop 2]

/-- An invocation, when it replies. -/
def respond (s : Store) (env : Env) (op : Op) : Option (Call × Store) :=
  match exec env op s with
  | .replied reply s' => some (⟨env, op, reply⟩, s')
  | .raised _ _ => none

theorem respond_step {key : String × String} {s s' : Store} {env : Env} {op : Op} {c : Call}
    (h : respond s env op = some (c, s')) : (invocations key).step s c s' ∧ c.op = op := by
  unfold respond at h
  split at h
  · next hexec =>
    obtain ⟨rfl, rfl⟩ := Prod.mk.inj (Option.some.inj h)
    exact ⟨hexec, rfl⟩
  · exact absurd h (by simp)

/-- Two runs backfill the same backlog, and one of them consumes it. -/
theorem cursor_loses_no_tick_backfill : ∃ moves s,
    (cursorRuns reportClient (report (.backfill (some 2)))).Run moves s ∧
    (moves.filterMap consumed = [60000] ∧ cursor reportClient (report (.backfill (some 2))) s = some 300000) ∧
    (∀ f, cursor reportClient (report (.backfill (some 2))) s = some f → 60000 ∣ f) ∧
    (moves.filterMap consumed).Pairwise (· < ·) := by
  have hplay : (playSchedulers respond (report (.backfill (some 2)))
      (fun c => !c.op.namesSchedule (scheduleKey reportClient (report (.backfill (some 2))))) ⟨Store.empty, fun _ => none⟩
      lateTurns).any (fun last => decide (last.1.filterMap consumed = [60000] ∧
        cursor reportClient (report (.backfill (some 2))) last.2 = some 300000)) = true := by
    decide +kernel
  obtain ⟨⟨moves, s⟩, hmoves, hshows⟩ := (Option.any_eq_true _ _).mp hplay
  have hrun : (cursorRuns reportClient (report (.backfill (some 2)))).Run moves s :=
    ⟨⟨Store.empty, fun _ => none⟩, ⟨rfl, fun _ => rfl⟩, playSchedulers_path respond_step (fun c hc => Bool.not_eq_true' _ ▸ hc) hmoves⟩
  have htheorem := cursor_loses_no_tick everyMinute_walks (fun t ht => absurd ht (by simp [report])) hrun
  exact ⟨moves, s, hrun, of_decide_eq_true hshows, htheorem.1, htheorem.2.2.1⟩

end Scheduler

end EffectMQ
