import EffectMQ.Lifecycle.Progress
import EffectMQ.Lifecycle.Scenario
import EffectMQ.Lifecycle.Effect

/-!
# Progress entries

The history of a task, as long as nothing is trimmed from it, reads as the story of its attempts, and every progress
entry stands inside its own attempt.
-/

namespace EffectMQ

open Redis Transition

namespace HistoryData

def IsProgress : HistoryData → Prop
  | .progress _ => True
  | _ => False

/-- A move entry with the new state `leased`. -/
def Leases : HistoryData → Prop
  | .moved _ _ _ (some .leased) => True
  | _ => False

/-- A failure, a completion, or a move out of the active list. -/
def EndsAttempt : HistoryData → Prop
  | .completed _ | .failed _ _ _ _ | .moved (some .active) _ _ _ => True
  | _ => False

/-- A completion or a terminal failure. -/
def EndsTask : HistoryData → Prop
  | .completed _ | .failed _ _ true _ => True
  | _ => False

instance : DecidablePred Leases := fun data => by
  unfold Leases
  split <;> infer_instance

end HistoryData

/-- A history in which the progress entries stand inside their attempts. -/
structure TellsAttempts (entries : List (StreamId × HistoryEntry)) : Prop where
  /-- A progress entry comes after the lease of its attempt, and nothing in between ends an attempt. -/
  progress : ∀ a entry b, entries = a ++ entry :: b → entry.2.data.IsProgress → 1 ≤ entry.2.attempt ∧
    ∃ before lease after, a = before ++ lease :: after ∧ lease.2.data.Leases ∧ lease.2.attempt = entry.2.attempt ∧
      ∀ e ∈ after, ¬ e.2.data.EndsAttempt
  /-- The leases carry the attempts from one on. -/
  leases : ∃ n, (entries.filter fun e => e.2.data.Leases).map (fun e => e.2.attempt) = List.range' 1 n
  /-- What stands between two leases carries the attempt of the first. -/
  between : ∀ a lease mid b, entries = a ++ lease :: (mid ++ b) → lease.2.data.Leases →
    (∀ e ∈ mid, ¬ e.2.data.Leases) → ∀ e ∈ mid, e.2.attempt = lease.2.attempt
  /-- Nothing reports progress after the end of the task. -/
  closed : ∀ a last b, entries = a ++ last :: b → last.2.data.EndsTask → ∀ e ∈ b, ¬ e.2.data.IsProgress

theorem kind_eq_work_iff {data : HistoryData} : data.kind = .work ↔ data.IsProgress := by
  unfold HistoryData.kind HistoryData.IsProgress
  cases data with
  | moved source target previousState newState => split <;> simp_all
  | failed policy kind terminal retryAt => cases terminal <;> simp
  | progress | created | updated | completed => simp

theorem kind_eq_start_iff {data : HistoryData} : data.kind = .start ↔ data.Leases := by
  unfold HistoryData.kind HistoryData.Leases
  cases data with
  | moved source target previousState newState => split <;> simp_all
  | failed policy kind terminal retryAt => cases terminal <;> simp
  | progress | created | updated | completed => simp

theorem kind_eq_finish_iff {data : HistoryData} : data.kind = .finish ↔ data.EndsTask := by
  unfold HistoryData.kind HistoryData.EndsTask
  cases data with
  | moved source target previousState newState => split <;> simp_all
  | failed policy kind terminal retryAt => cases terminal <;> simp
  | progress | created | updated | completed => simp

theorem not_endsAttempt_of_progress {data : HistoryData} (h : data.IsProgress) : ¬ data.EndsAttempt := by
  cases data with
  | progress => exact not_false
  | moved | failed | created | updated | completed => exact h.elim

/-- A log of attempts, read off the entries. -/
theorem tellsAttempts_of_log {entries : List (StreamId × HistoryEntry)} {p : Phase} {n : ℕ}
    (h : AttemptLog (entries.map fun e => Note.told e.2.note) p n) : TellsAttempts entries where
  progress a entry b heq hprogress := by
    have hmap : (entries.map fun e => Note.told e.2.note) = (a.map fun e => Note.told e.2.note) ++
        (.work, entry.2.attempt) :: b.map fun e => Note.told e.2.note := by
      rw [heq, List.map_append, List.map_cons, ← kind_eq_work_iff.mpr hprogress]
      rfl
    obtain ⟨hpos, before, after, hsplit, hafter⟩ := h.of_work hmap
    obtain ⟨a₁, a₂, rfl, hbefore, hrest⟩ := List.map_eq_append_iff.mp hsplit
    obtain ⟨lease, a₃, rfl, hlease, hlast⟩ := List.map_eq_cons_iff.mp hrest
    obtain ⟨hkind, hattempt⟩ := Prod.mk.inj hlease
    refine ⟨hpos, a₁, lease, a₃, rfl, kind_eq_start_iff.mp hkind, hattempt, fun e he => ?_⟩
    refine not_endsAttempt_of_progress (kind_eq_work_iff.mp ?_)
    exact hafter _ (hlast ▸ List.mem_map_of_mem he)
  leases := by
    refine ⟨n, ?_⟩
    have hstarts := h.starts
    rw [List.filter_map, List.map_map] at hstarts
    rw [← hstarts]
    have hfilter : (entries.filter fun e => decide e.2.data.Leases) =
        entries.filter ((fun e => decide (e.1 = LogKind.start)) ∘ fun e => Note.told e.2.note) :=
      List.filter_congr fun e _ => decide_eq_decide.mpr kind_eq_start_iff.symm
    rw [hfilter]
    rfl
  between a lease mid b heq hlease hmid e he := by
    have hmap : (entries.map fun e => Note.told e.2.note) = (a.map fun e => Note.told e.2.note) ++
        (.start, lease.2.attempt) :: ((mid.map fun e => Note.told e.2.note) ++ b.map fun e => Note.told e.2.note) := by
      rw [heq, List.map_append, List.map_cons, List.map_append, ← kind_eq_start_iff.mpr hlease]
      rfl
    refine h.between hmap (fun told htold => ?_) (Note.told e.2.note) (List.mem_map_of_mem he)
    obtain ⟨e', he', rfl⟩ := List.mem_map.mp htold
    exact fun hstart => hmid e' he' (kind_eq_start_iff.mp hstart)
  closed a last b heq hlast e he := by
    have hmap : (entries.map fun e => Note.told e.2.note) = (a.map fun e => Note.told e.2.note) ++
        (.finish, last.2.attempt) :: b.map fun e => Note.told e.2.note := by
      rw [heq, List.map_append, List.map_cons, ← kind_eq_finish_iff.mpr hlast]
      rfl
    have hrest := (h.after_finish hmap).2 (Note.told e.2.note) (List.mem_map_of_mem he)
    exact fun hprogress => hrest.1 (kind_eq_work_iff.mpr hprogress)

/-- The steps of a renewal, of a hold, and of the expiry of a result, a terminal entry or a dead letter. -/
def EngineAction.IsSilent : EngineAction → Prop
  | .task _ (.renew _ _) | .task _ (.expireResult _ _) | .task _ (.expireTerminal _) | .task _ (.expireDeadLetter _)
  | .acquire _ _ => True
  | _ => False

variable {env : Env} {b b' : Busy} {m s s' : Store} {act : EngineAction} {calls : List Call} {e e' : Engine} {c : Call}

theorem EngineStep.history_of_silent (hstep : EngineStep env b s act b' s') (hact : act.IsSilent) :
    s'.history = s.history := by
  have hview : ∀ k : TaskKey, (s'.view k).history = (s.view k).history := by
    intro k
    rcases hstep.view k with ⟨_, hview⟩ | ⟨a, hon, henabled, hview⟩
    · rw [hview]
    · rcases EngineAction.on_cases hon with rfl | ⟨_, _, _, rfl, _⟩ | ⟨_, rfl, _⟩ | ⟨_, _, rfl, _⟩
      · rw [hview]
        cases a with
        | renew leaseToken lockTimeout =>
          obtain ⟨r, hrunning⟩ := henabled.1
          have hplace : ({ s.view k with lock := some (Lock.mk leaseToken (env.now + lockTimeout)) } : TaskView).place =
              some .active := (TaskView.place_of_record hrunning.record).trans hrunning.place
          simp only [TaskAction.apply, TaskView.renew, TaskView.move, hplace, ↓reduceIte]
          rfl
        | expireResult g held =>
          simp only [TaskAction.apply, TaskView.expireResult]
          split <;> rfl
        | expireTerminal g =>
          simp only [TaskAction.apply, TaskView.expireTerminal]
          split <;> rfl
        | expireDeadLetter => rfl
        | create | promote | lease | release | retry | fail | succeed | progress | refile | replace | expireTask | dropDate
        | holdDate | remove | forget | revoke => exact hact.elim
      · exact hact.elim
      · exact hact.elim
      · exact hact.elim
  funext x
  exact congrFun (hview x.key) x.generation

/-- What a record says of its history after one more entry: what was trimmed changes with an eviction only. -/
structure HistoryFields.Grown (history history' : HistoryFields) : Prop where
  enabled : history'.enabled = history.enabled
  maxEntries : history'.maxEntries = history.maxEntries
  sequence : history'.sequence = history.sequence + 1
  trimmed : history'.trimmed = history.trimmed ∧ history'.trimmedId = history.trimmedId ∨
    0 < history.maxEntries ∧ history'.trimmed = history'.sequence - history.maxEntries

/-- A successful progress report writes its entry, and what it says of the history in the record. -/
structure ProgressOnly (env : Env) (s : Store) (x : TaskIdentity) (data : String) (entry : StreamId) (s' : Store) : Prop where
  written : ∃ r history entries, s.current x = some r ∧ r.history.Grown history ∧
    entries = newest r.history.maxEntries (s.history x ++ [(entry, historyEntry env x.id r (.progress data) none)]) ∧
    s' = { s with
      task := Function.update s.task x.key (some { r with history := history })
      history := Function.update s.history x entries }

theorem record_of_historyIdentity {queue id schemaId : String} {generation : ℕ}
    (h : historyIdentity s queue id generation schemaId = none) :
    ∃ r, s.task (queue, id) = some r ∧ r.generation = generation ∧ r.history.enabled = true := by
  unfold historyIdentity at h
  cases hr : s.task (queue, id) with
  | none =>
    rw [hr] at h
    exact absurd h (by simp)
  | some r =>
    rw [hr] at h
    dsimp only at h
    by_cases hgeneration : r.generation = generation
    · by_cases hdisabled : r.history.enabled = true
      · exact ⟨r, rfl, hgeneration, hdisabled⟩
      · rw [if_pos (Bool.eq_false_of_not_eq_true hdisabled)] at h
        split_ifs at h
    · rw [if_pos hgeneration] at h
      exact absurd h (by simp)

/-- An append as one change of the store, with the id that it gives to the entry. -/
theorem pushHistory_eq (env : Env) (queue id : String) (r : TaskRecord) (data : HistoryData) (attempt : Option ℕ)
    (hr : s.task (queue, id) = some r) : ∃ history entries, r.history.Grown history ∧
      entries = newest r.history.maxEntries (s.history ⟨queue, id, r.generation⟩ ++
        [(StreamId.next env.clock (lastId (s.history ⟨queue, id, r.generation⟩)), historyEntry env id r data attempt)]) ∧
      lastId entries = StreamId.next env.clock (lastId (s.history ⟨queue, id, r.generation⟩)) ∧
      pushHistory env queue id r data attempt s = { s with
        task := Function.update s.task (queue, id) (some { r with history := history })
        history := Function.update s.history ⟨queue, id, r.generation⟩ entries } := by
  unfold pushHistory
  dsimp only
  generalize s.history ⟨queue, id, r.generation⟩ = before
  split
  · next hfull =>
    refine ⟨{ r.history with
        sequence := r.history.sequence + 1
        trimmed := r.history.sequence + 1 - r.history.maxEntries
        trimmedId := _ },
      _, ⟨rfl, rfl, rfl, Or.inr ⟨hfull.1, rfl⟩⟩, (if_neg hfull.1.ne').symm, ?_, by rw [Store.modifyTask, hr]; rfl⟩
    rw [lastId, List.getLast?_drop, if_neg (by omega)]
    simp
  · next hfits =>
    refine ⟨{ r.history with sequence := r.history.sequence + 1 },
      before ++ [(StreamId.next env.clock (lastId before), historyEntry env id r data attempt)],
      ⟨rfl, rfl, rfl, Or.inl ⟨rfl, rfl⟩⟩, ?_, by simp [lastId], by rw [Store.modifyTask, hr]; rfl⟩
    unfold newest
    split
    · rfl
    · next hlimit =>
      rw [Nat.sub_eq_zero_of_le (not_lt.mp fun hlt => hfits ⟨Nat.pos_of_ne_zero hlimit, hlt⟩), List.drop_zero]

theorem exec_progressed {queue id schemaId token data : String} {generation : ℕ} {entry : StreamId}
    (h : exec env (.appendProgress queue id generation schemaId token data) s = .replied (.appended entry) s') :
    ProgressOnly env s ⟨queue, id, generation⟩ data entry s' := by
  obtain ⟨hreply, hstore⟩ := exec_replied h
  simp only [Op.run, appendProgress] at hreply hstore
  rw [show (World.begin env s).store = s from rfl] at hreply hstore
  cases hidentity : historyIdentity s queue id generation schemaId with
  | some fault =>
    rw [hidentity] at hreply
    have hfault := historyIdentity_isFault hidentity
    rw [show fault = Reply.appended entry from hreply] at hfault
    exact absurd hfault not_false
  | none =>
    obtain ⟨r, hr, hgeneration, henabled⟩ := record_of_historyIdentity hidentity
    rw [hidentity] at hreply hstore
    simp only [assertHistory_store] at hreply hstore
    by_cases howns : ownsProgress env s queue id token = true
    · have howns' : ownsProgress env (World.begin env s).store queue id token = true := howns
      simp only [howns', Bool.true_eq_false, ↓reduceIte] at hreply hstore
      have hpush : (appendHistory env queue id (.progress data) none (assertHistory queue id (World.begin env s))).store =
          pushHistory env queue id r (.progress data) none s := by
        have htask : (assertHistory queue id (World.begin env s)).store.task (queue, id) = some r := by
          rw [assertHistory_store]
          exact hr
        rw [appendHistory, htask]
        simp only [henabled, ↓reduceIte, World.modify_store, assertHistory_store]
        rfl
      rw [hpush] at hreply hstore
      subst hgeneration
      obtain ⟨history, entries, hgrown, hentries, hlast, hs'⟩ := pushHistory_eq env queue id r (.progress data) none hr
      refine ⟨r, history, entries, current_eq_some_iff.mpr ⟨hr, rfl⟩, hgrown, ?_, ?_⟩
      · have hentry : lastId entries = entry := by
          rw [hs'] at hreply
          simpa using hreply
        rw [hentries, ← hentry, hlast]
      · rw [← hstore, hs']
        rfl
    · have hnot : ownsProgress env (World.begin env s).store queue id token = false := Bool.eq_false_of_not_eq_true howns
      simp only [hnot, ↓reduceIte] at hreply
      exact absurd hreply (by simp)

theorem Effect.history_of_renewal {queue leaseToken id : String} {lockTimeout : Option ℚ} {reply : Reply}
    (h : Effect env m (.extendLock queue leaseToken id lockTimeout) reply s) : s.history = m.history := by
  generalize hop : Op.extendLock queue leaseToken id lockTimeout = op at h
  cases h with
  | refused | answered => rfl
  | renewed hstep => exact hstep.history_of_silent trivial
  | scheduled op _ hop' _ _ => rcases hop' with ⟨_, _, _, rfl⟩ | ⟨_, _, _, _, rfl⟩ <;> exact absurd hop (by simp)
  | offered | leased | succeeded | failed | released | progressed | removed | forced => exact absurd hop (by simp)

theorem Effect.history_of_existing {op : Op} {cursor : StreamId} {r : TaskRecord}
    (h : Effect env m op (.existing cursor r) s) (hop : ∃ a, op = .createTask a) : s.history = m.history := by
  obtain ⟨a, rfl⟩ := hop
  generalize hreply : Reply.existing cursor r = reply at h
  cases h with
  | refused | answered => rfl
  | offered _ hoffered =>
    cases hoffered with
    | refused | existing => rfl
    | held _ _ hstep => exact hstep.history_of_silent trivial
    | created | replaced | disposed => exact absurd hreply (by simp)
  | scheduled op _ hop _ _ => rcases hop with ⟨_, _, _, heq⟩ | ⟨_, _, _, _, heq⟩ <;> exact absurd heq (by simp)

/-- In every state of every run: an unlimited history tells of the attempts of its task, with the progress entries inside
them, and there is none without a record; what renews, holds or expires adds nothing to any history; and a report of
progress changes nothing else. -/
theorem run_progressEntries (h : engine.Run calls e) :
    (∀ x r, e.store.current x = some r → r.history.enabled = true → r.history.maxEntries = 0 →
      TellsAttempts (e.store.history x)) ∧
    (∀ x, e.store.history x ≠ [] → ∃ r, e.store.current x = some r ∧ r.history.enabled = true) ∧
    (∀ env op b s act b' s', e.Performs env op b s act b' s' → act.IsSilent → s'.history = s.history) ∧
    ∀ c e', engine.step e c e' →
      (∀ queue leaseToken id lockTimeout, c.op = .extendLock queue leaseToken id lockTimeout →
        e'.store.history = e.store.history) ∧
      (∀ a cursor r, c.op = .createTask a → c.reply = .existing cursor r →
        e'.store.history = (c.op.swept c.env e.store).history) ∧
      ∀ queue id generation schemaId token data entry,
        c.op = .appendProgress queue id generation schemaId token data → c.reply = .appended entry →
        ProgressOnly c.env e.store ⟨queue, id, generation⟩ data entry e'.store := by
  refine ⟨fun x r hr henabled hlimit => ?_, (run_historySound h).owned,
    fun env op b s act b' s' hperforms hact => hperforms.step.history_of_silent hact, fun c e' hstep => ?_⟩
  · obtain ⟨hrecord, hgeneration⟩ := current_eq_some_iff.mp hr
    have hlog := run_told h x.key r hrecord henabled hlimit
    rw [hgeneration] at hlog
    exact tellsAttempts_of_log hlog
  · have hs : Sane c.env.now e.store := (run_sane h).mono (Nat.cast_le.mpr hstep.1)
    have heffect := exec_effect hs hstep.2.2
    refine ⟨fun queue leaseToken id lockTimeout hop => ?_, fun a cursor r hop hreply => ?_,
      fun queue id generation schemaId token data entry hop hreply => ?_⟩
    · rw [hop] at heffect
      exact heffect.history_of_renewal
    · rw [hreply] at heffect
      exact heffect.history_of_existing ⟨a, hop⟩
    · have hexec := hstep.2.2
      rw [hop, hreply] at hexec
      exact exec_progressed hexec

/-- The history of a task that reported progress in both of its attempts. -/
theorem run_progressEntries_retried : ∃ calls e r, engine.Run calls e ∧ e.store.current ⟨"mail", "a", 1⟩ = some r ∧
    r.attempt = 2 ∧ (e.store.history ⟨"mail", "a", 1⟩).length = 8 ∧ TellsAttempts (e.store.history ⟨"mail", "a", 1⟩) := by
  obtain ⟨calls, e, h, hplayed⟩ := @play_run
    [(.at 1, .createTask { CreateArgs.default "mail" "a" with historyEnabled := true }),
      (.at 2, .takeTask "mail" "first" (some 30000)), (.at 3, .appendProgress "mail" "a" 1 "mail" "first" "half"),
      (.at 4, .writeError "mail" "first" "a" (.string "down") (some 4)), (.at 5, .takeTask "mail" "second" (some 30000)),
      (.at 6, .appendProgress "mail" "a" 1 "mail" "second" "half")]
    (fun _ e => (e.store.current ⟨"mail", "a", 1⟩).any fun r : TaskRecord => decide (r.attempt = 2 ∧ r.history.enabled = true ∧
      r.history.maxEntries = 0 ∧ (e.store.history ⟨"mail", "a", 1⟩).length = 8)) (by decide +kernel)
  obtain ⟨r, hr, hplayed⟩ := (Option.any_eq_true _ _).mp hplayed
  obtain ⟨hattempt, henabled, hlimit, hlength⟩ := of_decide_eq_true hplayed
  exact ⟨calls, e, r, h, hr, hattempt, hlength, (run_progressEntries h).1 _ r hr henabled hlimit⟩

end EffectMQ
