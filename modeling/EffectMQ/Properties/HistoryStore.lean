import EffectMQ.Lifecycle.Events
import EffectMQ.Lifecycle.Exhaustion

/-!
# The history store

A stored history counts its stream, holds consecutive entries, and is trimmed only beyond its cap; a stream belongs to
the stored record of its generation. So the checks of the script find nothing to object to, short of a history that has
used up the safe integers.
-/

namespace EffectMQ

open Redis Transition

/-- A history as its record counts it. -/
structure Intact (r : TaskRecord) (stream : List (StreamId × HistoryEntry)) : Prop where
  trimmed : r.history.trimmed ≤ r.history.sequence
  length : stream.length = r.history.sequence - r.history.trimmed
  sequences : stream.map (fun entry => entry.2.sequence) =
    List.range' (r.history.trimmed + 1) (r.history.sequence - r.history.trimmed)
  cap : 0 < r.history.maxEntries → stream.length ≤ r.history.maxEntries
  capped : 0 < r.history.trimmed → 0 < r.history.maxEntries ∧
    r.history.sequence = r.history.trimmed + r.history.maxEntries
  untrimmed : r.history.trimmed = 0 → r.history.trimmedId = StreamId.zero

namespace Store

/-- What was trimmed exceeded the cap. -/
def TrimmedByCap (s : Store) : Prop :=
  ∀ k r, s.task k = some r → r.history.enabled = true → 0 < r.history.trimmed →
    0 < r.history.maxEntries ∧ r.history.sequence = r.history.trimmed + r.history.maxEntries

variable {s s' : Store}

theorem TrimmedByCap.update {queue id : String} {record : Option TaskRecord} (h : s.TrimmedByCap)
    (htask : s'.task = Function.update s.task (queue, id) record)
    (hrecord : ∀ r, record = some r → r.history.enabled = true → 0 < r.history.trimmed →
      0 < r.history.maxEntries ∧ r.history.sequence = r.history.trimmed + r.history.maxEntries) : s'.TrimmedByCap := by
  intro k r hr
  rw [htask] at hr
  by_cases hk : k = (queue, id)
  · subst hk
    rw [Function.update_self] at hr
    exact hrecord r hr
  · rw [Function.update_of_ne hk] at hr
    exact h k r hr

theorem TrimmedByCap.pushHistory {env : Env} {queue id : String} {r : TaskRecord} (h : s.TrimmedByCap)
    (hsound : s.HistorySound) (data : HistoryData) (attempt : Option ℕ) (hr : s.task (queue, id) = some r)
    (henabled : r.history.enabled = true) : (EffectMQ.pushHistory env queue id r data attempt s).TrimmedByCap := by
  obtain ⟨_, htrimmed, hlength, hcap⟩ := hsound.counted (queue, id) r hr henabled
  dsimp only at hlength hcap
  unfold EffectMQ.pushHistory
  dsimp only
  split
  · next hlimit =>
    refine TrimmedByCap.update h rfl fun r' hr' _ _ => ?_
    rw [hr] at hr'
    obtain rfl := Option.some.inj hr'
    rw [List.length_append, List.length_singleton] at hlimit
    dsimp only
    omega
  · next hlimit =>
    refine TrimmedByCap.update h rfl fun r' hr' _ hpos => ?_
    rw [hr] at hr'
    obtain rfl := Option.some.inj hr'
    dsimp only at hpos ⊢
    have hbefore := h (queue, id) r hr henabled hpos
    rw [List.length_append, List.length_singleton] at hlimit
    omega

end Store

theorem trimmedByCap_invariant (env : Env) :
    StoreInvariant env (fun s => s.HistorySound ∧ s.TrimmedByCap) Store.HistoryExhausted where
  aside h htask hhistory hevents := by
    refine ⟨(historySound_invariant env).aside h.1 htask hhistory hevents, ?_⟩
    unfold Store.TrimmedByCap
    rw [htask]
    exact h.2
  modifyTask queue id _ hf h := by
    refine ⟨(historySound_invariant env).modifyTask queue id hf h.1, h.2.update rfl fun r' hr' => ?_⟩
    obtain ⟨r, hr, rfl⟩ := Option.map_eq_some_iff.mp hr'
    rw [(hf r).history]
    exact h.2 (queue, id) r hr
  pushHistory data attempt hr henabled h :=
    ⟨(historySound_invariant env).pushHistory data attempt hr henabled h.1, h.2.pushHistory h.1 data attempt hr henabled⟩
  appendEvent queue id body h := ⟨(historySound_invariant env).appendEvent queue id body h.1, h.2⟩
  dropRecord queue id h :=
    ⟨(historySound_invariant env).dropRecord queue id h.1,
      h.2.update (Store.task_dropRecord queue id _ _) fun _ hr => absurd hr (by simp)⟩
  writeRecord hvalid hfresh h := by
    refine ⟨(historySound_invariant env).writeRecord hvalid hfresh h.1, h.2.update rfl fun r hr _ hpos => ?_⟩
    obtain rfl := Option.some.inj hr
    unfold newRecord at hpos
    dsimp only at hpos
    split at hpos <;> exact absurd hpos (lt_irrefl 0)
  raise h hfault := (historySound_invariant env).raise h.1 hfault

variable {calls : List Call} {e : Engine}

theorem run_trimmedByCap (h : engine.Run calls e) : e.store.TrimmedByCap := by
  refine (h.invariant (I := fun e => e.store.HistorySound ∧ e.store.TrimmedByCap) ?_ fun e c e' hs hc => ?_).2
  · rintro _ rfl
    exact ⟨historySound_empty, fun _ _ hr => absurd hr (by simp [Store.empty])⟩
  · exact (trimmedByCap_invariant c.env).exec hs hc.2.2

/-! ### The streams -/

theorem Chronicle.sequences {id schemaId : String} {g clock : ℕ} {p : HistoryFields × List (StreamId × HistoryEntry)}
    {all : List (StreamId × HistoryEntry)} (h : Chronicle id g schemaId clock p all) :
    p.2.map (fun entry => entry.2.sequence) = List.range' (p.1.trimmed + 1) (p.1.sequence - p.1.trimmed) := by
  refine List.ext_getElem ?_ fun i hi hi' => ?_
  · rw [List.length_map, h.stream, List.length_drop, h.count, List.length_range']
  · rw [List.length_map, h.stream, List.length_drop] at hi
    have hentry : all[p.1.trimmed + i]? = some all[p.1.trimmed + i] := List.getElem?_eq_getElem (by omega)
    have hsequence := (h.entries _ _ hentry).sequence
    simp only [List.getElem_map, h.stream, List.getElem_drop, hsequence, List.getElem_range']
    omega

theorem run_intact (h : engine.Run calls e) {x : TaskIdentity} {r : TaskRecord} (hr : e.store.current x = some r)
    (henabled : r.history.enabled = true) : Intact r (e.store.history x) := by
  obtain ⟨all, hall⟩ := run_remembers h x r hr henabled
  have hrecord := (current_eq_some_iff.mp hr).1
  have hcount : all.length = r.history.sequence := hall.count
  have hstream : e.store.history x = all.drop r.history.trimmed := hall.stream
  refine ⟨?_, ?_, hall.sequences, hall.cap, run_trimmedByCap h _ r hrecord henabled, fun hzero => ?_⟩
  · rcases hall.trimmed with hzero | hlt
    · exact hzero.le.trans (Nat.zero_le _)
    · exact hlt.le
  · rw [hstream, List.length_drop, hcount]
  · have hboundary : r.history.trimmedId = lastId (all.take r.history.trimmed) := hall.boundary
    rw [hboundary, hzero]
    rfl

/-- The chronicle at the end of a path has every entry that the stream had on the way. -/
theorem run_kept_entries (h : engine.Run calls e) {calls₁ : List Call} {e₁ : Engine} (h₁ : engine.Run calls₁ e₁)
    {calls₂ : List Call} (h₂ : engine.Path e₁ calls₂ e) {x : TaskIdentity} {r : TaskRecord}
    (hr : e.store.current x = some r) (henabled : r.history.enabled = true) :
    ∃ all, Chronicle x.id x.generation r.schemaId e.clock (e.store.archived x r) all ∧
      ∀ entry ∈ e₁.store.history x, entry ∈ all := by
  by_cases hempty : e₁.store.history x = []
  · obtain ⟨all, hall⟩ := run_remembers h x r hr henabled
    exact ⟨all, hall, fun entry hentry => absurd (hempty ▸ hentry) List.not_mem_nil⟩
  · obtain ⟨r₁, hr₁, henabled₁⟩ := (run_historySound h₁).owned x hempty
    obtain ⟨all, hall⟩ := run_remembers h₁ x r₁ hr₁ henabled₁
    have hchronicled : e₁.store.ChronicledBy x e₁.clock all := fun r' hr' => by
      obtain rfl := Option.some.inj (hr₁.symm.trans hr')
      exact hall
    have hcounted : x.generation ≤ e₁.store.generations x.key :=
      (current_eq_some_iff.mp hr₁).2.ge.trans (((run_sane h₁).views x.key).generation r₁ (current_eq_some_iff.mp hr₁).1).1.le
    obtain ⟨added, hadded⟩ := path_chronicled h₁ h₂ hcounted hchronicled
    have hstream : e₁.store.history x = all.drop r₁.history.trimmed := hall.stream
    refine ⟨all ++ added, hadded r hr, fun entry hentry => List.mem_append_left _ ?_⟩
    rw [hstream] at hentry
    exact List.mem_of_mem_drop hentry

/-- An entry of a chronicle is at the trim point, before it or in the stream. -/
theorem Chronicle.placed {id schemaId : String} {g clock : ℕ} {p : HistoryFields × List (StreamId × HistoryEntry)}
    {all : List (StreamId × HistoryEntry)} (h : Chronicle id g schemaId clock p all) {entry : StreamId × HistoryEntry}
    (hentry : entry ∈ all) :
    (entry.2.sequence = p.1.trimmed → p.1.trimmedId = entry.1) ∧ (p.1.trimmed < entry.2.sequence → entry ∈ p.2) := by
  obtain ⟨i, hi, rfl⟩ := List.mem_iff_getElem.mp hentry
  have hlookup : all[i]? = some all[i] := List.getElem?_eq_getElem hi
  have hsequence := (h.entries i _ hlookup).sequence
  constructor
  · intro heq
    rw [h.boundary, ← heq, hsequence]
    exact positionAt_succ hlookup
  · intro hlt
    rw [h.stream, List.mem_iff_getElem]
    refine ⟨i - p.1.trimmed, ?_, ?_⟩
    · rw [List.length_drop]
      omega
    · rw [List.getElem_drop]
      congr 1
      omega

/-! ### What the checks report -/

/-- A message with another first character. -/
theorem append_ne_corrupt {first rest : String} {c : Char} (hfirst : first.toList.head? = some c) (hc : c ≠ 'C') :
    first ++ rest ≠ "CORRUPT_HISTORY unexpected generation stream" := by
  intro heq
  have hhead := congrArg (fun text : String => text.toList.head?) heq
  simp only [String.toList_append, List.head?_append, hfirst, Option.some_or] at hhead
  exact hc (Option.some.inj hhead)

section

variable {env : Env} {a : CreateArgs} {w : World} {s s' : Store} {message : String}

theorem acquire_ne_corrupt {holder x : TaskIdentity} (h : acquireRetentionHold holder x s = .error message) :
    message ≠ "CORRUPT_HISTORY unexpected generation stream" := by
  unfold acquireRetentionHold at h
  split at h
  · exact absurd h (by simp)
  · dsimp only at h
    split at h
    · obtain rfl := Except.error.inj h
      exact append_ne_corrupt (c := 'S') (by decide) (by decide)
    · split at h
      · obtain rfl := Except.error.inj h
        exact append_ne_corrupt (c := 'S') (by decide) (by decide)
      · exact absurd h (by simp)

theorem createFault_ne_corrupt (h : createFault a = some message) :
    message ≠ "CORRUPT_HISTORY unexpected generation stream" := by
  unfold createFault at h
  split at h
  · obtain rfl := Option.some.inj h
    decide
  · split at h
    · obtain rfl := Option.some.inj h
      decide
    · obtain ⟨field, _, rfl⟩ := Option.map_eq_some_iff.mp h
      exact append_ne_corrupt (c := 'i') (by decide) (by decide)

theorem holder_ne_corrupt {holder : TaskIdentity} (h : validateLiveHolder s holder = some message) :
    message ≠ "CORRUPT_HISTORY unexpected generation stream" := by
  unfold validateLiveHolder at h
  split at h
  · obtain rfl := Option.some.inj h
    decide
  · split at h
    · obtain rfl := Option.some.inj h
      decide
    · split at h
      · obtain rfl := Option.some.inj h
        decide
      · exact absurd h (by simp)

theorem error_ne_corrupt (h : message ≠ "CORRUPT_HISTORY unexpected generation stream") :
    Reply.error message ≠ .error "CORRUPT_HISTORY unexpected generation stream" := fun heq => h (Reply.error.inj heq)

theorem createGeneration_ne_corrupt (replacedTask : Option TaskRecord) :
    (createGeneration env a replacedTask w).1 ≠ .error "CORRUPT_HISTORY unexpected generation stream" := by
  unfold createGeneration
  dsimp only
  split
  · exact Reply.noConfusion
  · split
    · exact Reply.noConfusion
    · next hfull => exact error_ne_corrupt (acquire_ne_corrupt hfull)

/-- An offer that finds no stream of the next generation does not report one. -/
theorem offerSwept_ne_corrupt (hfresh : w.store.history ⟨a.queue, a.id, w.store.generations (a.queue, a.id) + 1⟩ = []) :
    (offerSwept env a w).1 ≠ .error "CORRUPT_HISTORY unexpected generation stream" := by
  unfold offerSwept
  dsimp only
  rw [if_neg fun h => h.2.2 hfresh]
  cases hholder : a.retentionHolder.bind (validateLiveHolder w.store) with
  | some holderError =>
    obtain ⟨holder, _, hfault⟩ := Option.bind_eq_some_iff.mp hholder
    exact error_ne_corrupt (holder_ne_corrupt hfault)
  | none =>
    dsimp only
    cases w.store.task (a.queue, a.id) with
    | none => exact createGeneration_ne_corrupt none
    | some r =>
      dsimp only
      split
      · exact error_ne_corrupt (by decide)
      · cases a.onDuplicate with
        | unknown => exact error_ne_corrupt (by decide)
        | returnExisting =>
          dsimp only
          unfold returnExisting
          split
          · exact Reply.noConfusion
          · split
            · exact Reply.noConfusion
            · next hfull => exact error_ne_corrupt (acquire_ne_corrupt hfull)
        | newGeneration =>
          dsimp only
          split
          · exact error_ne_corrupt (by decide)
          · split
            · exact error_ne_corrupt (by decide)
            · exact createGeneration_ne_corrupt (some r)

theorem createTask_ne_corrupt (hs : Sane env.now s) {reply : Reply}
    (hexec : exec env (.createTask a) s = .replied reply s') :
    reply ≠ .error "CORRUPT_HISTORY unexpected generation stream" := by
  obtain ⟨hreply, _⟩ := exec_replied hexec
  rw [← hreply]
  change (createTask env a (World.begin env s)).1 ≠ _
  unfold createTask
  cases hfault : createFault a with
  | some message => exact error_ne_corrupt (createFault_ne_corrupt hfault)
  | none =>
    have hsane : Sane env.now (syncAll env a.queue (World.begin env s)).store := (sweep_path hs a.queue).sane hs
    exact offerSwept_ne_corrupt ((hsane.views (a.queue, a.id)).fresh _ (Nat.lt_succ_self _)).2.2

end

theorem run_historyFault (h : engine.Run calls e) {queue id message : String}
    (hfault : historyFault e.store queue id = some message) :
    message = "CORRUPT_HISTORY invalid sequence" ∧
      ∃ r, e.store.task (queue, id) = some r ∧ r.history.enabled = true ∧ maxSafeInteger ≤ r.history.sequence := by
  cases hrecord : e.store.task (queue, id) with
  | none =>
    unfold historyFault at hfault
    rw [hrecord] at hfault
    exact absurd hfault (by simp)
  | some r =>
    have hr : e.store.current ⟨queue, id, r.generation⟩ = some r := current_eq_some_iff.mpr ⟨hrecord, rfl⟩
    have hfull : maxSafeInteger ≤ r.history.sequence := by
      by_contra hroom
      have hnone := historyFault_eq_none (run_historySound h) hr (not_le.mp hroom)
      exact absurd (hnone.symm.trans hfault) (by simp)
    have henabled : r.history.enabled = true := by
      by_contra hdisabled
      unfold historyFault at hfault
      rw [hrecord] at hfault
      dsimp only at hfault
      rw [if_pos (Bool.eq_false_of_not_eq_true hdisabled)] at hfault
      exact absurd hfault (by simp)
    exact ⟨Option.some.inj (hfault.symm.trans (historyFault_of_full hr henabled hfull)), r, rfl, henabled, hfull⟩

/-- In every state of every run: a stored history is intact, has a chronicle whose entry at the trim point it names, and
keeps what it ever had after that point; a stream belongs to the stored record of its generation; a check fails only at a
history that has used up the safe integers, and no offer finds a stream of the next generation. -/
theorem run_historyStore (h : engine.Run calls e) :
    (∀ x r, e.store.current x = some r → r.history.enabled = true → Intact r (e.store.history x) ∧
      ∃ all, Chronicle x.id x.generation r.schemaId e.clock (e.store.archived x r) all) ∧
    (∀ x r calls₁ calls₂ e₁, e.store.current x = some r → r.history.enabled = true → engine.Run calls₁ e₁ →
      engine.Path e₁ calls₂ e → ∀ entry ∈ e₁.store.history x,
        (entry.2.sequence = r.history.trimmed → r.history.trimmedId = entry.1) ∧
        (r.history.trimmed < entry.2.sequence → entry ∈ e.store.history x)) ∧
    (∀ x, e.store.history x ≠ [] → ∃ r, e.store.current x = some r ∧ r.history.enabled = true) ∧
    (∀ queue id message, historyFault e.store queue id = some message →
      message = "CORRUPT_HISTORY invalid sequence" ∧
        ∃ r, e.store.task (queue, id) = some r ∧ r.history.enabled = true ∧ maxSafeInteger ≤ r.history.sequence) ∧
    (∀ env op message s', exec env op e.store = .raised message s' → s'.HistoryExhausted) ∧
    ∀ env a reply s', e.clock ≤ env.clock → exec env (.createTask a) e.store = .replied reply s' →
      reply ≠ .error "CORRUPT_HISTORY unexpected generation stream" := by
  refine ⟨fun x r hr henabled => ⟨run_intact h hr henabled, run_remembers h x r hr henabled⟩,
    fun x r calls₁ calls₂ e₁ hr henabled h₁ h₂ entry hentry => ?_, (run_historySound h).owned,
    fun queue id message hfault => run_historyFault h hfault, fun env op message s' hexec => ?_,
    fun env a reply s' hclock hexec => createTask_ne_corrupt ((run_sane h).mono (Nat.cast_le.mpr hclock)) hexec⟩
  · obtain ⟨all, hall, hkept⟩ := run_kept_entries h h₁ h₂ hr henabled
    exact hall.placed (hkept entry hentry)
  · rcases exec_sound env op (run_historySound h) with ⟨reply, s, hreplied, _⟩ | ⟨message', s, hraised, hexhausted⟩
    · exact absurd (hreplied.symm.trans hexec) (by simp)
    · obtain ⟨_, rfl⟩ := Result.raised.inj (hraised.symm.trans hexec)
      exact hexhausted

/-- A capped history that was trimmed. -/
theorem run_historyStore_capped : ∃ (e : Engine) (x : TaskIdentity) (r : TaskRecord), e.store.current x = some r ∧ 0 < r.history.trimmed ∧
    Intact r (e.store.history x) := by
  obtain ⟨calls, e, hrun, hany⟩ := @play_run [(.at 1, .createTask { CreateArgs.default "queue" "a" with
    historyEnabled := true, maxHistoryEntries := some 1 }), (.at 2, .takeTask "queue" "token" (some 100))]
    (fun _ e => (e.store.current ⟨"queue", "a", 1⟩).any fun r => r.history.enabled = true ∧ 0 < r.history.trimmed)
    (by decide +kernel)
  obtain ⟨r, hr, hfields⟩ := (Option.any_eq_true _ _).mp hany
  obtain ⟨henabled, htrimmed⟩ := of_decide_eq_true hfields
  exact ⟨e, ⟨"queue", "a", 1⟩, r, hr, htrimmed, ((run_historyStore hrun).1 _ r hr henabled).1⟩

/-! ### A history that fills up -/

/-- After enough progress entries the history has used up the safe integers, and the next one aborts. -/
theorem history_fills : ∃ calls e, engine.Run calls e ∧ calls.map Call.op = filling (maxSafeInteger - 3) ∧
    historyFault e.store "queue" "a" = some "CORRUPT_HISTORY invalid sequence" ∧
    exec (.at 2) (.appendProgress "queue" "a" 1 "queue" "token" "") e.store =
      .raised "CORRUPT_HISTORY invalid sequence" e.store := by
  obtain ⟨calls, e, r, hrun, hops, _, hfilling, hfault⟩ := filled_run
  have hexec := exec_appendProgress hfilling.current hfilling.version hfilling.enabled hfilling.owns ""
  rw [hfilling.schemaId, hfault] at hexec
  exact ⟨calls, e, hrun, hops, hfault, hexec⟩

end EffectMQ
