import EffectMQ.Lifecycle.Invariant

/-!
# When an invocation aborts

The history of a stored record counts what it appended and trimmed, and a history stream belongs to the stored
record of its generation. As long as that holds the script raises an error for one reason only: some history has
reached the largest safe sequence number. Every function keeps the counts, so this is so in every run.
-/

namespace EffectMQ

open Redis

namespace Store

/-- The counters of a stored history agree with its stream. -/
def HistoryCounted (s : Store) (k : TaskKey) (r : TaskRecord) : Prop :=
  r.history.maxEntries ≤ maxSafeInteger ∧ r.history.trimmed ≤ r.history.sequence ∧
    (s.history ⟨k.1, k.2, r.generation⟩).length = r.history.sequence - r.history.trimmed ∧
    (0 < r.history.maxEntries → (s.history ⟨k.1, k.2, r.generation⟩).length ≤ r.history.maxEntries)

structure HistorySound (s : Store) : Prop where
  counted : ∀ k r, s.task k = some r → r.history.enabled = true → s.HistoryCounted k r
  owned : ∀ x, s.history x ≠ [] → ∃ r, s.current x = some r ∧ r.history.enabled = true

/-- Some stored history can take no further entry. -/
def HistoryExhausted (s : Store) : Prop :=
  ∃ k r, s.task k = some r ∧ r.history.enabled = true ∧ maxSafeInteger ≤ r.history.sequence

theorem HistorySound.congr {s s' : Store} (h : s.HistorySound) (htask : s'.task = s.task)
    (hhistory : s'.history = s.history) : s'.HistorySound where
  counted k r hr henabled := by
    rw [htask] at hr
    have hcounted := h.counted k r hr henabled
    unfold HistoryCounted at hcounted ⊢
    rwa [hhistory]
  owned x hx := by
    rw [hhistory] at hx
    obtain ⟨r, hr, henabled⟩ := h.owned x hx
    refine ⟨r, ?_, henabled⟩
    unfold current at hr ⊢
    rwa [htask]

/-- Changing a record apart from its generation and its history. -/
theorem HistorySound.modifyTask {s : Store} (h : s.HistorySound) (queue id : String) {f : TaskRecord → TaskRecord}
    (hgeneration : ∀ r, (f r).generation = r.generation) (hhistory : ∀ r, (f r).history = r.history) :
    (s.modifyTask queue id f).HistorySound := by
  have htask : ∀ k r', (s.modifyTask queue id f).task k = some r' →
      ∃ r, s.task k = some r ∧ r'.generation = r.generation ∧ r'.history = r.history := by
    intro k r' hr'
    by_cases hk : k = (queue, id)
    · subst hk
      have hmap : (s.task (queue, id)).map f = some r' := by simpa only [Store.modifyTask, Function.update_self] using hr'
      obtain ⟨r, hr, rfl⟩ := Option.map_eq_some_iff.mp hmap
      exact ⟨r, hr, hgeneration r, hhistory r⟩
    · exact ⟨r', (Function.update_of_ne hk _ _).symm.trans hr', rfl, rfl⟩
  constructor
  · intro k r' hr' henabled
    obtain ⟨r, hr, hg, hh⟩ := htask k r' hr'
    have hcounted := h.counted k r hr (hh ▸ henabled)
    unfold HistoryCounted at hcounted ⊢
    rw [hg, hh]
    exact hcounted
  · intro x hx
    obtain ⟨r, hr, henabled⟩ := h.owned x hx
    obtain ⟨hr, hg⟩ := current_eq_some_iff.mp hr
    by_cases hk : (x.queue, x.id) = (queue, id)
    · refine ⟨f r, current_eq_some_iff.mpr ⟨?_, (hgeneration r).trans hg⟩, (hhistory r).symm ▸ henabled⟩
      rw [hk] at hr ⊢
      simp [Store.modifyTask, hr]
    · exact ⟨r, current_eq_some_iff.mpr ⟨(Function.update_of_ne hk _ _).trans hr, hg⟩, henabled⟩

/-- A stored record with other history fields, and its stream. -/
theorem HistorySound.setHistory {s : Store} (h : s.HistorySound) {queue id : String} {r : TaskRecord}
    (hr : s.task (queue, id) = some r) {f : TaskRecord → TaskRecord}
    (hgeneration : (f r).generation = r.generation) (hf : (f r).history.enabled = true)
    (stream : List (StreamId × HistoryEntry))
    (hcounted : HistoryCounted { s.modifyTask queue id f with
      history := Function.update s.history ⟨queue, id, r.generation⟩ stream } (queue, id) (f r)) :
    HistorySound { s.modifyTask queue id f with
      history := Function.update s.history ⟨queue, id, r.generation⟩ stream } := by
  constructor
  · intro k r' hr' henabled'
    by_cases hk : k = (queue, id)
    · subst hk
      have heq : r' = f r := by
        have hmap : (s.task (queue, id)).map f = some r' := by
          simpa only [Store.modifyTask, Function.update_self] using hr'
        rw [hr] at hmap
        exact (Option.some.inj hmap).symm
      subst heq
      exact hcounted
    · have hr'' : s.task k = some r' := (Function.update_of_ne hk _ _).symm.trans hr'
      have hcounted' := h.counted k r' hr'' henabled'
      have hx : (⟨k.1, k.2, r'.generation⟩ : TaskIdentity) ≠ ⟨queue, id, r.generation⟩ :=
        fun heq => hk (by cases k; simp_all)
      unfold HistoryCounted at hcounted' ⊢
      simpa [hx] using hcounted'
  · intro x hx
    by_cases heq : x = ⟨queue, id, r.generation⟩
    · subst heq
      refine ⟨f r, current_eq_some_iff.mpr ⟨?_, hgeneration⟩, hf⟩
      simp [Store.modifyTask, hr]
    · have hx' : s.history x ≠ [] := by simpa [heq] using hx
      obtain ⟨r', hr', henabled'⟩ := h.owned x hx'
      obtain ⟨hr', hg⟩ := current_eq_some_iff.mp hr'
      have hk : (x.queue, x.id) ≠ (queue, id) := by
        intro hk
        rw [hk, hr] at hr'
        obtain rfl := Option.some.inj hr'
        exact heq (by cases x; simp_all)
      exact ⟨r', current_eq_some_iff.mpr ⟨(Function.update_of_ne hk _ _).trans hr', hg⟩, henabled'⟩

theorem HistorySound.pushHistory {s : Store} (h : s.HistorySound) {env : Env} {queue id : String} {r : TaskRecord}
    (hr : s.task (queue, id) = some r) (henabled : r.history.enabled = true) (data : HistoryData)
    (attempt : Option ℕ) : (EffectMQ.pushHistory env queue id r data attempt s).HistorySound := by
  have hcounted := h.counted _ r hr henabled
  simp only [HistoryCounted] at hcounted
  obtain ⟨hmax, htrimmed, hlength, hcap⟩ := hcounted
  unfold EffectMQ.pushHistory
  dsimp only
  split
  · next hlimit =>
    refine h.setHistory hr rfl henabled _ ?_
    simp only [List.length_append, List.length_singleton] at hlimit
    unfold HistoryCounted
    simp only [Function.update_self, List.length_drop, List.length_append, List.length_singleton]
    refine ⟨hmax, ?_, ?_, ?_⟩ <;> omega
  · next hlimit =>
    refine h.setHistory hr rfl henabled _ ?_
    simp only [List.length_append, List.length_singleton] at hlimit
    unfold HistoryCounted
    simp only [Function.update_self, List.length_append, List.length_singleton]
    refine ⟨hmax, ?_, ?_, ?_⟩ <;> omega

end Store

/-- The histories are counted, and whatever was raised came from an exhausted one. -/
structure Sound (w : World) : Prop where
  history : w.store.HistorySound
  raised : ∀ e, w.raised = some e → e.store.HistoryExhausted

namespace Store

/-- A history that is counted only fails its check at the largest sequence number. -/
theorem HistorySound.exhausted_of_fault {s : Store} (h : s.HistorySound) {queue id message : String}
    (hfault : historyFault s queue id = some message) : s.HistoryExhausted := by
  unfold historyFault at hfault
  cases hr : s.task (queue, id) with
  | none => simp [hr] at hfault
  | some r =>
    rw [hr] at hfault
    dsimp only at hfault
    split at hfault
    · exact absurd hfault (by simp)
    · next henabled =>
      rw [Bool.not_eq_false] at henabled
      have hcounted := h.counted _ r hr henabled
      simp only [Store.HistoryCounted] at hcounted
      obtain ⟨hmax, htrimmed, hlength, _⟩ := hcounted
      split at hfault
      · next hlast => exact ⟨_, r, hr, henabled, hlast⟩
      · split at hfault
        · next hlimits => omega
        · split at hfault
          · next hne => exact absurd hlength hne
          · exact absurd hfault (by simp)

/-- The record that is dropped is the one the streams belong to. -/
theorem HistorySound.dropRecord {s : Store} (h : s.HistorySound) (queue id : String) {generation : Option ℕ}
    (hgeneration : (s.task (queue, id)).map TaskRecord.generation = generation) :
    (EffectMQ.dropRecord queue id generation s).HistorySound := by
  have htask : (EffectMQ.dropRecord queue id generation s).task = Function.update s.task (queue, id) none := by
    unfold EffectMQ.dropRecord
    cases generation <;> rfl
  have hhistory : ∀ x, (EffectMQ.dropRecord queue id generation s).history x ≠ [] →
      s.history x ≠ [] ∧ generation ≠ some x.generation ∨ s.history x ≠ [] ∧ (x.queue, x.id) ≠ (queue, id) := by
    intro x hx
    unfold EffectMQ.dropRecord at hx
    cases generation with
    | none => exact Or.inl ⟨hx, by simp⟩
    | some g =>
      by_cases heq : x = ⟨queue, id, g⟩
      · subst heq
        exact absurd (Function.update_self _ _ _) hx
      · have hx' : s.history x ≠ [] := by
          intro hnil
          exact hx ((Function.update_of_ne heq _ _).trans hnil)
        by_cases hg : x.generation = g
        · exact Or.inr ⟨hx', fun hk => heq (by cases x; simp_all)⟩
        · exact Or.inl ⟨hx', fun hsome => hg (Option.some.inj hsome).symm⟩
  have hkeep : ∀ x, (x.queue, x.id) ≠ (queue, id) →
      (EffectMQ.dropRecord queue id generation s).history x = s.history x := by
    intro x hk
    unfold EffectMQ.dropRecord
    cases generation with
    | none => rfl
    | some g => exact Function.update_of_ne (fun heq => hk (by rw [heq])) _ _
  constructor
  · intro k r hr henabled
    rw [htask] at hr
    have hk : k ≠ (queue, id) := by
      rintro rfl
      simp at hr
    rw [Function.update_of_ne hk] at hr
    have hcounted := h.counted k r hr henabled
    unfold Store.HistoryCounted at hcounted ⊢
    rwa [hkeep ⟨k.1, k.2, r.generation⟩ hk]
  · intro x hx
    have hcases := hhistory x hx
    have hx' : s.history x ≠ [] := hcases.elim And.left And.left
    obtain ⟨r, hr, henabled⟩ := h.owned x hx'
    obtain ⟨hr', hg⟩ := current_eq_some_iff.mp hr
    have hk : (x.queue, x.id) ≠ (queue, id) := by
      rcases hcases with ⟨_, hne⟩ | ⟨_, hk⟩
      · intro hk
        rw [← hgeneration, ← hk, hr'] at hne
        exact hne (congrArg some hg)
      · exact hk
    exact ⟨r, current_eq_some_iff.mpr ⟨by rw [htask, Function.update_of_ne hk]; exact hr', hg⟩, henabled⟩

theorem HistorySound.writeRecord {s : Store} (h : s.HistorySound) (env : Env) {a : CreateArgs} (hvalid : createFault a = none)
    (hfresh : s.task (a.queue, a.id) = none) : (EffectMQ.writeRecord env a s).HistorySound := by
  have hcap : natural a.maxHistoryEntries ≤ maxSafeInteger := by
    unfold createFault at hvalid
    split at hvalid
    · exact absurd hvalid (by simp)
    · next hcheck =>
      rw [Bool.not_eq_false] at hcheck
      obtain ⟨n, hn, hcheck⟩ := (Option.any_eq_true _ _).mp hcheck
      simp only [decide_eq_true_eq] at hcheck
      obtain ⟨hden, _, hle⟩ := hcheck
      have hnum : n = (n.num : ℚ) := (Rat.coe_int_num_of_den_eq_one hden).symm
      rw [hnum] at hle
      have hle' : n.num ≤ (maxSafeInteger : ℤ) := by exact_mod_cast hle
      rw [natural, hn]
      simp only [Option.getD_some]
      omega
  have hunowned : ∀ x : TaskIdentity, (x.queue, x.id) = (a.queue, a.id) → s.history x = [] := by
    intro x hx
    by_contra hne
    obtain ⟨r, hr, _⟩ := h.owned x hne
    have htask := (current_eq_some_iff.mp hr).1
    rw [hx, hfresh] at htask
    exact absurd htask (by simp)
  constructor
  · intro k r hr henabled
    by_cases hk : k = (a.queue, a.id)
    · subst hk
      obtain rfl : newRecord env a (s.generations (a.queue, a.id) + 1) = r := by
        simpa [EffectMQ.writeRecord] using hr
      have hhistory : (newRecord env a (s.generations (a.queue, a.id) + 1)).history =
          ⟨true, natural a.maxHistoryEntries, 0, 0, StreamId.zero⟩ := by
        unfold newRecord at henabled ⊢
        dsimp only at henabled ⊢
        split at henabled
        · next hon => rw [if_pos hon]
        · exact absurd henabled (by simp)
      have hempty := hunowned ⟨a.queue, a.id, (newRecord env a (s.generations (a.queue, a.id) + 1)).generation⟩ rfl
      unfold Store.HistoryCounted
      rw [hhistory]
      simp only [EffectMQ.writeRecord, hempty]
      exact ⟨hcap, le_refl _, rfl, fun _ => Nat.zero_le _⟩
    · have hr' : s.task k = some r := (Function.update_of_ne hk _ _).symm.trans hr
      exact h.counted k r hr' henabled
  · intro x hx
    have hx' : s.history x ≠ [] := hx
    have hne : (x.queue, x.id) ≠ (a.queue, a.id) := fun hk => hx' (hunowned x hk)
    obtain ⟨r, hr, henabled⟩ := h.owned x hx'
    obtain ⟨hr, hg⟩ := current_eq_some_iff.mp hr
    exact ⟨r, current_eq_some_iff.mpr ⟨(Function.update_of_ne hne _ _).trans hr, hg⟩, henabled⟩

end Store

theorem historySound_invariant (env : Env) : StoreInvariant env Store.HistorySound Store.HistoryExhausted where
  aside h htask hhistory _ := h.congr htask hhistory
  modifyTask queue id _ hf h := h.modifyTask queue id (fun r => (hf r).generation) fun r => (hf r).history
  pushHistory data attempt hr henabled h := h.pushHistory hr henabled data attempt
  appendEvent _ _ _ h := h.congr rfl rfl
  dropRecord queue id h := h.dropRecord queue id rfl
  writeRecord hvalid hfresh h := h.writeRecord env hvalid hfresh
  raise h hfault := h.exhausted_of_fault hfault

theorem Sound.run {w : World} (h : Sound w) (env : Env) (op : Op) : Sound (op.run env w).2 :=
  have hkeeps := (historySound_invariant env).run ⟨h.history, h.raised⟩ op
  ⟨hkeeps.store, hkeeps.raised⟩

/-- An invocation either replies and keeps the histories counted, or aborts at an exhausted history. -/
theorem exec_sound (env : Env) (op : Op) {s : Store} (h : s.HistorySound) :
    (∃ reply s', exec env op s = .replied reply s' ∧ s'.HistorySound) ∨
      ∃ message s', exec env op s = .raised message s' ∧ s'.HistoryExhausted := by
  have hrun := Sound.run (w := World.begin env s) ⟨h, fun e he => absurd he (by simp [World.begin])⟩ env op
  rw [exec_eq]
  cases hraised : (op.run env (World.begin env s)).2.raised with
  | none => exact Or.inl ⟨_, _, rfl, hrun.history⟩
  | some e => exact Or.inr ⟨_, _, rfl, hrun.raised e hraised⟩

theorem historySound_empty : Store.empty.HistorySound :=
  ⟨fun _ _ hr => absurd hr (by simp [Store.empty]), fun _ hx => absurd rfl hx⟩

theorem run_historySound {calls : List Call} {e : Engine} (h : engine.Run calls e) : e.store.HistorySound := by
  refine h.invariant (I := fun e => e.store.HistorySound) ?_ fun e c e' hs hc => ?_
  · rintro _ rfl
    exact historySound_empty
  · rcases exec_sound c.env c.op hs with ⟨reply, s', hexec, hs'⟩ | ⟨message, s', hexec, _⟩
    · obtain ⟨_, rfl⟩ := Result.replied.inj (hc.2.2.symm.trans hexec)
      exact hs'
    · exact absurd (hc.2.2.symm.trans hexec) (by simp)

end EffectMQ
