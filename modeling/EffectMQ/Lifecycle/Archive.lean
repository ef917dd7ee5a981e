import EffectMQ.Lifecycle.Account

/-!
# The history of a stored generation

As long as its record is stored, the history of a generation only grows, and loses its oldest entries only to the
limit that the record sets.
-/

namespace EffectMQ

open Redis

/-- The newest entries of a list, or all of them without a limit. -/
def newest {α : Type} (limit : ℕ) (l : List α) : List α := if limit = 0 then l else l.drop (l.length - limit)

theorem newest_append {α : Type} (limit : ℕ) (l l' : List α) :
    newest limit (newest limit l ++ l') = newest limit (l ++ l') := by
  unfold newest
  split
  · rfl
  · next hlimit =>
    have hle : l.length - limit ≤ l.length := Nat.sub_le _ _
    rw [← List.drop_append_of_le_length hle, List.drop_drop, List.length_drop, List.length_append]
    congr 1
    omega

theorem newest_suffix {α : Type} (limit : ℕ) (l : List α) : newest limit l <:+ l := by
  unfold newest
  split
  · exact List.suffix_refl l
  · exact List.drop_suffix _ l

/-- What is appended is kept when it does not pass the limit. -/
theorem suffix_newest {α : Type} {limit : ℕ} {l added : List α} (h : limit = 0 ∨ added.length ≤ limit) :
    added <:+ newest limit (l ++ added) := by
  unfold newest
  split
  · exact List.suffix_append l added
  · next hlimit =>
    have hle : (l ++ added).length - limit ≤ l.length := by
      rw [List.length_append]
      have := h.resolve_left hlimit
      omega
    rw [List.drop_append_of_le_length hle]
    exact List.suffix_append _ added

/-- The record of the view stays, and its history grows up to its limit. -/
def TaskView.Grown (v v' : TaskView) : Prop :=
  ∀ r, v.record = some r → ∃ r', v'.record = some r' ∧ r'.generation = r.generation ∧
    r'.history.maxEntries = r.history.maxEntries ∧
    (v'.history r.generation = v.history r.generation ∨
      ∃ added, v'.history r.generation = newest r.history.maxEntries (v.history r.generation ++ added))

namespace TaskView.Grown

variable {env : Env} {id : String} {v v' v'' : TaskView}

theorem trans (h : v.Grown v') (h' : v'.Grown v'') : v.Grown v'' := by
  intro r hr
  obtain ⟨r', hr', hgeneration, hlimit, hhistory⟩ := h r hr
  obtain ⟨r'', hr'', hgeneration', hlimit', hhistory'⟩ := h' r' hr'
  refine ⟨r'', hr'', hgeneration'.trans hgeneration, hlimit'.trans hlimit, ?_⟩
  rw [hgeneration, hlimit] at hhistory'
  rcases hhistory' with heq' | ⟨added', heq'⟩
  · rw [heq']
    exact hhistory
  · rcases hhistory with heq | ⟨added, heq⟩
    · exact Or.inr ⟨added', by rw [heq', heq]⟩
    · exact Or.inr ⟨added ++ added', by rw [heq', heq, newest_append, List.append_assoc]⟩

end TaskView.Grown

/-- The history fields and the stream of a generation after appends at a clock. -/
inductive Written (env : Env) (id : String) (g : ℕ) (schemaId : String)
    (p : HistoryFields × List (StreamId × HistoryEntry)) : HistoryFields × List (StreamId × HistoryEntry) → Prop
  | refl : Written env id g schemaId p p
  | push {r : TaskRecord} {stream : List (StreamId × HistoryEntry)} (h : Written env id g schemaId p (r.history, stream))
      (hgeneration : r.generation = g) (hschemaId : r.schemaId = schemaId) (data : HistoryData) (attempt : Option ℕ) :
      Written env id g schemaId p (r.pushed env id stream data attempt)

theorem Written.trans {env : Env} {id : String} {g : ℕ} {schemaId : String}
    {p q q' : HistoryFields × List (StreamId × HistoryEntry)} (h : Written env id g schemaId p q)
    (h' : Written env id g schemaId q q') : Written env id g schemaId p q' := by
  induction h' with
  | refl => exact h
  | push _ hgeneration hschemaId data attempt ih => exact ih.push hgeneration hschemaId data attempt

theorem Written.enabled {env : Env} {id : String} {g : ℕ} {schemaId : String}
    {p q : HistoryFields × List (StreamId × HistoryEntry)} (h : Written env id g schemaId p q) :
    q.1.enabled = p.1.enabled := by
  induction h with
  | refl => rfl
  | push _ _ _ data attempt ih =>
    rw [← ih]
    unfold TaskRecord.pushed
    dsimp only
    split
    · rfl
    · split <;> rfl

/-- The history of an append is the newest part of what was there and one entry more. -/
theorem pushed_newest (env : Env) (id : String) (r : TaskRecord) (stream : List (StreamId × HistoryEntry))
    (data : HistoryData) (attempt : Option ℕ) :
    (r.pushed env id stream data attempt).1.maxEntries = r.history.maxEntries ∧
    ((r.pushed env id stream data attempt).2 = stream ∨ ∃ added,
      (r.pushed env id stream data attempt).2 = newest r.history.maxEntries (stream ++ added)) := by
  simp only [TaskRecord.pushed]
  split
  · exact ⟨rfl, Or.inl rfl⟩
  · split
    · next hfull => exact ⟨rfl, Or.inr ⟨_, by rw [newest, if_neg hfull.1.ne']⟩⟩
    · next hfits =>
      refine ⟨rfl, Or.inr ⟨[(StreamId.next env.clock (lastId stream), historyEntry env id r data attempt)], ?_⟩⟩
      rw [newest]
      split
      · rfl
      · next hlimit =>
        rw [Nat.sub_eq_zero_of_le (not_lt.mp fun hlt => hfits ⟨Nat.pos_of_ne_zero hlimit, hlt⟩), List.drop_zero]

theorem Written.newest {env : Env} {id : String} {g : ℕ} {schemaId : String}
    {p q : HistoryFields × List (StreamId × HistoryEntry)} (h : Written env id g schemaId p q) :
    q.1.maxEntries = p.1.maxEntries ∧
      (q.2 = p.2 ∨ ∃ added, q.2 = EffectMQ.newest p.1.maxEntries (p.2 ++ added)) := by
  induction h with
  | refl => exact ⟨rfl, Or.inl rfl⟩
  | @push r stream _ _ _ data attempt ih =>
    obtain ⟨hlimit, hstream⟩ := ih
    obtain ⟨hlimit', hpushed⟩ := pushed_newest env id r stream data attempt
    refine ⟨hlimit'.trans hlimit, ?_⟩
    dsimp only at hlimit hstream
    rw [hlimit] at hpushed
    rcases hpushed with heq | ⟨added, heq⟩
    · rw [heq]
      exact hstream
    · rcases hstream with hsame | ⟨before, hbefore⟩
      · exact Or.inr ⟨added, by rw [heq, hsame]⟩
      · exact Or.inr ⟨before ++ added, by rw [heq, hbefore, newest_append, List.append_assoc]⟩

/-- The record of the view stays, and appends are all that happens to its history. -/
def TaskView.Writes (env : Env) (id : String) (v v' : TaskView) : Prop :=
  ∀ r, v.record = some r → ∃ r', v'.record = some r' ∧ r'.generation = r.generation ∧ r'.schemaId = r.schemaId ∧
    Written env id r.generation r.schemaId (r.history, v.history r.generation) (r'.history, v'.history r.generation)

theorem TaskView.Writes.grown {env : Env} {id : String} {v v' : TaskView} (h : v.Writes env id v') : v.Grown v' := by
  intro r hr
  obtain ⟨r', hr', hgeneration, _, hwritten⟩ := h r hr
  exact ⟨r', hr', hgeneration, hwritten.newest⟩

namespace TaskView.Writes

variable {env : Env} {id : String} {v v' v'' : TaskView}

theorem refl (v : TaskView) : v.Writes env id v := fun r hr => ⟨r, hr, rfl, rfl, .refl⟩

theorem trans (h : v.Writes env id v') (h' : v'.Writes env id v'') : v.Writes env id v'' := by
  intro r hr
  obtain ⟨r', hr', hgeneration, hschemaId, hwritten⟩ := h r hr
  obtain ⟨r'', hr'', hgeneration', hschemaId', hwritten'⟩ := h' r' hr'
  rw [hgeneration, hschemaId] at hwritten'
  exact ⟨r'', hr'', hgeneration'.trans hgeneration, hschemaId'.trans hschemaId, hwritten.trans hwritten'⟩

theorem of_map {f : TaskRecord → TaskRecord} (hrecord : v'.record = v.record.map f) (hhistory : v'.history = v.history)
    (hf : ∀ r, (f r).generation = r.generation ∧ (f r).schemaId = r.schemaId ∧ (f r).history = r.history) :
    v.Writes env id v' := by
  intro r hr
  refine ⟨f r, by rw [hrecord, hr, Option.map_some], (hf r).1, (hf r).2.1, ?_⟩
  rw [hhistory, (hf r).2.2]
  exact .refl

theorem of_eq (hrecord : v'.record = v.record) (hhistory : v'.history = v.history) : v.Writes env id v' :=
  of_map (f := fun r => r) (by rw [hrecord, Option.map_id']) hhistory fun _ => ⟨rfl, rfl, rfl⟩

theorem modify {f : TaskRecord → TaskRecord}
    (hf : ∀ r, (f r).generation = r.generation ∧ (f r).schemaId = r.schemaId ∧ (f r).history = r.history) :
    v.Writes env id (v.modify f) :=
  of_map rfl rfl hf

theorem push (data : HistoryData) (attempt : Option ℕ) : v.Writes env id (v.push env id data attempt) := by
  intro r hr
  refine ⟨{ r with history := (r.pushed env id (v.history r.generation) data attempt).1 }, by simp [TaskView.push, hr],
    rfl, rfl, ?_⟩
  simp only [TaskView.push, hr, Function.update_self]
  exact .push .refl rfl rfl data attempt

theorem publish (body : EventBody) (failureKind : Option FailureKind) (attempt : Option ℕ) :
    v.Writes env id (v.publish env id body failureKind attempt) :=
  (push (lifecycleData body failureKind) attempt).trans (of_eq rfl rfl)

theorem move (list : Option TaskList) (readyAt : ℚ) (attempt : Option ℕ) :
    v.Writes env id (v.move env id list readyAt attempt) := by
  have hrelist : v.Writes env id (v.relist env list readyAt) :=
    of_map (f := fun r => { r with currentList := some list }) rfl rfl fun _ => ⟨rfl, rfl, rfl⟩
  unfold TaskView.move
  split
  · exact hrelist
  · exact hrelist.trans (publish _ none attempt)

theorem recordFailure (error : LuaValue) (retryAt : Option ℚ) (kind : FailureKind) :
    v.Writes env id (v.recordFailure env id error retryAt kind) := by
  have hcount : v.Writes env id (v.countFailure kind) := by
    have hunlock : v.Writes env id v.unlock := of_eq rfl rfl
    refine hunlock.trans (modify fun r => ?_)
    split <;> exact ⟨rfl, rfl, rfl⟩
  have herror : (v.countFailure kind).Writes env id ((v.countFailure kind).appendTaskError env error retryAt) :=
    modify fun _ => ⟨rfl, rfl, rfl⟩
  exact (hcount.trans herror).trans (publish _ _ none)

/-- A completion policy that leaves the record. -/
theorem applyPolicy {held : Bool} (h' : (v.applyPolicy env id held).record ≠ none) :
    v.Writes env id (v.applyPolicy env id held) := by
  unfold TaskView.applyPolicy at h' ⊢
  cases hr : v.record with
  | none => exact refl v
  | some r =>
    rw [hr] at h'
    dsimp only at h' ⊢
    cases ho : r.outcome with
    | none => exact refl v
    | some outcome =>
      rw [ho] at h'
      dsimp only at h' ⊢
      split at h'
      · exact absurd (record_delete env) h'
      · next hkeep =>
        rw [if_neg hkeep]
        exact move _ 0 none

theorem settle {terminalFailure : LuaValue} {held : Bool} (h' : (v.settle env id terminalFailure held).record ≠ none) :
    v.Writes env id (v.settle env id terminalFailure held) := by
  have hdates : v.Writes env id ((v.persist env terminalFailure).retention env) := by
    refine of_eq ((record_retention env).trans (record_persist env terminalFailure)) ?_
    unfold retention persist
    split <;> split <;> rfl
  exact hdates.trans (applyPolicy h')

end TaskView.Writes

/-- A step of a task that leaves a record. -/
theorem TaskStep.writes {env : Env} {id : String} {v v' : TaskView} {a : TaskAction} (hstep : TaskStep env id v a v')
    (h' : v'.record ≠ none) : v.Writes env id v' := by
  obtain ⟨henabled, rfl⟩ := hstep
  cases a with
  | create args replacedTask => exact fun r hr => absurd (henabled.symm.trans hr) (by simp)
  | promote => exact .move (some .wait) 0 none
  | lease leaseToken lockTimeout =>
    have hattempt : ∀ w : TaskView, w.Writes env id { w.modify (fun r => { r with attempt := r.attempt + 1 }) with
        lock := some ⟨leaseToken, env.now + lockTimeout⟩ } := fun w => .of_map rfl rfl fun _ => ⟨rfl, rfl, rfl⟩
    exact (TaskView.Writes.move _ _ _).trans (hattempt _)
  | renew leaseToken lockTimeout =>
    have hlock : v.Writes env id { v with lock := some ⟨leaseToken, env.now + lockTimeout⟩ } := .of_eq rfl rfl
    exact hlock.trans (.move _ _ none)
  | release leaseToken =>
    have hlock : v.Writes env id v.unlock := .of_eq rfl rfl
    exact hlock.trans (.move _ _ none)
  | retry cause error retryAt =>
    have hfailure : v.Writes env id (TaskAction.failed env id cause error retryAt v) := .recordFailure error _ cause.kind
    simp only [TaskAction.apply]
    split
    · exact hfailure.trans (.move _ _ none)
    · exact hfailure.trans (.move _ _ none)
  | fail cause error retryAt held =>
    have hfailure : v.Writes env id (TaskAction.failed env id cause error retryAt v) := .recordFailure error _ cause.kind
    have hset : ∀ w : TaskView, w.Writes env id (w.set env fun r => { r with outcome := some .failure }) :=
      fun w => .modify fun _ => ⟨rfl, rfl, rfl⟩
    exact (hfailure.trans (hset _)).trans (.settle h')
  | succeed leaseToken result held =>
    have hset : v.Writes env id (v.unlock.set env fun r => { r with success := some result, outcome := some .success }) :=
      (TaskView.Writes.of_eq rfl rfl).trans (.modify fun _ => ⟨rfl, rfl, rfl⟩)
    exact (hset.trans (.publish _ none none)).trans (.settle h')
  | progress leaseToken data => exact .push _ none
  | refile => exact .applyPolicy h'
  | replace | expireTask | remove | forget => exact absurd rfl h'
  | dropDate | holdDate | expireDeadLetter | revoke => exact .of_eq rfl rfl
  | expireResult g held =>
    simp only [TaskAction.apply, TaskView.expireResult]
    split <;> exact .of_eq rfl rfl
  | expireTerminal g =>
    simp only [TaskAction.apply, TaskView.expireTerminal]
    split
    · refine .of_map (f := v.unindexed) rfl rfl fun r => ?_
      unfold TaskView.unindexed
      split <;> exact ⟨rfl, rfl, rfl⟩
    · exact .of_eq rfl rfl

theorem TaskStep.grown {env : Env} {id : String} {v v' : TaskView} {a : TaskAction} (hstep : TaskStep env id v a v')
    (h' : v'.record ≠ none) : v.Grown v' :=
  (hstep.writes h').grown

end EffectMQ
