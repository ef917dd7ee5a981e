import EffectMQ.Lifecycle.Invariant

/-!
# The event streams of a run

Streams only grow at the back, their ids increase, and a trim never reaches the newest entry: every record allows at
least one entry, and the cutoff of a retention time is not in the future.
-/

namespace EffectMQ

open Redis Transition

/-- What a stored record has from its offer: the protocol version, and room for an event. -/
structure TaskRecord.Admitted (r : TaskRecord) : Prop where
  protocolVersion : r.protocolVersion = 1
  maxEventEntries : 0 < r.maxEventEntries

namespace Store

def Admitted (s : Store) : Prop := ∀ k r, s.task k = some r → r.Admitted

/-- The streams of a store are in order, and continue those of an earlier one. -/
structure Published (s₀ s : Store) : Prop where
  admitted : s.Admitted
  ordered : ∀ queue, (s.events queue).Ordered
  continued : ∀ queue, (s₀.events queue).published <+: (s.events queue).published

theorem Admitted.modifyTask {s : Store} (h : s.Admitted) (queue id : String) {f : TaskRecord → TaskRecord}
    (hf : ∀ r, (f r).protocolVersion = r.protocolVersion ∧ (f r).maxEventEntries = r.maxEventEntries) :
    (s.modifyTask queue id f).Admitted := by
  intro k r' hr'
  by_cases hk : k = (queue, id)
  · subst hk
    have hmap : (s.task (queue, id)).map f = some r' := by simpa only [Store.modifyTask, Function.update_self] using hr'
    obtain ⟨r, hr, rfl⟩ := Option.map_eq_some_iff.mp hmap
    obtain ⟨hversion, hmax⟩ := hf r
    exact ⟨hversion.trans (h _ r hr).protocolVersion, hmax ▸ (h _ r hr).maxEventEntries⟩
  · exact h k r' ((Function.update_of_ne hk _ _).symm.trans hr')

theorem Admitted.update_task {s s' : Store} (h : s.Admitted) {k : TaskKey} {record : Option TaskRecord}
    (htask : s'.task = Function.update s.task k record) (hrecord : ∀ r, record = some r → r.Admitted) :
    s'.Admitted := by
  intro k' r hr
  rw [htask] at hr
  by_cases hk : k' = k
  · subst hk
    rw [Function.update_self] at hr
    exact hrecord r hr
  · rw [Function.update_of_ne hk] at hr
    exact h k' r hr

theorem events_pushHistory (env : Env) (queue id : String) (r : TaskRecord) (data : HistoryData)
    (attempt : Option ℕ) (s : Store) : (pushHistory env queue id r data attempt s).events = s.events := by
  unfold pushHistory
  dsimp only
  split <;> rfl

theorem events_dropRecord (queue id : String) (generation : Option ℕ) (s : Store) :
    (dropRecord queue id generation s).events = s.events := by
  unfold dropRecord
  cases generation <;> rfl

theorem task_dropRecord (queue id : String) (generation : Option ℕ) (s : Store) :
    (dropRecord queue id generation s).task = Function.update s.task (queue, id) none := by
  unfold dropRecord
  cases generation <;> rfl

variable {s₀ s s' : Store}

theorem Published.congr (h : Published s₀ s) (hadmitted : s'.Admitted) (hevents : s'.events = s.events) :
    Published s₀ s' where
  admitted := hadmitted
  ordered := hevents ▸ h.ordered
  continued := hevents ▸ h.continued

/-- The stream that an event was appended to, before the trims. -/
theorem retained_append {α : Type} {stream : Stream α} (h : stream.Ordered) (clock : ℕ) (e : α) :
    (stream.append clock e).retained = stream.retained ++ [(StreamId.next clock (lastId stream.published), e)] := by
  have hle : stream.trimmed ≤ stream.published.length := by
    rcases h.newest with hzero | hlt
    · rw [hzero]
      exact Nat.zero_le _
    · exact hlt.le
  simp only [Stream.retained, Stream.append]
  exact List.drop_append_of_le_length hle

theorem Published.appendEvent (h : Published s₀ s) (env : Env) (queue id : String) (body : EventBody) :
    Published s₀ (EffectMQ.appendEvent env queue id body s) := by
  have hmax : 0 < ((s.task (queue, id)).map TaskRecord.maxEventEntries).getD 10000 := by
    cases hr : s.task (queue, id) with
    | none => simp
    | some r => simpa using (h.admitted _ r hr).maxEventEntries
  have hstream := fun e => (h.ordered queue).append env.clock e
  unfold EffectMQ.appendEvent
  dsimp only
  refine ⟨h.admitted, fun queue' => ?_, fun queue' => ?_⟩
  · by_cases hq : queue' = queue
    · subst hq
      simp only [Function.update_self]
      generalize hevent : (Event.mk _ _ _ _ _) = event
      generalize hlimit : ((s.task (queue', id)).map TaskRecord.maxEventEntries).getD 10000 = limit at hmax ⊢
      have hlength := (hstream event).trimByLength (env.trimByLength queue') hmax
      have hretained := retained_append (h.ordered queue') env.clock event
      -- the first trim leaves the newest entry, whose id is at least the clock
      have hlast : ((((s.events queue').append env.clock event).trimByLength (env.trimByLength queue') limit).retained).getLast? =
          some (StreamId.next env.clock (lastId (s.events queue').published), event) := by
        rw [Stream.trimByLength, Stream.retained_trim, hretained, List.getLast?_drop, if_neg, List.getLast?_concat]
        simp only [List.length_append, List.length_singleton]
        omega
      refine hlength.trimById _ hlast ?_
      unfold StreamId.next
      split <;> dsimp only <;> omega
    · simp only [Function.update_of_ne hq]
      exact h.ordered queue'
  · by_cases hq : queue' = queue
    · subst hq
      simp only [Function.update_self]
      exact (h.continued queue').trans (List.prefix_append _ _)
    · simp only [Function.update_of_ne hq]
      exact h.continued queue'

end Store

/-- An offer that passes the checks has its integers in their ranges. -/
theorem integerField_of_valid {a : CreateArgs} (h : createFault a = none) {field : String × Option ℚ × ℤ}
    (hfield : field ∈ integerFields a) : isSafeInteger field.2.2 field.2.1 = true := by
  unfold createFault at h
  split at h
  · exact absurd h (by simp)
  · split at h
    · exact absurd h (by simp)
    · have hnone := List.find?_eq_none.mp (Option.map_eq_none_iff.mp h) field hfield
      simpa using hnone

theorem le_natural_of_safe {minimum : ℤ} {value : Option ℚ} (h : isSafeInteger minimum value = true) :
    minimum ≤ natural value := by
  obtain ⟨v, rfl, hv⟩ := (Option.any_eq_true _ _).mp h
  simp only [decide_eq_true_eq] at hv
  exact hv.2.1.trans (Int.self_le_toNat _)

theorem published_invariant (env : Env) (s₀ : Store) :
    StoreInvariant env (Store.Published s₀) fun _ => True where
  aside h htask _ hevents := h.congr (by
    unfold Store.Admitted
    rw [htask]
    exact h.admitted) hevents
  modifyTask queue id _ hf h := h.congr (h.admitted.modifyTask queue id fun r => ⟨(hf r).protocolVersion, (hf r).maxEventEntries⟩) rfl
  pushHistory data attempt hr henabled h := by
    refine h.congr ?_ (Store.events_pushHistory ..)
    unfold EffectMQ.pushHistory
    dsimp only
    split
    · exact h.admitted.modifyTask _ _ fun _ => ⟨rfl, rfl⟩
    · exact h.admitted.modifyTask _ _ fun _ => ⟨rfl, rfl⟩
  appendEvent queue id body h := h.appendEvent env queue id body
  dropRecord queue id h := by
    refine h.congr (h.admitted.update_task (Store.task_dropRecord ..) fun r hr => absurd hr (by simp))
      (Store.events_dropRecord ..)
  writeRecord {_ a} hvalid _ h := h.congr (h.admitted.update_task rfl fun r hr => by
    rw [← Option.some.inj hr]
    have hfield : ("maxEventEntries", a.maxEventEntries, 1) ∈ integerFields a := by simp [integerFields]
    have hle := le_natural_of_safe (integerField_of_valid hvalid hfield)
    dsimp only at hle
    refine ⟨rfl, ?_⟩
    change 0 < natural a.maxEventEntries
    omega) rfl
  raise _ _ := trivial

theorem published_empty : Store.empty.Published Store.empty where
  admitted _ _ hr := absurd hr (by simp [Store.empty])
  ordered _ := Stream.ordered_empty
  continued _ := List.prefix_refl _

/-- In every state of a run the streams are in order. -/
theorem run_published {calls : List Call} {e : Engine} (h : engine.Run calls e) : Store.empty.Published e.store := by
  refine h.invariant (I := fun e => Store.empty.Published e.store) ?_ fun e c e' hs hc => ?_
  · rintro _ rfl
    exact published_empty
  · exact (published_invariant c.env Store.empty).exec hs hc.2.2

/-- Along a path that starts in a state of a run, streams continue. -/
theorem path_published {calls calls' : List Call} {e e' : Engine} (h : engine.Run calls e)
    (h' : engine.Path e calls' e') : e.store.Published e'.store := by
  have hs := run_published h
  exact h'.preserves (I := fun e' => e.store.Published e'.store)
    ⟨hs.admitted, hs.ordered, fun _ => List.prefix_refl _⟩ fun _ c _ hs hc =>
      (published_invariant c.env e.store).exec hs hc.2.2

end EffectMQ
