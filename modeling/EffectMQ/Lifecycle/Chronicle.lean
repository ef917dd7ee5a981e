import EffectMQ.Lifecycle.Advance
import EffectMQ.Lifecycle.Archive

/-!
# The chronicle of a generation

Everything that was ever appended to the history of a generation, in order. The stored stream is the part of it that
was not trimmed; the fields of the record count it and name the last entry that was.
-/

namespace EffectMQ

open Redis Transition

/-- What an entry of a chronicle says about itself, at its position. -/
structure Chronicled (id : String) (g : ℕ) (schemaId : String) (clock i : ℕ) (entry : StreamId × HistoryEntry) :
    Prop where
  sequence : entry.2.sequence = i + 1
  positive : StreamId.Lt StreamId.zero entry.1
  ms : entry.1.ms ≤ clock
  seq : entry.1.seq ≤ i + 1
  taskId : entry.2.taskId = id
  generation : entry.2.generation = g
  schemaId : entry.2.schemaId = schemaId
  timestamp : entry.2.timestamp ≤ clock

/-- Entries in the order in which they were appended. -/
structure AppendOrder (id : String) (g : ℕ) (schemaId : String) (clock : ℕ) (all : List (StreamId × HistoryEntry)) :
    Prop where
  increasing : all.Pairwise fun x y => StreamId.Lt x.1 y.1
  entries : ∀ i entry, all[i]? = some entry → Chronicled id g schemaId clock i entry

/-- The history fields and the stream of a generation, and everything that was ever appended to it. -/
structure Chronicle (id : String) (g : ℕ) (schemaId : String) (clock : ℕ)
    (p : HistoryFields × List (StreamId × HistoryEntry)) (all : List (StreamId × HistoryEntry)) : Prop
    extends AppendOrder id g schemaId clock all where
  enabled : p.1.enabled = true
  count : all.length = p.1.sequence
  trimmed : p.1.trimmed = 0 ∨ p.1.trimmed < p.1.sequence
  stream : p.2 = all.drop p.1.trimmed
  cap : 0 < p.1.maxEntries → p.2.length ≤ p.1.maxEntries
  boundary : p.1.trimmedId = lastId (all.take p.1.trimmed)

section

variable {env : Env} {id : String} {g : ℕ} {schemaId : String} {clock : ℕ}
  {p q : HistoryFields × List (StreamId × HistoryEntry)} {all : List (StreamId × HistoryEntry)}

theorem AppendOrder.mono (h : AppendOrder id g schemaId clock all) {clock' : ℕ} (hle : clock ≤ clock') :
    AppendOrder id g schemaId clock' all where
  increasing := h.increasing
  entries i entry hentry :=
    { h.entries i entry hentry with
      ms := (h.entries i entry hentry).ms.trans hle
      timestamp := (h.entries i entry hentry).timestamp.trans hle }

theorem Chronicle.mono (h : Chronicle id g schemaId clock p all) {clock' : ℕ} (hle : clock ≤ clock') :
    Chronicle id g schemaId clock' p all :=
  { h with toAppendOrder := h.toAppendOrder.mono hle }

/-- A history to which nothing was appended. -/
theorem chronicle_nil {h : HistoryFields} (henabled : h.enabled = true) (hsequence : h.sequence = 0)
    (htrimmed : h.trimmed = 0) (htrimmedId : h.trimmedId = StreamId.zero) : Chronicle id g schemaId clock (h, []) [] where
  enabled := henabled
  count := hsequence.symm
  trimmed := Or.inl htrimmed
  stream := by simp
  cap _ := Nat.zero_le _
  boundary := by simp [htrimmedId, lastId]
  increasing := .nil
  entries i entry hentry := absurd hentry (by simp)

/-- The newest entry is never trimmed, so the last id of the stream is the last id ever. -/
theorem Chronicle.lastId_stream (h : Chronicle id g schemaId clock p all) : lastId p.2 = lastId all := by
  rw [h.stream]
  rcases h.trimmed with hzero | hlt
  · rw [hzero, List.drop_zero]
  · unfold lastId
    rw [List.getLast?_drop, if_neg]
    rw [h.count]
    exact not_le.mpr hlt

theorem AppendOrder.lastId_le (h : AppendOrder id g schemaId clock all) :
    (lastId all).ms ≤ clock ∧ (lastId all).seq ≤ all.length := by
  rcases List.eq_nil_or_concat all with hnil | ⟨rest, last, hconcat⟩
  · rw [hnil]
    exact ⟨Nat.zero_le _, Nat.zero_le _⟩
  · have hentry := h.entries rest.length last (by simp [hconcat])
    have hlast : lastId all = last.1 := by simp [hconcat, lastId]
    rw [hlast]
    refine ⟨hentry.ms, hentry.seq.trans ?_⟩
    simp [hconcat]

/-- The entry that an append writes takes the next position. -/
theorem Chronicle.chronicled_next {r : TaskRecord} {stream : List (StreamId × HistoryEntry)}
    (h : Chronicle id r.generation r.schemaId clock (r.history, stream) all) (hclock : clock ≤ env.clock)
    (data : HistoryData) (attempt : Option ℕ) :
    Chronicled id r.generation r.schemaId env.clock all.length
      (StreamId.next env.clock (lastId stream), historyEntry env id r data attempt) := by
  have hlast : lastId stream = lastId all := h.lastId_stream
  obtain ⟨hms, hseq⟩ := h.lastId_le
  have hcount : all.length = r.history.sequence := h.count
  rw [hlast]
  refine ⟨?_, ?_, ?_, ?_, rfl, rfl, rfl, le_rfl⟩
  · simp [historyEntry, hcount]
  · have hnext := StreamId.lt_next env.clock (lastId all)
    unfold StreamId.Lt StreamId.zero at *
    dsimp only at *
    omega
  · unfold StreamId.next
    split
    · exact le_rfl
    · exact hms.trans hclock
  · unfold StreamId.next
    split
    · exact Nat.zero_le _
    · exact Nat.succ_le_succ hseq

/-- An append writes the next entry. -/
theorem Chronicle.push {r : TaskRecord} {stream : List (StreamId × HistoryEntry)}
    (h : Chronicle id r.generation r.schemaId clock (r.history, stream) all) (hclock : clock ≤ env.clock)
    (data : HistoryData) (attempt : Option ℕ) :
    ∃ entry, Chronicle id r.generation r.schemaId env.clock (r.pushed env id stream data attempt) (all ++ [entry]) := by
  have henabled : r.history.enabled = true := h.enabled
  have hcount : all.length = r.history.sequence := h.count
  have htrimmed : r.history.trimmed = 0 ∨ r.history.trimmed < r.history.sequence := h.trimmed
  have hstream : stream = all.drop r.history.trimmed := h.stream
  have hnext := h.chronicled_next hclock data attempt
  have hlast : lastId stream = lastId all := h.lastId_stream
  refine ⟨(StreamId.next env.clock (lastId stream), historyEntry env id r data attempt), ?_⟩
  generalize hentry : (StreamId.next env.clock (lastId stream), historyEntry env id r data attempt) = entry at hnext ⊢
  have hlength : stream.length = all.length - r.history.trimmed := by rw [hstream, List.length_drop]
  have hdrop : (all ++ [entry]).drop r.history.trimmed = stream ++ [entry] := by
    rw [hstream, List.drop_append_of_le_length]
    omega
  have hincreasing : (all ++ [entry]).Pairwise fun x y => StreamId.Lt x.1 y.1 := by
    refine List.pairwise_append.mpr ⟨h.increasing, List.pairwise_singleton _ _, fun x hx y hy => ?_⟩
    obtain rfl := List.mem_singleton.mp hy
    rw [← hentry, hlast]
    rcases Stream.le_lastId h.increasing hx with heq | hlt
    · rw [heq]
      exact StreamId.lt_next _ _
    · exact hlt.trans (StreamId.lt_next _ _)
  have hentries : ∀ i e, (all ++ [entry])[i]? = some e → Chronicled id r.generation r.schemaId env.clock i e := by
    intro i e he
    by_cases hi : i < all.length
    · rw [List.getElem?_append_left hi] at he
      exact (h.mono hclock).entries i e he
    · rw [List.getElem?_append_right (not_lt.mp hi), List.getElem?_singleton] at he
      split at he
      · next hzero =>
        obtain rfl := Option.some.inj he
        rwa [show i = all.length by omega]
      · exact absurd he (by simp)
  simp only [TaskRecord.pushed, henabled, Bool.true_eq_false, ↓reduceIte, hentry]
  split
  · -- the cap was reached, so exactly the oldest entry goes
    next hfull =>
    have hcap := h.cap hfull.1
    simp only [List.length_append, List.length_singleton] at hfull hcap
    have hnew : r.history.sequence + 1 - r.history.maxEntries = r.history.trimmed + 1 := by omega
    have hone : (stream ++ [entry]).length - r.history.maxEntries = 1 := by
      simp only [List.length_append, List.length_singleton]
      omega
    have hat : r.history.trimmed < (all ++ [entry]).length := by
      simp only [List.length_append, List.length_singleton]
      omega
    refine ⟨⟨hincreasing, hentries⟩, rfl, by simp [hcount], Or.inr ?_, ?_, fun _ => ?_, ?_⟩
    · dsimp only
      omega
    · dsimp only
      rw [hone, hnew, ← hdrop, List.drop_drop]
    · simp only [List.length_drop, List.length_append, List.length_singleton]
      omega
    · dsimp only
      rw [hnew, ← hdrop, List.head?_drop, List.getElem?_eq_getElem hat, List.take_succ_eq_append_getElem hat, lastId,
        List.getLast?_concat]
  · next hfits =>
    refine ⟨⟨hincreasing, hentries⟩, rfl, by simp [hcount], ?_, ?_, fun hlimit => ?_, ?_⟩
    · dsimp only
      omega
    · exact hdrop.symm
    · exact not_lt.mp fun hlt => hfits ⟨hlimit, hlt⟩
    · dsimp only
      rw [List.take_append_of_le_length (by omega)]
      exact h.boundary

/-- The chronicle of a history goes on with its appends. -/
theorem Chronicle.written (h : Chronicle id g schemaId clock p all) (hclock : clock ≤ env.clock)
    (hwritten : Written env id g schemaId p q) :
    ∃ added, Chronicle id g schemaId env.clock q (all ++ added) := by
  induction hwritten with
  | refl => exact ⟨[], by rw [List.append_nil]; exact h.mono hclock⟩
  | push _ hgeneration hschemaId data attempt ih =>
    obtain ⟨added, hadded⟩ := ih
    subst hgeneration hschemaId
    obtain ⟨entry, hentry⟩ := hadded.push le_rfl data attempt
    exact ⟨added ++ [entry], by rw [← List.append_assoc]; exact hentry⟩

end

/-! ### Over a run -/

namespace Store

/-- The fields and the stream of a stored generation. -/
def archived (s : Store) (x : TaskIdentity) (r : TaskRecord) : HistoryFields × List (StreamId × HistoryEntry) :=
  (r.history, s.history x)

/-- The chronicle of a generation, as long as it is stored. -/
def ChronicledBy (s : Store) (x : TaskIdentity) (clock : ℕ) (all : List (StreamId × HistoryEntry)) : Prop :=
  ∀ r, s.current x = some r → Chronicle x.id x.generation r.schemaId clock (s.archived x r) all

/-- Every stored history has a chronicle. -/
def Remembers (s : Store) (x : TaskIdentity) (clock : ℕ) : Prop :=
  ∀ r, s.current x = some r → r.history.enabled = true →
    ∃ all, Chronicle x.id x.generation r.schemaId clock (s.archived x r) all

end Store

section

variable {env : Env} {b b' : Busy} {s s' : Store} {act : EngineAction} {x : TaskIdentity}

theorem history_of_view (hview : s'.view x.key = s.view x.key) : s'.history x = s.history x :=
  congrFun (congrArg TaskView.history hview) x.generation

/-- The chronicle of a generation goes on with every step that leaves it stored. -/
theorem EngineStep.written (hstep : EngineStep env b s act b' s') (hs : Sane env.now s)
    (hcounted : x.generation ≤ s.generations x.key) {r' : TaskRecord} (hr' : s'.current x = some r') :
    ∃ r, s.current x = some r ∧ r'.schemaId = r.schemaId ∧
      Written env x.id x.generation r.schemaId (s.archived x r) (s'.archived x r') := by
  obtain ⟨r, hr, _⟩ := hstep.advances hs hcounted hr'
  obtain ⟨hrecord, hgeneration⟩ := current_eq_some_iff.mp hr
  have hrecord' := (current_eq_some_iff.mp hr').1
  refine ⟨r, hr, ?_⟩
  rcases hstep.view x.key with ⟨_, hview⟩ | ⟨a, _, htask⟩
  · obtain rfl : r = r' := by
      refine Option.some.inj (hrecord.symm.trans ?_)
      exact (congrArg TaskView.record hview).symm.trans hrecord'
    rw [Store.archived, Store.archived, history_of_view hview]
    exact ⟨rfl, .refl⟩
  · have hne : (s'.view x.key).record ≠ none := by
      rw [show (s'.view x.key).record = some r' from hrecord']
      simp
    obtain ⟨r'', hr'', _, hschemaId, hwritten⟩ := htask.writes hne r hrecord
    obtain rfl := Option.some.inj (hrecord'.symm.trans hr'')
    rw [hgeneration] at hwritten
    exact ⟨hschemaId, hwritten⟩

theorem EngineStep.chronicled (hstep : EngineStep env b s act b' s') (hs : Sane env.now s)
    (hcounted : x.generation ≤ s.generations x.key) {clock : ℕ} (hclock : clock ≤ env.clock)
    {all : List (StreamId × HistoryEntry)} (h : s.ChronicledBy x clock all) :
    ∃ added, s'.ChronicledBy x env.clock (all ++ added) := by
  cases hr' : s'.current x with
  | none => exact ⟨[], fun r hr => absurd (hr'.symm.trans hr) (by simp)⟩
  | some r' =>
    obtain ⟨r, hr, hschemaId, hwritten⟩ := hstep.written hs hcounted hr'
    obtain ⟨added, hadded⟩ := (h r hr).written hclock hwritten
    refine ⟨added, fun r₁ hr₁ => ?_⟩
    obtain rfl := Option.some.inj (hr'.symm.trans hr₁)
    rw [hschemaId]
    exact hadded

/-- A creation starts a chronicle. -/
theorem TaskStep.chronicled_of_created {id : String} {v v' : TaskView} {args : CreateArgs}
    {replacedTask : Option TaskRecord} (hstep : TaskStep env id v (.create args replacedTask) v')
    (hv : v.Consistent env.now) {r : TaskRecord} (hr : v'.record = some r) (henabled : r.history.enabled = true) :
    ∃ all, Chronicle id (v.counter + 1) r.schemaId env.clock (r.history, v'.history (v.counter + 1)) all := by
  have hwrites : (v.create env args).Writes env id v' := by
    obtain ⟨_, rfl⟩ := hstep
    simp only [TaskAction.apply, TaskView.announce]
    split
    · exact (TaskView.Writes.publish _ none none).trans (.move _ _ none)
    · exact (TaskView.Writes.publish _ none none).trans (.move _ _ none)
  obtain ⟨r', hr', _, hschemaId, hwritten⟩ := hwrites _ rfl
  obtain rfl := Option.some.inj (hr.symm.trans hr')
  have hfresh : (v.create env args).history (v.counter + 1) = [] := (hv.fresh _ (Nat.lt_succ_self _)).2.2
  have hfields := hwritten.enabled.symm.trans henabled
  change Written env id (v.counter + 1) (newRecord env args (v.counter + 1)).schemaId
    ((newRecord env args (v.counter + 1)).history, (v.create env args).history (v.counter + 1)) _ at hwritten
  have hon : (newRecord env args (v.counter + 1)).history = ⟨true, natural args.maxHistoryEntries, 0, 0, StreamId.zero⟩ := by
    unfold newRecord at hfields ⊢
    dsimp only at hfields ⊢
    split at hfields
    · next hon => rw [if_pos hon]
    · exact absurd hfields (by simp)
  rw [hfresh, hon] at hwritten
  obtain ⟨added, hadded⟩ := (chronicle_nil rfl rfl rfl rfl).written le_rfl hwritten
  rw [hschemaId]
  exact ⟨_, hadded⟩

theorem EngineStep.remembers (hstep : EngineStep env b s act b' s') (hs : Sane env.now s) {clock : ℕ}
    (hclock : clock ≤ env.clock) (h : s.Remembers x clock) : s'.Remembers x env.clock := by
  intro r' hr' henabled
  have hrecord' := (current_eq_some_iff.mp hr').1
  by_cases hcounted : x.generation ≤ s.generations x.key
  · obtain ⟨r, hr, hschemaId, hwritten⟩ := hstep.written hs hcounted hr'
    obtain ⟨all, hall⟩ := h r hr (hwritten.enabled.symm.trans henabled)
    obtain ⟨added, hadded⟩ := hall.written hclock hwritten
    rw [hschemaId]
    exact ⟨_, hadded⟩
  · have hallocated : ∀ r, s.current x = some r → x.generation ≤ s.generations x.key := fun r hr =>
      (current_eq_some_iff.mp hr).2.ge.trans ((hs.views x.key).generation r (current_eq_some_iff.mp hr).1).1.le
    rcases hstep.record_cases hs hr' with ⟨hr, _⟩ | ⟨r, _, _, _, hr, _⟩ | ⟨args, replacedTask, holder, _, rfl, rfl, _⟩
    · exact absurd (hallocated r' hr) hcounted
    · exact absurd (hallocated r hr) hcounted
    · rcases hstep.view (args.queue, args.id) with ⟨hon, _⟩ | ⟨a, hon, htask⟩
      · exact absurd hon (by simp [EngineAction.on])
      · obtain rfl : TaskAction.create args replacedTask = a := by simpa [EngineAction.on] using hon
        exact htask.chronicled_of_created (hs.views _) hrecord' henabled

theorem EnginePath.chronicled {P : EngineAction → Prop} (hpath : EnginePath env P b s b' s') (hs : Sane env.now s)
    (hcounted : x.generation ≤ s.generations x.key) {clock : ℕ} (hclock : clock ≤ env.clock)
    {all : List (StreamId × HistoryEntry)} (h : s.ChronicledBy x clock all) :
    ∃ added, s'.ChronicledBy x env.clock (all ++ added) := by
  have hstart : s.ChronicledBy x env.clock all := fun r hr => (h r hr).mono hclock
  refine (hpath.preserves (I := fun _ s' => x.generation ≤ s'.generations x.key ∧
    ∃ added, s'.ChronicledBy x env.clock (all ++ added)) hs ⟨hcounted, [], by rwa [List.append_nil]⟩ ?_).2
  intro b₁ s₁ act b₂ s₂ hs₁ ⟨hle, added, hadded⟩ hstep _
  obtain ⟨more, hmore⟩ := hstep.chronicled hs₁ hle le_rfl hadded
  exact ⟨hle.trans (hstep.counter_le _), added ++ more, by rwa [← List.append_assoc]⟩

end

/-- In every state of a run, every stored history has its chronicle. -/
theorem run_remembers {calls : List Call} {e : Engine} (h : engine.Run calls e) (x : TaskIdentity) :
    e.store.Remembers x e.clock := by
  refine h.induction (P := fun _ e => e.store.Remembers x e.clock) ?_ ?_
  · rintro _ rfl r hr
    exact absurd hr (by simp [Store.current, Store.empty])
  · rintro calls e c e' hrun hbefore ⟨hclock, hclock', hexec⟩
    have hs : Sane c.env.now e.store := (run_sane hrun).mono (Nat.cast_le.mpr hclock)
    have hstart : e.store.Remembers x c.env.clock := fun r hr henabled =>
      (hbefore r hr henabled).imp fun all hall => hall.mono hclock
    rw [hclock']
    exact (exec_path hs hexec).preserves (I := fun _ s => s.Remembers x c.env.clock) hs hstart
      fun _ _ _ _ _ hs hbefore hstep _ => hstep.remembers hs le_rfl hbefore

/-- Along a path, the chronicle of a generation that is allocated already goes on. -/
theorem path_chronicled {calls calls' : List Call} {e e' : Engine} (h : engine.Run calls e)
    (h' : engine.Path e calls' e') {x : TaskIdentity} (hcounted : x.generation ≤ e.store.generations x.key)
    {all : List (StreamId × HistoryEntry)} (hall : e.store.ChronicledBy x e.clock all) :
    ∃ added, e'.store.ChronicledBy x e'.clock (all ++ added) := by
  refine (path_preserves h h' (I := fun _ e' => x.generation ≤ e'.store.generations x.key ∧
    ∃ added, e'.store.ChronicledBy x e'.clock (all ++ added)) ⟨hcounted, [], by rwa [List.append_nil]⟩ ?_).2
  intro calls₁ e₁ c e₂ hrun _ ⟨hle, added, hadded⟩ ⟨hclock, hclock', hexec⟩
  have hs : Sane c.env.now e₁.store := (run_sane hrun).mono (Nat.cast_le.mpr hclock)
  have hpath := exec_path hs hexec
  obtain ⟨more, hmore⟩ := hpath.chronicled hs hle hclock hadded
  exact ⟨(hpath.advances hs hle).1, added ++ more, by rwa [hclock', ← List.append_assoc]⟩

end EffectMQ
