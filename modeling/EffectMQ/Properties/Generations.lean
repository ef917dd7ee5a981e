import EffectMQ.Lifecycle.Leftovers
import EffectMQ.Lifecycle.Progress
import EffectMQ.Properties.Fencing
import EffectMQ.Properties.Windows

/-!
# Isolated generations

A task id lives through one generation after the other, and the store keeps the record, the lists and the lease of the
id once for all of them. What an earlier generation leaves behind, and whoever still names it, changes nothing of a later
one; a new generation starts from nothing; and its number was never given before.
-/

namespace EffectMQ

open Redis Transition

/-- A store that the engine passes in an invocation that may come next. -/
structure Engine.Passes (e : Engine) (env : Env) (b : Busy) (s : Store) : Prop where
  clock : e.clock ≤ env.clock
  path : ∃ op : Op, EnginePath env (op.Allows env e.store) none e.store b s

/-- The operations that are given a handle or a history cursor of a generation. -/
def Op.Handles (x : TaskIdentity) : Op → Prop
  | .appendProgress queue id generation _ _ _ | .readHistory queue id generation _ _ _ _ => ⟨queue, id, generation⟩ = x
  | .getResult y => y = x
  | .getTask queue id | .getGeneration queue id => (queue, id) = x.key
  | .eventCursors queue => queue = x.queue
  | _ => False

/-- A token that no attempt of a later generation was granted. -/
def Outdated (calls : List Call) (x : TaskIdentity) (leaseToken : String) : Prop :=
  ∀ c ∈ calls, ∀ grant, c.leaseEvent x.key = some (.taken grant) → grant.token = leaseToken →
    grant.generation ≤ x.generation

/-- The history that a creation leaves: its announcement and the move to its first list, as far as its cap goes. -/
def CreateArgs.firstNotes (env : Env) (a : CreateArgs) (replacedTask : Option TaskRecord) (g : ℕ) : List Note :=
  if a.historyEnabled then
    newest (natural a.maxHistoryEntries) ((TaskAction.createBodies env a replacedTask g).map (EventBody.note 0))
  else []

/-- A generation as its creation leaves it. -/
structure Begins (env : Env) (a : CreateArgs) (y : TaskIdentity) (s : Store) : Prop where
  record : ∃ r, s.current y = some r ∧ r.attempt = 0 ∧ r.handlerFailureCount = 0 ∧ r.stalledAttemptCount = 0 ∧
    r.errors = [] ∧ r.outcome = none
  retainedBy : ∀ holder ∈ s.retainedBy y, a.retentionHolder = some holder
  retains : s.retains y = ∅
  result : s.result y = none
  dates : (s.expiry y.queue).dates y = Dates.none
  history : ∃ replacedTask, (s.history y).map (fun e => e.2.note) = a.firstNotes env replacedTask y.generation

/-- The generation number that a creation replies for an id. -/
def Call.creates (k : TaskKey) (c : Call) : Option ℕ :=
  match c.op, c.reply with
  | .createTask a, .created _ task => if (a.queue, a.id) = k then some task.generation else none
  | _, _ => none

/-- A result went because its own time was over and nothing held its generation. -/
def ResultLapsed (calls : List Call) (x : TaskIdentity) (t : TerminalResult) : Prop :=
  ∃ c b s b' s', Occurs calls c b s (.task x.key (.expireResult x.generation false)) b' s' ∧ s.result x = some t ∧
    s.retainedBy x = ∅ ∧ ∃ date, (s.expiry x.queue).results.score x = some date ∧ date ≤ c.env.now

section

variable {env : Env} {a : CreateArgs} {w : World} {s s' : Store} {b b' : Busy} {x y : TaskIdentity}

/-! ### Stale handles -/

/-- A handle of a generation that is not stored finds nothing to write to. -/
theorem Op.Handles.unchanged {op : Op} (h : op.Handles x) (hcurrent : s.current x = none) :
    ∃ reply, exec env op s = .replied reply s := by
  have hidentity : ∀ schemaId, historyIdentity s x.queue x.id x.generation schemaId = some .unavailable := by
    intro schemaId
    unfold historyIdentity
    cases hr : s.task (x.queue, x.id) with
    | none => rfl
    | some r =>
      have hne : r.generation ≠ x.generation := fun heq =>
        absurd ((current_eq_some_iff.mpr ⟨hr, heq⟩).symm.trans hcurrent) (by simp)
      simp [hne]
  cases op with
  | appendProgress queue id generation schemaId token data =>
    obtain rfl : ⟨queue, id, generation⟩ = x := h
    have hfault := hidentity schemaId
    dsimp only at hfault
    exact ⟨.unavailable, by simp [exec, Op.run, EffectMQ.appendProgress, hfault]⟩
  | readHistory queue id generation schemaId sequence position count =>
    obtain rfl : ⟨queue, id, generation⟩ = x := h
    have hfault := hidentity schemaId
    dsimp only at hfault
    exact ⟨.unavailable, by simp [exec, Op.run, EffectMQ.readHistory, hfault]⟩
  | getResult | getTask | getGeneration | eventCursors => exact ⟨_, rfl⟩
  | createTask | takeTask | writeSuccess | writeError | extendLock | removeLock | removeTask | forceRemoveTask | maintain
  | listTasks | setSchedule | consumeSchedule => exact absurd h (by simp [Op.Handles])

/-- An offer on behalf of a generation that is not stored is refused. -/
theorem createTask_stale (hholder : a.retentionHolder = some x) (hcurrent : (sweep env a.queue s).current x = none) :
    (createTask env a (World.begin env s)).1.IsFault ∧
      (createTask env a (World.begin env s)).2.store = (Op.createTask a).swept env s := by
  have hlive : validateLiveHolder (syncAll env a.queue (World.begin env s)).store x ≠ none := by
    rw [ne_eq, validateLiveHolder_eq_none]
    rintro ⟨r, hr, _⟩
    exact absurd (hcurrent.symm.trans hr) (by simp)
  obtain ⟨message, hmessage⟩ := Option.ne_none_iff_exists'.mp hlive
  unfold createTask Op.swept
  cases hfault : createFault a with
  | some message =>
    simp only [hfault, reduceCtorEq, ↓reduceIte]
    exact ⟨trivial, rfl⟩
  | none =>
    simp only [hfault, ↓reduceIte]
    unfold offerSwept
    dsimp only
    split
    · exact ⟨trivial, rfl⟩
    · rw [hholder, Option.bind_some, hmessage]
      exact ⟨trivial, rfl⟩

/-! ### Creations -/

/-- A creation replies the record that it stored, and adds the holder that it was asked for. -/
def Founds (a : CreateArgs) (s : Store) (reply : Reply) (s' : Store) : Prop :=
  ∀ cursor task, reply = .created cursor task → s'.task (a.queue, a.id) = some task ∧
    ∀ y holder, holder ∈ s'.retainedBy y → holder ∈ s.retainedBy y ∨ a.retentionHolder = some holder

theorem founds_of_error (message : String) : Founds a s (.error message) s' :=
  fun _ _ hreply => absurd hreply (by simp)

theorem announce_founds {replacedTask : Option TaskRecord} (hs : Sane env.now s) (hfresh : s.task (a.queue, a.id) = none)
    {retainedBy retains : TaskIdentity → Finset TaskIdentity}
    (hw : w.store = { writeRecord env a s with retainedBy := retainedBy, retains := retains })
    (hholders : ∀ y holder, holder ∈ retainedBy y → holder ∈ s.retainedBy y ∨ a.retentionHolder = some holder) :
    Founds a s (announce env a replacedTask w).1 (announce env a replacedTask w).2.store := by
  have hlocal := local_created hs hfresh replacedTask retainedBy retains hw
  have hstep : EngineStep env none { s with retainedBy := retainedBy, retains := retains } (.create a replacedTask none)
      none (announce env a replacedTask w).2.store := .create hfresh hlocal
  obtain ⟨r, hr⟩ := hstep.current_of_create
  have hrecord : (announce env a replacedTask w).2.store.task (a.queue, a.id) = some r := (current_eq_some_iff.mp hr).1
  intro cursor task hreply
  refine ⟨?_, fun y holder hmem => hholders y holder ?_⟩
  · unfold announce at hreply hrecord ⊢
    dsimp only at hreply hrecord ⊢
    rw [hrecord] at hreply ⊢
    obtain ⟨_, rfl⟩ := Reply.created.inj hreply
    rfl
  · rwa [hlocal.retainedBy] at hmem

theorem createGeneration_founds (hs : Sane env.now w.store) (hfresh : w.store.task (a.queue, a.id) = none)
    (replacedTask : Option TaskRecord) :
    Founds a w.store (createGeneration env a replacedTask w).1 (createGeneration env a replacedTask w).2.store := by
  unfold createGeneration
  dsimp only
  cases hh : a.retentionHolder with
  | none => exact announce_founds hs hfresh rfl fun _ _ hmem => Or.inl hmem
  | some holder =>
    simp only [World.modify_store, identity_writeRecord]
    cases hacquire : acquireRetentionHold holder (w.store.nextIdentity a.queue a.id) (writeRecord env a w.store) with
    | error message => exact founds_of_error _
    | ok s =>
      rcases acquireRetentionHold_ok hacquire with ⟨_, rfl⟩ | ⟨rfl, _, _⟩
      · exact announce_founds hs hfresh rfl fun _ _ hmem => Or.inl hmem
      · refine announce_founds hs hfresh rfl fun y holder' hmem => ?_
        by_cases hy : y = w.store.nextIdentity a.queue a.id
        · subst hy
          rw [Function.update_self, Finset.mem_insert] at hmem
          rcases hmem with rfl | hmem
          · exact Or.inr hh
          · exact Or.inl hmem
        · rw [Function.update_of_ne hy] at hmem
          exact Or.inl hmem

theorem returnExisting_founds (r : TaskRecord) :
    Founds a w.store (returnExisting a r w).1 (returnExisting a r w).2.store := by
  intro cursor task hreply
  unfold returnExisting at hreply
  split at hreply
  · exact absurd hreply (by simp)
  · split at hreply
    · exact absurd hreply (by simp)
    · exact absurd hreply (by simp)

theorem offerSwept_founds (hs : Sane env.now w.store) :
    Founds a w.store (offerSwept env a w).1 (offerSwept env a w).2.store := by
  unfold offerSwept
  dsimp only
  split
  · exact founds_of_error _
  · cases a.retentionHolder.bind (validateLiveHolder w.store) with
    | some message => exact founds_of_error _
    | none =>
      cases hr : w.store.task (a.queue, a.id) with
      | none => exact createGeneration_founds hs hr none
      | some r =>
        dsimp only
        split
        · exact founds_of_error _
        · cases a.onDuplicate with
          | returnExisting => exact returnExisting_founds r
          | unknown => exact founds_of_error _
          | newGeneration =>
            dsimp only
            split
            · exact founds_of_error _
            · next hsettled =>
              split
              · exact founds_of_error _
              · next hheld =>
                rw [Option.isNone_iff_eq_none, ← ne_eq, ← Option.isSome_iff_ne_none] at hsettled
                rw [Bool.not_eq_true] at hheld
                have hdispose := replace_step hs hr hsettled hheld
                have hretainedBy := hdispose.retainedBy_cases
                generalize (deleteTask env a.queue a.id false w).modify (unlockTask a.queue a.id) = w' at hdispose ⊢
                have hfresh : w'.store.task (a.queue, a.id) = none := by
                  obtain ⟨_, hview⟩ := hdispose.view_task.1
                  exact congrArg TaskView.record hview
                have hsame : w'.store.retainedBy = w.store.retainedBy := by
                  cases hdispose with
                  | task henabled hadmissible hlocal hline => exact hlocal.retainedBy
                rw [Founds, ← hsame]
                exact createGeneration_founds (hdispose.sane hs) hfresh (some r)

theorem newest_map {α β : Type} (f : α → β) (limit : ℕ) (l : List α) : (newest limit l).map f = newest limit (l.map f) := by
  unfold newest
  split
  · rfl
  · rw [List.map_drop, List.length_map]

theorem announcement_notes (v : TaskView) (replacedTask : Option TaskRecord) :
    ((v.create env a).announcement env a replacedTask).note 0 ::
      ((newRecord env a (v.counter + 1)).moves (some (TaskAction.firstList a))).map (EventBody.note 0) =
      (TaskAction.createBodies env a replacedTask (v.counter + 1)).map (EventBody.note 0) := by
  by_cases hdelay : 0 < a.delay.getD 0
  · rw [TaskAction.firstList, if_pos hdelay, moves_newRecord a _ (Or.inr rfl)]
    cases replacedTask <;> simp [TaskAction.createBodies, TaskAction.firstList, hdelay, TaskView.announcement, TaskView.create]
  · rw [TaskAction.firstList, if_neg hdelay, moves_newRecord a _ (Or.inl rfl)]
    cases replacedTask <;> simp [TaskAction.createBodies, TaskAction.firstList, hdelay, TaskView.announcement, TaskView.create]

/-- The history of a creation. -/
theorem TaskStep.firstNotes {id : String} {v v' : TaskView} {replacedTask : Option TaskRecord}
    (hstep : TaskStep env id v (.create a replacedTask) v') (hv : v.Consistent env.now) :
    (v'.history (v.counter + 1)).map (fun e => e.2.note) = a.firstNotes env replacedTask (v.counter + 1) := by
  have hfresh : (v.create env a).history (v.counter + 1) = [] := (hv.fresh _ (Nat.lt_succ_self _)).2.2
  have hcreate : (v.create env a).record = some (newRecord env a (v.counter + 1)) := rfl
  have hv' : (v.create env a).announce env id a replacedTask = v' := hstep.2.symm
  obtain ⟨r, hall⟩ := TaskView.Inscribes.announce env id hcreate a replacedTask
  have hwrites : (v.create env a).Writes env id v' := by
    obtain ⟨_, rfl⟩ := hstep
    simp only [TaskAction.apply, TaskView.announce]
    split
    · exact (TaskView.Writes.publish _ none none).trans (.move _ _ none)
    · exact (TaskView.Writes.publish _ none none).trans (.move _ _ none)
  obtain ⟨r', hr', _, _, hwritten⟩ := hwrites _ hcreate
  rw [hv'] at hall
  obtain rfl := Option.some.inj (hall.after.symm.trans hr')
  obtain ⟨_, _, added, hstream, hnotes⟩ := hall.history
  have hnewest := hwritten.newest.2
  change (v'.history (v.counter + 1)) = (v.create env a).history (v.counter + 1) ∨ ∃ added, v'.history (v.counter + 1) =
    newest _ ((v.create env a).history (v.counter + 1) ++ added) at hnewest
  change newest _ (v'.history (v.counter + 1)) = newest _ ((v.create env a).history (v.counter + 1) ++ added) at hstream
  rw [hfresh, List.nil_append] at hstream
  have hhistory : v'.history (v.counter + 1) = newest (newRecord env a (v.counter + 1)).history.maxEntries added := by
    rw [← hstream]
    rcases hnewest with heq | ⟨more, heq⟩
    · rw [heq, hfresh]
      simp [newest]
    · rw [heq, newest_newest]
  change List.map (fun e => e.2.note) added = if (newRecord env a (v.counter + 1)).history.enabled = true then
    ((v.create env a).announcement env a replacedTask).note 0 ::
      ((newRecord env a (v.counter + 1)).moves (some (TaskAction.firstList a))).map (EventBody.note 0) else [] at hnotes
  rw [hhistory, newest_map, hnotes, announcement_notes, CreateArgs.firstNotes]
  unfold newRecord
  dsimp only
  cases a.historyEnabled with
  | true => rfl
  | false => simp [newest]

/-- The view of a new generation, its holds apart. -/
theorem TaskStep.begins {id : String} {v v' : TaskView} {replacedTask : Option TaskRecord}
    (hstep : TaskStep env id v (.create a replacedTask) v') (hv : v.Consistent env.now) :
    (∃ r, v'.record = some r ∧ r.generation = v.counter + 1 ∧ r.attempt = 0 ∧ r.handlerFailureCount = 0 ∧
      r.stalledAttemptCount = 0 ∧ r.errors = [] ∧ r.outcome = none) ∧
    v'.result (v.counter + 1) = none ∧ v'.dates (v.counter + 1) = Dates.none := by
  obtain ⟨hresult, hdates, _⟩ := hv.fresh _ (Nat.lt_succ_self v.counter)
  obtain ⟨⟨history, hrecord⟩, _⟩ := hstep.created
  refine ⟨⟨_, hrecord, rfl, rfl, rfl, rfl, rfl, rfl⟩, ?_, ?_⟩
  · rw [hstep.result_eq rfl (by simp [TaskAction.Erases]), hresult]
  · rw [hstep.2, ← hdates]
    simp only [TaskAction.apply, TaskView.announce]
    split
    · rw [TaskView.dates_move, TaskView.dates_publish]
      rfl
    · rw [TaskView.dates_move, TaskView.dates_publish]
      rfl

/-- A creation in a store whose holds are in order. -/
theorem EngineStep.begins {replacedTask : Option TaskRecord} {holder : Option TaskIdentity}
    (hstep : EngineStep env b s (.create a replacedTask holder) b' s') (hs : Sane env.now s) (hkept : Kept b s)
    (hretainedBy : ∀ holder ∈ s'.retainedBy (s.nextIdentity a.queue a.id), a.retentionHolder = some holder) :
    s'.generations (a.queue, a.id) = s.generations (a.queue, a.id) + 1 ∧
      Begins env a (s.nextIdentity a.queue a.id) s' := by
  have htask : TaskStep env a.id (s.view (a.queue, a.id)) (.create a replacedTask) (s'.view (a.queue, a.id)) := by
    rcases hstep.view (a.queue, a.id) with ⟨hon, _⟩ | ⟨a', hon, htask⟩
    · exact absurd hon (by simp [EngineAction.on])
    · obtain rfl : TaskAction.create a replacedTask = a' := by simpa [EngineAction.on] using hon
      exact htask
  obtain ⟨⟨r, hrecord, hgeneration, hcounts⟩, hresult, hdates⟩ := htask.begins (hs.views _)
  have hretains : s'.retains (s.nextIdentity a.queue a.id) = ∅ := by
    rcases hstep.retains_cases (s.nextIdentity a.queue a.id) with hsubset | ⟨_, hholder, _⟩
    · have hempty : s.retains (s.nextIdentity a.queue a.id) = ∅ := by
        by_contra hne
        exact absurd (hkept.allocated _ hne) (Nat.not_succ_le_self _)
      rw [hempty] at hsubset
      exact Finset.subset_empty.mp hsubset
    · obtain ⟨r', hr', _⟩ := hholder.current
      exact absurd ((hs.current_nextIdentity a.queue a.id).symm.trans hr') (by simp)
  exact ⟨htask.created.2.1, ⟨r, current_eq_some_iff.mpr ⟨hrecord, hgeneration⟩, hcounts⟩, hretainedBy, hretains, hresult,
    hdates, replacedTask, htask.firstNotes (hs.views _)⟩

theorem Op.Does.not_create {op : Op} {m : Store} {act : EngineAction} (h : op.Does m act) {k : TaskKey}
    (hop : ∀ a, op = .createTask a → (a.queue, a.id) ≠ k) (args : CreateArgs) (replacedTask : Option TaskRecord) :
    act.on k ≠ some (.create args replacedTask) := by
  intro hon
  rcases EngineAction.on_cases hon with rfl | ⟨args', replacedTask', holder, rfl, hkey, _⟩ | ⟨_, _, _, ha⟩ | ⟨_, _, _, _, ha⟩
  · cases op <;> simp [Op.Does, EngineAction.IsRelease, EngineAction.IsRemoval, EngineAction.IsForcedRemoval,
      TaskAction.IsFailure] at h
  · cases op <;> simp [Op.Does, EngineAction.IsRelease, EngineAction.IsRemoval, EngineAction.IsForcedRemoval] at h
    subst h
    exact hop _ rfl hkey
  · exact absurd ha (by simp)
  · exact absurd ha (by simp)

/-- An operation that does not reply a creation leaves the counter. -/
theorem Effect.counter_or {m : Store} {op : Op} {reply : Reply} (h : Effect env m op reply s) (k : TaskKey) :
    s.generations k = m.generations k ∨
      ∃ a cursor task, op = .createTask a ∧ (a.queue, a.id) = k ∧ reply = .created cursor task := by
  by_cases hop : ∃ a, op = .createTask a ∧ (a.queue, a.id) = k
  · obtain ⟨a, rfl, hk⟩ := hop
    cases h with
    | refused | answered => exact Or.inl rfl
    | scheduled _ _ hop => exact absurd hop (by simp)
    | offered hvalid h =>
      cases h with
      | refused | existing => exact Or.inl rfl
      | held hr hmode hstep cursor =>
        refine Or.inl ((EnginePath.single hstep (P := fun act => act.on k = none) rfl).counter_eq fun act hact _ _ => ?_)
        rw [hact]
        simp
      | created hr hstep cursor task => exact Or.inr ⟨a, cursor, task, rfl, hk, rfl⟩
      | replaced hr hmode hdispose hstep cursor task => exact Or.inr ⟨a, cursor, task, rfl, hk, rfl⟩
      | disposed hr hoffer hmode hholder hlive hdispose hfull =>
        obtain ⟨htask, hother⟩ := hdispose.view_task
        subst hk
        exact Or.inl (htask.counter fun _ _ => by simp)
  · refine Or.inl (h.path.counter_eq fun act hact => hact.not_create fun a ha hk => hop ⟨a, ha, hk⟩)

end

section

variable {calls : List Call} {e e' : Engine} {c : Call} {a : CreateArgs} {cursor : StreamId} {task : TaskRecord}
  (h : engine.Run calls e)

include h

/-- A creation gives the next number, and the generation begins with nothing. -/
theorem created_begins (hstep : engine.step e c e') (hop : c.op = .createTask a) (hreply : c.reply = .created cursor task) :
    task.generation = e.store.generations (a.queue, a.id) + 1 ∧
      e'.store.generations (a.queue, a.id) = task.generation ∧
      Begins c.env a ⟨a.queue, a.id, task.generation⟩ e'.store := by
  obtain ⟨env, op, reply⟩ := c
  obtain rfl := hop
  obtain rfl := hreply
  obtain ⟨hclock, _, hexec⟩ := hstep
  have hs : Sane env.now e.store := (run_sane h).mono (Nat.cast_le.mpr hclock)
  have hcounter := Op.counter_swept hs (.createTask a) (a.queue, a.id)
  have hswept := (swept_path hs (.createTask a)).sane hs
  have hkept : Kept none ((Op.createTask a).swept env e.store) :=
    (swept_path hs (.createTask a)).preserves hs (run_kept h) fun _ _ _ _ _ hs hkept hstep _ => hstep.kept hs hkept
  have hfounds : Founds a ((Op.createTask a).swept env e.store) (.created cursor task) e'.store := by
    obtain ⟨hreply, hstore⟩ := exec_replied hexec
    simp only [Op.run, createTask] at hreply hstore
    cases hfault : createFault a with
    | some message =>
      rw [hfault] at hreply
      exact absurd hreply (by simp)
    | none =>
      rw [hfault] at hreply hstore
      rw [← hreply, ← hstore, Op.swept, if_pos hfault]
      exact offerSwept_founds ((sweep_path hs a.queue).sane hs)
  have heffect := exec_effect hs hexec
  generalize (Op.createTask a).swept env e.store = m at hcounter hswept hkept hfounds heffect
  generalize e'.store = s at hfounds heffect ⊢
  obtain ⟨htask, hholders⟩ := hfounds cursor task rfl
  have hnone : ∀ {t : Store}, Kept none t → Sane env.now t → t.retainedBy (t.nextIdentity a.queue a.id) = ∅ := by
    intro t hkept hs
    by_contra hne
    obtain ⟨r, hr⟩ := hkept.stored _ hne
    exact absurd ((hs.current_nextIdentity a.queue a.id).symm.trans hr) (by simp)
  have hcreated : ∀ {t : Store} {replacedTask holder}, EngineStep env none t (.create a replacedTask holder) none s →
      Sane env.now t → Kept none t → t.retainedBy = m.retainedBy → t.generations (a.queue, a.id) = m.generations (a.queue, a.id) →
      task.generation = e.store.generations (a.queue, a.id) + 1 ∧ s.generations (a.queue, a.id) = task.generation ∧
        Begins env a ⟨a.queue, a.id, task.generation⟩ s := by
    intro t replacedTask holder hstep hs hkept hretainedBy hsame
    obtain ⟨hnext, hbegins⟩ := hstep.begins hs hkept fun holder hmem => by
      refine (hholders _ holder hmem).resolve_left ?_
      rw [← hretainedBy, hnone hkept hs]
      exact Finset.notMem_empty _
    obtain ⟨r, hr, _⟩ := hbegins.record
    obtain ⟨hrecord, hgeneration⟩ := current_eq_some_iff.mp hr
    obtain rfl := Option.some.inj (htask.symm.trans hrecord)
    have hgiven : task.generation = t.generations (a.queue, a.id) + 1 := hgeneration
    refine ⟨hgiven.trans (by rw [hsame, hcounter]), hnext.trans hgiven.symm, ?_⟩
    rw [hgiven]
    exact hbegins
  cases heffect with
  | refused _ _ hrefused => exact absurd hrefused (by simp [Reply.IsFault])
  | answered _ _ _ hquiet => exact absurd rfl (hquiet.created a)
  | scheduled _ _ hop => exact absurd hop (by simp)
  | offered hvalid h =>
    cases h with
    | created hr hstep cursor task => exact hcreated hstep hswept hkept rfl rfl
    | replaced hr hmode hdispose hstep cursor task =>
      refine hcreated hstep (hdispose.sane hswept) (hdispose.kept hswept hkept) ?_ ?_
      · cases hdispose with
        | task henabled hadmissible hlocal hline => exact hlocal.retainedBy
      · exact hdispose.view_task.1.counter fun _ _ => by simp

/-- What a call does to the numbers of an id, as its reply shows it. -/
theorem step_creates (hstep : engine.step e c e') (k : TaskKey) :
    e'.store.generations k = e.store.generations k + (c.creates k).toList.length ∧
      (c.creates k).toList = List.range' (e.store.generations k + 1) (c.creates k).toList.length := by
  have hs : Sane c.env.now e.store := (run_sane h).mono (Nat.cast_le.mpr hstep.1)
  by_cases hcreated : ∃ a cursor task, c.op = .createTask a ∧ (a.queue, a.id) = k ∧ c.reply = .created cursor task
  · obtain ⟨a, cursor, task, hop, rfl, hreply⟩ := hcreated
    obtain ⟨hnext, hcounter, _⟩ := created_begins h hstep hop hreply
    have hcreates : c.creates (a.queue, a.id) = some task.generation := by simp [Call.creates, hop, hreply]
    rw [hcreates, hcounter, hnext]
    exact ⟨rfl, rfl⟩
  · have hcreates : c.creates k = none := by
      unfold Call.creates
      split
      · next a cursor task hop hreply =>
        rw [if_neg fun hk => hcreated ⟨a, cursor, task, hop, hk, hreply⟩]
      · rfl
    rw [hcreates]
    refine ⟨?_, rfl⟩
    rcases (exec_effect hs hstep.2.2).counter_or k with heq | ⟨a, cursor, task, hop, hk, hreply⟩
    · exact heq.trans (Op.counter_swept hs c.op k)
    · exact absurd ⟨a, cursor, task, hop, hk, hreply⟩ hcreated

/-- The numbers that the creations of an id replied are those from one to its counter, in order. -/
theorem run_creates (k : TaskKey) :
    calls.filterMap (Call.creates k) = List.range' 1 (e.store.generations k) := by
  refine h.induction (P := fun calls e => calls.filterMap (Call.creates k) = List.range' 1 (e.store.generations k)) ?_ ?_
  · rintro _ rfl
    rfl
  · intro calls e c e' hrun ih hstep
    obtain ⟨hcounter, hcreates⟩ := step_creates hrun hstep k
    have hlast : [c].filterMap (Call.creates k) = List.range' (e.store.generations k + 1) (c.creates k).toList.length := by
      rw [← hcreates]
      cases hc : c.creates k <;> simp [hc]
    rw [List.filterMap_append, ih, hlast, hcounter, ← List.range'_append, Nat.one_mul, Nat.add_comm 1]

/-- A result that is there once its id has a later generation stays until its own time is over. -/
theorem step_result (hstep : engine.step e c e') {x : TaskIdentity} (hlt : x.generation < e.store.generations x.key)
    {t : TerminalResult} (ht : e.store.result x = some t) :
    e'.store.result x = some t ∨ ResultLapsed (calls ++ [c]) x t := by
  have hs : Sane c.env.now e.store := (run_sane h).mono (Nat.cast_le.mpr hstep.1)
  have hpositive : 0 < x.generation := by
    obtain ⟨_, hsettled⟩ := (trackRecord x).run h
    have houtcome : (e.store.view x.key).terminalOutcomes x.generation = [t.outcome] := (run_book h x.key x.generation).result t ht
    obtain ⟨_, r, _, s₀, _, hby, _⟩ := hsettled (by simp [houtcome])
    obtain ⟨_, _, _, hoccurs⟩ := hby.occurs
    obtain ⟨hrecord, hgeneration⟩ := current_eq_some_iff.mp hby.current
    have hfirst := (hoccurs.sane.views x.key).generation r hrecord
    omega
  refine ((exec_path hs hstep.2.2).preserves_between (I := fun _ s => x.generation < s.generations x.key ∧
    (s.result x = some t ∨ ResultLapsed (calls ++ [c]) x t)) ⟨hlt, Or.inl ht⟩ ?_).2
  rintro b₁ s₁ act b₂ s₂ hpath ⟨hlt₁, hresult⟩ hstep₁ hact hrest
  refine ⟨hlt₁.trans_le (hstep₁.counter_le _), ?_⟩
  rcases hresult with ht₁ | hlapsed
  · have hperforms : e.Performs c.env c.op b₁ s₁ act b₂ s₂ := ⟨hstep.1, hpath, hstep₁, hact⟩
    rcases hperforms.settlement_or h x.key x.generation with hsettlement | hundisturbed
    · obtain ⟨r, hrunning, hgeneration⟩ := hsettlement.running
      have hcurrent := ((hperforms.sane h).views x.key).generation r hrunning.record
      have hcounter : r.generation = s₁.generations x.key := hcurrent.1
      omega
    · rcases hundisturbed.result with heq | ⟨_, rfl | ⟨rfl, hop⟩⟩
      · exact Or.inl (heq.trans ht₁)
      · refine Or.inr ⟨c, b₁, s₁, b₂, s₂, ⟨calls, [], e, e', rfl, h, hstep, hperforms, hrest⟩, ht₁, ?_,
          hstep₁.view_task.1.1⟩
        cases hstep₁ with
        | task henabled hadmissible hlocal hline => exact not_hasRetentionHolds.mp hadmissible
      · -- a forced removal forgets the stored generation only
        have hidentity := hact.of_forget.2
        have hswept := (swept_path hs c.op).sane hs
        have hgeneration : (c.op.swept c.env e.store).generation x.queue x.id = x.generation :=
          congrArg TaskIdentity.generation hidentity
        unfold Store.generation at hgeneration
        cases hr : (c.op.swept c.env e.store).task (x.queue, x.id) with
        | none =>
          rw [hr] at hgeneration
          exact absurd hgeneration (Nat.ne_of_lt hpositive)
        | some r =>
          rw [hr] at hgeneration
          have hnumber : r.generation = (c.op.swept c.env e.store).generations x.key := ((hswept.views x.key).generation r hr).1
          rw [Op.counter_swept hs] at hnumber
          exact absurd (hgeneration.symm.trans hnumber) (Nat.ne_of_lt hlt)
  · exact Or.inr hlapsed

omit h in
theorem ResultLapsed.append {x : TaskIdentity} {t : TerminalResult} (hlapsed : ResultLapsed calls x t) (rest : List Call) :
    ResultLapsed (calls ++ rest) x t := by
  obtain ⟨c, b, s, b', s', hoccurs, hlapsed⟩ := hlapsed
  exact ⟨c, b, s, b', s', hoccurs.append rest, hlapsed⟩

theorem path_result {calls' : List Call} (hpath : engine.Path e calls' e') {x : TaskIdentity}
    (hlt : x.generation < e.store.generations x.key) {t : TerminalResult} (ht : e.store.result x = some t) :
    e'.store.result x = some t ∨ ResultLapsed (calls ++ calls') x t := by
  induction hpath with
  | nil => exact Or.inl ht
  | snoc hpath hlast ih =>
    rw [← List.append_assoc]
    rcases ih with ht' | hlapsed
    · exact step_result (h.extend hpath) hlast (hlt.trans_le (path_counter_le h hpath _)) ht'
    · exact Or.inr (hlapsed.append _)

/-- A token of an earlier generation is rejected once there is a later one. -/
theorem rejected_of_outdated {env : Env} (hclock : e.clock ≤ env.clock) {op : Op} {x : TaskIdentity} {leaseToken : String}
    (hop : op.fence = some (x.key, leaseToken)) (houtdated : Outdated calls x leaseToken)
    (hlt : x.generation < e.store.generations x.key) : Rejected env op e.store := by
  refine rejected_of_not_owns h hclock hop fun howns => ?_
  obtain ⟨before, c, after, grant, r, rfl, hc, htoken, _, hrunning, hgeneration, _⟩ := attempt_of_owns h hclock howns
  have hgranted := houtdated c (List.mem_append_right _ List.mem_cons_self) grant hc htoken
  have hcounter : r.generation = e.store.generations x.key := (((run_sane h).views x.key).generation r hrunning.record).1
  omega

/-- An offer on behalf of an earlier generation is rejected once there is a later one. -/
theorem rejected_of_stale_holder {env : Env} (hclock : e.clock ≤ env.clock) {x : TaskIdentity}
    (hholder : a.retentionHolder = some x) (hlt : x.generation < e.store.generations x.key) :
    Rejected env (.createTask a) e.store := by
  have hs : Sane env.now e.store := (run_sane h).mono (Nat.cast_le.mpr hclock)
  have hswept := (sweep_path hs a.queue).sane hs
  have hcounter : (sweep env a.queue e.store).generations x.key = e.store.generations x.key :=
    (sweep_path hs a.queue).counter_eq fun _ hact => hact.not_create
  obtain ⟨hfault, hstore⟩ := createTask_stale hholder (current_eq_none_of_lt hswept (hcounter ▸ hlt))
  rcases exec_sound env (.createTask a) (run_historySound h) with ⟨reply, s', hexec, _⟩ | haborts
  · obtain ⟨rfl, rfl⟩ := exec_replied hexec
    refine Or.inl ⟨_, ?_, hfault⟩
    rw [← hstore]
    exact hexec
  · exact Or.inr haborts

end

theorem Engine.Passes.preserves {calls : List Call} {e : Engine} {env : Env} {b : Busy} {s : Store}
    (h : e.Passes env b s) (hrun : engine.Run calls e) {I : Busy → Store → Prop} (hempty : I none Store.empty)
    (hstep : ∀ env b s act b' s', Sane env.now s → I b s → EngineStep env b s act b' s' → I b' s') : I b s := by
  obtain ⟨op, hpath⟩ := h.path
  exact hpath.preserves ((run_sane hrun).mono (Nat.cast_le.mpr h.clock)) (run_preserves hrun hempty hstep)
    fun b s act b' s' hs hI hstep' _ => hstep env b s act b' s' hs hI hstep'

theorem Engine.Passes.sane {calls : List Call} {e : Engine} {env : Env} {b : Busy} {s : Store} (h : e.Passes env b s)
    (hrun : engine.Run calls e) : Sane env.now s := by
  obtain ⟨op, hpath⟩ := h.path
  exact hpath.sane ((run_sane hrun).mono (Nat.cast_le.mpr h.clock))

/-- The generations of an id are isolated. Once a later one is there, handling what an earlier one left, and using its
handles, tokens and identity, changes nothing of the later one; every generation begins with nothing; the numbers of the
creations of an id are those from one on, each given once; and the result of an earlier generation stays until its own
time is over, a forced removal of that generation before the later one apart. -/
theorem run_generations {calls : List Call} {e : Engine} (h : engine.Run calls e) {x y : TaskIdentity}
    (hkey : x.key = y.key) (hlt : x.generation < y.generation) :
    (∀ env b s, e.Passes env b s → y.generation ≤ s.generations y.key → ∀ w w' : World, w.store = s →
      Leftover env x w w' → w'.store.generationView y = s.generationView y) ∧
    (y.generation ≤ e.store.generations y.key → ∀ env : Env, e.clock ≤ env.clock →
      (∀ op : Op, op.Handles x → ∃ reply, exec env op e.store = .replied reply e.store) ∧
      (∀ op leaseToken, op.fence = some (x.key, leaseToken) → Outdated calls x leaseToken → Rejected env op e.store) ∧
      ∀ a : CreateArgs, a.retentionHolder = some x → Rejected env (.createTask a) e.store) ∧
    (∀ c e' a cursor task, engine.step e c e' → c.op = .createTask a → c.reply = .created cursor task →
      e'.store.generations (a.queue, a.id) = task.generation ∧ Begins c.env a ⟨a.queue, a.id, task.generation⟩ e'.store) ∧
    calls.filterMap (Call.creates y.key) = List.range' 1 (e.store.generations y.key) ∧
    ((e.store.view x.key).terminalOutcomes x.generation ≠ [] → ∃ c r s₀ s₁, SettledBy calls x c r s₀ s₁ ∧
      ((∃ t, e.store.result x = some t ∧ t.settledAt = c.env.clock) ∨
        ResultExpired calls e.clock x c.env.clock (c.env.clock + r.resultRetentionMs) ∨ Forced calls x)) ∧
    (y.generation ≤ e.store.generations y.key → ∀ t, e.store.result x = some t → ∀ calls' e', engine.Path e calls' e' →
      e'.store.result x = some t ∨ ResultLapsed (calls ++ calls') x t) := by
  refine ⟨fun env b s hpasses hgiven w w' hw hleft => ?_, fun hgiven env hclock => ⟨fun op hop => ?_,
    fun op leaseToken hop houtdated => ?_, fun a hholder => ?_⟩, fun c e' a cursor task hstep hop hreply => ?_,
    run_creates h y.key, fun hsettled => ?_, fun hgiven t ht calls' e' hpath => ?_⟩
  · subst hw
    exact hleft.isolated (hpasses.sane h) (hpasses.preserves h apart_empty fun _ _ _ _ _ _ _ hI hstep => hstep.apart hI)
      hkey hlt hgiven
  · exact hop.unchanged (current_eq_none_of_lt (run_sane h) (hkey ▸ hlt.trans_le hgiven))
  · exact rejected_of_outdated h hclock hop houtdated (hkey ▸ hlt.trans_le hgiven)
  · exact rejected_of_stale_holder h hclock hholder (hkey ▸ hlt.trans_le hgiven)
  · exact (created_begins h hstep hop hreply).2
  · obtain ⟨c, r, _, s₀, s₁, hby, hhonoured⟩ := ((trackRecord x).run h).2 hsettled
    exact ⟨c, r, s₀, s₁, hby, hhonoured.result⟩
  · exact path_result h hpath (hkey ▸ hlt.trans_le hgiven) ht

/-- A task that is settled and kept, so that a later offer replaces it. -/
def keptOffer : CreateArgs := { CreateArgs.default "mail" "a" with onSuccessPolicy := .markAsSuccess }

/-- Offer, lease and success of the first generation. -/
def settledSteps : List (Env × Op) :=
  [(.at 1, .createTask keptOffer), (.at 2, .takeTask "mail" "token" (some 30000)),
    (.at 3, .writeSuccess "mail" "token" "a" "sent")]

/-- No attempt of a generation after the first was granted the token. -/
def isOutdated (k : TaskKey) (leaseToken : String) (calls : List Call) : Bool :=
  calls.all fun c => match c.leaseEvent k with
    | some (.taken grant) => decide (grant.token = leaseToken → grant.generation ≤ 1)
    | _ => true

theorem outdated_of_isOutdated {calls : List Call} {queue id leaseToken : String}
    (h : isOutdated (queue, id) leaseToken calls = true) : Outdated calls ⟨queue, id, 1⟩ leaseToken := by
  intro c hc grant hgrant htoken
  have hcall := List.all_eq_true.mp h c hc
  rw [show c.leaseEvent (queue, id) = some (.taken grant) from hgrant] at hcall
  exact of_decide_eq_true hcall htoken

/-- The token and the indexed record date of a replaced generation have no effect on the one that replaced it, and its
result is still there. -/
theorem run_generations_replaced : ∃ calls e t, engine.Run calls e ∧ calls.filterMap (Call.creates ("mail", "a")) = [1, 2] ∧
    Rejected (.at 5) (.writeSuccess "mail" "token" "a" "late") e.store ∧
    (∀ w, w.store = e.store → (expireTask (.at 5) "mail" w ⟨"mail", "a", 1⟩).store.generationView ⟨"mail", "a", 2⟩ =
      e.store.generationView ⟨"mail", "a", 2⟩) ∧ e.store.result ⟨"mail", "a", 1⟩ = some t := by
  obtain ⟨calls, e, h, hplayed⟩ := @play_run
    (settledSteps ++ [(.at 4, .createTask { keptOffer with onDuplicate := .newGeneration })])
    (fun calls e => decide (e.clock = 4 ∧ e.store.generations ("mail", "a") = 2 ∧
      (e.store.result ⟨"mail", "a", 1⟩).isSome) && isOutdated ("mail", "a") "token" calls) (by decide +kernel)
  rw [Bool.and_eq_true] at hplayed
  obtain ⟨hclock, hcounter, hresult⟩ := of_decide_eq_true hplayed.1
  obtain ⟨t, ht⟩ := Option.isSome_iff_exists.mp hresult
  obtain ⟨hleft, hstale, _, hcreates, _⟩ := @run_generations calls e h ⟨"mail", "a", 1⟩ ⟨"mail", "a", 2⟩ rfl (by decide)
  have hle : e.clock ≤ (Env.at 5).clock := by rw [hclock]; decide
  refine ⟨calls, e, t, h, ?_, ?_, fun w hw => ?_, ht⟩
  · rw [show (TaskIdentity.key ⟨"mail", "a", 2⟩) = ("mail", "a") from rfl, hcounter] at hcreates
    exact hcreates
  · exact (hstale hcounter.ge (.at 5) hle).2.1 _ "token" rfl (outdated_of_isOutdated hplayed.2)
  · exact hleft (.at 5) none e.store ⟨hle, .maintain "mail", .refl⟩ hcounter.ge w _ hw .task

/-- A forced removal of a settled generation takes its result, whose time is not over, before the next generation. -/
theorem generation_forgotten : ∃ calls e calls' e' t date, engine.Run calls e ∧ engine.Path e calls' e' ∧
    e.store.result ⟨"mail", "a", 1⟩ = some t ∧ (e.store.expiry "mail").results.score ⟨"mail", "a", 1⟩ = some date ∧
    e'.store.generations ("mail", "a") = 2 ∧ (e'.store.current ⟨"mail", "a", 2⟩).isSome ∧ (e'.clock : ℚ) < date ∧
    e'.store.result ⟨"mail", "a", 1⟩ = none := by
  obtain ⟨calls, e, calls', e', h, hpath, hplayed⟩ := @play_then settledSteps
    [(.at 4, .forceRemoveTask "mail" "a"), (.at 5, .createTask keptOffer)]
    (fun e e' => decide ((e.store.result ⟨"mail", "a", 1⟩).isSome ∧
      ((e.store.expiry "mail").results.score ⟨"mail", "a", 1⟩).any (fun date => (e'.clock : ℚ) < date) ∧
      e'.store.generations ("mail", "a") = 2 ∧ (e'.store.current ⟨"mail", "a", 2⟩).isSome ∧
      e'.store.result ⟨"mail", "a", 1⟩ = none)) (by decide +kernel)
  obtain ⟨hresult, hdate, hcounter, hcurrent, hnone⟩ := of_decide_eq_true hplayed
  obtain ⟨t, ht⟩ := Option.isSome_iff_exists.mp hresult
  obtain ⟨date, hdate, hlater⟩ := (Option.any_eq_true _ _).mp hdate
  exact ⟨calls, e, calls', e', t, date, h, hpath, ht, hdate, hcounter, hcurrent, of_decide_eq_true hlater, hnone⟩

end EffectMQ
