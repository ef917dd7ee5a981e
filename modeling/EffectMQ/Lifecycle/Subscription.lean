import EffectMQ.Lifecycle.Verdict
import EffectMQ.Properties.Generations
import EffectMQ.TaskEngine.Cursor

/-!
# Reading on from a cursor

Streams lose entries at the front only, and for good. A reader that stands behind no verdict on a generation finds the
verdict in its next read, if nothing after its cursor was trimmed; and the cursor that an offer replies stands behind none.
-/

namespace EffectMQ

open Redis Transition

/-- No entry after the cursor was trimmed. -/
def Store.Untrimmed (s : Store) (queue : String) (cursor : StreamId) : Prop :=
  ∀ entry ∈ (s.events queue).published.take (s.events queue).trimmed, ¬ StreamId.Lt cursor entry.1

/-- A position is not past the entries of its stream. -/
def Store.Reached (s : Store) (queue : String) (position : StreamId) : Prop :=
  position = StreamId.zero ∨ ∃ entry ∈ (s.events queue).published, ¬ StreamId.Lt entry.1 position

/-- A reader that started at a cursor stands at a position, and every verdict on the generation comes after it, if no entry
after the cursor was trimmed. -/
structure Store.Unheard (s : Store) (x : TaskIdentity) (cursor position : StreamId) : Prop where
  started : ¬ StreamId.Lt position cursor
  reached : s.Reached x.queue position
  unheard : s.Untrimmed x.queue cursor → ∀ entry ∈ (s.events x.queue).published, entry.2.taskId = x.id →
    (entry.2.verdict x.generation).isSome → StreamId.Lt position entry.1

theorem trimmed_invariant (env : Env) (s₀ : Store) :
    StoreInvariant env (fun s => ∀ queue, (s₀.events queue).trimmed ≤ (s.events queue).trimmed) fun _ => True where
  aside h _ _ hevents := hevents ▸ h
  modifyTask _ _ _ _ h := h
  pushHistory _ _ _ _ h := by rwa [Store.events_pushHistory]
  appendEvent queue id body h := by
    intro queue'
    refine (h queue').trans ?_
    unfold EffectMQ.appendEvent
    by_cases hq : queue' = queue
    · subst hq
      simp only [Function.update_self]
      simp only [Stream.trimById, Stream.trimByLength, Stream.trim, Stream.append]
      omega
    · simp only [Function.update_of_ne hq]
      exact le_rfl
  dropRecord _ _ h := by rwa [Store.events_dropRecord]
  writeRecord _ _ h := h
  raise _ _ := trivial

/-- What was trimmed stays trimmed. -/
theorem path_trimmed_le {calls : List Call} {e e' : Engine} (h : engine.Path e calls e') (queue : String) :
    (e.store.events queue).trimmed ≤ (e'.store.events queue).trimmed :=
  h.preserves (I := fun e' => ∀ queue, (e.store.events queue).trimmed ≤ (e'.store.events queue).trimmed)
    (fun _ => le_rfl) (fun _ c _ hs hc => (trimmed_invariant c.env e.store).exec hs hc.2.2) queue

section

variable {calls calls' : List Call} {e e' : Engine} {x : TaskIdentity} {cursor position : StreamId} {queue : String}

theorem untrimmed_of_later (h : engine.Run calls e) (h' : engine.Path e calls' e')
    (huntrimmed : e'.store.Untrimmed queue cursor) : e.store.Untrimmed queue cursor := by
  intro entry hentry
  obtain ⟨rest, hrest⟩ := (path_published h h').continued queue
  refine huntrimmed entry ?_
  have htaken : entry ∈ (e.store.events queue).published.take (e'.store.events queue).trimmed :=
    List.take_subset_take_left _ (path_trimmed_le h' queue) hentry
  rw [← hrest, List.take_append]
  exact List.mem_append_left _ htaken

theorem Store.Reached.later (h : engine.Run calls e) (h' : engine.Path e calls' e')
    (hreached : e.store.Reached queue position) : e'.store.Reached queue position := by
  obtain ⟨rest, hrest⟩ := (path_published h h').continued queue
  refine hreached.imp_right fun ⟨entry, hentry, hle⟩ => ⟨entry, ?_, hle⟩
  rw [← hrest]
  exact List.mem_append_left _ hentry

/-- Whoever stands behind no verdict still does later. -/
theorem Store.Unheard.later (h : engine.Run calls e) (h' : engine.Path e calls' e')
    (hunheard : e.store.Unheard x cursor position) : e'.store.Unheard x cursor position := by
  have hpublished := path_published h h'
  obtain ⟨rest, hrest⟩ := hpublished.continued x.queue
  refine ⟨hunheard.started, hunheard.reached.later h h', fun huntrimmed entry hentry hid hverdict => ?_⟩
  have hmem := hentry
  rw [← hrest] at hmem
  rcases List.mem_append.mp hmem with hold | hnew
  · exact hunheard.unheard (untrimmed_of_later h h' huntrimmed) entry hold hid hverdict
  · -- a new entry comes after all the old ones
    rcases hunheard.reached with rfl | ⟨entry', hentry', hle⟩
    · exact (hpublished.ordered x.queue).positive entry hentry
    · have hincreasing := (hpublished.ordered x.queue).increasing
      rw [← hrest] at hincreasing
      have hlt := (List.pairwise_append.mp hincreasing).2.2 entry' hentry' entry hnew
      unfold StreamId.Lt at hle hlt ⊢
      omega

end

section

variable {s : Store} {x : TaskIdentity} {cursor position : StreamId}

theorem mem_verdicts {w : Verdict} : w ∈ (s.view x.key).verdicts x.generation ↔
    ∃ entry ∈ (s.events x.queue).published, entry.2.taskId = x.id ∧ entry.2.verdict x.generation = some w := by
  simp only [TaskView.verdicts, Store.view, Store.log, TaskIdentity.key, List.mem_filterMap, List.mem_filter, List.mem_map]
  constructor
  · rintro ⟨event, ⟨⟨entry, hentry, rfl⟩, hid⟩, hverdict⟩
    exact ⟨entry, hentry, of_decide_eq_true hid, hverdict⟩
  · rintro ⟨entry, hentry, hid, hverdict⟩
    exact ⟨entry.2, ⟨⟨entry, hentry, rfl⟩, decide_eq_true hid⟩, hverdict⟩

/-- A reader of a generation without a verdict stands behind none. -/
theorem unheard_of_pending (hreached : s.Reached x.queue cursor) (hnone : (s.view x.key).verdicts x.generation = []) :
    s.Unheard x cursor cursor := by
  refine ⟨fun hlt => ?_, hreached, fun _ entry hentry hid hverdict => ?_⟩
  · unfold StreamId.Lt at hlt
    omega
  · obtain ⟨w, hw⟩ := Option.isSome_iff_exists.mp hverdict
    have hmem : w ∈ (s.view x.key).verdicts x.generation := mem_verdicts.mpr ⟨entry, hentry, hid, hw⟩
    rw [hnone] at hmem
    exact absurd hmem (by simp)

namespace Store.Unheard

/-- An entry after the position is still there, if no entry after the cursor was trimmed. -/
theorem mem_entriesAfter (h : s.Unheard x cursor position) (huntrimmed : s.Untrimmed x.queue cursor)
    {entry : StreamId × Event} (hentry : entry ∈ (s.events x.queue).published) (hlt : StreamId.Lt position entry.1) :
    entry ∈ entriesAfter (s.events x.queue).retained position := by
  refine List.mem_filter.mpr ⟨?_, decide_eq_true hlt⟩
  rw [← List.take_append_drop (s.events x.queue).trimmed (s.events x.queue).published] at hentry
  refine (List.mem_append.mp hentry).resolve_left fun htaken => huntrimmed entry htaken ?_
  have hstarted := h.started
  unfold StreamId.Lt at hstarted hlt ⊢
  omega

/-- The next read finds the verdict, once there is one. -/
theorem finds (h : s.Unheard x cursor position) (huntrimmed : s.Untrimmed x.queue cursor)
    (hverdict : (s.view x.key).verdicts x.generation ≠ []) :
    ∃ entry ∈ entriesAfter (s.events x.queue).retained position,
      entry.2.taskId = x.id ∧ (entry.2.verdict x.generation).isSome := by
  obtain ⟨w, hw⟩ := List.exists_mem_of_ne_nil _ hverdict
  obtain ⟨entry, hentry, hid, hw⟩ := mem_verdicts.mp hw
  have hsome : (entry.2.verdict x.generation).isSome := by
    rw [hw]
    rfl
  exact ⟨entry, h.mem_entriesAfter huntrimmed hentry (h.unheard huntrimmed entry hentry hid hsome), hid, hsome⟩

/-- A read that finds no verdict leads to a position behind none. -/
theorem read (h : s.Unheard x cursor position) {entries : List (StreamId × Event)}
    (hentries : entries = entriesAfter (s.events x.queue).retained position)
    (hnone : ∀ entry ∈ entries, entry.2.taskId = x.id → ¬ (entry.2.verdict x.generation).isSome) :
    s.Unheard x cursor ((entries.getLast?.map Prod.fst).getD position) := by
  cases hlast : entries.getLast? with
  | none => exact h
  | some last =>
    have hmem := List.mem_of_getLast? hlast
    rw [hentries] at hmem
    obtain ⟨hretained, hlt⟩ := List.mem_filter.mp hmem
    have hlt := of_decide_eq_true hlt
    have hstarted := h.started
    refine ⟨?_, Or.inr ⟨last, List.mem_of_mem_drop hretained, ?_⟩, fun huntrimmed entry hentry hid hverdict => ?_⟩
    · simp only [Option.map_some, Option.getD_some]
      unfold StreamId.Lt at hstarted hlt ⊢
      omega
    · simp only [Option.map_some, Option.getD_some]
      unfold StreamId.Lt
      omega
    · have hread := h.mem_entriesAfter huntrimmed hentry (h.unheard huntrimmed entry hentry hid hverdict)
      exact absurd hverdict (hnone entry (hentries ▸ hread) hid)

end Store.Unheard

end

/-! ### The cursor of an offer -/

/-- The cursor of a reply to an offer is the last id of the queue, and a returned task is the stored one. -/
def Reply.Hands (s : Store) (a : CreateArgs) : Reply → Prop
  | .created cursor _ => cursor = latestEventCursor s a.queue
  | .existing cursor r => cursor = latestEventCursor s a.queue ∧ s.task (a.queue, a.id) = some r
  | _ => True

section

variable {env : Env} {a : CreateArgs} {w : World}

theorem returnExisting_hands {r : TaskRecord} (hr : w.store.task (a.queue, a.id) = some r) :
    (returnExisting a r w).1.Hands (returnExisting a r w).2.store a := by
  unfold returnExisting
  cases a.retentionHolder with
  | none => exact ⟨rfl, hr⟩
  | some holder =>
    dsimp only
    cases hacquire : acquireRetentionHold holder (w.store.identity a.queue a.id) w.store with
    | error message => trivial
    | ok s =>
      refine ⟨rfl, ?_⟩
      rcases acquireRetentionHold_ok hacquire with ⟨_, rfl⟩ | ⟨rfl, _, _⟩ <;> exact hr

theorem createGeneration_hands (replacedTask : Option TaskRecord) :
    (createGeneration env a replacedTask w).1.Hands (createGeneration env a replacedTask w).2.store a := by
  unfold createGeneration
  dsimp only
  cases a.retentionHolder with
  | none => exact rfl
  | some holder =>
    dsimp only
    split
    · exact rfl
    · trivial

theorem offerSwept_hands : (offerSwept env a w).1.Hands (offerSwept env a w).2.store a := by
  unfold offerSwept
  dsimp only
  split
  · trivial
  · cases a.retentionHolder.bind (validateLiveHolder w.store) with
    | some message => trivial
    | none =>
      cases hr : w.store.task (a.queue, a.id) with
      | none => exact createGeneration_hands none
      | some r =>
        dsimp only
        split
        · trivial
        · cases a.onDuplicate with
          | returnExisting => exact returnExisting_hands hr
          | unknown => trivial
          | newGeneration =>
            dsimp only
            split
            · trivial
            · split
              · trivial
              · exact createGeneration_hands (some r)

/-- What the reply to an offer says of its task, in a state of a run: its generation is the last one, and its cursor is not
past the events of the queue. -/
theorem offer_reached {calls : List Call} {e e' : Engine} {c : Call} (h : engine.Run calls e) (hstep : engine.step e c e')
    (hop : c.op = .createTask a) {cursor : StreamId} {task : TaskRecord}
    (hreply : c.reply = .created cursor task ∨ c.reply = .existing cursor task) :
    (task.generation = e'.store.generations (a.queue, a.id) ∧ 0 < e'.store.generations (a.queue, a.id)) ∧
      e'.store.Reached a.queue cursor := by
  have hrun := h.snoc hstep
  obtain ⟨env, op, reply⟩ := c
  obtain rfl := hop
  obtain ⟨hclock, _, hexec⟩ := hstep
  have hs : Sane env.now e.store := (run_sane h).mono (Nat.cast_le.mpr hclock)
  have hsweep := (sweep_path hs a.queue).sane hs
  obtain ⟨hreplied, hstore⟩ := exec_replied hexec
  have hvalid : createFault a = none := by
    by_contra hne
    obtain ⟨message, hfault⟩ := Option.ne_none_iff_exists'.mp hne
    simp only [Op.run, createTask, hfault] at hreplied
    rcases hreply with heq | heq <;> exact absurd (hreplied.trans heq) (by simp)
  simp only [Op.run, createTask, hvalid] at hreplied hstore
  have hhands : (offerSwept env a (syncAll env a.queue (World.begin env e.store))).1.Hands _ a := offerSwept_hands
  have hfounds := offerSwept_founds (a := a) (w := syncAll env a.queue (World.begin env e.store)) hsweep
  rw [hreplied, hstore] at hhands hfounds
  obtain ⟨hcursor, htask⟩ : cursor = latestEventCursor e'.store a.queue ∧ e'.store.task (a.queue, a.id) = some task := by
    rcases hreply with rfl | rfl
    · exact ⟨hhands, (hfounds cursor task rfl).1⟩
    · exact hhands
  refine ⟨((run_sane hrun).views (a.queue, a.id)).generation task htask, ?_⟩
  subst hcursor
  unfold latestEventCursor lastId Store.Reached
  cases hlast : (e'.store.events a.queue).retained.getLast? with
  | none => exact Or.inl rfl
  | some last =>
    refine Or.inr ⟨last, List.mem_of_mem_drop (List.mem_of_getLast? hlast), ?_⟩
    simp only [Option.map_some, Option.getD_some]
    unfold StreamId.Lt
    omega

end

end EffectMQ
