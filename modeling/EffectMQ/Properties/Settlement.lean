import EffectMQ.Lifecycle.Account
import EffectMQ.Lifecycle.Scenario

/-!
# Settlement

A generation settles in one step, which writes its outcome, its result and its terminal event together. From then
on its record keeps what the attempts left, it never runs again, and its result can only be forgotten. The book
of a generation relates the three places that show its outcome, in every state of a run.
-/

namespace EffectMQ

open Redis Transition

/-- The outcome that an event of a generation announces as final. -/
def Event.terminalOutcome (g : ℕ) (e : Event) : Option Outcome :=
  if e.generation = g then
    match e.body with
    | .completed _ _ => some .success
    | .failed _ _ _ _ true _ => some .failure
    | _ => none
  else none

namespace TaskView

/-- The outcomes of the terminal events of a generation, in order. -/
def terminalOutcomes (g : ℕ) (v : TaskView) : List Outcome := v.log.filterMap (Event.terminalOutcome g)

/-- At most one terminal event, which the record and the result of the generation agree with. -/
structure Book (g : ℕ) (v : TaskView) : Prop where
  once : (v.terminalOutcomes g).length ≤ 1
  outcome : ∀ r, v.record = some r → r.generation = g → v.terminalOutcomes g = r.outcome.toList
  result : ∀ t, v.result g = some t → v.terminalOutcomes g = [t.outcome]
  unallocated : v.counter < g → v.terminalOutcomes g = []

/-- What a later state keeps of a generation that settled or went. -/
structure Final (g : ℕ) (v v' : TaskView) : Prop where
  counter : v.counter ≤ v'.counter
  events : v.terminalOutcomes g ≠ [] → v'.terminalOutcomes g = v.terminalOutcomes g
  record : ∀ r r', v.record = some r → r.generation = g → r.outcome.isSome → v'.record = some r' → r'.generation = g →
    r'.outcome = r.outcome ∧ r'.attempt = r.attempt ∧ r'.handlerFailureCount = r.handlerFailureCount ∧
      r'.stalledAttemptCount = r.stalledAttemptCount ∧ r'.errors = r.errors ∧ r'.success = r.success
  gone : g ≤ v.counter → (∀ r, v.record = some r → r.generation ≠ g) →
    (∀ r', v'.record = some r' → r'.generation ≠ g) ∧ v'.terminalOutcomes g = v.terminalOutcomes g
  result : ∀ t, v.result g = some t → v'.result g = some t ∨ v'.result g = none
  forgotten : v.terminalOutcomes g ≠ [] → v.result g = none → v'.result g = none

/-- What one step does to the outcome of a generation: nothing, or everything at once. -/
structure Settlement (g : ℕ) (v v' : TaskView) : Prop where
  running : ∃ r, v.Running r ∧ r.generation = g
  before : v.terminalOutcomes g = [] ∧ v.result g = none
  after : ∃ t, v'.result g = some t ∧ v'.terminalOutcomes g = [t.outcome] ∧
    ∀ r', v'.record = some r' → r'.generation = g ∧ r'.outcome = some t.outcome

end TaskView

section

variable {env : Env} {id : String} {g : ℕ} {v v' v'' : TaskView} {r r' : TaskRecord} {a : TaskAction}

/-- The terminal events among those of a step. -/
theorem terminalOutcome_bodies (env : Env) (r : TaskRecord) (a : TaskAction) (id : String) (g : ℕ) :
    ((a.bodies env r).map (r.stamp id)).filterMap (Event.terminalOutcome g) =
      if r.generation = g then a.settles.toList else [] := by
  have hmoves : ∀ (r' : TaskRecord) list, ((r'.moves list).map (r.stamp id)).filterMap (Event.terminalOutcome g) = [] := by
    intro r' list
    unfold TaskRecord.moves
    split <;> simp [Event.terminalOutcome, TaskRecord.stamp]
  have hquiet : a.settles = none → ((a.bodies env r).map (r.stamp id)).filterMap (Event.terminalOutcome g) = [] := by
    intro hsettles
    cases a with
    | fail | succeed => exact absurd hsettles (by simp [TaskAction.settles])
    | promote | lease | renew | release | replace | expireTask | remove | forget => exact hmoves _ _
    | retry cause error retryAt =>
      rw [TaskAction.bodies, List.map_cons, List.filterMap_cons, hmoves]
      by_cases hg : r.generation = g <;> simp [Event.terminalOutcome, TaskRecord.stamp, hg]
    | refile =>
      rw [TaskAction.bodies]
      cases r.outcome with
      | none => rfl
      | some outcome => exact hmoves _ _
    | create | progress | dropDate | holdDate | expireResult | expireTerminal | expireDeadLetter | revoke => rfl
  cases a with
  | succeed leaseToken result held =>
    rw [TaskAction.bodies, List.map_cons, List.filterMap_cons, hmoves]
    by_cases hg : r.generation = g <;> simp [Event.terminalOutcome, TaskRecord.stamp, TaskAction.settles, hg]
  | fail cause error retryAt held =>
    rw [TaskAction.bodies, List.map_cons, List.filterMap_cons, hmoves]
    by_cases hg : r.generation = g <;> simp [Event.terminalOutcome, TaskRecord.stamp, TaskAction.settles, hg]
  | create | promote | lease | renew | release | retry | progress | refile | replace | expireTask | dropDate | holdDate
  | expireResult | expireTerminal | expireDeadLetter | remove | revoke | forget =>
    rw [hquiet rfl]
    simp [TaskAction.settles]

theorem TaskStep.terminalOutcomes (hstep : TaskStep env id v a v') (hv : v.Consistent env.now)
    (h : v.record = some r) (g : ℕ) : v'.terminalOutcomes g =
      v.terminalOutcomes g ++ if r.generation = g then a.settles.toList else [] := by
  rw [TaskView.terminalOutcomes, (hstep.accounted hv h).log, List.filterMap_append, terminalOutcome_bodies]
  rfl

theorem terminalOutcomes_created {args : CreateArgs} {replacedTask : Option TaskRecord}
    (hstep : TaskStep env id v (.create args replacedTask) v') (g : ℕ) :
    v'.terminalOutcomes g = v.terminalOutcomes g := by
  rw [TaskView.terminalOutcomes, hstep.created.2.2, List.filterMap_append]
  cases replacedTask <;>
    simp [TaskAction.createBodies, Event.terminalOutcome, TaskRecord.stamp, TaskView.terminalOutcomes]

/-! ### The book of a generation -/

theorem TaskView.Book.of_eq (hbook : v.Book g) (hevents : v'.terminalOutcomes g = v.terminalOutcomes g)
    (hcounter : v.counter ≤ v'.counter)
    (hrecord : ∀ r', v'.record = some r' → r'.generation = g → v.terminalOutcomes g = r'.outcome.toList)
    (hresult : v'.result g = v.result g ∨ v'.result g = none) : v'.Book g where
  once := hevents ▸ hbook.once
  outcome r' hr' hg := hevents.trans (hrecord r' hr' hg)
  result t ht := by
    rcases hresult with heq | hnone
    · exact hevents.trans (hbook.result t (heq ▸ ht))
    · exact absurd (hnone.symm.trans ht) (by simp)
  unallocated hlt := hevents.trans (hbook.unallocated (lt_of_le_of_lt hcounter hlt))

/-- A step settles a generation, or leaves its terminal events and its result, which it may forget. -/
theorem TaskStep.settlement_or (hstep : TaskStep env id v a v') (hv : v.Consistent env.now) (hbook : v.Book g) :
    v.Settlement g v' ∨ (v'.terminalOutcomes g = v.terminalOutcomes g ∧
      (v'.result g = v.result g ∨ a.Erases g ∧ v'.result g = none)) := by
  by_cases hcreate : ∃ args replacedTask, a = .create args replacedTask
  · obtain ⟨args, replacedTask, rfl⟩ := hcreate
    exact Or.inr ⟨terminalOutcomes_created hstep g, Or.inl (hstep.result_eq rfl (by simp [TaskAction.Erases]))⟩
  · have hother : ∀ args replacedTask, a ≠ .create args replacedTask := fun args replacedTask h =>
      hcreate ⟨args, replacedTask, h⟩
    have hresult : a.settles = none → v'.result g = v.result g ∨ a.Erases g ∧ v'.result g = none := fun hsettles => by
      by_cases herases : a.Erases g
      · exact Or.inr ⟨herases, hstep.result_of_erases herases⟩
      · exact Or.inl (hstep.result_eq hsettles herases)
    cases hsettles : a.settles with
    | none =>
      refine Or.inr ⟨?_, hresult hsettles⟩
      cases hr : v.record with
      | none => rw [TaskView.terminalOutcomes, (hstep.unrecorded hv hr hother).2, TaskView.terminalOutcomes]
      | some r => simp [hstep.terminalOutcomes hv hr g, hsettles]
    | some outcome =>
      obtain ⟨r, hrunning⟩ := hstep.running_of_settles hsettles
      obtain ⟨t, ht, rfl, _⟩ := hstep.result_of_settles hrunning.record hsettles
      have hevents := hstep.terminalOutcomes hv hrunning.record g
      by_cases hg : r.generation = g
      · have hempty : v.terminalOutcomes g = [] := by
          rw [hbook.outcome r hrunning.record hg, hrunning.outcome]
          rfl
        refine Or.inl ⟨⟨r, hrunning, hg⟩, ⟨hempty, ?_⟩, t, ?_, ?_, fun r' hr' => ?_⟩
        · cases hold : v.result g with
          | none => rfl
          | some t' => exact absurd ((hbook.result t' hold).symm.trans hempty) (by simp)
        · rw [ht, hg, Function.update_self]
        · simp [hevents, hempty, hg, hsettles]
        · obtain ⟨hgeneration, houtcome⟩ := hstep.record_outcome hv hrunning.record hr'
          exact ⟨hgeneration.trans hg, by simpa [hsettles] using houtcome⟩
      · refine Or.inr ⟨by simp [hevents, hg], Or.inl ?_⟩
        rw [ht, Function.update_of_ne (Ne.symm hg)]

theorem TaskStep.book (hstep : TaskStep env id v a v') (hv : v.Consistent env.now) (hbook : v.Book g) : v'.Book g := by
  rcases hstep.settlement_or hv hbook with hsettled | ⟨hevents, hresult⟩
  · obtain ⟨t, ht, hevents, hrecord⟩ := hsettled.after
    obtain ⟨r, hrunning, hg⟩ := hsettled.running
    refine ⟨by simp [hevents], fun r' hr' _ => ?_, fun t' ht' => ?_, fun hlt => ?_⟩
    · rw [hevents, (hrecord r' hr').2]
      rfl
    · obtain rfl := Option.some.inj (ht.symm.trans ht')
      exact hevents
    · have hcounter := (hv.generation r hrunning.record).1
      have hle := hstep.counter_le
      omega
  · refine hbook.of_eq hevents hstep.counter_le (fun r' hr' hg => ?_) (hresult.imp_right And.right)
    rcases hstep.record_of_generation hv hr' with ⟨r, hr, hgeneration, houtcome⟩ | ⟨hr, hgeneration, houtcome⟩
    · have hbefore := hbook.outcome r hr (hgeneration.symm.trans hg)
      cases hsettles : a.settles with
      | none =>
        rw [hbefore, houtcome, hsettles]
        rfl
      | some outcome =>
        -- a settlement would have added an event
        have hafter := hstep.terminalOutcomes hv hr g
        rw [hevents, if_pos (hgeneration.symm.trans hg), hsettles] at hafter
        exact absurd hafter (by simp)
    · rw [hbook.unallocated (by omega), houtcome]
      rfl

/-! ### What stays -/

/-- A step keeps what the attempts of a settled record left. -/
theorem TaskStep.frozen (hstep : TaskStep env id v a v') (hv : v.Consistent env.now) (h : v.record = some r)
    (hsettled : r.outcome.isSome) (h' : v'.record = some r') :
    r'.outcome = r.outcome ∧ r'.attempt = r.attempt ∧ r'.handlerFailureCount = r.handlerFailureCount ∧
      r'.stalledAttemptCount = r.stalledAttemptCount ∧ r'.errors = r.errors ∧ r'.success = r.success := by
  obtain ⟨r'', history, hnext, rfl⟩ := hstep.record_next hv h h'
  have hrunning : ∀ {P : Prop}, (∃ r, v.Running r) ∧ P → False := fun ⟨⟨r₀, hr₀⟩, _⟩ => by
    obtain rfl := Option.some.inj (h.symm.trans hr₀.record)
    rw [hr₀.outcome] at hsettled
    exact absurd hsettled (by simp)
  have hidle : ∀ {P : Prop} {l}, l = TaskList.wait ∨ l = .scheduled ∨ l = .active →
      (∃ r, v.record = some r ∧ r.place = some l) ∧ P → False := fun hl ⟨⟨r₀, hr₀, hplace⟩, _⟩ => by
    obtain rfl := Option.some.inj (h.symm.trans hr₀)
    have ho := (hv.placed r h).outcome_eq_none (by rcases hl with rfl | rfl | rfl <;> simp [hplace])
    rw [ho] at hsettled
    exact absurd hsettled (by simp)
  obtain ⟨outcome, ho⟩ := Option.isSome_iff_exists.mp hsettled
  have henabled := hstep.1
  cases a with
  | promote => exact (hidle (Or.inr (Or.inl rfl)) henabled).elim
  | lease => exact (hidle (Or.inl rfl) henabled).elim
  | renew | release | retry | fail | succeed | progress => exact (hrunning henabled).elim
  | refile =>
    simp only [TaskAction.next, ho, Option.elim_some] at hnext
    obtain rfl := TaskRecord.placed_eq_some hnext
    exact ⟨rfl, rfl, rfl, rfl, rfl, rfl⟩
  | expireTerminal g =>
    obtain rfl := Option.some.inj hnext
    unfold TaskRecord.unindexed
    split
    · split <;> exact ⟨rfl, rfl, rfl, rfl, rfl, rfl⟩
    · exact ⟨rfl, rfl, rfl, rfl, rfl, rfl⟩
  | replace | expireTask | remove | forget => exact absurd hnext (by simp [TaskAction.next])
  | create | dropDate | holdDate | expireResult | expireDeadLetter | revoke =>
    obtain rfl := Option.some.inj hnext
    exact ⟨rfl, rfl, rfl, rfl, rfl, rfl⟩

theorem TaskStep.final (hstep : TaskStep env id v a v') (hv : v.Consistent env.now) (hbook : v.Book g) :
    v.Final g v' := by
  have hcases := hstep.settlement_or hv hbook
  have hquiet : v.terminalOutcomes g ≠ [] → v'.terminalOutcomes g = v.terminalOutcomes g ∧
      (v'.result g = v.result g ∨ a.Erases g ∧ v'.result g = none) := fun hne =>
    hcases.resolve_left fun hsettled => hne hsettled.before.1
  refine ⟨hstep.counter_le, fun hne => (hquiet hne).1, fun r r' hr hg ho hr' _ => hstep.frozen hv hr ho hr',
    fun hle hother => ⟨fun r' hr' => ?_, ?_⟩, fun t ht => ?_, fun hne hnone => ?_⟩
  · rcases hstep.record_of_generation hv hr' with ⟨r, hr, hgeneration, _⟩ | ⟨_, hgeneration, _⟩
    · rw [hgeneration]
      exact hother r hr
    · omega
  · rcases hcases with hsettled | ⟨hevents, _⟩
    · obtain ⟨r, hrunning, hg⟩ := hsettled.running
      exact absurd hg (hother r hrunning.record)
    · exact hevents
  · rcases hcases with hsettled | ⟨_, hresult⟩
    · exact absurd (hsettled.before.2.symm.trans ht) (by simp)
    · exact hresult.imp (fun heq => heq.trans ht) And.right
  · rcases (hquiet hne).2 with heq | ⟨_, hnone'⟩
    · exact heq.trans hnone
    · exact hnone'

theorem TaskView.Final.refl (g : ℕ) (v : TaskView) : v.Final g v where
  counter := le_refl _
  events _ := rfl
  record r r' hr _ _ hr' _ := by
    obtain rfl := Option.some.inj (hr.symm.trans hr')
    exact ⟨rfl, rfl, rfl, rfl, rfl, rfl⟩
  gone _ hother := ⟨hother, rfl⟩
  result t ht := Or.inl ht
  forgotten _ hnone := hnone

theorem TaskView.Final.trans {now : ℚ} (hv : v.Consistent now) (hbook : v.Book g) (h : v.Final g v')
    (h' : v'.Final g v'') : v.Final g v'' where
  counter := h.counter.trans h'.counter
  events hne := by
    have hevents := h.events hne
    rw [h'.events (by rwa [hevents]), hevents]
  record r r'' hr hg ho hr'' hg'' := by
    have hle : g ≤ v'.counter := by
      rw [← hg, (hv.generation r hr).1]
      exact h.counter
    by_cases hstays : ∃ r', v'.record = some r' ∧ r'.generation = g
    · obtain ⟨r', hr', hg'⟩ := hstays
      obtain ⟨h₁, h₂, h₃, h₄, h₅, h₆⟩ := h.record r r' hr hg ho hr' hg'
      obtain ⟨k₁, k₂, k₃, k₄, k₅, k₆⟩ := h'.record r' r'' hr' hg' (h₁ ▸ ho) hr'' hg''
      exact ⟨k₁.trans h₁, k₂.trans h₂, k₃.trans h₃, k₄.trans h₄, k₅.trans h₅, k₆.trans h₆⟩
    · exact absurd hg'' ((h'.gone hle fun r' hr' hg' => hstays ⟨r', hr', hg'⟩).1 r'' hr'')
  gone hle hother := by
    obtain ⟨hother', hevents⟩ := h.gone hle hother
    obtain ⟨hother'', hevents'⟩ := h'.gone (hle.trans h.counter) hother'
    exact ⟨hother'', hevents'.trans hevents⟩
  result t ht := by
    have hne : v'.terminalOutcomes g ≠ [] := by
      rw [h.events (by simp [hbook.result t ht]), hbook.result t ht]
      simp
    rcases h.result t ht with ht' | hnone
    · exact h'.result t ht'
    · exact Or.inr (h'.forgotten hne hnone)
  forgotten hne hnone := h'.forgotten (by rwa [h.events hne]) (h.forgotten hne hnone)

end

/-! ### Runs -/

theorem EngineStep.book {env : Env} {b b' : Busy} {s s' : Store} {act : EngineAction} {k : TaskKey} {g : ℕ}
    (hstep : EngineStep env b s act b' s') (hs : Sane env.now s) (hbook : (s.view k).Book g) : (s'.view k).Book g := by
  rcases hstep.view k with ⟨_, hview⟩ | ⟨a, _, htask⟩
  · rwa [hview]
  · exact htask.book (hs.views k) hbook

theorem book_empty (k : TaskKey) (g : ℕ) : (Store.empty.view k).Book g where
  once := by simp [TaskView.terminalOutcomes, Store.view, Store.log, Store.empty, Stream.empty]
  outcome r hr := absurd hr (by simp [Store.view, Store.empty])
  result t ht := absurd ht (by simp [Store.view, Store.empty])
  unallocated _ := by simp [TaskView.terminalOutcomes, Store.view, Store.log, Store.empty, Stream.empty]

theorem run_book {calls : List Call} {e : Engine} (h : engine.Run calls e) (k : TaskKey) (g : ℕ) :
    (e.store.view k).Book g :=
  run_preserves h (I := fun _ s => (s.view k).Book g) (book_empty k g) fun _ _ _ _ _ _ hs hbook hstep =>
    hstep.book hs hbook

theorem path_final {calls calls' : List Call} {e e' : Engine} (h : engine.Run calls e)
    (h' : engine.Path e calls' e') (k : TaskKey) (g : ℕ) : (e.store.view k).Final g (e'.store.view k) := by
  refine path_preserves h h' (I := fun _ e' => (e.store.view k).Final g (e'.store.view k)) (.refl g _) ?_
  intro calls₁ e₁ c e₂ hrun _ hfinal ⟨hclock, _, hexec⟩
  have hs : Sane c.env.now e₁.store := (run_sane hrun).mono (Nat.cast_le.mpr hclock)
  refine ((exec_path hs hexec).preserves hs
    (I := fun _ s => (e.store.view k).Final g (s.view k) ∧ (s.view k).Book g) ⟨hfinal, run_book hrun k g⟩ ?_).1
  intro b s act b' s' hs ⟨hfinal, hbook⟩ hstep _
  refine ⟨?_, hstep.book hs hbook⟩
  rcases hstep.view k with ⟨_, hview⟩ | ⟨a, _, htask⟩
  · rwa [hview]
  · exact hfinal.trans ((run_sane h).views k) (run_book h k g) (htask.final (hs.views k) hbook)

/-- A generation has settled, or its record is gone. -/
def TaskView.Over (g : ℕ) (v : TaskView) : Prop :=
  g ≤ v.counter ∧ ∀ r, v.record = some r → r.generation = g → r.outcome.isSome

theorem TaskView.Final.over {g : ℕ} {v v' : TaskView} (h : v.Final g v') (hover : v.Over g) : v'.Over g := by
  refine ⟨hover.1.trans h.counter, fun r' hr' hg' => ?_⟩
  by_cases hstored : ∃ r, v.record = some r ∧ r.generation = g
  · obtain ⟨r, hr, hg⟩ := hstored
    rw [(h.record r r' hr hg (hover.2 r hr hg) hr' hg').1]
    exact hover.2 r hr hg
  · exact absurd hg' ((h.gone hover.1 fun r hr hg => hstored ⟨r, hr, hg⟩).1 r' hr')

/-- A generation that is over is not taken again. -/
theorem path_not_taken {calls calls' : List Call} {e e' : Engine} (h : engine.Run calls e)
    (h' : engine.Path e calls' e') {k : TaskKey} {g : ℕ} (hover : (e.store.view k).Over g) :
    ∀ c ∈ calls', ∀ leaseToken lockTimeout token task, c.op = .takeTask k.1 leaseToken lockTimeout →
      c.reply = .leased token k.2 task → ∃ r, task = some r ∧ r.generation ≠ g := by
  induction h' with
  | nil => exact fun c hc => absurd hc List.not_mem_nil
  | snoc hpath hlast ih =>
    next calls₂ e₁ e₂ c₁ =>
    intro c hc leaseToken lockTimeout token task hop hreply
    rcases List.mem_append.mp hc with hc | hc
    · exact ih c hc leaseToken lockTimeout token task hop hreply
    · obtain rfl := List.mem_singleton.mp hc
      have hfinal := (path_final h (hpath.snoc hlast) k g).over hover
      obtain ⟨hclock, _, hexec⟩ := hlast
      have hs : Sane c.env.now e₁.store := (run_sane (h.extend hpath)).mono (Nat.cast_le.mpr hclock)
      have heffect := exec_effect hs hexec
      rw [hop, hreply] at heffect
      obtain ⟨r, rfl, hrunning⟩ := heffect.running_of_leased ((swept_path hs _).sane hs)
      refine ⟨r, rfl, fun hg => ?_⟩
      have ho := hfinal.2 r hrunning.record hg
      rw [hrunning.outcome] at ho
      exact absurd ho (by simp)

/-- What a step inside an invocation leaves of a generation that it does not settle. A result goes by expiry or by
a forced removal. -/
structure Undisturbed (k : TaskKey) (g : ℕ) (op : Op) (act : EngineAction) (v v' : TaskView) : Prop where
  events : v'.terminalOutcomes g = v.terminalOutcomes g
  outcome : ∀ r r', v.record = some r → r.generation = g → v'.record = some r' → r'.generation = g →
    r'.outcome = r.outcome
  result : v'.result g = v.result g ∨ (v'.result g = none ∧
    (act = .task k (.expireResult g false) ∨ (act = .forget ⟨k.1, k.2, g⟩ ∧ op = .forceRemoveTask k.1 k.2)))

/-- Only a forced removal forgets a generation, the one that its sweep left under the id. -/
theorem Op.Allows.of_forget {env : Env} {s : Store} {op : Op} {x : TaskIdentity} (h : op.Allows env s (.forget x)) :
    op = .forceRemoveTask x.queue x.id ∧ (op.swept env s).identity x.queue x.id = x := by
  rcases h with hsweep | hdoes
  · exact absurd hsweep (by simp [EngineAction.IsSweep])
  · cases op with
    | forceRemoveTask queue id =>
      rcases hdoes with hrevoke | hforget | hrelease
      · exact absurd hrevoke (by simp)
      · obtain rfl := EngineAction.forget.inj hforget
        exact ⟨rfl, rfl⟩
      · exact absurd hrelease (by simp [EngineAction.IsRelease])
    | removeTask =>
      rcases hdoes with hremove | hrelease
      · exact absurd hremove (by simp)
      · exact absurd hrelease (by simp [EngineAction.IsRelease])
    | createTask | takeTask | writeSuccess | writeError | extendLock | removeLock | appendProgress | readHistory
    | maintain | listTasks | getTask | getGeneration | getResult | eventCursors | setSchedule | consumeSchedule =>
      exact absurd hdoes (by simp [Op.Does, EngineAction.IsRelease])

theorem Engine.Performs.settlement_or {calls : List Call} {e : Engine} (h : engine.Run calls e) {env : Env} {op : Op}
    {b b' : Busy} {s s' : Store} {act : EngineAction} (hperforms : e.Performs env op b s act b' s') (k : TaskKey)
    (g : ℕ) : (s.view k).Settlement g (s'.view k) ∨ Undisturbed k g op act (s.view k) (s'.view k) := by
  have hs := hperforms.sane h
  have hbook : (s.view k).Book g := hperforms.preserves h (I := fun _ s => (s.view k).Book g) (book_empty k g)
    fun _ _ _ _ _ _ hs hbook hstep => hstep.book hs hbook
  rcases hperforms.step.view k with ⟨_, hview⟩ | ⟨a, hon, htask⟩
  · rw [hview]
    refine Or.inr ⟨rfl, fun r r' hr _ hr' _ => ?_, Or.inl rfl⟩
    rw [Option.some.inj (hr'.symm.trans hr)]
  · rcases htask.settlement_or (hs.views k) hbook with hsettled | ⟨hevents, hresult⟩
    · exact Or.inl hsettled
    · refine Or.inr ⟨hevents, fun r r' hr hg hr' hg' => ?_, hresult.imp_right fun ⟨herases, hnone⟩ => ⟨hnone, ?_⟩⟩
      · have hbook' := htask.book (hs.views k) hbook
        have heq := (hbook'.outcome r' hr' hg').symm.trans (hevents.trans (hbook.outcome r hr hg))
        cases ho : r.outcome <;> cases ho' : r'.outcome <;> simp_all
      · cases a with
        | expireResult g' held =>
          obtain ⟨rfl, rfl⟩ := herases
          refine Or.inl ?_
          cases act with
          | task k' a' =>
            obtain ⟨rfl, rfl⟩ := EngineAction.on_task_eq hon
            rfl
          | create args => exact absurd hon (by simp [EngineAction.on])
          | forget x => exact absurd hon (by simp [EngineAction.on])
          | drop holder x refiled => cases refiled <;> exact absurd hon (by simp [EngineAction.on])
          | start | pop | note | acquire | tick => exact absurd hon (by simp [EngineAction.on])
        | forget g' =>
          obtain rfl := herases
          have hact : act = .forget ⟨k.1, k.2, g'⟩ := by
            cases act with
            | task k' a' =>
              obtain ⟨rfl, rfl⟩ := EngineAction.on_task_eq hon
              cases hperforms.step with
              | task henabled hadmissible hlocal hline => exact absurd hadmissible (by simp [TaskAction.Admissible])
            | forget x =>
              simp only [EngineAction.on] at hon
              split at hon
              · next hk =>
                subst hk
                obtain rfl := TaskAction.forget.inj (Option.some.inj hon)
                rfl
              · exact absurd hon (by simp)
            | create args => exact absurd hon (by simp [EngineAction.on])
            | drop holder x refiled => cases refiled <;> exact absurd hon (by simp [EngineAction.on])
            | start | pop | note | acquire | tick => exact absurd hon (by simp [EngineAction.on])
          subst hact
          exact Or.inr ⟨rfl, (Op.Allows.of_forget hperforms.allowed).1⟩
        | create | promote | lease | renew | release | retry | fail | succeed | progress | refile | replace | expireTask
        | dropDate | holdDate | expireTerminal | expireDeadLetter | remove | revoke =>
          exact absurd herases (by simp [TaskAction.Erases])

/-- Settlement happens once and is final, for every generation of every id and in every run. -/
theorem run_settlement {calls : List Call} {e : Engine} (h : engine.Run calls e) (k : TaskKey) (g : ℕ) :
    (e.store.view k).Book g ∧
      (∀ r, e.store.task k = some r → r.outcome.isSome →
        (r.place ≠ some .wait ∧ r.place ≠ some .scheduled ∧ r.place ≠ some .active) ∧
        ∀ now, (e.clock : ℚ) ≤ now → (e.store.view k).aliveLock now = none) ∧
      (∀ calls' e', engine.Path e calls' e' → (e.store.view k).Final g (e'.store.view k) ∧
        ((e.store.view k).Over g → ∀ c ∈ calls', ∀ leaseToken lockTimeout token task,
          c.op = .takeTask k.1 leaseToken lockTimeout → c.reply = .leased token k.2 task →
            ∃ r, task = some r ∧ r.generation ≠ g)) ∧
      ∀ env op b s act b' s', e.Performs env op b s act b' s' →
        (s.view k).Settlement g (s'.view k) ∨ Undisturbed k g op act (s.view k) (s'.view k) := by
  refine ⟨run_book h k g, fun r hr ho => ⟨?_, fun now hnow => ?_⟩, fun calls' e' h' => ⟨path_final h h' k g,
    path_not_taken h h'⟩, fun env op b s act b' s' hperforms => hperforms.settlement_or h k g⟩
  · have hidle : ∀ {l}, l = TaskList.wait ∨ l = .scheduled ∨ l = .active → r.place ≠ some l := fun hl hplace => by
      have hnone := (((run_sane h).views k).placed r hr).outcome_eq_none
        (by rcases hl with rfl | rfl | rfl <;> simp [hplace])
      rw [hnone] at ho
      exact absurd ho (by simp)
    exact ⟨hidle (Or.inl rfl), hidle (Or.inr (Or.inl rfl)), hidle (Or.inr (Or.inr rfl))⟩
  · exact (((run_sane h).views k).mono hnow).aliveLock_of_settled ⟨hr, ho⟩

/-- The book of a task that succeeded, and whose late failure report was rejected. -/
theorem run_settlement_succeeded : ∃ calls e, engine.Run calls e ∧
    (e.store.view ("mail", "a")).terminalOutcomes 1 = [.success] ∧ (e.store.view ("mail", "a")).Book 1 := by
  obtain ⟨calls, e, h, hplayed⟩ := @play_run
    [(.at 1, .createTask (.default "mail" "a")), (.at 2, .takeTask "mail" "token" (some 30000)),
      (.at 3, .writeSuccess "mail" "token" "a" "sent"),
      (.at 4, .writeError "mail" "token" "a" (.string "late") (some (-1)))]
    (fun _ e => decide ((e.store.view ("mail", "a")).terminalOutcomes 1 = [.success])) (by decide +kernel)
  exact ⟨calls, e, h, of_decide_eq_true hplayed, (run_settlement h ("mail", "a") 1).1⟩

end EffectMQ
