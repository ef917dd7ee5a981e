import EffectMQ.Lifecycle.Balance
import EffectMQ.Lifecycle.Failure

/-!
# The failures of a generation

Every failure and every stall is published, and it goes to the bounded list of the record and to one of its two
counters. The published ones are the whole story: the list is the end of it, and the counters count it.
-/

namespace EffectMQ

open Redis Transition

/-- A failed or stalled attempt: the entry that the error list gets, and which of the two it is. -/
structure AttemptFailure where
  entry : ErrorEntry
  kind : FailureKind
deriving DecidableEq, Repr

/-- The failure that an event of a clock tells of. -/
def EventBody.failure (clock : ℕ) : EventBody → Option AttemptFailure
  | .failed error _ kind _ _ retryAt => some ⟨⟨error, clock, retryAt⟩, kind⟩
  | _ => none

def Event.failure (g clock : ℕ) (e : Event) : Option AttemptFailure :=
  if e.generation = g then e.body.failure clock else none

/-- The failures of a generation among events of one clock. -/
def failuresIn (g clock : ℕ) (events : List Event) : List AttemptFailure := events.filterMap (Event.failure g clock)

/-- The failures of a generation of an id that a call published. -/
def Call.failures (k : TaskKey) (g : ℕ) (s : Store) (c : Call) : List AttemptFailure :=
  failuresIn g c.env.clock (((exec c.env c.op s).store.log k.1 k.2).drop (s.log k.1 k.2).length)

/-- The failures of a generation among calls, executed from a store. -/
def failuresFrom (k : TaskKey) (g : ℕ) : Store → List Call → List AttemptFailure
  | _, [] => []
  | s, c :: calls => c.failures k g s ++ failuresFrom k g (exec c.env c.op s).store calls

/-- The failures and stalls of a generation in a run, in order. -/
def failures (k : TaskKey) (g : ℕ) (calls : List Call) : List AttemptFailure := failuresFrom k g Store.empty calls

theorem failuresFrom_append {e e' : Engine} {calls : List Call} (h : engine.Path e calls e') (k : TaskKey) (g : ℕ)
    (rest : List Call) :
    failuresFrom k g e.store (calls ++ rest) = failuresFrom k g e.store calls ++ failuresFrom k g e'.store rest := by
  induction h generalizing rest with
  | nil => rfl
  | snoc _ hstep ih =>
    rw [List.append_assoc, ih, ih, List.append_assoc, List.singleton_append]
    simp only [failuresFrom, hstep.2.2, Result.store, List.append_nil]

theorem failures_append {e : Engine} {calls : List Call} (h : engine.Run calls e) (k : TaskKey) (g : ℕ)
    (rest : List Call) : failures k g (calls ++ rest) = failures k g calls ++ failuresFrom k g e.store rest := by
  obtain ⟨_, rfl, hpath⟩ := h
  exact failuresFrom_append hpath k g rest

theorem failures_snoc {e : Engine} {calls : List Call} (h : engine.Run calls e) (k : TaskKey) (g : ℕ) (c : Call) :
    failures k g (calls ++ [c]) = failures k g calls ++ c.failures k g e.store := by
  rw [failures_append h]
  simp [failuresFrom]

theorem failuresIn_append (g clock : ℕ) (l l' : List Event) :
    failuresIn g clock (l ++ l') = failuresIn g clock l ++ failuresIn g clock l' := List.filterMap_append

/-- The failures that a step published beside those published before it. -/
theorem failuresIn_drop (g clock : ℕ) {l l' l'' : List Event} (h : l <+: l') (h' : l' <+: l'') :
    failuresIn g clock (l''.drop l.length) =
      failuresIn g clock (l'.drop l.length) ++ failuresIn g clock (l''.drop l'.length) := by
  obtain ⟨m, rfl⟩ := h
  obtain ⟨n, rfl⟩ := h'
  rw [List.append_assoc, List.drop_left, List.drop_left, failuresIn_append, ← List.append_assoc, List.drop_left]

theorem failuresIn_stamp (g clock : ℕ) (r : TaskRecord) (id : String) (bodies : List EventBody) :
    failuresIn g clock (bodies.map (r.stamp id)) =
      if r.generation = g then bodies.filterMap (EventBody.failure clock) else [] := by
  rw [failuresIn, List.filterMap_map]
  split
  · next hg => exact congrArg (fun f => List.filterMap f bodies) (funext fun _ => if_pos hg)
  · next hg => exact List.filterMap_eq_nil_iff.mpr fun _ _ => if_neg hg

/-- The failure that an action records. -/
def TaskAction.failure (env : Env) : TaskAction → Option AttemptFailure
  | .retry cause error retryAt | .fail cause error retryAt _ =>
    some ⟨⟨error, env.clock, retryTime retryAt⟩, cause.kind⟩
  | _ => none

/-- What the record of a generation shows of its failures. While the task is not settled, they are all of one kind
or another that runs again. -/
structure TaskRecord.Evidenced (good : AttemptFailure → Prop) (l : List AttemptFailure) (r : TaskRecord) : Prop where
  errors : r.errors = (l.map AttemptFailure.entry).rtake r.maxErrorEntries
  handlers : r.handlerFailureCount = (l.map AttemptFailure.kind).count .handler
  stalls : r.stalledAttemptCount = (l.map AttemptFailure.kind).count .stall
  kinds : ∀ x ∈ l, x.kind = .handler ∨ x.kind = .stall
  live : r.outcome = none → ∀ x ∈ l, good x

section

variable {env : Env} {id : String} {v v' : TaskView} {a : TaskAction} {r r' : TaskRecord} {l : List AttemptFailure}
  {good : AttemptFailure → Prop}

theorem rtake_appendError (n : ℕ) (errors : List ErrorEntry) (e : ErrorEntry) :
    appendError n (errors.rtake n) e = (errors ++ [e]).rtake n := by
  cases n with
  | zero => rw [appendError, if_pos rfl, List.rtake_zero]
  | succ n =>
    rw [List.rtake_concat_succ, appendError, if_neg (Nat.succ_ne_zero n), List.rtake, List.drop_drop, List.length_drop,
      List.rtake]
    congr 2
    omega

theorem failures_of_moves (clock : ℕ) (r : TaskRecord) (list : Option TaskList) :
    (r.moves list).filterMap (EventBody.failure clock) = [] := by
  unfold TaskRecord.moves
  split <;> rfl

/-- An action publishes the failure that it records, and no other. -/
theorem TaskAction.bodies_failures (env : Env) (r : TaskRecord) (a : TaskAction) :
    (a.bodies env r).filterMap (EventBody.failure env.clock) = (a.failure env).toList := by
  cases a with
  | promote | lease | renew | release | replace | expireTask | remove | forget => exact failures_of_moves _ _ _
  | retry cause error retryAt | fail cause error retryAt held =>
    simp [TaskAction.bodies, TaskAction.failure, EventBody.failure, failures_of_moves]
  | succeed leaseToken result held => exact failures_of_moves _ (r.succeeded env result) _
  | refile =>
    cases ho : r.outcome with
    | none => simp [TaskAction.bodies, TaskAction.failure, ho]
    | some outcome => simp [TaskAction.bodies, TaskAction.failure, ho, failures_of_moves]
  | create | progress | dropDate | holdDate | expireResult | expireTerminal | expireDeadLetter | revoke => rfl

namespace TaskRecord.Evidenced

theorem withHistory (h : r.Evidenced good l) (history : HistoryFields) : (r.withHistory history).Evidenced good l :=
  ⟨h.errors, h.handlers, h.stalls, h.kinds, h.live⟩

theorem of_eq (h : r.Evidenced good l) (herrors : r'.errors = r.errors) (hmax : r'.maxErrorEntries = r.maxErrorEntries)
    (hhandlers : r'.handlerFailureCount = r.handlerFailureCount) (hstalls : r'.stalledAttemptCount = r.stalledAttemptCount)
    (hlive : r'.outcome = none → r.outcome = none) : r'.Evidenced good l where
  errors := by rw [herrors, hmax, h.errors]
  handlers := hhandlers.trans h.handlers
  stalls := hstalls.trans h.stalls
  kinds := h.kinds
  live ho := h.live (hlive ho)

/-- One failure more, which has to be of the kind only if the task goes on. -/
theorem failed (env : Env) (h : r.Evidenced good l) (ho : r.outcome = none) (error : LuaValue) (retryAt : Option ℚ)
    (cause : Cause) (herrors : r'.errors = (r.failed env error retryAt cause.kind).errors)
    (hmax : r'.maxErrorEntries = r.maxErrorEntries)
    (hhandlers : r'.handlerFailureCount = (r.failed env error retryAt cause.kind).handlerFailureCount)
    (hstalls : r'.stalledAttemptCount = (r.failed env error retryAt cause.kind).stalledAttemptCount)
    (hgood : r'.outcome = none → good ⟨⟨error, env.clock, retryAt⟩, cause.kind⟩) :
    r'.Evidenced good (l ++ [⟨⟨error, env.clock, retryAt⟩, cause.kind⟩]) := by
  have happend : (r.failed env error retryAt cause.kind).errors =
      appendError r.maxErrorEntries r.errors ⟨error, env.clock, retryAt⟩ := by
    unfold TaskRecord.failed
    split <;> rfl
  have hcount := h.handlers
  have hstalled := h.stalls
  refine ⟨?_, ?_, ?_, fun x hx => ?_, fun hnone x hx => ?_⟩
  · rw [herrors, hmax, happend, h.errors, rtake_appendError, List.map_append]
    rfl
  · rw [hhandlers]
    cases cause <;> simp [TaskRecord.failed, Cause.kind, ← hcount]
  · rw [hstalls]
    cases cause <;> simp [TaskRecord.failed, Cause.kind, ← hstalled]
  · rcases List.mem_append.mp hx with hx | hx
    · exact h.kinds x hx
    · obtain rfl := List.mem_singleton.mp hx
      cases cause <;> simp [Cause.kind]
  · rcases List.mem_append.mp hx with hx | hx
    · exact h.live ho x hx
    · obtain rfl := List.mem_singleton.mp hx
      exact hgood hnone

end TaskRecord.Evidenced

/-- An action adds the failure that it records to the evidence. -/
theorem TaskAction.next_evidenced (hstep : TaskStep env id v a v') (h : v.record = some r) (hevidenced : r.Evidenced good l)
    (hnext : a.next env r = some r') (hgood : ∀ x, a.failure env = some x → a.settles = none → good x) :
    r'.Evidenced good (l ++ (a.failure env).toList) := by
  have henabled := hstep.1
  have houtcome := TaskAction.next_outcome hnext
  have hquiet : a.failure env = none → r'.Evidenced good l → r'.Evidenced good (l ++ (a.failure env).toList) := by
    intro hnone hsame
    rwa [hnone, Option.toList_none, List.append_nil]
  cases a with
  | retry cause error retryAt =>
    obtain ⟨⟨r₁, hrunning⟩, _⟩ := henabled
    obtain rfl := Option.some.inj (h.symm.trans hrunning.record)
    obtain rfl := Option.some.inj hnext
    refine hevidenced.failed env hrunning.outcome error (retryTime retryAt) cause rfl ?_ rfl rfl fun _ => hgood _ rfl rfl
    unfold TaskRecord.listed TaskRecord.failed
    split <;> rfl
  | fail cause error retryAt held =>
    obtain ⟨⟨r₁, hrunning⟩, _⟩ := henabled
    obtain rfl := Option.some.inj (h.symm.trans hrunning.record)
    obtain rfl := TaskRecord.placed_eq_some hnext
    refine hevidenced.failed env hrunning.outcome error (retryTime retryAt) cause rfl ?_ rfl rfl fun hnone =>
      absurd hnone (by simp [houtcome, TaskAction.settles])
    unfold TaskRecord.listed TaskRecord.exhausted TaskRecord.failed
    split <;> rfl
  | succeed leaseToken result held =>
    obtain rfl := TaskRecord.placed_eq_some hnext
    exact hquiet rfl <| hevidenced.of_eq rfl rfl rfl rfl fun hnone => absurd hnone (by simp [houtcome, TaskAction.settles])
  | refile =>
    refine hquiet rfl ?_
    cases ho : r.outcome with
    | none =>
      simp only [TaskAction.next, ho, Option.elim_none] at hnext
      exact Option.some.inj hnext ▸ hevidenced
    | some outcome =>
      simp only [TaskAction.next, ho, Option.elim_some] at hnext
      obtain rfl := TaskRecord.placed_eq_some hnext
      exact hevidenced.of_eq rfl rfl rfl rfl fun ho => ho
  | expireTerminal g =>
    obtain rfl := Option.some.inj hnext
    refine hquiet rfl ?_
    unfold TaskRecord.unindexed
    split
    · split
      · exact hevidenced.of_eq rfl rfl rfl rfl fun ho => ho
      · exact hevidenced
    · exact hevidenced
  | replace | expireTask | remove | forget => exact absurd hnext (by simp [TaskAction.next])
  | create | promote | lease | renew | release | progress | dropDate | holdDate | expireResult | expireDeadLetter
  | revoke =>
    obtain rfl := Option.some.inj hnext
    exact hquiet rfl (hevidenced.of_eq rfl rfl rfl rfl fun ho => ho)

end

/-! ### Along steps and runs -/

/-- The stored record of an id is evidenced by the failures of its generation, and no generation has any before it
exists. -/
structure TaskView.Evidenced (good : AttemptFailure → Prop) (l : ℕ → List AttemptFailure) (v : TaskView) : Prop where
  record : ∀ r, v.record = some r → r.Evidenced good (l r.generation)
  fresh : ∀ g, v.counter < g → l g = []

section

variable {env : Env} {id : String} {v v' : TaskView} {a : TaskAction} {l : ℕ → List AttemptFailure}
  {good : AttemptFailure → Prop}

theorem TaskRecord.evidenced_newRecord (env : Env) (args : CreateArgs) (g : ℕ) (list : TaskList) (history : HistoryFields) :
    (((newRecord env args g).listed (some list)).withHistory history).Evidenced good [] where
  errors := (List.rtake_nil _).symm
  handlers := rfl
  stalls := rfl
  kinds := by simp
  live := by simp

theorem TaskStep.evidenced (hstep : TaskStep env id v a v') (hv : v.Consistent env.now) (h : v.Evidenced good l)
    (hgood : ∀ x, a.failure env = some x → a.settles = none → good x) :
    v.log <+: v'.log ∧
      v'.Evidenced good fun g => l g ++ failuresIn g env.clock (v'.log.drop v.log.length) := by
  cases hr : v.record with
  | some r =>
    have haccounted := hstep.accounted hv hr
    have hcounter : v'.counter = v.counter := hstep.counter fun args replacedTask heq => by
      rw [heq] at hstep
      exact absurd (hr.symm.trans hstep.1) (by simp)
    have hnew : ∀ g, failuresIn g env.clock (v'.log.drop v.log.length) =
        if r.generation = g then (a.failure env).toList else [] := by
      intro g
      rw [haccounted.log, List.drop_left, failuresIn_stamp, TaskAction.bodies_failures]
    refine ⟨⟨_, haccounted.log.symm⟩, fun r' hr' => ?_, fun g hg => ?_⟩
    · obtain ⟨next, history, hnext, rfl⟩ := hstep.record_next hv hr hr'
      have hgeneration : (next.withHistory history).generation = r.generation :=
        (TaskAction.next_sameOffer hnext).generation
      have hnext' := TaskAction.next_evidenced hstep hr (h.record r hr) hnext hgood
      rw [hgeneration, hnew, if_pos rfl]
      exact hnext'.withHistory history
    · rw [hcounter] at hg
      have hle := (hv.generation r hr).1
      rw [h.fresh g hg, hnew, if_neg (by omega), List.append_nil]
  | none =>
    by_cases hcreate : ∃ args replacedTask, a = .create args replacedTask
    · obtain ⟨args, replacedTask, rfl⟩ := hcreate
      obtain ⟨⟨history, hrecord⟩, hcounter, hlog⟩ := hstep.created
      have hnew : ∀ g, failuresIn g env.clock (v'.log.drop v.log.length) = [] := by
        intro g
        rw [hlog, List.drop_left, failuresIn_stamp]
        unfold TaskAction.createBodies
        cases replacedTask <;> simp [EventBody.failure]
      refine ⟨⟨_, hlog.symm⟩, fun r' hr' => ?_, fun g hg => ?_⟩
      · obtain rfl := Option.some.inj (hrecord.symm.trans hr')
        rw [hnew, List.append_nil]
        have hfresh := h.fresh (v.counter + 1) (Nat.lt_succ_self _)
        change TaskRecord.Evidenced good (l (v.counter + 1)) _
        rw [hfresh]
        exact TaskRecord.evidenced_newRecord env args _ _ history
      · rw [hnew, List.append_nil]
        exact h.fresh g (by omega)
    · have hother : ∀ args replacedTask, a ≠ .create args replacedTask := fun args replacedTask heq =>
        hcreate ⟨args, replacedTask, heq⟩
      obtain ⟨hrecord, hlog⟩ := hstep.unrecorded hv hr hother
      have hnew : ∀ g, failuresIn g env.clock (v'.log.drop v.log.length) = [] := by
        intro g
        rw [hlog, List.drop_length]
        rfl
      refine ⟨by rw [hlog], fun r' hr' => absurd (hrecord.symm.trans hr') (by simp), fun g hg => ?_⟩
      rw [hnew, List.append_nil]
      exact h.fresh g (by rwa [hstep.counter hother] at hg)

end

section

variable {env : Env} {b b' : Busy} {s s' : Store} {k : TaskKey} {l : ℕ → List AttemptFailure}
  {good : AttemptFailure → Prop} {P : EngineAction → Prop}

/-- The actions of a kind record good failures only, those that settle apart. -/
def RecordsOnly (env : Env) (k : TaskKey) (good : AttemptFailure → Prop) (P : EngineAction → Prop) : Prop :=
  ∀ act a v v' x, P act → act.on k = some a → TaskStep env k.2 v a v' → a.failure env = some x → a.settles = none → good x

theorem EnginePath.evidenced (hpath : EnginePath env P b s b' s') (hs : Sane env.now s)
    (h : (s.view k).Evidenced good l) (hgood : RecordsOnly env k good P) :
    (s.view k).log <+: (s'.view k).log ∧ (s'.view k).Evidenced good fun g =>
      l g ++ failuresIn g env.clock ((s'.view k).log.drop (s.view k).log.length) := by
  refine hpath.preserves (I := fun _ s' => (s.view k).log <+: (s'.view k).log ∧ (s'.view k).Evidenced good fun g =>
      l g ++ failuresIn g env.clock ((s'.view k).log.drop (s.view k).log.length)) hs ?_ ?_
  · refine ⟨List.prefix_rfl, ?_⟩
    simpa [failuresIn] using h
  · intro b₁ s₁ act b₂ s₂ hs₁ ⟨hgrown, hevidenced⟩ hstep hact
    rcases hstep.view k with ⟨_, hview⟩ | ⟨a, hon, htask⟩
    · rw [hview]
      exact ⟨hgrown, hevidenced⟩
    · obtain ⟨hgrown', hevidenced'⟩ := htask.evidenced (hs₁.views k) hevidenced
        fun x hx hsettles => hgood act a _ _ x hact hon htask hx hsettles
      refine ⟨hgrown.trans hgrown', ?_⟩
      simp only [failuresIn_drop _ _ hgrown hgrown', ← List.append_assoc]
      exact hevidenced'

/-- A call adds the failures that it published. -/
theorem step_evidenced {e e' : Engine} {c : Call} (hs : Sane c.env.now e.store) (hstep : engine.step e c e')
    (hpath : EnginePath c.env P none e.store none e'.store) (h : (e.store.view k).Evidenced good l)
    (hgood : RecordsOnly c.env k good P) :
    (e'.store.view k).Evidenced good fun g => l g ++ c.failures k g e.store := by
  have hfailures : ∀ g, c.failures k g e.store =
      failuresIn g c.env.clock ((e'.store.view k).log.drop (e.store.view k).log.length) := by
    intro g
    rw [Call.failures, hstep.2.2]
    rfl
  simp only [hfailures]
  exact (hpath.evidenced hs h hgood).2

end

theorem evidenced_empty (good : AttemptFailure → Prop) (k : TaskKey) :
    (Store.empty.view k).Evidenced good fun g => failures k g [] where
  record r hr := absurd hr (by simp [Store.empty, Store.view])
  fresh _ _ := rfl

/-- Every stored record is evidenced by the failures of its generation. -/
theorem run_evidenced {calls : List Call} {e : Engine} (h : engine.Run calls e) (k : TaskKey) :
    (e.store.view k).Evidenced (fun _ => True) fun g => failures k g calls := by
  refine h.induction (P := fun calls e => (e.store.view k).Evidenced (fun _ => True) fun g => failures k g calls) ?_ ?_
  · intro e he
    rw [he]
    exact evidenced_empty _ k
  · intro calls e c e' hrun ih hstep
    have hs : Sane c.env.now e.store := (run_sane hrun).mono (Nat.cast_le.mpr hstep.1)
    simp only [failures_snoc hrun]
    exact step_evidenced hs hstep (exec_path hs hstep.2.2) ih fun _ _ _ _ _ _ _ _ _ _ => trivial

end EffectMQ
