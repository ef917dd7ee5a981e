import EffectMQ.Properties.Settlement

/-!
# The published states of a generation

The execution state machine, and the moves that the event stream shows of one generation. As long as no policy
files a success among the failures or a failure among the successes, the moves form a path of the machine that
ends in the state of the stored record.
-/

namespace EffectMQ

open Redis Transition

namespace ExecutionState

/-- The transitions of the execution state machine. -/
inductive Next : ExecutionState → ExecutionState → Prop
  | due : Next .delayed .waiting
  | retried : Next .retryScheduled .waiting
  | taken : Next .waiting .leased
  | released : Next .leased .waiting
  | postponed : Next .leased .retryScheduled
  | succeeded : Next .leased .succeeded
  | failed : Next .leased .failed

def IsTerminal (state : ExecutionState) : Prop := state = .succeeded ∨ state = .failed

end ExecutionState

/-- The terminal state of an outcome. -/
def Outcome.state : Outcome → ExecutionState
  | .success => .succeeded
  | .failure => .failed

/-- The previous and the new state of a move. -/
abbrev StateChange := Option ExecutionState × Option ExecutionState

/-- The moves of a generation up to a state: it starts waiting or delayed and follows the machine. A terminal state
may be published again; the removal of a task that has none ends the path without a state. -/
inductive StatePath : List StateChange → Option ExecutionState → Prop
  | created {state : ExecutionState} (h : state = .waiting ∨ state = .delayed) :
      StatePath [(none, some state)] (some state)
  | moved {l : List StateChange} {state state' : ExecutionState} (h : StatePath l (some state))
      (hnext : state.Next state') : StatePath (l ++ [(some state, some state')]) (some state')
  | repeated {l : List StateChange} {state : ExecutionState} (h : StatePath l (some state))
      (hterminal : state.IsTerminal) : StatePath (l ++ [(some state, some state)]) (some state)
  | removed {l : List StateChange} {state : ExecutionState} (h : StatePath l (some state))
      (hrunning : ¬ state.IsTerminal) : StatePath (l ++ [(some state, none)]) none

theorem ExecutionState.Next.not_terminal {state state' : ExecutionState} (h : state.Next state') : ¬ state.IsTerminal := by
  cases h <;> simp [IsTerminal]

/-- After a terminal state was published no other state is. -/
theorem StatePath.terminal {l : List StateChange} {current : Option ExecutionState} (h : StatePath l current)
    {change : StateChange} (hmem : change ∈ l) {state : ExecutionState} (hstate : change.2 = some state)
    (hterminal : state.IsTerminal) : current = some state := by
  induction h with
  | created hfirst =>
    obtain rfl := List.mem_singleton.mp hmem
    exact hstate
  | moved _ hnext ih =>
    rcases List.mem_append.mp hmem with hmem | hmem
    · exact absurd (Option.some.inj (ih hmem) ▸ hterminal) hnext.not_terminal
    · obtain rfl := List.mem_singleton.mp hmem
      exact hstate
  | repeated _ _ ih =>
    rcases List.mem_append.mp hmem with hmem | hmem
    · exact ih hmem
    · obtain rfl := List.mem_singleton.mp hmem
      exact hstate
  | removed _ hrunning ih =>
    rcases List.mem_append.mp hmem with hmem | hmem
    · exact absurd (Option.some.inj (ih hmem) ▸ hterminal) hrunning
    · obtain rfl := List.mem_singleton.mp hmem
      exact absurd hstate (by simp)

/-- The states of a moved event of a generation. -/
def Event.stateChange (g : ℕ) (e : Event) : Option StateChange :=
  if e.generation = g then
    match e.body with
    | .moved _ _ previousState newState _ _ _ => some (previousState, newState)
    | _ => none
  else none

namespace TaskView

/-- The moves that were published for a generation, in order. -/
def stateChanges (g : ℕ) (v : TaskView) : List StateChange := v.log.filterMap (Event.stateChange g)

/-- The published states form a path of the execution state machine, and a terminal one is the stored outcome. -/
structure LegalPath (g : ℕ) (v : TaskView) : Prop where
  path : v.stateChanges g = [] ∨ ∃ current, StatePath (v.stateChanges g) current
  outcome : ∀ change ∈ v.stateChanges g, ∀ outcome : Outcome, change.2 = some outcome.state →
    (∀ r, v.record = some r → r.generation = g → r.outcome = some outcome) ∧ ∀ t, v.result g = some t → t.outcome = outcome

end TaskView

/-- No policy files an outcome under the other one. -/
def CreateArgs.FilesStraight (a : CreateArgs) : Prop :=
  a.onSuccessPolicy ≠ .markAsFailure ∧ a.onFailurePolicy ≠ .markAsSuccess

instance (a : CreateArgs) : Decidable a.FilesStraight := by
  unfold CreateArgs.FilesStraight
  infer_instance

def TaskRecord.FilesStraight (r : TaskRecord) : Prop :=
  r.onSuccessPolicy ≠ .markAsFailure ∧ r.onFailurePolicy ≠ .markAsSuccess

/-- An offer of an id files straight. -/
def Op.FilesStraight (k : TaskKey) : Op → Prop
  | .createTask a => (a.queue, a.id) = k → a.FilesStraight
  | _ => True

section

variable {env : Env} {id : String} {g : ℕ} {v v' : TaskView} {r r' : TaskRecord} {a : TaskAction}

namespace TaskRecord

/-- The state a record is in. -/
def current (r : TaskRecord) : Option ExecutionState := r.state r.place

theorem FilesStraight.state_list (h : r.FilesStraight) {outcome : Outcome} (ho : r.outcome = some outcome)
    {list : Option TaskList} (hlist : list = none ∨ list = (r.policy outcome).list) :
    r.state list = some outcome.state := by
  obtain ⟨hsuccess, hfailure⟩ := h
  have hnone : r.state none = some outcome.state := by
    rw [state, ho]
    cases outcome <;> rfl
  rcases hlist with rfl | rfl
  · exact hnone
  · cases outcome with
    | success =>
      simp only [policy]
      cases hpolicy : r.onSuccessPolicy with
      | markAsFailure => exact absurd hpolicy hsuccess
      | markAsSuccess => rfl
      | delete | keep => exact hnone
    | failure =>
      simp only [policy]
      cases hpolicy : r.onFailurePolicy with
      | markAsSuccess => exact absurd hpolicy hfailure
      | markAsFailure => rfl
      | delete | keep => exact hnone

theorem Placed.current_of_settled (h : r.Placed) (hstraight : r.FilesStraight) {outcome : Outcome}
    (ho : r.outcome = some outcome) : r.current = some outcome.state :=
  hstraight.state_list ho (h.settled outcome ho)

theorem Placed.current_of_running (h : r.Placed) (ho : r.outcome = none) :
    ∃ state, r.current = some state ∧ ¬ state.IsTerminal := by
  unfold current
  rcases h.runnable ho with hp | hp | hp <;> rw [hp]
  · exact ⟨.waiting, rfl, by simp [ExecutionState.IsTerminal]⟩
  · simp only [state]
    split
    · exact ⟨.retryScheduled, rfl, by simp [ExecutionState.IsTerminal]⟩
    · exact ⟨.delayed, rfl, by simp [ExecutionState.IsTerminal]⟩
  · exact ⟨.leased, rfl, by simp [ExecutionState.IsTerminal]⟩

end TaskRecord

/-- The moves of a record, as state changes of its generation. -/
theorem stateChanges_moves (r r₁ : TaskRecord) (id : String) (list : Option TaskList) :
    ((r₁.moves list).map (r.stamp id)).filterMap (Event.stateChange r.generation) =
      if r₁.place = list then [] else [(r₁.current, r₁.state list)] := by
  unfold TaskRecord.moves TaskRecord.current
  split <;> simp [Event.stateChange, TaskRecord.stamp]

theorem stateChanges_other (bodies : List EventBody) (id : String) (hg : r.generation ≠ g) :
    (bodies.map (r.stamp id)).filterMap (Event.stateChange g) = [] := by
  induction bodies with
  | nil => rfl
  | cons body rest ih =>
    rw [List.map_cons, List.filterMap_cons, ih]
    simp [Event.stateChange, TaskRecord.stamp, hg]

/-- What an action makes of the state path of the record it is about. -/
structure Extends (env : Env) (id : String) (r : TaskRecord) (a : TaskAction) (l : List StateChange)
    (current : Option ExecutionState) : Prop where
  path : StatePath (l ++ ((a.bodies env r).map (r.stamp id)).filterMap (Event.stateChange r.generation)) current
  record : ∀ r', a.next env r = some r' → current = r'.current
  outcome : ∀ outcome : Outcome, current = some outcome.state → (a.settles <|> r.outcome) = some outcome

/-- The action leaves the record in its state. -/
theorem Extends.stays {l : List StateChange} (hpath : StatePath l r.current) (hbodies : a.bodies env r = [])
    (hsettles : a.settles = none) (hrecord : ∀ r', a.next env r = some r' → r.current = r'.current)
    (houtcome : ∀ outcome : Outcome, r.current = some outcome.state → r.outcome = some outcome) :
    Extends env id r a l r.current where
  path := by
    rw [hbodies]
    simpa using hpath
  record := hrecord
  outcome outcome h := by
    rw [hsettles]
    exact houtcome outcome h

/-- The record moves to another state of the machine. -/
theorem Extends.moves {l : List StateChange} {state state' : ExecutionState} (hpath : StatePath l (some state))
    (hnext : state.Next state')
    (hchanges : ((a.bodies env r).map (r.stamp id)).filterMap (Event.stateChange r.generation) =
      [(some state, some state')])
    (hrecord : ∀ r', a.next env r = some r' → some state' = r'.current)
    (houtcome : ∀ outcome : Outcome, state' = outcome.state → (a.settles <|> r.outcome) = some outcome) :
    Extends env id r a l (some state') where
  path := by
    rw [hchanges]
    exact .moved hpath hnext
  record := hrecord
  outcome outcome h := houtcome outcome (Option.some.inj h)

theorem Outcome.state_injective : Function.Injective Outcome.state := by
  intro o o' h
  cases o <;> cases o' <;> simp_all [Outcome.state]

theorem Outcome.state_terminal (outcome : Outcome) : outcome.state.IsTerminal := by
  cases outcome
  · exact Or.inl rfl
  · exact Or.inr rfl

/-- A settled record goes to a list of its policy, or goes. -/
theorem Extends.settled {l : List StateChange} {outcome : Outcome} {list : Option TaskList}
    (hplaced : r.Placed) (hstraight : r.FilesStraight) (ho : r.outcome = some outcome)
    (hlist : list = none ∨ list = (r.policy outcome).list) (hpath : StatePath l r.current)
    (hbodies : a.bodies env r = r.moves list) (hsettles : a.settles = none)
    (hrecord : ∀ r', a.next env r = some r' → r' = r.listed list) :
    Extends env id r a l (some outcome.state) where
  path := by
    have hcurrent := hplaced.current_of_settled hstraight ho
    rw [hbodies, stateChanges_moves, hstraight.state_list ho hlist, hcurrent]
    rw [hcurrent] at hpath
    split
    · simpa using hpath
    · exact .repeated hpath outcome.state_terminal
  record r' h := by
    obtain rfl := hrecord r' h
    have hstate : (r.listed list).current = r.state list := by cases list with
      | none => rfl
      | some l => cases l <;> rfl
    rw [hstate, hstraight.state_list ho hlist]
  outcome outcome' h := by
    rw [hsettles, ho, Outcome.state_injective (Option.some.inj h)]
    rfl

/-- Taking away a record: a settled one shows its state again, another one ends the path. -/
theorem Extends.gone {l : List StateChange} (hplaced : r.Placed) (hstraight : r.FilesStraight)
    (hpath : StatePath l r.current) (hbodies : a.bodies env r = r.moves none) (hsettles : a.settles = none)
    (hnext : a.next env r = none) : ∃ current, Extends env id r a l current := by
  cases ho : r.outcome with
  | some outcome =>
    exact ⟨_, .settled hplaced hstraight ho (Or.inl rfl) hpath hbodies hsettles fun r' h =>
      absurd (hnext.symm.trans h) (by simp)⟩
  | none =>
    obtain ⟨state, hcurrent, hrunning⟩ := hplaced.current_of_running ho
    refine ⟨none, ?_, fun r' h => absurd (hnext.symm.trans h) (by simp), fun outcome h => absurd h (by simp)⟩
    have hplace : r.place ≠ none := by
      rcases hplaced.runnable ho with hp | hp | hp <;> simp [hp]
    have hstate : r.state none = none := by
      rw [TaskRecord.state, ho]
      rfl
    rw [hbodies, stateChanges_moves, if_neg hplace, hstate, hcurrent]
    rw [hcurrent] at hpath
    exact .removed hpath hrunning

theorem TaskRecord.current_listed (r : TaskRecord) (list : Option TaskList) : (r.listed list).current = r.state list := by
  cases list with
  | none => rfl
  | some l => cases l <;> rfl

theorem TaskRecord.current_of_place {l : TaskList} (h : r.place = some l) : r.current = r.state (some l) := by
  rw [TaskRecord.current, h]

/-- The end of an attempt moves it from the leased state. -/
theorem Extends.ended {l : List StateChange} {state' : ExecutionState} (r₁ : TaskRecord) {list : Option TaskList}
    (hplace : r.place = some .active) (hpath : StatePath l r.current) (hsame : r₁.place = r.place)
    (hlist : list ≠ some .active) (hstate : r₁.state list = some state') (hnext : ExecutionState.leased.Next state')
    {body : EventBody} (hbody : Event.stateChange r.generation (r.stamp id body) = none)
    (hbodies : a.bodies env r = body :: r₁.moves list)
    (hrecord : ∀ r', a.next env r = some r' → r' = r₁.listed list)
    (houtcome : ∀ outcome : Outcome, state' = outcome.state → (a.settles <|> r.outcome) = some outcome) :
    Extends env id r a l (some state') := by
  have hleased : r.current = some .leased := TaskRecord.current_of_place hplace
  have hleased' : r₁.current = some .leased := TaskRecord.current_of_place (hsame.trans hplace)
  rw [hleased] at hpath
  refine .moves hpath hnext ?_ (fun r' h => ?_) houtcome
  · rw [hbodies, List.map_cons, List.filterMap_cons, hbody, stateChanges_moves, hleased', hstate, if_neg]
    rw [hsame, hplace]
    exact Ne.symm hlist
  · obtain rfl := hrecord r' h
    rw [TaskRecord.current_listed, hstate]

theorem CompletionPolicy.list_ne_active (policy : CompletionPolicy) : policy.list ≠ some .active := by
  cases policy <;> simp [CompletionPolicy.list]

theorem TaskRecord.counts_failed (r : TaskRecord) (error : LuaValue) (retryAt : Option ℚ) (kind : FailureKind) :
    0 < (r.failed env error retryAt kind).handlerFailureCount + (r.failed env error retryAt kind).stalledAttemptCount := by
  unfold TaskRecord.failed
  split
  · exact Nat.add_pos_right _ (Nat.succ_pos _)
  · exact Nat.add_pos_left (Nat.succ_pos _) _

theorem TaskRecord.state_retryList (r : TaskRecord) (error : LuaValue) (retryAt : ℚ) (kind : FailureKind) :
    ∃ state, (r.failed env error (retryTime retryAt) kind).state (some (TaskRecord.retryList env retryAt)) = some state ∧
      ExecutionState.leased.Next state ∧ ¬ state.IsTerminal := by
  unfold TaskRecord.retryList
  split
  · exact ⟨.retryScheduled, if_pos (counts_failed r error _ kind), .postponed, by simp [ExecutionState.IsTerminal]⟩
  · exact ⟨.waiting, rfl, .released, by simp [ExecutionState.IsTerminal]⟩

/-- Every step of a stored record extends its state path. -/
theorem TaskStep.extends (hstep : TaskStep env id v a v') (hv : v.Consistent env.now) (h : v.record = some r)
    (hstraight : r.FilesStraight) {l : List StateChange} (hpath : StatePath l r.current) :
    ∃ current, Extends env id r a l current := by
  have hplaced := hv.placed r h
  have henabled := hstep.1
  have hrunning : ∀ {P : Prop}, (∃ r, v.Running r) ∧ P → r.place = some .active ∧ r.outcome = none := fun ⟨⟨r₀, hr₀⟩, _⟩ => by
    obtain rfl := Option.some.inj (h.symm.trans hr₀.record)
    exact ⟨hr₀.place, hr₀.outcome⟩
  have hidle : ∀ {P : Prop} {l}, (∃ r, v.record = some r ∧ r.place = some l) ∧ P → r.place = some l :=
    fun ⟨⟨r₀, hr₀, hplace⟩, _⟩ => by
      obtain rfl := Option.some.inj (h.symm.trans hr₀)
      exact hplace
  have houtcome : ∀ outcome : Outcome, r.current = some outcome.state → r.outcome = some outcome := by
    intro outcome hcurrent
    cases ho : r.outcome with
    | some outcome' =>
      rw [hplaced.current_of_settled hstraight ho] at hcurrent
      rw [Outcome.state_injective (Option.some.inj hcurrent)]
    | none =>
      obtain ⟨state, hstate, hrunning⟩ := hplaced.current_of_running ho
      rw [hstate] at hcurrent
      exact absurd (Option.some.inj hcurrent ▸ outcome.state_terminal) hrunning
  have hkeeps : ∀ {list}, r.moves list = [] → (r.listed list).current = r.current := fun {list} hmoves => by
    unfold TaskRecord.moves at hmoves
    split at hmoves
    · next hsame => rw [TaskRecord.current_listed, ← hsame, TaskRecord.current]
    · exact absurd hmoves (by simp)
  cases a with
  | create => exact absurd (h.symm.trans henabled) (by simp)
  | promote =>
    have hplace := hidle henabled
    have ho := hplaced.outcome_eq_none (Or.inr (Or.inl hplace))
    obtain ⟨state, hstate, hnext⟩ : ∃ state, r.current = some state ∧ state.Next .waiting := by
      rw [TaskRecord.current_of_place hplace]
      simp only [TaskRecord.state]
      split
      · exact ⟨_, rfl, .retried⟩
      · exact ⟨_, rfl, .due⟩
    rw [hstate] at hpath
    refine ⟨_, .moves hpath hnext ?_ (fun r' h' => ?_) fun outcome h' => ?_⟩
    · rw [TaskAction.bodies, stateChanges_moves, hstate, if_neg (by simp [hplace])]
      rfl
    · obtain rfl := Option.some.inj h'
      rfl
    · cases outcome <;> exact absurd h' (by simp [Outcome.state])
  | lease leaseToken lockTimeout =>
    have hplace := hidle henabled
    have hwaiting : r.current = some .waiting := TaskRecord.current_of_place hplace
    rw [hwaiting] at hpath
    refine ⟨_, .moves hpath .taken ?_ (fun r' h' => ?_) fun outcome h' => ?_⟩
    · rw [TaskAction.bodies, stateChanges_moves, hwaiting, if_neg (by simp [hplace])]
      rfl
    · obtain rfl := Option.some.inj h'
      rfl
    · cases outcome <;> exact absurd h' (by simp [Outcome.state])
  | renew leaseToken lockTimeout =>
    have hmoves : r.moves (some .active) = [] := if_pos (hrunning henabled).1
    refine ⟨_, .stays hpath hmoves rfl (fun r' h' => ?_) houtcome⟩
    obtain rfl := Option.some.inj h'
    exact (hkeeps hmoves).symm
  | release leaseToken =>
    have hplace := (hrunning henabled).1
    have hleased : r.current = some .leased := TaskRecord.current_of_place hplace
    rw [hleased] at hpath
    refine ⟨_, .moves hpath .released ?_ (fun r' h' => ?_) fun outcome h' => ?_⟩
    · rw [TaskAction.bodies, stateChanges_moves, hleased, if_neg (by simp [hplace])]
      rfl
    · obtain rfl := Option.some.inj h'
      rfl
    · cases outcome <;> exact absurd h' (by simp [Outcome.state])
  | retry cause error retryAt =>
    obtain ⟨state, hstate, hnext, hrunning'⟩ := @TaskRecord.state_retryList env r error retryAt cause.kind
    refine ⟨_, .ended (r.failed env error (retryTime retryAt) cause.kind) (hrunning henabled).1 hpath
      (TaskRecord.place_failed env r error (retryTime retryAt) cause.kind) ?_ hstate hnext
      (by simp [Event.stateChange, TaskRecord.stamp]) rfl (fun r' h' => (Option.some.inj h').symm) fun outcome h' => ?_⟩
    · unfold TaskRecord.retryList
      split <;> simp
    · exact absurd (h' ▸ outcome.state_terminal) hrunning'
  | fail cause error retryAt held =>
    have ho : (r.exhausted env error (retryTime retryAt) cause.kind).outcome = some .failure := rfl
    have hstraight' : (r.exhausted env error (retryTime retryAt) cause.kind).FilesStraight := by
      have hpolicies : (r.failed env error (retryTime retryAt) cause.kind).onSuccessPolicy = r.onSuccessPolicy := by
        unfold TaskRecord.failed
        split <;> rfl
      exact ⟨fun hp => hstraight.1 (hpolicies.symm.trans hp),
        fun hp => hstraight.2 ((TaskRecord.onFailurePolicy_failed env r error (retryTime retryAt) cause.kind).symm.trans hp)⟩
    have hpolicy : (r.exhausted env error (retryTime retryAt) cause.kind).policy .failure = r.onFailurePolicy :=
      TaskRecord.onFailurePolicy_failed env r error (retryTime retryAt) cause.kind
    refine ⟨_, .ended (r.exhausted env error (retryTime retryAt) cause.kind) (hrunning henabled).1 hpath
      (TaskRecord.place_failed env r error (retryTime retryAt) cause.kind)
      (CompletionPolicy.list_ne_active r.onFailurePolicy) (hstraight'.state_list ho (Or.inr (by rw [hpolicy]))) .failed
      (by simp [Event.stateChange, TaskRecord.stamp]) rfl (fun r' h' => TaskRecord.placed_eq_some h') fun outcome h' => ?_⟩
    rw [← Outcome.state_injective h']
    rfl
  | succeed leaseToken result held =>
    have ho : (r.succeeded env result).outcome = some .success := rfl
    have hstraight' : (r.succeeded env result).FilesStraight := hstraight
    refine ⟨_, .ended (r.succeeded env result) (hrunning henabled).1 hpath rfl
      (CompletionPolicy.list_ne_active r.onSuccessPolicy) (hstraight'.state_list ho (Or.inr rfl)) .succeeded
      (by simp [Event.stateChange, TaskRecord.stamp]) rfl (fun r' h' => TaskRecord.placed_eq_some h') fun outcome h' => ?_⟩
    rw [← Outcome.state_injective h']
    rfl
  | refile =>
    obtain ⟨r', hsettled⟩ := henabled
    obtain rfl := Option.some.inj (h.symm.trans hsettled.record)
    obtain ⟨outcome, ho⟩ := Option.isSome_iff_exists.mp hsettled.outcome
    refine ⟨_, .settled hplaced hstraight ho (Or.inr rfl) hpath (by simp [TaskAction.bodies, ho]) rfl fun r' h' => ?_⟩
    simp only [TaskAction.next, ho, Option.elim_some] at h'
    exact TaskRecord.placed_eq_some h'
  | replace | expireTask | remove | forget => exact Extends.gone hplaced hstraight hpath rfl rfl rfl
  | expireTerminal g =>
    refine ⟨_, .stays hpath rfl rfl (fun r' h' => ?_) houtcome⟩
    obtain rfl := Option.some.inj h'
    split
    · unfold TaskRecord.unindexed
      split
      · next hindexed =>
        have hsettled : ∃ outcome, r.outcome = some outcome := by
          by_contra hnone
          have ho : r.outcome = none := Option.eq_none_iff_forall_ne_some.mpr fun o ho => hnone ⟨o, ho⟩
          rcases hplaced.runnable ho with hp | hp | hp <;> simp [hp] at hindexed
        obtain ⟨outcome, ho⟩ := hsettled
        rw [hplaced.current_of_settled hstraight ho, TaskRecord.current_listed, hstraight.state_list ho (Or.inl rfl)]
      · rfl
    · rfl
  | progress | dropDate | holdDate | expireResult | expireDeadLetter | revoke =>
    refine ⟨_, .stays hpath rfl rfl (fun r' h' => ?_) houtcome⟩
    rw [← Option.some.inj h']

theorem TaskRecord.SameOffer.filesStraight (h : r.SameOffer r') (hstraight : r.FilesStraight) : r'.FilesStraight :=
  ⟨fun hp => hstraight.1 (h.onSuccessPolicy.symm.trans hp), fun hp => hstraight.2 (h.onFailurePolicy.symm.trans hp)⟩

/-- The moves of a generation form a path, which ends in the state of its record; a terminal state is the outcome
that the terminal event announced. -/
structure TaskView.Follows (g : ℕ) (v : TaskView) : Prop where
  book : v.Book g
  straight : ∀ r, v.record = some r → r.FilesStraight
  unallocated : ¬ (0 < g ∧ g ≤ v.counter) → v.stateChanges g = []
  path : 0 < g → g ≤ v.counter → ∃ current, StatePath (v.stateChanges g) current ∧
    (∀ r, v.record = some r → r.generation = g → current = r.current) ∧
    ∀ outcome : Outcome, current = some outcome.state → v.terminalOutcomes g = [outcome]

theorem TaskView.Follows.legal (h : v.Follows g) : v.LegalPath g where
  path := by
    by_cases hg : 0 < g ∧ g ≤ v.counter
    · obtain ⟨current, hpath, _⟩ := h.path hg.1 hg.2
      exact Or.inr ⟨current, hpath⟩
    · exact Or.inl (h.unallocated hg)
  outcome change hmem outcome hstate := by
    by_cases hg : 0 < g ∧ g ≤ v.counter
    · obtain ⟨current, hpath, _, houtcome⟩ := h.path hg.1 hg.2
      have hevents := houtcome outcome (hpath.terminal hmem hstate outcome.state_terminal)
      refine ⟨fun r hr hg => ?_, fun t ht => ?_⟩
      · have hbook := (h.book.outcome r hr hg).symm.trans hevents
        cases ho : r.outcome <;> simp_all
      · have hbook := (h.book.result t ht).symm.trans hevents
        exact List.singleton_inj.mp hbook
    · rw [h.unallocated hg] at hmem
      exact absurd hmem List.not_mem_nil

theorem stateChanges_created {args : CreateArgs} {replacedTask : Option TaskRecord}
    (hstep : TaskStep env id v (.create args replacedTask) v') (g : ℕ) :
    v'.stateChanges g = v.stateChanges g ++ if v.counter + 1 = g then
      [(none, some (if 0 < args.delay.getD 0 then .delayed else .waiting))] else [] := by
  rw [TaskView.stateChanges, hstep.created.2.2, List.filterMap_append]
  congr 1
  by_cases hg : v.counter + 1 = g <;> cases replacedTask <;>
    simp [TaskAction.createBodies, Event.stateChange, TaskRecord.stamp, newRecord, hg]

/-- A created generation starts its path. -/
theorem TaskStep.follows_create {args : CreateArgs} {replacedTask : Option TaskRecord}
    (hstep : TaskStep env id v (.create args replacedTask) v') (hv : v.Consistent env.now)
    (hargs : args.FilesStraight) (h : v.Follows g) : v'.Follows g := by
  obtain ⟨⟨history, hrecord⟩, hcounter, _⟩ := hstep.created
  have hchanges := stateChanges_created hstep g
  have hevents := terminalOutcomes_created hstep g
  refine ⟨hstep.book hv h.book, fun r' hr' => ?_, fun hg => ?_, fun hpos hle => ?_⟩
  · obtain rfl := Option.some.inj (hrecord.symm.trans hr')
    exact hargs
  · rw [hcounter] at hg
    rw [hchanges, if_neg (by omega), h.unallocated (by omega)]
    rfl
  · by_cases hg : v.counter + 1 = g
    · rw [hchanges, if_pos hg, h.unallocated (by omega), List.nil_append]
      refine ⟨_, .created ?_, fun r' hr' _ => ?_, fun outcome houtcome => ?_⟩
      · split
        · exact Or.inr rfl
        · exact Or.inl rfl
      · obtain rfl := Option.some.inj (hrecord.symm.trans hr')
        have hcurrent : (((newRecord env args (v.counter + 1)).listed (some (TaskAction.firstList args))).withHistory
            history).current = (newRecord env args (v.counter + 1)).state (some (TaskAction.firstList args)) := by
          rw [← TaskRecord.current_listed]
          rfl
        rw [hcurrent, TaskAction.firstList]
        split <;> rfl
      · split at houtcome <;> cases outcome <;> exact absurd houtcome (by simp [Outcome.state])
    · rw [hcounter] at hle
      obtain ⟨current, hpath, _, houtcome⟩ := h.path hpos (by omega)
      rw [hchanges, if_neg hg, List.append_nil, hevents]
      refine ⟨current, hpath, fun r' hr' hg' => ?_, houtcome⟩
      obtain rfl := Option.some.inj (hrecord.symm.trans hr')
      exact absurd hg' hg

theorem TaskView.Follows.of_eq (h : v.Follows g) (hbook : v'.Book g) (hcounter : v'.counter = v.counter)
    (hchanges : v'.stateChanges g = v.stateChanges g) (hevents : v'.terminalOutcomes g = v.terminalOutcomes g)
    (hstraight : ∀ r', v'.record = some r' → r'.FilesStraight)
    (hrecord : ∀ r', v'.record = some r' → r'.generation ≠ g) : v'.Follows g where
  book := hbook
  straight := hstraight
  unallocated hg := by
    rw [hcounter] at hg
    rw [hchanges, h.unallocated hg]
  path hpos hle := by
    rw [hcounter] at hle
    obtain ⟨current, hpath, _, houtcome⟩ := h.path hpos hle
    rw [hchanges, hevents]
    exact ⟨current, hpath, fun r' hr' hg => absurd hg (hrecord r' hr'), houtcome⟩

theorem TaskStep.follows (hstep : TaskStep env id v a v') (hv : v.Consistent env.now)
    (hargs : ∀ args replacedTask, a = .create args replacedTask → args.FilesStraight) (h : v.Follows g) :
    v'.Follows g := by
  by_cases hcreate : ∃ args replacedTask, a = .create args replacedTask
  · obtain ⟨args, replacedTask, rfl⟩ := hcreate
    exact hstep.follows_create hv (hargs args replacedTask rfl) h
  · have hother : ∀ args replacedTask, a ≠ .create args replacedTask := fun args replacedTask h =>
      hcreate ⟨args, replacedTask, h⟩
    have hcounter := hstep.counter hother
    have hbook := hstep.book hv h.book
    cases hr : v.record with
    | none =>
      obtain ⟨hrecord, hlog⟩ := hstep.unrecorded hv hr hother
      exact h.of_eq hbook hcounter (by rw [TaskView.stateChanges, hlog, TaskView.stateChanges])
        (by rw [TaskView.terminalOutcomes, hlog, TaskView.terminalOutcomes])
        (fun r' hr' => absurd (hrecord.symm.trans hr') (by simp)) fun r' hr' => absurd (hrecord.symm.trans hr') (by simp)
    | some r =>
      have hstraight : ∀ r', v'.record = some r' → r'.FilesStraight := fun r' hr' =>
        (hstep.sameOffer hv hr hr').filesStraight (h.straight r hr)
      have hchanges : v'.stateChanges g = v.stateChanges g ++
          ((a.bodies env r).map (r.stamp id)).filterMap (Event.stateChange g) := by
        rw [TaskView.stateChanges, (hstep.accounted hv hr).log, List.filterMap_append]
        rfl
      have hevents := hstep.terminalOutcomes hv hr g
      by_cases hg : r.generation = g
      · subst hg
        obtain ⟨hgeneration, hpos⟩ := hv.generation r hr
        obtain ⟨current, hpath, hcurrent, _⟩ := h.path (hgeneration ▸ hpos) (le_of_eq hgeneration)
        obtain rfl := hcurrent r hr rfl
        obtain ⟨current', hextends⟩ := hstep.extends hv hr (h.straight r hr) hpath
        refine ⟨hbook, hstraight, fun hne => absurd ⟨hgeneration ▸ hpos, le_of_eq (hgeneration.trans hcounter.symm)⟩ hne,
          fun _ _ => ⟨current', ?_, ?_, ?_⟩⟩
        · rw [hchanges]
          exact hextends.path
        · intro r' hr' _
          obtain ⟨r'', history, hnext, rfl⟩ := hstep.record_next hv hr hr'
          exact hextends.record r'' hnext
        · intro outcome houtcome
          have hstored := hextends.outcome outcome houtcome
          rw [hevents, h.book.outcome r hr rfl, if_pos rfl]
          cases hsettles : a.settles with
          | none =>
            rw [hsettles] at hstored
            have ho : r.outcome = some outcome := hstored
            simp [ho]
          | some outcome' =>
            obtain ⟨r₀, hrunning⟩ := hstep.running_of_settles hsettles
            obtain rfl := Option.some.inj (hr.symm.trans hrunning.record)
            rw [hsettles] at hstored
            obtain rfl := Option.some.inj hstored
            simp [hrunning.outcome]
      · refine h.of_eq hbook hcounter ?_ ?_ hstraight fun r' hr' hg' => ?_
        · rw [hchanges, stateChanges_other _ id hg, List.append_nil]
        · rw [hevents, if_neg hg, List.append_nil]
        · exact hg ((hstep.record_outcome hv hr hr').1.symm.trans hg')

end

/-! ### Runs -/

theorem follows_empty (k : TaskKey) (g : ℕ) : (Store.empty.view k).Follows g where
  book := book_empty k g
  straight r hr := absurd hr (by simp [Store.view, Store.empty])
  unallocated _ := by simp [TaskView.stateChanges, Store.view, Store.log, Store.empty, Stream.empty]
  path hpos hle := by
    have hcounter : (Store.empty.view k).counter = 0 := rfl
    omega

/-- Only an offer creates. -/
theorem Op.Allows.of_create {env : Env} {s : Store} {op : Op} {act : EngineAction} (h : op.Allows env s act)
    {k : TaskKey} {args : CreateArgs} {replacedTask : Option TaskRecord}
    (hon : act.on k = some (.create args replacedTask)) : op = .createTask args ∧ (args.queue, args.id) = k := by
  cases act with
  | task k' a =>
    obtain ⟨rfl, rfl⟩ := EngineAction.on_task_eq hon
    rcases h with hsweep | hdoes
    · exact absurd hsweep (by simp [EngineAction.IsSweep])
    · cases op <;> simp [Op.Does, TaskAction.IsFailure, EngineAction.IsRelease, EngineAction.IsRemoval,
        EngineAction.IsForcedRemoval] at hdoes
  | create args' replacedTask' holder =>
    obtain ⟨rfl, hk⟩ : args' = args ∧ (args'.queue, args'.id) = k := by
      simp only [EngineAction.on] at hon
      split at hon
      · next hk => exact ⟨(TaskAction.create.inj (Option.some.inj hon)).1, hk⟩
      · exact absurd hon (by simp)
    rcases h with hsweep | hdoes
    · exact absurd hsweep (by simp [EngineAction.IsSweep])
    · cases op <;> simp [Op.Does, EngineAction.IsRelease, EngineAction.IsRemoval, EngineAction.IsForcedRemoval] at hdoes
      exact ⟨by rw [hdoes], hk⟩
  | drop holder x refiled =>
    obtain h := @EngineAction.IsRelease.on (.drop holder x refiled) trivial _ _ hon
    exact absurd h (by simp)
  | forget x =>
    simp only [EngineAction.on] at hon
    split at hon
    · exact absurd (Option.some.inj hon) (by simp)
    · exact absurd hon (by simp)
  | start | pop | note | acquire | tick => exact absurd hon (by simp [EngineAction.on])

theorem run_follows {calls : List Call} {e : Engine} (h : engine.Run calls e) {k : TaskKey}
    (hstraight : ∀ c ∈ calls, c.op.FilesStraight k) (g : ℕ) : (e.store.view k).Follows g := by
  refine run_preserves_of h hstraight (I := fun _ s => (s.view k).Follows g) (follows_empty k g) ?_
  intro env op m b s act b' s' hop hact hs hfollows hstep
  rcases hstep.view k with ⟨_, hview⟩ | ⟨a, hon, htask⟩
  · rwa [hview]
  · refine htask.follows (hs.views k) (fun args replacedTask heq => ?_) hfollows
    subst heq
    obtain ⟨rfl, hk⟩ := hact.of_create hon
    exact hop hk

/-- As long as no offer of an id files an outcome under the other one, the moves of its generations form legal
paths. -/
theorem run_legalPath {calls : List Call} {e : Engine} (h : engine.Run calls e) {k : TaskKey}
    (hstraight : ∀ c ∈ calls, c.op.FilesStraight k) (g : ℕ) : (e.store.view k).LegalPath g :=
  (run_follows h hstraight g).legal

/-- A delayed task that failed once, was retried and succeeded. -/
theorem run_legalPath_retried : ∃ calls e, engine.Run calls e ∧
    (e.store.view ("mail", "a")).stateChanges 1 =
      [(none, some .delayed), (some .delayed, some .waiting), (some .waiting, some .leased),
        (some .leased, some .retryScheduled), (some .retryScheduled, some .waiting), (some .waiting, some .leased),
        (some .leased, some .succeeded)] ∧
    (e.store.view ("mail", "a")).LegalPath 1 := by
  obtain ⟨calls, e, h, hplayed⟩ := @play_run
    [(.at 1, .createTask { CreateArgs.default "mail" "a" with delay := some 5, onSuccessPolicy := .markAsSuccess }),
      (.at 7, .takeTask "mail" "first" (some 30000)), (.at 8, .writeError "mail" "first" "a" .nil (some 20)),
      (.at 21, .takeTask "mail" "second" (some 30000)), (.at 22, .writeSuccess "mail" "second" "a" "sent")]
    (fun calls e => decide ((e.store.view ("mail", "a")).stateChanges 1 =
      [(none, some .delayed), (some .delayed, some .waiting), (some .waiting, some .leased),
        (some .leased, some .retryScheduled), (some .retryScheduled, some .waiting), (some .waiting, some .leased),
        (some .leased, some .succeeded)]) && calls.all fun c => match c.op with
          | .createTask a => decide a.FilesStraight
          | _ => true) (by decide +kernel)
  obtain ⟨hchanges, hall⟩ := Bool.and_eq_true_iff.mp hplayed
  refine ⟨calls, e, h, of_decide_eq_true hchanges, run_legalPath h (fun c hc => ?_) 1⟩
  have hc' := List.all_eq_true.mp hall c hc
  cases hop : c.op with
  | createTask a =>
    rw [hop] at hc'
    exact fun _ => of_decide_eq_true hc'
  | _ => trivial

/-- A success that its policy files among the failures is published as a failure. -/
theorem not_legalPath_of_crossed : ¬ ∀ calls e, engine.Run calls e → ∀ k g, (e.store.view k).LegalPath g := by
  intro hlegal
  obtain ⟨calls, e, h, hplayed⟩ := @play_run
    [(.at 1, .createTask { CreateArgs.default "mail" "a" with onSuccessPolicy := .markAsFailure }),
      (.at 2, .takeTask "mail" "token" (some 30000)), (.at 3, .writeSuccess "mail" "token" "a" "sent")]
    (fun _ e => decide ((some ExecutionState.leased, some ExecutionState.failed) ∈
        (e.store.view ("mail", "a")).stateChanges 1) &&
      (e.store.task ("mail", "a")).any fun r => r.generation = 1 ∧ r.outcome = some .success) (by decide +kernel)
  obtain ⟨hmem, hrecord⟩ := Bool.and_eq_true_iff.mp hplayed
  obtain ⟨r, hr, hstored⟩ := (Option.any_eq_true _ _).mp hrecord
  obtain ⟨hg, ho⟩ := of_decide_eq_true hstored
  have hfailed := ((hlegal calls e h ("mail", "a") 1).outcome _ (of_decide_eq_true hmem) .failure rfl).1 r hr hg
  exact absurd (ho.symm.trans hfailed) (by simp)

end EffectMQ
