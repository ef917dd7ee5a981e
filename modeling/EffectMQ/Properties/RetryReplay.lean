import EffectMQ.TaskQueue.RetrySchedule

/-!
# Replaying a retry schedule

The replay of a built schedule reads off, failure by failure, how the schedule inside answers and what the predicates and
the cap say. It is undefined from the first failure on that one of them stops at, and it decides as one live schedule that
is stepped after each failure.
-/

namespace EffectMQ

namespace Stepper

variable {I : Type} (m : Stepper I) {σ : m.State} {last : Delay} {time : Millis} {errors later : List (Failure I)}
  {failure : StepFailure}

/-- A stepper that has stopped answers as it stopped. -/
theorem answerFrom_append (hlast : last ≠ .done) (h : ¬ GoesOn (m.answerFrom σ last errors)) :
    m.answerFrom σ last (errors ++ later) = m.answerFrom σ last errors := by
  induction errors generalizing σ last with
  | nil => exact absurd ⟨last, rfl, hlast⟩ h
  | cons x errors ih =>
    obtain ⟨timestamp, error⟩ := x
    simp only [List.cons_append, answerFrom] at h ⊢
    cases hstep : m.step σ timestamp error with
    | error failure => rfl
    | ok next =>
      obtain ⟨σ', delay⟩ := next
      rw [hstep] at h
      cases delay with
      | done => rfl
      | span delay => exact ih (by simp) h
      | forever => exact ih (by simp) h

/-- A replay that gives a time has gone on after every failure. -/
theorem goesOn_of_runFrom (hlast : last ≠ .done) {result : Millis} (h : m.runFrom σ time errors = .ok (some result)) :
    GoesOn (m.answerFrom σ last errors) := by
  induction errors generalizing σ last time with
  | nil => exact ⟨last, rfl, hlast⟩
  | cons x errors ih =>
    obtain ⟨timestamp, error⟩ := x
    simp only [runFrom, answerFrom] at h ⊢
    cases hstep : m.step σ timestamp error with
    | error failure => simp [hstep] at h
    | ok next =>
      obtain ⟨σ', delay⟩ := next
      rw [hstep] at h
      cases delay with
      | done => simp at h
      | span delay =>
        dsimp only at h ⊢
        split at h
        · exact absurd h (by simp)
        · exact ih (by simp) h
      | forever => simp [runTime] at h

/-- What a replay makes of the answer to its last failure. -/
def verdict (timestamp : Millis) (answer : Except StepFailure Delay) : Except StepFailure (Option Millis) :=
  match answer with
  | .error failure => .error failure
  | .ok delay => .ok ((runTime timestamp delay).map some)

theorem runTime_eq_some {timestamp : Millis} {delay : Delay} {time : ℚ} (h : runTime timestamp delay = some time) :
    ∃ t d, timestamp = some t ∧ delay = .span d ∧ time = t + d := by
  cases delay with
  | done => exact absurd h (by simp [runTime])
  | forever => exact absurd h (by simp [runTime])
  | span d =>
    obtain ⟨t, rfl, hsafe⟩ := Option.bind_eq_some_iff.mp h
    split at hsafe
    · exact absurd hsafe (by simp)
    · exact ⟨t, d, rfl, rfl, (Option.some.inj hsafe).symm⟩

/-- One failure more: a replay that has stopped stays as it is, any other goes by the answer to the last failure. -/
theorem runFrom_append (hlast : last ≠ .done) (timestamp : Millis) (error : I) :
    m.runFrom σ time (errors ++ [(timestamp, error)]) =
      match m.runFrom σ time errors with
      | .ok (some _) => verdict timestamp (m.answerFrom σ last (errors ++ [(timestamp, error)]))
      | stopped => stopped := by
  induction errors generalizing σ last time with
  | nil =>
    simp only [List.nil_append, runFrom, answerFrom]
    cases hstep : m.step σ timestamp error with
    | error failure => rfl
    | ok next =>
      obtain ⟨σ', delay⟩ := next
      cases delay with
      | done => rfl
      | forever => rfl
      | span delay =>
        simp only [verdict]
        cases runTime timestamp (.span delay) <;> rfl
  | cons x errors ih =>
    obtain ⟨timestamp', error'⟩ := x
    simp only [List.cons_append, runFrom, answerFrom]
    cases hstep : m.step σ timestamp' error' with
    | error failure => rfl
    | ok next =>
      obtain ⟨σ', delay⟩ := next
      cases delay with
      | done => rfl
      | forever => rfl
      | span delay =>
        dsimp only
        cases runTime timestamp' (.span delay) with
        | none => rfl
        | some t => exact ih (by simp)

theorem nextRunAt_append (createdAt timestamp : Millis) (error : I) :
    m.nextRunAt createdAt (errors ++ [(timestamp, error)]) =
      match m.nextRunAt createdAt errors with
      | .ok (some _) => verdict timestamp (m.answer (errors ++ [(timestamp, error)]))
      | stopped => stopped :=
  m.runFrom_append (by simp) timestamp error

theorem goesOn_of_nextRunAt {createdAt result : Millis} (h : m.nextRunAt createdAt errors = .ok (some result)) :
    GoesOn (m.answer errors) :=
  m.goesOn_of_runFrom (by simp) h

theorem answer_append (h : ¬ GoesOn (m.answer errors)) : m.answer (errors ++ later) = m.answer errors :=
  m.answerFrom_append (by simp) h

end Stepper

/-! ### The answers of a built schedule -/

namespace RetryOptions

variable {I : Type} {lib : ScheduleLibrary I} (o : RetryOptions lib)

/-- The schedule inside, stepped on its own. -/
def inner : Stepper I := lib.toStep (o.schedule.getD lib.forever)

def built : Stepper I := lib.toStep (buildFromOptions o)

/-- What the predicates and the cap say at a failure. -/
def whileCheck (error : I) : Except StepFailure Bool := o.while_.elim (.ok true) fun whileFn => whileFn error

def untilCheck (error : I) : Except StepFailure Bool :=
  o.until_.elim (.ok true) fun untilFn => (untilFn error).map fun value => !value

def timesCheck (attempt : ℕ) : Bool := o.times.all fun times => decide (((attempt : ℚ) : WithTop ℚ) ≤ times)

/-- The answer of the built schedule at a failure, read off from the answer inside. -/
def admitted (earlier : List (Failure I)) (failure : Failure I) : Except StepFailure Delay :=
  filtered (filtered (filtered (o.inner.answer (earlier ++ [failure])) (o.whileCheck failure.2)) (o.untilCheck failure.2))
    (.ok (o.timesCheck (earlier.length + 1)))

end RetryOptions

section

variable {I : Type} {lib : ScheduleLibrary I} {answer : Except StepFailure Delay} {check : Except StepFailure Bool}

theorem filtered_true (answer : Except StepFailure Delay) : filtered answer (.ok true) = answer := by
  cases answer with
  | error failure => rfl
  | ok delay => cases delay <;> rfl

theorem goesOn_of_filtered (h : GoesOn (filtered answer check)) : GoesOn answer := by
  obtain ⟨delay, heq, hne⟩ := h
  cases answer with
  | error failure => exact absurd heq (by simp [filtered])
  | ok delay' =>
    refine ⟨delay', rfl, ?_⟩
    rintro rfl
    exact hne (Except.ok.inj heq).symm

/-- A schedule whose answers are those of another one, filtered. -/
def Filters (outer inner : Stepper I) (check : List (Failure I) → Failure I → Except StepFailure Bool) : Prop :=
  ∀ earlier failure, GoesOn (outer.answer earlier) →
    outer.answer (earlier ++ [failure]) = filtered (inner.answer (earlier ++ [failure])) (check earlier failure)

theorem filters_refl (m : Stepper I) : Filters m m fun _ _ => .ok true :=
  fun _ _ _ => (filtered_true _).symm

/-- What goes on under a filter goes on. -/
theorem Filters.goesOn {outer inner : Stepper I} {check : List (Failure I) → Failure I → Except StepFailure Bool}
    (h : Filters outer inner check) {errors : List (Failure I)} (hgoes : GoesOn (outer.answer errors)) :
    GoesOn (inner.answer errors) := by
  induction errors using List.reverseRecOn with
  | nil => exact ⟨_, rfl, by simp⟩
  | append_singleton earlier failure _ =>
    have hearlier : GoesOn (outer.answer earlier) := by
      by_contra hstopped
      rw [outer.answer_append hstopped] at hgoes
      exact hstopped hgoes
    rw [h earlier failure hearlier] at hgoes
    exact goesOn_of_filtered hgoes

variable (hlib : lib.Lawful) (o : RetryOptions lib)

include hlib

/-- A schedule with an optional filter. -/
theorem filters_option {α : Type} (option : Option α) (predicate : α → I → ℕ → Except StepFailure Bool)
    (schedule : lib.Schedule) :
    Filters (lib.toStep (option.elim schedule fun x => lib.while_ schedule (predicate x))) (lib.toStep schedule)
      fun earlier failure => option.elim (.ok true) fun x => predicate x failure.2 (earlier.length + 1) := by
  cases option with
  | none => exact filters_refl _
  | some x => exact fun earlier failure hgoes => hlib.while_ schedule (predicate x) earlier failure.1 failure.2 hgoes

omit hlib in
theorem buildFromOptions_eq : ∃ first second,
    first = o.while_.elim (lib.passthrough (o.schedule.getD lib.forever))
      (fun whileFn => lib.while_ (lib.passthrough (o.schedule.getD lib.forever)) fun input _ => whileFn input) ∧
    second = o.until_.elim first (fun untilFn => lib.while_ first fun input _ => (untilFn input).map fun value => !value) ∧
    buildFromOptions o = o.times.elim second fun times => lib.while_ second fun _ attempt =>
      .ok (decide (((attempt : ℚ) : WithTop ℚ) ≤ times)) := by
  refine ⟨_, _, rfl, rfl, ?_⟩
  obtain ⟨schedule, whileFn, untilFn, times⟩ := o
  cases whileFn <;> cases untilFn <;> cases times <;> rfl

theorem answer_built {earlier : List (Failure I)} {failure : Failure I} (hgoes : GoesOn (o.built.answer earlier)) :
    o.built.answer (earlier ++ [failure]) = o.admitted earlier failure ∧ GoesOn (o.inner.answer earlier) := by
  obtain ⟨first, second, hfirst, hsecond, hbuild⟩ := buildFromOptions_eq o
  have hwhile := filters_option hlib o.while_ (fun whileFn input _ => whileFn input)
    (lib.passthrough (o.schedule.getD lib.forever))
  have huntil := filters_option hlib o.until_ (fun untilFn input _ => (untilFn input).map fun value => !value) first
  have htimes := filters_option hlib o.times
    (fun times _ attempt => .ok (decide (((attempt : ℚ) : WithTop ℚ) ≤ times))) second
  rw [← hfirst] at hwhile
  rw [← hsecond] at huntil
  rw [← hbuild] at htimes
  have hsecond_goes := htimes.goesOn hgoes
  have hfirst_goes := huntil.goesOn hsecond_goes
  have hinner_goes := hwhile.goesOn hfirst_goes
  refine ⟨?_, by rwa [hlib.passthrough] at hinner_goes⟩
  rw [RetryOptions.built, htimes _ _ hgoes, huntil _ _ hsecond_goes, hwhile _ _ hfirst_goes, hlib.passthrough]
  have hcheck : (o.times.elim (.ok true) fun times =>
      .ok (decide ((((earlier.length + 1 : ℕ) : ℚ) : WithTop ℚ) ≤ times)) : Except StepFailure Bool) =
      .ok (o.timesCheck (earlier.length + 1)) := by
    unfold RetryOptions.timesCheck
    cases o.times <;> rfl
  exact congrArg (filtered _) hcheck

/-- One failure more of a replay, read off from the schedule inside. -/
theorem nextRunAt_built (createdAt : Millis) (earlier : List (Failure I)) (failure : Failure I) :
    o.built.nextRunAt createdAt (earlier ++ [failure]) =
      match o.built.nextRunAt createdAt earlier with
      | .ok (some _) => Stepper.verdict failure.1 (o.admitted earlier failure)
      | stopped => stopped := by
  rw [show failure = (failure.1, failure.2) from rfl, Stepper.nextRunAt_append]
  cases h : o.built.nextRunAt createdAt earlier with
  | error failure => rfl
  | ok result =>
    cases result with
    | none => rfl
    | some result =>
      dsimp only
      rw [(answer_built hlib o (o.built.goesOn_of_nextRunAt h)).1]

end

/-! ### Where a replay stops -/

namespace RetryOptions

variable {I : Type} {lib : ScheduleLibrary I} (o : RetryOptions lib)

/-- A failure that the policy stops at: the schedule inside is exhausted, a predicate says so, the attempts are used up, or
the time to run at is no finite and safe number. -/
inductive Stops (earlier : List (Failure I)) (failure : Failure I) : Prop
  | exhausted (h : o.inner.answer (earlier ++ [failure]) = .ok .done)
  | while_ {whileFn : I → Except StepFailure Bool} (ho : o.while_ = some whileFn) (h : whileFn failure.2 = .ok false)
  | until_ {untilFn : I → Except StepFailure Bool} (ho : o.until_ = some untilFn) (h : untilFn failure.2 = .ok true)
  | times {times : WithTop ℚ} (ho : o.times = some times) (h : times < (((earlier.length + 1 : ℕ) : ℚ) : WithTop ℚ))
  | unsafeTime {delay : Delay} (h : o.inner.answer (earlier ++ [failure]) = .ok delay) (hne : delay ≠ .done)
      (htime : Stepper.runTime failure.1 delay = none)

/-- A failure at which an effect of the policy fails: a step of the schedule inside, or a predicate that is asked. -/
inductive Breaks (earlier : List (Failure I)) (failure : Failure I) (cause : StepFailure) : Prop
  | schedule (h : o.inner.answer (earlier ++ [failure]) = .error cause)
  | while_ {whileFn : I → Except StepFailure Bool} (hgoes : GoesOn (o.inner.answer (earlier ++ [failure])))
      (ho : o.while_ = some whileFn) (h : whileFn failure.2 = .error cause)
  | until_ {untilFn : I → Except StepFailure Bool} (hgoes : GoesOn (o.inner.answer (earlier ++ [failure])))
      (hwhile : ∀ whileFn, o.while_ = some whileFn → whileFn failure.2 = .ok true) (ho : o.until_ = some untilFn)
      (h : untilFn failure.2 = .error cause)

end RetryOptions

section

variable {I : Type} {lib : ScheduleLibrary I} {o : RetryOptions lib} {earlier : List (Failure I)} {failure : Failure I}

theorem whileCheck_eq {error : I} {result : Except StepFailure Bool} (hne : result ≠ .ok true) :
    o.whileCheck error = result ↔ ∃ whileFn, o.while_ = some whileFn ∧ whileFn error = result := by
  unfold RetryOptions.whileCheck
  cases o.while_ with
  | none => simpa using hne.symm
  | some whileFn => simp

theorem whileCheck_true {error : I} :
    o.whileCheck error = .ok true ↔ ∀ whileFn, o.while_ = some whileFn → whileFn error = .ok true := by
  unfold RetryOptions.whileCheck
  cases o.while_ <;> simp

theorem untilCheck_error {error : I} {cause : StepFailure} :
    o.untilCheck error = .error cause ↔ ∃ untilFn, o.until_ = some untilFn ∧ untilFn error = .error cause := by
  unfold RetryOptions.untilCheck
  cases o.until_ with
  | none => simp
  | some untilFn => cases h : untilFn error <;> simp [Except.map, h]

theorem untilCheck_false {error : I} :
    o.untilCheck error = .ok false ↔ ∃ untilFn, o.until_ = some untilFn ∧ untilFn error = .ok true := by
  unfold RetryOptions.untilCheck
  cases o.until_ with
  | none => simp
  | some untilFn => cases h : untilFn error <;> simp [Except.map, h]

theorem timesCheck_false {attempt : ℕ} :
    o.timesCheck attempt = false ↔ ∃ times, o.times = some times ∧ times < ((attempt : ℚ) : WithTop ℚ) := by
  unfold RetryOptions.timesCheck
  cases o.times <;> simp

theorem breaks_iff {cause : StepFailure} : o.Breaks earlier failure cause ↔
    o.inner.answer (earlier ++ [failure]) = .error cause ∨ (GoesOn (o.inner.answer (earlier ++ [failure])) ∧
      (o.whileCheck failure.2 = .error cause ∨
        o.whileCheck failure.2 = .ok true ∧ o.untilCheck failure.2 = .error cause)) := by
  rw [whileCheck_eq (by simp), whileCheck_true, untilCheck_error]
  constructor
  · rintro (h | ⟨hgoes, ho, h⟩ | ⟨hgoes, hwhile, ho, h⟩)
    · exact Or.inl h
    · exact Or.inr ⟨hgoes, Or.inl ⟨_, ho, h⟩⟩
    · exact Or.inr ⟨hgoes, Or.inr ⟨hwhile, _, ho, h⟩⟩
  · rintro (h | ⟨hgoes, ⟨_, ho, h⟩ | ⟨hwhile, _, ho, h⟩⟩)
    · exact .schedule h
    · exact .while_ hgoes ho h
    · exact .until_ hgoes hwhile ho h

theorem stops_iff : o.Stops earlier failure ↔
    o.inner.answer (earlier ++ [failure]) = .ok .done ∨ o.whileCheck failure.2 = .ok false ∨
      o.untilCheck failure.2 = .ok false ∨ o.timesCheck (earlier.length + 1) = false ∨
      ∃ delay, o.inner.answer (earlier ++ [failure]) = .ok delay ∧ delay ≠ .done ∧
        Stepper.runTime failure.1 delay = none := by
  rw [whileCheck_eq (by simp), untilCheck_false, timesCheck_false]
  constructor
  · rintro (h | ⟨ho, h⟩ | ⟨ho, h⟩ | ⟨ho, h⟩ | ⟨h, hne, htime⟩)
    · exact Or.inl h
    · exact Or.inr (Or.inl ⟨_, ho, h⟩)
    · exact Or.inr (Or.inr (Or.inl ⟨_, ho, h⟩))
    · exact Or.inr (Or.inr (Or.inr (Or.inl ⟨_, ho, h⟩)))
    · exact Or.inr (Or.inr (Or.inr (Or.inr ⟨_, h, hne, htime⟩)))
  · rintro (h | ⟨_, ho, h⟩ | ⟨_, ho, h⟩ | ⟨_, ho, h⟩ | ⟨_, h, hne, htime⟩)
    · exact .exhausted h
    · exact .while_ ho h
    · exact .until_ ho h
    · exact .times ho h
    · exact .unsafeTime h hne htime

/-- What a replay makes of a failure that it gets to. -/
inductive Decided (o : RetryOptions lib) (earlier : List (Failure I)) (failure : Failure I) : Except StepFailure (Option Millis) → Prop
  | broke {cause : StepFailure} (h : o.Breaks earlier failure cause) : Decided o earlier failure (.error cause)
  | stopped (hbreaks : ∀ cause, ¬ o.Breaks earlier failure cause) (h : o.Stops earlier failure) :
      Decided o earlier failure (.ok none)
  | runs {delay : Delay} {time : ℚ} (hbreaks : ∀ cause, ¬ o.Breaks earlier failure cause)
      (hstops : ¬ o.Stops earlier failure) (h : o.inner.answer (earlier ++ [failure]) = .ok delay)
      (htime : Stepper.runTime failure.1 delay = some time) : Decided o earlier failure (.ok (some (some time)))

theorem verdict_decided (o : RetryOptions lib) (earlier : List (Failure I)) (failure : Failure I) :
    Decided o earlier failure (Stepper.verdict failure.1 (o.admitted earlier failure)) := by
  unfold RetryOptions.admitted
  cases hinner : o.inner.answer (earlier ++ [failure]) with
  | error cause => exact .broke (.schedule hinner)
  | ok delay =>
    by_cases hdone : delay = .done
    · subst hdone
      refine .stopped (fun cause hbreaks => ?_) (.exhausted hinner)
      have hnot : ¬ GoesOn (.ok .done) := fun ⟨_, heq, hne⟩ => hne (Except.ok.inj heq).symm
      simp [breaks_iff, hinner, hnot] at hbreaks
    have hgoes : GoesOn (.ok delay) := ⟨delay, rfl, hdone⟩
    have hfiltered : (∀ cause, filtered (.ok delay) (.error cause) = .error cause) ∧
        filtered (.ok delay) (.ok true) = .ok delay ∧ filtered (.ok delay) (.ok false) = .ok .done := by
      cases delay with
      | done => exact absurd rfl hdone
      | span | forever => exact ⟨fun _ => rfl, rfl, rfl⟩
    obtain ⟨hbroken, hgoing, hended⟩ := hfiltered
    have hdoneFiltered : ∀ check, filtered (.ok .done) check = .ok .done := fun _ => rfl
    have hbreaks : ∀ cause, o.Breaks earlier failure cause ↔ o.whileCheck failure.2 = .error cause ∨
        o.whileCheck failure.2 = .ok true ∧ o.untilCheck failure.2 = .error cause := fun cause => by
      simp [breaks_iff, hinner, hgoes]
    cases hwhile : o.whileCheck failure.2 with
    | error cause =>
      rw [hbroken]
      exact .broke ((hbreaks cause).mpr (Or.inl hwhile))
    | ok goesOn =>
      cases goesOn with
      | false =>
        rw [hended, hdoneFiltered, hdoneFiltered]
        exact .stopped (by simp [hbreaks, hwhile]) (stops_iff.mpr (Or.inr (Or.inl hwhile)))
      | true =>
        cases huntil : o.untilCheck failure.2 with
        | error cause =>
          rw [hgoing, hbroken]
          exact .broke ((hbreaks cause).mpr (Or.inr ⟨hwhile, huntil⟩))
        | ok goesOn =>
          have hnot : ∀ cause, ¬ o.Breaks earlier failure cause := by simp [hbreaks, hwhile, huntil]
          cases goesOn with
          | false =>
            rw [hgoing, hended]
            exact .stopped hnot (stops_iff.mpr (Or.inr (Or.inr (Or.inl huntil))))
          | true =>
            rw [hgoing, hgoing]
            cases htimes : o.timesCheck (earlier.length + 1) with
            | false =>
              rw [hended]
              exact .stopped hnot (stops_iff.mpr (Or.inr (Or.inr (Or.inr (Or.inl htimes)))))
            | true =>
              rw [hgoing]
              cases htime : Stepper.runTime failure.1 delay with
              | none =>
                simp only [Stepper.verdict, htime, Option.map_none]
                exact .stopped hnot (.unsafeTime hinner hdone htime)
              | some time =>
                simp only [Stepper.verdict, htime, Option.map_some]
                refine .runs hnot (fun hstops => ?_) hinner htime
                simp [stops_iff, hinner, hdone, hwhile, huntil, htimes, htime] at hstops

theorem Decided.runs_iff {result : Except StepFailure (Option Millis)} (h : Decided o earlier failure result) :
    (∃ time, result = .ok (some time)) ↔ ¬ o.Stops earlier failure ∧ ∀ cause, ¬ o.Breaks earlier failure cause := by
  cases h with
  | @broke cause h =>
    constructor
    · simp
    · exact fun ⟨_, hbreaks⟩ => absurd h (hbreaks cause)
  | stopped hbreaks h => simp [h]
  | runs hbreaks hstops h htime => simp [hbreaks, hstops]

theorem Decided.stopped_iff {result : Except StepFailure (Option Millis)} (h : Decided o earlier failure result) :
    result = .ok none ↔ o.Stops earlier failure ∧ ∀ cause, ¬ o.Breaks earlier failure cause := by
  cases h with
  | @broke cause h =>
    constructor
    · simp
    · exact fun ⟨_, hbreaks⟩ => absurd h (hbreaks cause)
  | stopped hbreaks h => simp [h, hbreaks]
  | runs hbreaks hstops h htime => simp [hstops]

/-- No failure of a list breaks the policy. -/
def Unbroken (o : RetryOptions lib) (errors : List (Failure I)) : Prop :=
  ∀ earlier failure, earlier ++ [failure] <+: errors → ∀ cause, ¬ o.Breaks earlier failure cause

/-- The policy stops at some failure of a list, and none breaks it before that. -/
def StopsWithin (o : RetryOptions lib) (errors : List (Failure I)) : Prop :=
  ∃ earlier failure, earlier ++ [failure] <+: errors ∧ o.Stops earlier failure ∧ Unbroken o (earlier ++ [failure])

/-- A list that the replay gets to the end of. -/
def Passes (o : RetryOptions lib) (errors : List (Failure I)) : Prop :=
  ∀ earlier failure, earlier ++ [failure] <+: errors → ¬ o.Stops earlier failure ∧ ∀ cause, ¬ o.Breaks earlier failure cause

theorem passes_append : Passes o (earlier ++ [failure]) ↔
    Passes o earlier ∧ ¬ o.Stops earlier failure ∧ ∀ cause, ¬ o.Breaks earlier failure cause := by
  constructor
  · exact fun h => ⟨fun _ _ hsome => h _ _ (hsome.trans (List.prefix_append _ _)), h _ _ (List.prefix_refl _)⟩
  · intro ⟨hearlier, hlast⟩ before x hsome
    rcases List.prefix_concat_iff.mp hsome with heq | hsome
    · obtain ⟨rfl, hx⟩ := List.append_inj' heq rfl
      obtain rfl := List.singleton_inj.mp hx
      exact hlast
    · exact hearlier before x hsome

theorem unbroken_append : Unbroken o (earlier ++ [failure]) ↔
    Unbroken o earlier ∧ ∀ cause, ¬ o.Breaks earlier failure cause := by
  constructor
  · exact fun h => ⟨fun _ _ hsome => h _ _ (hsome.trans (List.prefix_append _ _)), h _ _ (List.prefix_refl _)⟩
  · intro ⟨hearlier, hlast⟩ before x hsome
    rcases List.prefix_concat_iff.mp hsome with heq | hsome
    · obtain ⟨rfl, hx⟩ := List.append_inj' heq rfl
      obtain rfl := List.singleton_inj.mp hx
      exact hlast
    · exact hearlier before x hsome

theorem stopsWithin_append : StopsWithin o (earlier ++ [failure]) ↔
    StopsWithin o earlier ∨ o.Stops earlier failure ∧ Unbroken o (earlier ++ [failure]) := by
  constructor
  · rintro ⟨before, x, hsome, hstops⟩
    rcases List.prefix_concat_iff.mp hsome with heq | hsome
    · obtain ⟨rfl, hx⟩ := List.append_inj' heq rfl
      obtain rfl := List.singleton_inj.mp hx
      exact Or.inr hstops
    · exact Or.inl ⟨before, x, hsome, hstops⟩
  · rintro (⟨before, x, hsome, hstops⟩ | hstops)
    · exact ⟨before, x, hsome.trans (List.prefix_append _ _), hstops⟩
    · exact ⟨earlier, failure, List.prefix_refl _, hstops⟩

variable (hlib : lib.Lawful) {createdAt : Millis} {errors later : List (Failure I)}

include hlib

/-- A replay gives a time when it gets past every failure. -/
theorem nextRunAt_runs_iff :
    (∃ time, o.built.nextRunAt createdAt errors = .ok (some time)) ↔ Passes o errors := by
  induction errors using List.reverseRecOn with
  | nil => exact ⟨fun _ _ _ h => absurd h (by simp), fun _ => ⟨createdAt, rfl⟩⟩
  | append_singleton earlier failure ih =>
    rw [nextRunAt_built hlib, passes_append, ← ih]
    cases h : o.built.nextRunAt createdAt earlier with
    | error cause => simp
    | ok result =>
      cases result with
      | none => simp
      | some time => simp [(verdict_decided o earlier failure).runs_iff]

theorem nextRunAt_error {cause : StepFailure} (h : o.built.nextRunAt createdAt errors = .error cause) :
    ¬ Unbroken o errors := by
  induction errors using List.reverseRecOn with
  | nil => exact absurd h (by simp [Stepper.nextRunAt, Stepper.runFrom])
  | append_singleton earlier failure ih =>
    rw [nextRunAt_built hlib] at h
    rw [unbroken_append]
    rintro ⟨hearlier, hlast⟩
    cases hresult : o.built.nextRunAt createdAt earlier with
    | error cause' =>
      rw [hresult] at h
      obtain rfl := Except.error.inj h
      exact ih hresult hearlier
    | ok result =>
      rw [hresult] at h
      cases result with
      | none => exact absurd h (by simp)
      | some time =>
        have hdecided := verdict_decided o earlier failure
        dsimp only at h
        rw [h] at hdecided
        cases hdecided with
        | broke hbreaks => exact hlast _ hbreaks

/-- A replay is undefined when the policy stops at a failure. -/
theorem nextRunAt_undefined_iff : o.built.nextRunAt createdAt errors = .ok none ↔ StopsWithin o errors := by
  induction errors using List.reverseRecOn with
  | nil => exact ⟨fun h => absurd h (by simp [Stepper.nextRunAt, Stepper.runFrom]), fun ⟨_, _, h, _⟩ => absurd h (by simp)⟩
  | append_singleton earlier failure ih =>
    rw [nextRunAt_built hlib, stopsWithin_append, ← ih, unbroken_append]
    cases h : o.built.nextRunAt createdAt earlier with
    | error cause => simp [nextRunAt_error hlib h]
    | ok result =>
      cases result with
      | none => simp
      | some time =>
        have hunbroken : Unbroken o earlier := fun _ _ hsome => ((nextRunAt_runs_iff hlib).mp ⟨time, h⟩ _ _ hsome).2
        dsimp only
        rw [(verdict_decided o earlier failure).stopped_iff]
        simp [hunbroken]

end

/-! ### One live schedule -/

namespace Stepper

variable {I : Type} (m : Stepper I)

/-- A live schedule after some failures: how it was stopped, or the state that the next failure steps. -/
def resume (live : Except StepFailure (Option m.State)) (failure : Failure I) :
    Except StepFailure (Option m.State) × Except StepFailure (Option Millis) :=
  match live with
  | .error cause => (.error cause, .error cause)
  | .ok none => (.ok none, .ok none)
  | .ok (some σ) =>
    match m.step σ failure.1 failure.2 with
    | .error cause => (.error cause, .error cause)
    | .ok (_, .done) => (.ok none, .ok none)
    | .ok (σ, delay) =>
      match runTime failure.1 delay with
      | none => (.ok none, .ok none)
      | some time => (.ok (some σ), .ok (some (some time)))

/-- The decisions of one live schedule, stepped after each failure. -/
def decisions (live : Except StepFailure (Option m.State)) : List (Failure I) → List (Except StepFailure (Option Millis))
  | [] => []
  | failure :: errors => (m.resume live failure).2 :: decisions (m.resume live failure).1 errors

/-- The replay of a live schedule. -/
def replay (live : Except StepFailure (Option m.State)) (time : Millis) (errors : List (Failure I)) :
    Except StepFailure (Option Millis) :=
  match live with
  | .error cause => .error cause
  | .ok none => .ok none
  | .ok (some σ) => m.runFrom σ time errors

/-- A replay takes its first failure as a live schedule does. -/
theorem replay_cons (live : Except StepFailure (Option m.State)) (time : Millis) (failure : Failure I) :
    ∃ time', (∀ errors, m.replay live time (failure :: errors) = m.replay (m.resume live failure).1 time' errors) ∧
      (m.resume live failure).2 = m.replay (m.resume live failure).1 time' [] := by
  cases live with
  | error cause => exact ⟨time, fun _ => rfl, rfl⟩
  | ok state =>
    cases state with
    | none => exact ⟨time, fun _ => rfl, rfl⟩
    | some σ =>
      obtain ⟨timestamp, error⟩ := failure
      simp only [replay, resume, runFrom]
      cases hstep : m.step σ timestamp error with
      | error cause => exact ⟨time, fun _ => rfl, rfl⟩
      | ok next =>
        obtain ⟨σ', delay⟩ := next
        cases delay with
        | done => exact ⟨time, fun _ => rfl, rfl⟩
        | forever => exact ⟨time, fun _ => rfl, rfl⟩
        | span delay =>
          dsimp only
          cases runTime timestamp (.span delay) with
          | none => exact ⟨time, fun _ => rfl, rfl⟩
          | some t => exact ⟨some t, fun _ => rfl, rfl⟩

/-- After each failure a live schedule decides as the replay of all failures so far. -/
theorem decisions_eq (live : Except StepFailure (Option m.State)) (time : Millis) (errors : List (Failure I)) :
    m.decisions live errors = errors.inits.tail.map (m.replay live time) := by
  induction errors generalizing live time with
  | nil => rfl
  | cons failure errors ih =>
    obtain ⟨time', hcons, hfirst⟩ := m.replay_cons live time failure
    have hinits : errors.inits = [] :: errors.inits.tail := by cases errors <;> simp
    rw [decisions, ih _ time', List.inits_cons, List.tail_cons, hinits, List.map_cons, List.map_cons, List.map_map,
      hcons [], hfirst, List.tail_cons]
    exact congrArg _ (List.map_congr_left fun k _ => (hcons k).symm)

end Stepper

end EffectMQ
