import EffectMQ.Lifecycle.Run

/-!
# Executed runs

The engine is a function of its surroundings, so a list of operations with their surroundings can be executed;
when every one of them replies, under a clock that does not run backwards, the result is a run.
-/

namespace EffectMQ

open Redis Transition

/-- One invocation, when it replies. -/
def perform (e : Engine) (env : Env) (op : Op) : Option (Call × Engine) :=
  if e.clock ≤ env.clock then
    match exec env op e.store with
    | .replied reply s => some (⟨env, op, reply⟩, ⟨env.clock, s⟩)
    | .raised _ _ => none
  else none

/-- The invocations of a list in turn, when all of them reply. -/
def play (e : Engine) : List (Env × Op) → Option (List Call × Engine)
  | [] => some ([], e)
  | (env, op) :: rest =>
    (perform e env op).bind fun first => (play first.2 rest).map fun last => (first.1 :: last.1, last.2)

theorem perform_step {e e' : Engine} {env : Env} {op : Op} {c : Call} (h : perform e env op = some (c, e')) :
    engine.step e c e' := by
  unfold perform at h
  split at h
  · next hclock =>
    split at h
    · next reply s hexec =>
      obtain ⟨rfl, rfl⟩ := Prod.mk.inj (Option.some.inj h)
      exact ⟨hclock, rfl, hexec⟩
    · exact absurd h (by simp)
  · exact absurd h (by simp)

theorem perform_op {e e' : Engine} {env : Env} {op : Op} {c : Call} (h : perform e env op = some (c, e')) :
    c.op = op := by
  unfold perform at h
  split at h
  · split at h
    · obtain ⟨rfl, _⟩ := Prod.mk.inj (Option.some.inj h)
      rfl
    · exact absurd h (by simp)
  · exact absurd h (by simp)

theorem play_path {steps : List (Env × Op)} {e e' : Engine} {calls : List Call}
    (h : play e steps = some (calls, e')) : engine.Path e calls e' := by
  induction steps generalizing e calls with
  | nil =>
    obtain ⟨rfl, rfl⟩ := Prod.mk.inj (Option.some.inj h)
    exact .nil
  | cons step rest ih =>
    obtain ⟨⟨c, e₁⟩, hfirst, h⟩ := Option.bind_eq_some_iff.mp h
    obtain ⟨⟨calls', e₂⟩, hrest, heq⟩ := Option.map_eq_some_iff.mp h
    obtain ⟨rfl, rfl⟩ := Prod.mk.inj heq
    exact (System.Path.single (perform_step hfirst)).trans (ih hrest)

/-- The engine before the first invocation. -/
def Engine.start : Engine := ⟨0, Store.empty⟩

/-- What an executed list of operations shows is true of some run. -/
theorem play_run {steps : List (Env × Op)} {p : List Call → Engine → Bool}
    (h : (play Engine.start steps).any (fun last => p last.1 last.2) = true) :
    ∃ calls e, engine.Run calls e ∧ p calls e = true := by
  obtain ⟨⟨calls, e⟩, hplay, hp⟩ := (Option.any_eq_true _ _).mp h
  exact ⟨calls, e, ⟨Engine.start, rfl, play_path hplay⟩, hp⟩

/-- What two lists of operations, one executed after the other, show is true of some run and a way on from it. -/
theorem play_then {steps steps' : List (Env × Op)} {p : Engine → Engine → Bool}
    (h : (play Engine.start steps).any (fun first => (play first.2 steps').any fun last => p first.2 last.2) = true) :
    ∃ calls e calls' e', engine.Run calls e ∧ engine.Path e calls' e' ∧ p e e' = true := by
  obtain ⟨calls, e, hrun, hlast⟩ := @play_run steps (fun _ e => (play e steps').any fun last => p e last.2) h
  obtain ⟨⟨calls', e'⟩, hplay, hp⟩ := (Option.any_eq_true _ _).mp hlast
  exact ⟨calls, e, calls', e', hrun, play_path hplay, hp⟩

/-- What a reply and the store that comes with it show. -/
def Result.shows (p : Reply → Store → Bool) : Result → Bool
  | .replied reply s => p reply s
  | .raised _ _ => false

theorem Result.replied_of_shows {p : Reply → Store → Bool} {result : Result} (h : result.shows p = true) :
    ∃ reply s, result = .replied reply s ∧ p reply s = true := by
  cases result with
  | replied reply s => exact ⟨reply, s, rfl, h⟩
  | raised message s => exact absurd h (by simp [Result.shows])

/-- The same, with one invocation more. -/
theorem play_step {steps : List (Env × Op)} {env : Env} {op : Op} {p : List Call → Engine → Reply → Store → Bool}
    (h : (play Engine.start steps).any (fun last => decide (last.2.clock ≤ env.clock) &&
      (exec env op last.2.store).shows (p last.1 last.2)) = true) :
    ∃ calls e reply s, engine.Run calls e ∧ engine.step e ⟨env, op, reply⟩ ⟨env.clock, s⟩ ∧ p calls e reply s = true := by
  obtain ⟨calls, e, hrun, hlast⟩ := @play_run steps
    (fun calls e => decide (e.clock ≤ env.clock) && (exec env op e.store).shows (p calls e)) h
  obtain ⟨hclock, hshows⟩ := Bool.and_eq_true_iff.mp hlast
  obtain ⟨reply, s, hexec, hp⟩ := Result.replied_of_shows hshows
  exact ⟨calls, e, reply, s, hrun, ⟨of_decide_eq_true hclock, rfl, hexec⟩, hp⟩

/-- Surroundings at a clock: the default batch, and the first choice wherever Redis chooses. -/
def Env.at (clock : ℕ) : Env where
  clock := clock
  debugMode := false
  maintenanceBatchSize := 100
  batch_pos := by decide
  spop := RandomPop.first TaskIdentity TaskIdentity
  trimByLength _ _ := 0
  trimById _ _ := 0

/-- An offer of an id with the default options of a queue. -/
def CreateArgs.default (queue id : String) : CreateArgs where
  queue := queue
  throwOnExists := false
  id := id
  name := queue
  payload := ""
  delay := some 0
  maxRetries := some (-1)
  onSuccessPolicy := .delete
  onFailurePolicy := .delete
  retentionHolder := none
  creator := none
  onDuplicate := .returnExisting
  maxStalledCount := some 1
  schemaId := none
  maxErrorEntries := some 100
  maxRelationships := some 1000
  maxEventEntries := some 10000
  taskRecordRetentionMs := some 604800000
  resultRetentionMs := some 86400000
  terminalIndexRetentionMs := some 604800000
  deadLetterRetentionMs := some 2592000000
  eventRetentionMs := some 604800000
  historyEnabled := false
  maxHistoryEntries := some 0

end EffectMQ
