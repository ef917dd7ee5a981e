import EffectMQ.EventEngine.Calls

/-!
# Executed runs of an event queue

Every call replies, so a list of operations at instants that do not go back is a run.
-/

namespace EffectMQ.EventEngine

open Transition

/-- One call, with the state that it leaves. -/
def answer (state : ℕ × EventStore) (env : EventEnv) (op : EventOp) : EventCall × (ℕ × EventStore) :=
  let result := exec env op state.2
  (⟨env, op, result.1⟩, (env.now, result.2))

/-- The calls of a list in turn. -/
def serve (state : ℕ × EventStore) : List (EventEnv × EventOp) → List EventCall × (ℕ × EventStore)
  | [] => ([], state)
  | (env, op) :: rest =>
    let first := answer state env op
    let last := serve first.2 rest
    (first.1 :: last.1, last.2)

def inOrder (clock : ℕ) : List (EventEnv × EventOp) → Bool
  | [] => true
  | (env, _) :: rest => clock ≤ env.now && inOrder env.now rest

theorem answer_step (state : ℕ × EventStore) (env : EventEnv) (op : EventOp) (h : state.1 ≤ env.now) :
    events.step state (answer state env op).1 (answer state env op).2 := ⟨h, rfl, rfl⟩

theorem serve_path {steps : List (EventEnv × EventOp)} {state : ℕ × EventStore} (h : inOrder state.1 steps = true) :
    events.Path state (serve state steps).1 (serve state steps).2 := by
  induction steps generalizing state with
  | nil => exact .nil
  | cons step rest ih =>
    obtain ⟨env, op⟩ := step
    rw [inOrder, Bool.and_eq_true, decide_eq_true_eq] at h
    exact (System.Path.single (answer_step state env op h.1)).trans (ih h.2)

theorem serve_run {steps : List (EventEnv × EventOp)} (h : inOrder 0 steps = true) :
    events.Run (serve (0, .empty) steps).1 (serve (0, .empty) steps).2 :=
  ⟨(0, .empty), rfl, serve_path h⟩

/-- An instant of a queue that archives what settles for a while. -/
def EventEnv.at (now : ℕ) : EventEnv where
  now := now
  batch := 1
  batch_pos := Nat.one_pos
  policy := { onCompletion := .archive, ttlMs := none, archiveRetentionMs := some 100 }

/-- An event with two recipients, of which one is removed and the other acknowledges. -/
def acknowledgedOnce : List (EventEnv × EventOp) :=
  [(.at 1, .subscribe "a" "g"), (.at 2, .subscribe "b" "h"), (.at 3, .emit "e" "mail" "payload" (some 50)),
    (.at 4, .take "a" "g" "t" 10), (.at 5, .unsubscribe "b" "h"), (.at 6, .acknowledge "e" "a" "g" "t"),
    (.at 7, .get "e"), (.at 120, .maintain)]

end EffectMQ.EventEngine
