import EffectMQ.Lifecycle.Run
import EffectMQ.TaskEngine.Cursor
import EffectMQ.Transition.Rely

/-!
# The engine behind a connection

What a client asks of the engine, and what it gets for it: a reply, the entries of a stream, or nothing. A request without
an answer may have been carried out or not, and the client cannot know.
-/

namespace EffectMQ

open Redis Transition

/-- A request of a client: an invocation, or a read of the events after an id. -/
inductive Query
  | call (op : Op)
  | read (queue : String) (position : StreamId)

inductive Answer
  | reply (reply : Reply)
  | entries (entries : List (StreamId × Event))
  /-- The connection failed. -/
  | lost

/-- A request and what became of it. -/
inductive Observation
  | call (c : Call)
  | read (queue : String) (position : StreamId) (entries : List (StreamId × Event))
  /-- The invocation ran, and its reply was lost. -/
  | unanswered (c : Call)
  /-- The request did not arrive. -/
  | undelivered (query : Query)

namespace Observation

def request : Observation → Query
  | .call c | .unanswered c => .call c.op
  | .read queue position _ => .read queue position
  | .undelivered query => query

def answer : Observation → Answer
  | .call c => .reply c.reply
  | .read _ _ entries => .entries entries
  | .unanswered _ | .undelivered _ => .lost

def call? : Observation → Option Call
  | .call c | .unanswered c => some c
  | .read _ _ _ | .undelivered _ => none

end Observation

/-- The engine, whose streams can be read, behind a connection. -/
def observed : System Engine Observation where
  initial := engine.initial
  step e observation e' :=
    match observation with
    | .call c | .unanswered c => engine.step e c e'
    | .read queue position entries => e' = e ∧ entries = entriesAfter (e.store.events queue).retained position
    | .undelivered _ => e' = e

/-- The invocations that the engine carried out in some moves. -/
def callsIn {ι : Type} (moves : List (Move ι Observation)) : List Call :=
  (moves.filterMap Move.action).filterMap Observation.call?

/-- What a client relies on: the engine moves along a path, and answers from the state that it is in. -/
def engineRely : Rely Engine Query Answer where
  later e e' := ∃ calls, engine.Path e calls e'
  answers e query answer e' :=
    match query, answer with
    | .call op, .reply reply => ∃ c, c.op = op ∧ c.reply = reply ∧ engine.step e c e'
    | .read queue position, .entries entries =>
      e' = e ∧ entries = entriesAfter (e.store.events queue).retained position
    | .call op, .lost => e' = e ∨ ∃ c, c.op = op ∧ engine.step e c e'
    | .read _ _, .lost => e' = e
    | _, _ => False
  refl e := ⟨[], .nil⟩
  trans _ _ _ := fun ⟨_, h⟩ ⟨_, h'⟩ => ⟨_, h.trans h'⟩
  answers_later e query answer e' h := by
    have hstay : e' = e → ∃ calls, engine.Path e calls e' := by
      rintro rfl
      exact ⟨[], .nil⟩
    cases query with
    | call op =>
      cases answer with
      | reply reply =>
        obtain ⟨c, _, _, hstep⟩ := h
        exact ⟨[c], .single hstep⟩
      | entries => exact h.elim
      | lost => exact h.elim hstay fun ⟨c, _, hstep⟩ => ⟨[c], .single hstep⟩
    | read queue position =>
      cases answer with
      | reply => exact h.elim
      | entries entries => exact hstay h.1
      | lost => exact hstay h

section

variable {e e' : Engine} {observation : Observation} {observations : List Observation}

theorem observed_answers (h : observed.step e observation e') :
    engineRely.answers e observation.request observation.answer e' := by
  cases observation with
  | call c => exact ⟨c, rfl, rfl, h⟩
  | read queue position entries => exact h
  | unanswered c => exact Or.inr ⟨c, rfl, h⟩
  | undelivered query =>
    cases query with
    | call op => exact Or.inl h
    | read queue position => exact h

/-- The invocations among observations. -/
theorem observed_path (h : observed.Path e observations e') :
    engine.Path e (observations.filterMap Observation.call?) e' := by
  induction h with
  | nil => exact .nil
  | @snoc observations e' e'' observation _ hstep ih =>
    rw [List.filterMap_append]
    cases observation with
    | call c => exact ih.snoc hstep
    | unanswered c => exact ih.snoc hstep
    | read queue position =>
      obtain ⟨rfl, _⟩ := hstep
      rw [show [Observation.read queue position _].filterMap Observation.call? = [] from rfl, List.append_nil]
      exact ih
    | undelivered query =>
      obtain rfl := hstep
      rw [show [Observation.undelivered query].filterMap Observation.call? = [] from rfl, List.append_nil]
      exact ih

theorem observed_run (h : observed.Run observations e) : engine.Run (observations.filterMap Observation.call?) e := by
  obtain ⟨init, hinit, hpath⟩ := h
  exact ⟨init, hinit, observed_path hpath⟩

/-- A request that was replied to is an invocation that the engine carried out. -/
theorem call_of_reply {op : Op} {reply : Reply} (hrequest : observation.request = .call op)
    (hanswer : observation.answer = .reply reply) : ∃ c, observation = .call c ∧ c.op = op ∧ c.reply = reply := by
  cases observation with
  | call c => exact ⟨c, rfl, Query.call.inj hrequest, Answer.reply.inj hanswer⟩
  | read | unanswered | undelivered => cases hanswer

variable {ι : Type} {moves moves' : List (Move ι Observation)} {i j : ℕ} {c d : Call}

theorem mem_callsIn (h : Move.call i (.call c) ∈ moves) : c ∈ callsIn moves :=
  List.mem_filterMap.mpr ⟨.call c, List.mem_filterMap.mpr ⟨_, h, rfl⟩, rfl⟩

theorem callsIn_append : callsIn (moves ++ moves') = callsIn moves ++ callsIn moves' := by
  simp [callsIn]

theorem callsIn_cons : callsIn (.call i (.call c) :: moves) = c :: callsIn moves := rfl

/-- Of two calls that different processes made one came first. -/
theorem callsIn_ordered (hc : Move.call i (.call c) ∈ moves) (hd : Move.call j (.call d) ∈ moves) (hij : i ≠ j) :
    (∃ before mid after, callsIn moves = before ++ c :: (mid ++ d :: after)) ∨
      ∃ before mid after, callsIn moves = before ++ d :: (mid ++ c :: after) := by
  obtain ⟨before, after, rfl⟩ := List.append_of_mem hc
  rcases List.mem_append.mp hd with hd | hd
  · obtain ⟨before', mid, rfl⟩ := List.append_of_mem hd
    refine Or.inr ⟨callsIn before', callsIn mid, callsIn after, ?_⟩
    rw [callsIn_append, callsIn_append, callsIn_cons, callsIn_cons, List.append_assoc, List.cons_append]
  · rcases List.mem_cons.mp hd with heq | hd
    · exact absurd (Move.call.inj heq).1.symm hij
    · obtain ⟨mid, after', rfl⟩ := List.append_of_mem hd
      refine Or.inl ⟨callsIn before, callsIn mid, callsIn after', ?_⟩
      rw [callsIn_append, callsIn_cons, callsIn_append, callsIn_cons]

/-- A reply that a client got is one to an invocation of its own. -/
theorem logged_call {α : Type} {program : ι → Process Query Answer α} {outside : Observation → Prop}
    {s : Parties Engine ι Query Answer α}
    (h : (parties observed Observation.request Observation.answer program outside).Run moves s)
    {party : Party ι Query Answer α} (hi : s.party i = some party) {op : Op} {reply : Reply}
    (hmem : (Query.call op, Answer.reply reply) ∈ party.log) :
    ∃ c, Move.call i (.call c) ∈ moves ∧ c ∈ callsIn moves ∧ c.op = op ∧ c.reply = reply := by
  obtain ⟨observation, hmove, heq⟩ := party_logged h hi hmem
  obtain ⟨hrequest, hanswer⟩ := Prod.mk.inj heq
  obtain ⟨c, rfl, hop, hreply⟩ := call_of_reply hrequest.symm hanswer.symm
  exact ⟨c, hmove, mem_callsIn hmove, hop, hreply⟩

end

end EffectMQ
