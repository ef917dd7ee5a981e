import EffectMQ.Transition.Process

/-!
# Processes in the service of others

A process may be run for its result only: its requests are put as other requests, and beside it goes a fiber that repeats a
request until an answer ends both. Where the process comes to its result, it did so by answers of its own.
-/

namespace Transition

namespace Process

variable {Q Q' R R' α β ε : Type}

/-- A process whose requests are answered at once or put as other requests. -/
def translate (put : Q → R ⊕ Q') (tell : R' → R) : Process Q R α → Process Q' R' α
  | .done a => .done a
  | .ask q next =>
    match put q with
    | .inl r => (next r).translate put tell
    | .inr q' => .ask q' fun r' => (next (tell r')).translate put tell

/-- A process beside a fiber that repeats a request and never ends well: the schedule says which of them asks next, and the
process goes on alone when it is used up. -/
def supervised (beat : β → Q) (heard : β → R → Except ε β) (p : Process Q R α) (b : β) :
    List Bool → Process Q R (Except ε α)
  | [] => p.mapResult .ok
  | true :: schedule =>
    match p with
    | .done a => .done (.ok a)
    | .ask q next => .ask q fun r => supervised beat heard (next r) b schedule
  | false :: schedule => .ask (beat b) fun r =>
    match heard b r with
    | .error e => .done (.error e)
    | .ok b => supervised beat heard p b schedule

namespace After

/-- What is left of a translated process is a translation of what its own answers leave. -/
theorem translate_inv {put : Q → R ⊕ Q'} {tell : R' → R} {p : Process Q R α} {l : List (Q' × R')} {p' : Process Q' R' α}
    (h : After (p.translate put tell) l p') : ∃ l₀ p₀, After p l₀ p₀ ∧ p' = p₀.translate put tell := by
  induction p generalizing l with
  | done a =>
    obtain ⟨rfl, rfl⟩ := h.done_inv
    exact ⟨[], .done a, .nil, rfl⟩
  | ask q next ih =>
    cases hput : put q with
    | inl r =>
      rw [translate, hput] at h
      obtain ⟨l₀, p₀, h₀, rfl⟩ := ih r h
      exact ⟨(q, r) :: l₀, p₀, (After.nil.snoc r).append h₀, rfl⟩
    | inr q' =>
      rw [translate, hput] at h
      obtain ⟨rfl, rfl⟩ | ⟨r', l', rfl, hrest⟩ := h.ask_inv
      · exact ⟨[], .ask q next, .nil, by rw [translate, hput]⟩
      · obtain ⟨l₀, p₀, h₀, rfl⟩ := ih (tell r') hrest
        exact ⟨(q, tell r') :: l₀, p₀, (After.nil.snoc _).append h₀, rfl⟩

/-- A translated process that is done has its result from answers of its own. -/
theorem of_translate {put : Q → R ⊕ Q'} {tell : R' → R} {p : Process Q R α} {l : List (Q' × R')} {a : α}
    (h : After (p.translate put tell) l (.done a)) : ∃ l₀, After p l₀ (.done a) := by
  obtain ⟨l₀, p₀, h₀, heq⟩ := h.translate_inv
  induction p₀ generalizing l₀ with
  | done a' =>
    obtain rfl := Process.done.inj heq
    exact ⟨l₀, h₀⟩
  | ask q next ih =>
    cases hput : put q with
    | inl r =>
      rw [translate, hput] at heq
      exact ih r (l₀ ++ [(q, r)]) (h₀.snoc r) heq
    | inr q' =>
      rw [translate, hput] at heq
      cases heq

/-- A supervised process that comes to its result has it from some of the answers. -/
theorem of_supervised {beat : β → Q} {heard : β → R → Except ε β} {p : Process Q R α} {b : β} {schedule : List Bool}
    {l : List (Q × R)} {a : α} (h : After (supervised beat heard p b schedule) l (.done (.ok a))) :
    ∃ l₀, l₀.Sublist l ∧ After p l₀ (.done a) := by
  induction schedule generalizing p b l with
  | nil =>
    obtain ⟨p₀, h₀, heq⟩ := h.mapResult_inv
    cases p₀ with
    | done a' =>
      obtain rfl := Except.ok.inj (Process.done.inj heq)
      exact ⟨l, List.Sublist.refl l, h₀⟩
    | ask q next => cases heq
  | cons first schedule ih =>
    cases first with
    | true =>
      cases p with
      | done a' =>
        obtain ⟨rfl, heq⟩ := h.done_inv
        obtain rfl := Except.ok.inj (Process.done.inj heq)
        exact ⟨[], List.Sublist.refl [], .nil⟩
      | ask q next =>
        obtain ⟨_, heq⟩ | ⟨r, l', rfl, hrest⟩ := h.ask_inv
        · cases heq
        · obtain ⟨l₀, hsub, h₀⟩ := ih hrest
          exact ⟨(q, r) :: l₀, hsub.cons_cons _, (After.nil.snoc r).append h₀⟩
    | false =>
      obtain ⟨_, heq⟩ | ⟨r, l', rfl, hrest⟩ := h.ask_inv
      · cases heq
      · cases hheard : heard b r with
        | error e =>
          rw [hheard] at hrest
          obtain ⟨_, heq⟩ := hrest.done_inv
          cases heq
        | ok b' =>
          rw [hheard] at hrest
          obtain ⟨l₀, hsub, h₀⟩ := ih hrest
          exact ⟨l₀, hsub.cons _, h₀⟩

end After

end Process

end Transition
