import EffectMQ.Transition.Process

/-!
# What a process relies on

The shared state moves on between the requests of a process, and each answer tells something of the state that it was given
in. A process ensures a condition on its requests and on its result when both follow from the answers, however the state
moves on. Two processes may also be run as one, in an order that a schedule picks.
-/

namespace Transition

/-- How the state moves on, and what an answer may be. A request is itself a step of the state. -/
structure Rely (σ Q R : Type) where
  later : σ → σ → Prop
  answers : σ → Q → R → σ → Prop
  refl : ∀ s, later s s
  trans : ∀ s t u, later s t → later t u → later s u
  answers_later : ∀ s q r t, answers s q r t → later s t

namespace Process

variable {σ Q R α β γ ε : Type} {E : Rely σ Q R} {asks asks' : σ → Q → Prop} {ends : σ → α → Prop} {ends' : σ → β → Prop}
  {s t : σ} {p p' : Process Q R α}

/-- From a state on, every request is made in a state that allows it, and the result holds whenever it is looked at. -/
def Ensures (E : Rely σ Q R) (asks : σ → Q → Prop) (ends : σ → α → Prop) (s : σ) : Process Q R α → Prop
  | .done a => ∀ t, E.later s t → ends t a
  | .ask q next => ∀ t, E.later s t → asks t q ∧ ∀ r u, E.answers t q r u → (next r).Ensures E asks ends u

namespace Ensures

theorem later (h : p.Ensures E asks ends s) (hlater : E.later s t) : p.Ensures E asks ends t := by
  cases p with
  | done a => exact fun u hu => h u (E.trans _ _ _ hlater hu)
  | ask q next => exact fun u hu => h u (E.trans _ _ _ hlater hu)

theorem asks_now {q : Q} {next : R → Process Q R α} (h : (Process.ask q next).Ensures E asks ends s) : asks s q :=
  (h s (E.refl s)).1

theorem ends_now {a : α} (h : (Process.done a : Process Q R α).Ensures E asks ends s) : ends s a := h s (E.refl s)

theorem mapResult {f : α → β} (h : p.Ensures E asks ends s) (hends : ∀ s a, ends s a → ends' s (f a)) :
    (p.mapResult f).Ensures E asks ends' s := by
  induction p generalizing s with
  | done a => exact fun t ht => hends t a (h t ht)
  | ask q next ih => exact fun t ht => ⟨(h t ht).1, fun r u hu => ih r ((h t ht).2 r u hu)⟩

/-- One process after another that ends well. -/
theorem andThen {p : Process Q R (Except ε α)} {f : α → Process Q R (Except ε β)} {ends : σ → Except ε α → Prop}
    {ends' : σ → Except ε β → Prop} (h : p.Ensures E asks ends s) (herror : ∀ s e, ends s (.error e) → ends' s (.error e))
    (hok : ∀ t a, E.later s t → ends t (.ok a) → (f a).Ensures E asks ends' t) : (p.andThen f).Ensures E asks ends' s := by
  induction p generalizing s with
  | done result =>
    cases result with
    | ok a => exact hok s a (E.refl s) h.ends_now
    | error e => exact fun t ht => herror t e (h t ht)
  | ask q next ih =>
    intro t ht
    refine ⟨(h t ht).1, fun r u hu => ih r ((h t ht).2 r u hu) fun v a hv => hok v a ?_⟩
    exact E.trans _ _ _ ht (E.trans _ _ _ (E.answers_later _ _ _ _ hu) hv)

end Ensures

/-- One process after another, whatever the first one comes to. -/
def thenDo (p : Process Q R α) (f : α → Process Q R β) : Process Q R β :=
  match p with
  | .done a => f a
  | .ask q next => .ask q fun r => (next r).thenDo f

theorem Ensures.thenDo {f : α → Process Q R β} (h : p.Ensures E asks ends s)
    (hnext : ∀ t a, E.later s t → ends t a → (f a).Ensures E asks ends' t) : (p.thenDo f).Ensures E asks ends' s := by
  induction p generalizing s with
  | done a => exact hnext s a (E.refl s) h.ends_now
  | ask q next ih =>
    intro t ht
    refine ⟨(h t ht).1, fun r u hu => ih r ((h t ht).2 r u hu) fun v a hv => hnext v a ?_⟩
    exact E.trans _ _ _ ht (E.trans _ _ _ (E.answers_later _ _ _ _ hu) hv)

/-- Two processes beside each other until the first one ends: the schedule says which of them asks next, and the first one
goes on alone when it is used up. -/
def beside (p : Process Q R α) (fiber : Process Q R β) (f : α → Process Q R β → Process Q R γ) :
    List Bool → Process Q R γ
  | [] => p.thenDo fun a => f a fiber
  | true :: schedule =>
    match p with
    | .done a => f a fiber
    | .ask q next => .ask q fun r => beside (next r) fiber f schedule
  | false :: schedule =>
    match fiber with
    | .done b => beside p (.done b) f schedule
    | .ask q next => .ask q fun r => beside p (next r) f schedule

theorem Ensures.beside {fiber : Process Q R β} {f : α → Process Q R β → Process Q R γ} {ends'' : σ → γ → Prop}
    (h : p.Ensures E asks ends s) (hfiber : fiber.Ensures E asks ends' s)
    (hnext : ∀ t a fiber, E.later s t → ends t a → fiber.Ensures E asks ends' t → (f a fiber).Ensures E asks ends'' t)
    (schedule : List Bool) : (p.beside fiber f schedule).Ensures E asks ends'' s := by
  have hafter : ∀ {s t u : σ} {q : Q} {r : R}, E.later s t → E.answers t q r u → E.later s u := fun ht hu =>
    E.trans _ _ _ ht (E.answers_later _ _ _ _ hu)
  induction schedule generalizing s p fiber with
  | nil => exact h.thenDo fun t a ht ha => hnext t a fiber ht ha (hfiber.later ht)
  | cons first schedule ih =>
    cases first with
    | true =>
      cases p with
      | done a => exact hnext s a fiber (E.refl s) h.ends_now hfiber
      | ask q next =>
        intro t ht
        refine ⟨(h t ht).1, fun r u hu => ih ((h t ht).2 r u hu) (hfiber.later (hafter ht hu)) ?_⟩
        exact fun v a fiber hv => hnext v a fiber (E.trans _ _ _ (hafter ht hu) hv)
    | false =>
      cases fiber with
      | done b => exact ih h hfiber hnext
      | ask q next =>
        intro t ht
        refine ⟨(hfiber t ht).1, fun r u hu => ih (h.later (hafter ht hu)) ((hfiber t ht).2 r u hu) ?_⟩
        exact fun v a fiber hv => hnext v a fiber (E.trans _ _ _ (hafter ht hu) hv)

end Process

/-! ### Among other processes -/

section

variable {σ A ι Q R α : Type} {M : System σ A} {request : A → Q} {answer : A → R} {program : ι → Process Q R α}
  {outside : A → Prop} {E : Rely σ Q R} {asks : σ → Q → Prop} {ends : σ → α → Prop} {s : Parties σ ι Q R α}
  {moves : List (Move ι A)} {start : ι}

/-- What a program ensures from its launch on, what is left of it ensures in every state of a run. -/
theorem party_ensures (hstep : ∀ s a s', M.step s a s' → E.answers s (request a) (answer a) s')
    (h : (parties M request answer program outside).Run moves s)
    (hlaunch : ∀ before i after t, moves = before ++ .launch i start :: after →
      (parties M request answer program outside).Run before t → (program start).Ensures E asks ends t.shared)
    {i : ℕ} {log : List (Q × R)} {rest : Process Q R α} (hi : s.party i = some ⟨start, log, rest⟩) :
    rest.Ensures E asks ends s.shared := by
  revert i log rest
  revert hlaunch
  refine h.induction (P := fun moves s => (∀ before i after t, moves = before ++ .launch i start :: after →
      (parties M request answer program outside).Run before t → (program start).Ensures E asks ends t.shared) →
    ∀ {i log rest}, s.party i = some ⟨start, log, rest⟩ → rest.Ensures E asks ends s.shared) ?_ ?_
  · intro s hs _ i log rest hi
    exact absurd ((hs.2 i).symm.trans hi) (by simp)
  · intro moves s move s' hrun ih hmove hlaunch i log rest hi
    have ih := @ih fun before i after t heq ht => hlaunch before i (after ++ [move]) t (by simp [heq]) ht
    have hshared : E.later s.shared s'.shared := by
      cases move with
      | launch j start => exact hmove.2.1 ▸ E.refl _
      | call j a => exact E.answers_later _ _ _ _ (hstep _ _ _ hmove.1)
      | stop j => exact hmove.1 ▸ E.refl _
      | other a => exact E.answers_later _ _ _ _ (hstep _ _ _ hmove.2.1)
    -- a party that the move does not touch only sees the state move on
    have hupdate : ∀ {j : ℕ} {next : Option (Party ι Q R α)}, s'.party = Function.update s.party j next →
        (next = some ⟨start, log, rest⟩ → rest.Ensures E asks ends s'.shared) → rest.Ensures E asks ends s'.shared := by
      intro j next heq hnext
      rw [heq] at hi
      by_cases hj : i = j
      · subst hj
        rw [Function.update_self] at hi
        exact hnext hi
      · rw [Function.update_of_ne hj] at hi
        exact (ih hi).later hshared
    cases move with
    | launch j start' =>
      refine hupdate hmove.2.2 fun heq => ?_
      obtain ⟨rfl, rfl, rfl⟩ := Party.mk.inj (Option.some.inj heq)
      rw [hmove.2.1]
      exact hlaunch moves j [] s (by simp) hrun
    | call j a =>
      obtain ⟨hcall, start', log', next, hj, heq⟩ := hmove
      refine hupdate heq fun heq' => ?_
      obtain ⟨rfl, rfl, rfl⟩ := Party.mk.inj (Option.some.inj heq')
      exact ((ih hj) _ (E.refl _)).2 _ _ (hstep _ _ _ hcall)
    | stop j => exact hupdate hmove.2 fun heq => absurd heq (by simp)
    | other a =>
      rw [hmove.2.2] at hi
      exact (ih hi).later hshared

end

end Transition
