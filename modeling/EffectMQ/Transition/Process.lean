import EffectMQ.Transition.System

/-!
# Processes over a shared system

A process asks for one thing after the other and goes on with each answer. Any number of processes run beside each other
over a shared system: each is launched with an argument, takes a step of the system whenever it is its turn, and may stop
anywhere. The log of a process, its requests with their answers, says where in its program it is.
-/

namespace Transition

/-- A program that asks, and goes on with the answer. -/
inductive Process (Q R α : Type)
  | done (result : α)
  | ask (request : Q) (next : R → Process Q R α)

namespace Process

variable {Q R α : Type} {p p' : Process Q R α} {q : Q} {r : R} {l : List (Q × R)}

/-- What is left of a process after some answers. -/
inductive After (p : Process Q R α) : List (Q × R) → Process Q R α → Prop
  | nil : After p [] p
  | snoc {l : List (Q × R)} {q : Q} {next : R → Process Q R α} (h : After p l (.ask q next)) (r : R) :
      After p (l ++ [(q, r)]) (next r)

namespace After

theorem of_nil (h : After p [] p') : p' = p := by
  generalize hl : ([] : List (Q × R)) = l at h
  cases h with
  | nil => rfl
  | snoc => exact absurd hl (by simp)

/-- The first answer, and what is left after the others. -/
theorem cons_inv {first : Q × R} {l' : List (Q × R)} (h : After p l p') (hl : l = first :: l') :
    ∃ next, p = .ask first.1 next ∧ After (next first.2) l' p' := by
  induction h generalizing l' with
  | nil => exact absurd hl (by simp)
  | @snoc l q next h r ih =>
    cases l with
    | nil =>
      obtain ⟨rfl, rfl⟩ := List.cons.inj hl
      exact ⟨next, h.of_nil.symm, .nil⟩
    | cons first' l =>
      obtain ⟨rfl, rfl⟩ := List.cons.inj hl
      obtain ⟨next', hp, hrest⟩ := ih rfl
      exact ⟨next', hp, hrest.snoc r⟩

/-- A process that asks has asked nothing else first. -/
theorem ask_inv {next : R → Process Q R α} (h : After (.ask q next) l p') :
    (l = [] ∧ p' = .ask q next) ∨ ∃ r l', l = (q, r) :: l' ∧ After (next r) l' p' := by
  cases l with
  | nil => exact Or.inl ⟨rfl, h.of_nil⟩
  | cons first l' =>
    obtain ⟨next', heq, hrest⟩ := h.cons_inv rfl
    obtain ⟨rfl, rfl⟩ := Process.ask.inj heq
    exact Or.inr ⟨first.2, l', rfl, hrest⟩

/-- A process that is done asks nothing. -/
theorem done_inv {result : α} (h : After (.done result) l p') : l = [] ∧ p' = .done result := by
  cases l with
  | nil => exact ⟨rfl, h.of_nil⟩
  | cons first l' =>
    obtain ⟨_, heq, _⟩ := h.cons_inv rfl
    exact absurd heq (by simp)

/-- What is left after more answers. -/
theorem append {p'' : Process Q R α} {l' : List (Q × R)} (h : After p l p') (h' : After p' l' p'') :
    After p (l ++ l') p'' := by
  induction h' with
  | nil => rwa [List.append_nil]
  | snoc _ r ih =>
    rw [← List.append_assoc]
    exact ih.snoc r

end After

/-- A request that is still to come, after some answers. -/
def MayAsk (p : Process Q R α) (q : Q) : Prop := ∃ l next, After p l (.ask q next)

theorem MayAsk.of_after (h : After p l p') (hq : p'.MayAsk q) : p.MayAsk q := by
  obtain ⟨l', next, h'⟩ := hq
  exact ⟨l ++ l', next, h.append h'⟩

/-- The same requests, with another view of the result. -/
def mapResult {β : Type} (p : Process Q R α) (f : α → β) : Process Q R β :=
  match p with
  | .done a => .done (f a)
  | .ask q next => .ask q fun r => (next r).mapResult f

/-- A process whose result is viewed in another way makes the same requests. -/
theorem After.mapResult_inv {β : Type} {f : α → β} {p' : Process Q R β} (h : After (p.mapResult f) l p') :
    ∃ p₀, After p l p₀ ∧ p' = p₀.mapResult f := by
  induction p generalizing l with
  | done a =>
    obtain ⟨rfl, rfl⟩ := h.done_inv
    exact ⟨.done a, .nil, rfl⟩
  | ask q next ih =>
    obtain ⟨rfl, rfl⟩ | ⟨r, l', rfl, hrest⟩ := h.ask_inv
    · exact ⟨.ask q next, .nil, rfl⟩
    · obtain ⟨p₀, h₀, rfl⟩ := ih r hrest
      exact ⟨p₀, (After.nil.snoc r).append h₀, rfl⟩

section

variable {ε β : Type}

/-- One process after another, which only starts where the first one ends well. -/
def andThen (p : Process Q R (Except ε α)) (f : α → Process Q R (Except ε β)) : Process Q R (Except ε β) :=
  match p with
  | .done (.ok a) => f a
  | .done (.error e) => .done (.error e)
  | .ask q next => .ask q fun r => (next r).andThen f

variable {p : Process Q R (Except ε α)} {f : α → Process Q R (Except ε β)} {p' : Process Q R (Except ε β)}

/-- A process that is followed by another is itself on its way, or it has failed, or the other one has taken over. -/
theorem After.andThen_inv (h : After (p.andThen f) l p') :
    (∃ q next, After p l (.ask q next) ∧ p' = (Process.ask q next).andThen f) ∨
      (∃ e, After p l (.done (.error e)) ∧ p' = .done (.error e)) ∨
      ∃ l₁ l₂ a, l = l₁ ++ l₂ ∧ After p l₁ (.done (.ok a)) ∧ After (f a) l₂ p' := by
  induction p generalizing l with
  | done result =>
    cases result with
    | ok a => exact Or.inr (Or.inr ⟨[], l, a, rfl, .nil, h⟩)
    | error e =>
      obtain ⟨rfl, rfl⟩ := h.done_inv
      exact Or.inr (Or.inl ⟨e, .nil, rfl⟩)
  | ask q next ih =>
    obtain ⟨rfl, rfl⟩ | ⟨r, l', rfl, hrest⟩ := h.ask_inv
    · exact Or.inl ⟨q, next, .nil, rfl⟩
    · have hfirst : ∀ {l p'}, After (next r) l p' → After (.ask q next) ((q, r) :: l) p' :=
        fun h => (After.nil.snoc r).append h
      obtain ⟨q', next', h', rfl⟩ | ⟨e, h', rfl⟩ | ⟨l₁, l₂, a, rfl, h₁, h₂⟩ := ih r hrest
      · exact Or.inl ⟨q', next', hfirst h', rfl⟩
      · exact Or.inr (Or.inl ⟨e, hfirst h', rfl⟩)
      · exact Or.inr (Or.inr ⟨(q, r) :: l₁, l₂, a, rfl, hfirst h₁, h₂⟩)

/-- The next request comes from the first process, or from the other one. -/
theorem After.andThen_ask {next : R → Process Q R (Except ε β)} (h : After (p.andThen f) l (.ask q next)) :
    (∃ next', After p l (.ask q next')) ∨
      ∃ l₁ l₂ a, l = l₁ ++ l₂ ∧ After p l₁ (.done (.ok a)) ∧ After (f a) l₂ (.ask q next) := by
  obtain ⟨q', next', h', heq⟩ | ⟨e, _, heq⟩ | hsecond := h.andThen_inv
  · obtain ⟨rfl, -⟩ := Process.ask.inj heq
    exact Or.inl ⟨next', h'⟩
  · exact absurd heq (by simp)
  · exact Or.inr hsecond

end

end Process

/-- A process on its way: what it was launched with, its requests with their answers, and what is left of it. -/
structure Party (ι Q R α : Type) where
  start : ι
  log : List (Q × R)
  rest : Process Q R α

/-- A move of some process, or of anybody else. -/
inductive Move (ι A : Type)
  | launch (i : ℕ) (start : ι)
  | call (i : ℕ) (a : A)
  | stop (i : ℕ)
  | other (a : A)

/-- What a move does in the shared system. -/
def Move.action {ι A : Type} : Move ι A → Option A
  | .call _ a | .other a => some a
  | .launch _ _ | .stop _ => none

/-- The shared state, and the processes that are on their way. -/
structure Parties (σ ι Q R α : Type) where
  shared : σ
  party : ℕ → Option (Party ι Q R α)

variable {σ A ι Q R α : Type}

/-- Processes beside each other: each label of the shared system carries a request and its answer, and others may take the
steps that are left to them. -/
def parties (M : System σ A) (request : A → Q) (answer : A → R) (program : ι → Process Q R α) (outside : A → Prop) :
    System (Parties σ ι Q R α) (Move ι A) where
  initial s := M.initial s.shared ∧ ∀ i, s.party i = none
  step s move s' :=
    match move with
    | .launch i start => s.party i = none ∧ s'.shared = s.shared ∧
        s'.party = Function.update s.party i (some ⟨start, [], program start⟩)
    | .call i a => M.step s.shared a s'.shared ∧ ∃ start log next,
        s.party i = some ⟨start, log, .ask (request a) next⟩ ∧
        s'.party = Function.update s.party i (some ⟨start, log ++ [(request a, answer a)], next (answer a)⟩)
    | .stop i => s'.shared = s.shared ∧ s'.party = Function.update s.party i none
    | .other a => outside a ∧ M.step s.shared a s'.shared ∧ s'.party = s.party

section

variable {M : System σ A} {request : A → Q} {answer : A → R} {program : ι → Process Q R α} {outside : A → Prop}
  {s s' : Parties σ ι Q R α} {moves : List (Move ι A)}

/-- The shared system takes the steps of the moves. -/
theorem parties_path (h : (parties M request answer program outside).Path s moves s') :
    M.Path s.shared (moves.filterMap Move.action) s'.shared := by
  induction h with
  | nil => exact .nil
  | @snoc l t u move _ hstep ih =>
    rw [List.filterMap_append]
    cases move with
    | launch i start =>
      rw [hstep.2.1, show [Move.launch i start].filterMap Move.action = ([] : List A) from rfl, List.append_nil]
      exact ih
    | call i a => exact ih.snoc hstep.1
    | stop i =>
      rw [hstep.1, show [Move.stop i].filterMap Move.action = ([] : List A) from rfl, List.append_nil]
      exact ih
    | other a => exact ih.snoc hstep.2.1

theorem parties_run (h : (parties M request answer program outside).Run moves s) :
    M.Run (moves.filterMap Move.action) s.shared := by
  obtain ⟨init, ⟨hinit, _⟩, hpath⟩ := h
  exact ⟨init.shared, hinit, parties_path hpath⟩

/-- The log of a process says what is left of its program. -/
theorem party_after (h : (parties M request answer program outside).Run moves s) {i : ℕ} {party : Party ι Q R α}
    (hi : s.party i = some party) : (program party.start).After party.log party.rest := by
  refine h.invariant (I := fun s => ∀ i party, s.party i = some party → (program party.start).After party.log party.rest)
    (fun s hs i party hi => absurd ((hs.2 i).symm.trans hi) (by simp)) ?_ i party hi
  intro s move s' hI hstep i party hi
  have hupdate : ∀ {j : ℕ} {next : Option (Party ι Q R α)}, s'.party = Function.update s.party j next →
      (∀ party, next = some party → (program party.start).After party.log party.rest) →
      (program party.start).After party.log party.rest := by
    intro j next heq hnext
    rw [heq] at hi
    by_cases hj : i = j
    · subst hj
      rw [Function.update_self] at hi
      exact hnext party hi
    · rw [Function.update_of_ne hj] at hi
      exact hI i party hi
  cases move with
  | launch j start =>
    refine hupdate hstep.2.2 fun party heq => ?_
    obtain rfl := Option.some.inj heq
    exact .nil
  | call j a =>
    obtain ⟨_, start, log, next, hj, heq⟩ := hstep
    refine hupdate heq fun party heq' => ?_
    obtain rfl := Option.some.inj heq'
    exact (hI j _ hj).snoc (answer a)
  | stop j => exact hupdate hstep.2 fun party heq => absurd heq (by simp)
  | other a =>
    rw [hstep.2.2] at hi
    exact hI i party hi

/-- What a process has asked, with its answers, are moves of its own. -/
theorem party_logged (h : (parties M request answer program outside).Run moves s) {i : ℕ} {party : Party ι Q R α}
    (hi : s.party i = some party) {x : Q × R} (hx : x ∈ party.log) :
    ∃ a, Move.call i a ∈ moves ∧ x = (request a, answer a) := by
  refine h.induction (P := fun moves s => ∀ i party, s.party i = some party → ∀ x ∈ party.log,
    ∃ a, Move.call i a ∈ moves ∧ x = (request a, answer a))
    (fun s hs i party hi => absurd ((hs.2 i).symm.trans hi) (by simp)) ?_ i party hi x hx
  intro moves s move s' _ ih hstep i party hi x hx
  have hearlier : ∀ {party : Party ι Q R α}, s.party i = some party → x ∈ party.log →
      ∃ a, Move.call i a ∈ moves ++ [move] ∧ x = (request a, answer a) := by
    intro party hi hx
    obtain ⟨a, ha, rfl⟩ := ih i party hi x hx
    exact ⟨a, List.mem_append_left _ ha, rfl⟩
  cases move with
  | launch j start =>
    rw [hstep.2.2] at hi
    by_cases hj : i = j
    · subst hj
      rw [Function.update_self] at hi
      rw [← Option.some.inj hi] at hx
      cases hx
    · rw [Function.update_of_ne hj] at hi
      exact hearlier hi hx
  | call j a =>
    obtain ⟨_, start, log, next, hj, heq⟩ := hstep
    rw [heq] at hi
    by_cases hij : i = j
    · subst hij
      rw [Function.update_self] at hi
      rw [← Option.some.inj hi] at hx
      rcases List.mem_append.mp hx with hx | hx
      · exact hearlier hj hx
      · rw [List.mem_singleton.mp hx]
        exact ⟨a, List.mem_append_right _ (List.mem_singleton.mpr rfl), rfl⟩
    · rw [Function.update_of_ne hij] at hi
      exact hearlier hi hx
  | stop j =>
    rw [hstep.2] at hi
    by_cases hj : i = j
    · subst hj
      rw [Function.update_self] at hi
      exact absurd hi (by simp)
    · rw [Function.update_of_ne hj] at hi
      exact hearlier hi hx
  | other a =>
    rw [hstep.2.2] at hi
    exact hearlier hi hx

end

/-! ### Executed runs -/

/-- Whose turn it is: a launch, the next request of a process in some surroundings, a stop, or somebody else's request. -/
inductive Turn (ι B Q : Type)
  | launch (i : ℕ) (start : ι)
  | call (i : ℕ) (b : B)
  | stop (i : ℕ)
  | other (b : B) (q : Q)

section

variable {B : Type} (perform : σ → B → Q → Option (A × σ)) (answer : A → R) (program : ι → Process Q R α)
  (allowed : A → Bool)

/-- One turn, where a function answers the requests. -/
def Parties.turn (s : Parties σ ι Q R α) : Turn ι B Q → Option (Move ι A × Parties σ ι Q R α)
  | .launch i start =>
    if (s.party i).isNone then
      some (.launch i start, ⟨s.shared, Function.update s.party i (some ⟨start, [], program start⟩)⟩)
    else none
  | .call i b =>
    match s.party i with
    | some ⟨start, log, .ask q next⟩ => (perform s.shared b q).map fun result =>
      (.call i result.1, ⟨result.2, Function.update s.party i
        (some ⟨start, log ++ [(q, answer result.1)], next (answer result.1)⟩)⟩)
    | _ => none
  | .stop i => some (.stop i, ⟨s.shared, Function.update s.party i none⟩)
  | .other b q => (perform s.shared b q).bind fun result =>
    if allowed result.1 then some (.other result.1, ⟨result.2, s.party⟩) else none

/-- The turns of a list, when all of them can be taken. -/
def Parties.play (s : Parties σ ι Q R α) : List (Turn ι B Q) → Option (List (Move ι A) × Parties σ ι Q R α)
  | [] => some ([], s)
  | t :: turns => (s.turn perform answer program allowed t).bind fun first =>
    (Parties.play first.2 turns).map fun last => (first.1 :: last.1, last.2)

variable {M : System σ A} {request : A → Q} {outside : A → Prop} {perform answer program allowed}
  (hperform : ∀ {s b q a s'}, perform s b q = some (a, s') → M.step s a s' ∧ request a = q)
  (hallowed : ∀ a, allowed a = true → outside a) {s s' : Parties σ ι Q R α}

include hperform hallowed

theorem turn_step {t : Turn ι B Q} {move : Move ι A} (h : s.turn perform answer program allowed t = some (move, s')) :
    (parties M request answer program outside).step s move s' := by
  cases t with
  | launch i start =>
    obtain ⟨hnone, heq⟩ := Option.ite_none_right_eq_some.mp h
    obtain ⟨rfl, rfl⟩ := Prod.mk.inj (Option.some.inj heq)
    exact ⟨Option.isNone_iff_eq_none.mp hnone, rfl, rfl⟩
  | call i b =>
    unfold Parties.turn at h
    dsimp only at h
    split at h
    · next start log q next hi =>
      obtain ⟨⟨a, shared⟩, hanswer, heq⟩ := Option.map_eq_some_iff.mp h
      obtain ⟨rfl, rfl⟩ := Prod.mk.inj heq
      obtain ⟨hstep, rfl⟩ := hperform hanswer
      exact ⟨hstep, start, log, next, hi, rfl⟩
    · exact absurd h (by simp)
  | stop i =>
    obtain ⟨rfl, rfl⟩ := Prod.mk.inj (Option.some.inj h)
    exact ⟨rfl, rfl⟩
  | other b q =>
    obtain ⟨⟨a, shared⟩, hanswer, h⟩ := Option.bind_eq_some_iff.mp h
    obtain ⟨hother, heq⟩ := Option.ite_none_right_eq_some.mp h
    obtain ⟨rfl, rfl⟩ := Prod.mk.inj (Option.some.inj heq)
    exact ⟨hallowed a hother, (hperform hanswer).1, rfl⟩

theorem play_turns {turns : List (Turn ι B Q)} {moves : List (Move ι A)}
    (h : s.play perform answer program allowed turns = some (moves, s')) :
    (parties M request answer program outside).Path s moves s' := by
  induction turns generalizing s moves with
  | nil =>
    obtain ⟨rfl, rfl⟩ := Prod.mk.inj (Option.some.inj h)
    exact .nil
  | cons t turns ih =>
    obtain ⟨⟨move, s₁⟩, hfirst, h⟩ := Option.bind_eq_some_iff.mp h
    obtain ⟨⟨moves', s₂⟩, hrest, heq⟩ := Option.map_eq_some_iff.mp h
    obtain ⟨rfl, rfl⟩ := Prod.mk.inj heq
    exact (System.Path.single (turn_step hperform hallowed hfirst)).trans (ih hrest)

end

end Transition
