import Mathlib

/-!
# Logs of attempts

A job is attempted one time after the other until it is done, and a log tells the story: each entry names an attempt
and has a kind. In such a log the attempts are numbered from one on, every entry of work stands inside its attempt, and
none comes after the end of the job.
-/

namespace Transition

/-- The kinds of entries: the start of an attempt, work in it, its end, the end of the job, and remarks. -/
inductive LogKind
  | start
  | work
  | stop
  | finish
  | remark
deriving DecidableEq, Repr

/-- Where a job stands. -/
inductive Phase
  | idle
  | busy
  | done
deriving DecidableEq, Repr

/-- A log of a job in a phase, with the number of its attempts. -/
inductive AttemptLog : List (LogKind × ℕ) → Phase → ℕ → Prop
  | nil : AttemptLog [] .idle 0
  | start {l : List (LogKind × ℕ)} {n : ℕ} (h : AttemptLog l .idle n) : AttemptLog (l ++ [(.start, n + 1)]) .busy (n + 1)
  | work {l : List (LogKind × ℕ)} {n : ℕ} (h : AttemptLog l .busy n) : AttemptLog (l ++ [(.work, n)]) .busy n
  | stop {l : List (LogKind × ℕ)} {n : ℕ} (h : AttemptLog l .busy n) : AttemptLog (l ++ [(.stop, n)]) .idle n
  | finish {l : List (LogKind × ℕ)} {n : ℕ} (h : AttemptLog l .busy n) : AttemptLog (l ++ [(.finish, n)]) .done n
  | remark {l : List (LogKind × ℕ)} {p : Phase} {n : ℕ} {k : LogKind} (h : AttemptLog l p n) (hp : p ≠ .busy)
      (hk : k = .remark ∨ k = .stop) : AttemptLog (l ++ [(k, n)]) p n

/-- An entry in a list that grew by one is the new one, or it was there before. -/
theorem append_cons_eq_concat {α : Type} {l a b : List α} {x y : α} (h : l ++ [y] = a ++ x :: b) :
    (b = [] ∧ x = y ∧ a = l) ∨ ∃ b', b = b' ++ [y] ∧ l = a ++ x :: b' := by
  rcases List.eq_nil_or_concat b with rfl | ⟨b', z, rfl⟩
  · obtain ⟨ha, hx⟩ := List.append_inj' h rfl
    exact Or.inl ⟨rfl, (List.singleton_inj.mp hx).symm, ha.symm⟩
  · rw [List.concat_eq_append, ← List.cons_append, ← List.append_assoc] at h
    obtain ⟨hl, hy⟩ := List.append_inj' h rfl
    obtain rfl := List.singleton_inj.mp hy
    exact Or.inr ⟨b', List.concat_eq_append, hl⟩

namespace AttemptLog

variable {l : List (LogKind × ℕ)} {p : Phase} {n : ℕ}

/-- The attempt that is under way has started, and nothing but work came after that. -/
theorem busy (h : AttemptLog l .busy n) :
    1 ≤ n ∧ ∃ before after, l = before ++ (.start, n) :: after ∧ ∀ e ∈ after, e.1 = .work := by
  generalize hp : Phase.busy = p at h
  induction h with
  | nil | stop | finish => exact absurd hp (by simp)
  | start => exact ⟨Nat.le_add_left 1 _, _, [], rfl, by simp⟩
  | @work l n _ ih =>
    obtain ⟨hpos, before, after, rfl, hafter⟩ := ih rfl
    refine ⟨hpos, before, after ++ [(.work, n)], by simp, fun e he => ?_⟩
    rcases List.mem_append.mp he with he | he
    · exact hafter e he
    · rw [List.mem_singleton.mp he]
  | remark _ hne => exact absurd hp.symm hne

/-- Work stands after the start of its own attempt, with nothing but work in between. -/
theorem of_work (h : AttemptLog l p n) {a b : List (LogKind × ℕ)} {k : ℕ} (hl : l = a ++ (.work, k) :: b) :
    1 ≤ k ∧ ∃ before after, a = before ++ (.start, k) :: after ∧ ∀ e ∈ after, e.1 = .work := by
  induction h generalizing b with
  | nil => exact absurd hl (by simp)
  | start _ ih | stop _ ih | finish _ ih =>
    rcases append_cons_eq_concat hl with ⟨_, heq, _⟩ | ⟨b', _, hb⟩
    · exact absurd heq (by simp)
    · exact ih hb
  | work h ih =>
    rcases append_cons_eq_concat hl with ⟨_, heq, rfl⟩ | ⟨b', _, hb⟩
    · obtain ⟨-, rfl⟩ := Prod.mk.inj heq
      exact h.busy
    · exact ih hb
  | remark _ _ hk ih =>
    rcases append_cons_eq_concat hl with ⟨_, heq, _⟩ | ⟨b', _, hb⟩
    · rcases hk with rfl | rfl <;> exact absurd heq (by simp)
    · exact ih hb

/-- The attempts are numbered from one on. -/
theorem starts (h : AttemptLog l p n) :
    (l.filter fun e => e.1 = .start).map Prod.snd = List.range' 1 n := by
  induction h with
  | nil => rfl
  | start _ ih => simp [ih, List.range'_concat, Nat.add_comm]
  | work _ ih | stop _ ih | finish _ ih => simp [ih]
  | remark _ _ hk ih => rcases hk with rfl | rfl <;> simp [ih]

/-- The last attempt that started is the one of the log. -/
theorem last (h : AttemptLog l p n) {a b : List (LogKind × ℕ)} {k : ℕ} (hl : l = a ++ (.start, k) :: b)
    (hb : ∀ e ∈ b, e.1 ≠ .start) : k = n := by
  have hstarts := h.starts
  have hnone : b.filter (fun e => e.1 = .start) = [] := by
    rw [List.filter_eq_nil_iff]
    simpa using hb
  rw [hl, List.filter_append, List.filter_cons_of_pos (by simp), hnone, List.map_append] at hstarts
  cases n with
  | zero => exact absurd hstarts (by simp)
  | succ n =>
    rw [List.range'_concat] at hstarts
    have hlast := List.singleton_inj.mp (List.append_inj' hstarts rfl).2
    omega

/-- What stands between two starts names the attempt that started first. -/
theorem between (h : AttemptLog l p n) {a mid b : List (LogKind × ℕ)} {k : ℕ} (hl : l = a ++ (.start, k) :: (mid ++ b))
    (hmid : ∀ e ∈ mid, e.1 ≠ .start) : ∀ e ∈ mid, e.2 = k := by
  induction h generalizing mid b with
  | nil => exact absurd hl (by simp)
  | @start l n h ih =>
    rcases append_cons_eq_concat hl with ⟨hnil, _, _⟩ | ⟨b', heq, hb⟩
    · obtain ⟨rfl, _⟩ := List.append_eq_nil_iff.mp hnil
      simp
    · rcases List.eq_nil_or_concat b with rfl | ⟨b₀, z, rfl⟩
      · -- the start would be in the middle
        rw [List.append_nil] at heq
        subst heq
        exact absurd rfl (hmid _ (List.mem_append_right _ (List.mem_singleton_self _)))
      · rw [List.concat_eq_append, ← List.append_assoc] at heq
        obtain ⟨rfl, _⟩ := List.append_inj' heq rfl
        exact ih hb hmid
  | @work l n h ih | @stop l n h ih | @finish l n h ih | @remark l p n _ h _ _ ih =>
    rcases append_cons_eq_concat hl with ⟨hnil, _, _⟩ | ⟨b', heq, hb⟩
    · obtain ⟨rfl, _⟩ := List.append_eq_nil_iff.mp hnil
      simp
    · rcases List.eq_nil_or_concat b with rfl | ⟨b₀, z, rfl⟩
      · rw [List.append_nil] at heq
        subst heq
        have hmid' : ∀ e ∈ b', e.1 ≠ LogKind.start := fun e he => hmid e (List.mem_append_left _ he)
        intro e he
        rcases List.mem_append.mp he with he | he
        · exact ih (b := []) (by rw [List.append_nil]; exact hb) hmid' e he
        · rw [List.mem_singleton.mp he]
          exact (h.last hb hmid').symm
      · rw [List.concat_eq_append, ← List.append_assoc] at heq
        obtain ⟨rfl, _⟩ := List.append_inj' heq rfl
        exact ih hb hmid

/-- After the end of the job there is neither work nor another attempt. -/
theorem after_finish (h : AttemptLog l p n) {a b : List (LogKind × ℕ)} {k : ℕ} (hl : l = a ++ (.finish, k) :: b) :
    p = .done ∧ ∀ e ∈ b, e.1 ≠ .work ∧ e.1 ≠ .start := by
  induction h generalizing b with
  | nil => exact absurd hl (by simp)
  | start _ ih | work _ ih | stop _ ih =>
    rcases append_cons_eq_concat hl with ⟨_, heq, _⟩ | ⟨b', _, hb⟩
    · exact absurd heq (by simp)
    · exact absurd (ih hb).1 (by simp)
  | finish _ ih =>
    rcases append_cons_eq_concat hl with ⟨rfl, _, _⟩ | ⟨b', _, hb⟩
    · exact ⟨rfl, by simp⟩
    · exact absurd (ih hb).1 (by simp)
  | remark _ _ hk ih =>
    rcases append_cons_eq_concat hl with ⟨_, heq, _⟩ | ⟨b', rfl, hb⟩
    · rcases hk with rfl | rfl <;> exact absurd heq (by simp)
    · obtain ⟨hdone, hrest⟩ := ih hb
      refine ⟨hdone, fun e he => ?_⟩
      rcases List.mem_append.mp he with he | he
      · exact hrest e he
      · rw [List.mem_singleton.mp he]
        rcases hk with rfl | rfl <;> simp

end AttemptLog

end Transition
