import Mathlib

/-!
# Budgets

A list of draws on a budget, each of which records what was left when it was made and takes no more than that. Draws
compose, never exceed the budget together, and never see it negative.
-/

namespace Transition

variable {δ : Type} {limit : δ → ℤ} {size : δ → ℕ} {l l' before after : List δ} {d : δ} {n m k : ℤ}

/-- What a list of draws takes. -/
def total (size : δ → ℕ) (l : List δ) : ℕ := (l.map size).sum

/-- The draws take a budget from one value to another. -/
inductive Spends (limit : δ → ℤ) (size : δ → ℕ) : ℤ → List δ → ℤ → Prop
  | nil {n : ℤ} (h : 0 ≤ n) : Spends limit size n [] n
  | cons {n m : ℤ} {d : δ} {l : List δ} (hlimit : limit d = n) (hroom : (size d : ℤ) ≤ n)
      (h : Spends limit size (n - size d) l m) : Spends limit size n (d :: l) m

@[simp] theorem total_nil : total size [] = 0 := rfl

@[simp] theorem total_cons : total size (d :: l) = size d + total size l := by simp [total]

@[simp] theorem total_append : total size (l ++ l') = total size l + total size l' := by simp [total]

namespace Spends

theorem single (hlimit : limit d = n) (hroom : (size d : ℤ) ≤ n) : Spends limit size n [d] (n - size d) :=
  .cons hlimit hroom (.nil (sub_nonneg.mpr hroom))

theorem append (h : Spends limit size n l m) (h' : Spends limit size m l' k) : Spends limit size n (l ++ l') k := by
  induction h with
  | nil => exact h'
  | cons hlimit hroom _ ih => exact .cons hlimit hroom (ih h')

theorem eq_sub (h : Spends limit size n l m) : m = n - total size l := by
  induction h with
  | nil => simp
  | cons _ _ _ ih =>
    rw [ih, total_cons]
    push_cast
    ring

theorem nonneg (h : Spends limit size n l m) : 0 ≤ m := by
  induction h with
  | nil h => exact h
  | cons _ _ _ ih => exact ih

theorem total_le (h : Spends limit size n l m) : (total size l : ℤ) ≤ n := by
  have := h.eq_sub
  have := h.nonneg
  omega

/-- Every draw is made with what the draws before it left, and takes no more than that. -/
theorem limit_eq (h : Spends limit size n (before ++ d :: after) m) :
    limit d = n - total size before ∧ (size d : ℤ) ≤ limit d := by
  induction before generalizing n with
  | nil =>
    cases h with
    | cons hlimit hroom _ => exact ⟨by simpa using hlimit, hlimit ▸ hroom⟩
  | cons d' before ih =>
    cases h with
    | cons _ _ h =>
      obtain ⟨hlimit, hroom⟩ := ih h
      refine ⟨?_, hroom⟩
      rw [hlimit, total_cons]
      push_cast
      ring

end Spends

end Transition
