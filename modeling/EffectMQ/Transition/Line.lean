import Mathlib

/-!
# Waiting lines

A line changes by one member at a time: one leaves, from wherever it stands, or a newcomer joins at the end. In such a
line the members stand in the order of their tenure, the time for which they have been waiting without a break, so that
whoever is served from the front has waited longest.
-/

namespace Transition

variable {α : Type} [DecidableEq α]

/-- One change of a line. -/
inductive LineStep (l : List α) : List α → Prop
  | same : LineStep l l
  | leave (x : α) : LineStep l (l.filter fun y => y ≠ x)
  | join (x : α) (hnew : x ∉ l) : LineStep l (l ++ [x])

/-- The successive states of a line that was empty at first, newest first. -/
inductive LineHistory : List (List α) → Prop
  | start : LineHistory [[]]
  | step {l l' : List α} {older : List (List α)} (h : LineHistory (l :: older)) (hstep : LineStep l l') :
      LineHistory (l' :: l :: older)

/-- For how many states, counted back from the newest, a member has been in line without a break. -/
def tenure (x : α) : List (List α) → ℕ
  | [] => 0
  | l :: older => if x ∈ l then tenure x older + 1 else 0

variable {l l' : List α} {older : List (List α)} {x y : α}

theorem tenure_of_mem (h : x ∈ l) : tenure x (l :: older) = tenure x older + 1 := if_pos h

theorem tenure_of_not_mem (h : x ∉ l) : tenure x (l :: older) = 0 := if_neg h

namespace LineHistory

/-- The members of a line stand in the order of their tenure. -/
theorem sorted (h : LineHistory (l :: older)) :
    l.Pairwise fun x y => tenure y (l :: older) < tenure x (l :: older) := by
  generalize hlines : l :: older = lines at h
  induction h generalizing l older with
  | start =>
    obtain ⟨rfl, rfl⟩ := List.cons.inj hlines
    exact List.Pairwise.nil
  | @step l₀ l₁ rest _ hstep ih =>
    obtain ⟨rfl, rfl⟩ := List.cons.inj hlines
    have hbefore := ih rfl
    cases hstep with
    | same =>
      refine hbefore.imp_of_mem fun {a b} ha hb hlt => ?_
      rw [tenure_of_mem ha, tenure_of_mem hb]
      omega
    | leave x =>
      refine (hbefore.filter _).imp_of_mem fun {a b} ha hb hlt => ?_
      rw [tenure_of_mem ha, tenure_of_mem hb]
      omega
    | join x hnew =>
      rw [List.pairwise_append]
      refine ⟨hbefore.imp_of_mem fun {a b} ha hb hlt => ?_, List.pairwise_singleton _ _, fun a ha b hb => ?_⟩
      · rw [tenure_of_mem (List.mem_append_left _ ha), tenure_of_mem (List.mem_append_left _ hb)]
        omega
      · -- the newcomer was not there a moment ago, everyone else was
        rw [List.mem_singleton] at hb
        subst hb
        rw [tenure_of_mem (List.mem_append_left _ ha), tenure_of_mem (List.mem_append_right _ (List.mem_singleton_self _)),
          tenure_of_not_mem hnew, tenure_of_mem ha]
        omega

/-- Whoever stands at the front has waited longer than everyone else. -/
theorem front (h : LineHistory (l :: older)) (hfront : l.head? = some x) (hy : y ∈ l) (hne : y ≠ x) :
    tenure y (l :: older) < tenure x (l :: older) := by
  obtain ⟨rest, rfl⟩ := List.head?_eq_some_iff.mp hfront
  exact List.rel_of_pairwise_cons h.sorted ((List.mem_cons.mp hy).resolve_left hne)

end LineHistory

end Transition
