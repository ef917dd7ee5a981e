import Mathlib

/-!
# Words with a separator between them

A text in which words stand with a separator between them, when not every word is known to be free of the separator. The
first word can be read off when it is free of it, and so can the last one.
-/

namespace Separator

variable {α : Type} {c : α} {u u' r r' : List α}

/-- A text that is empty or goes on with the separator. -/
def Continues (c : α) (r : List α) : Prop := ∀ x ∈ r.head?, x = c

theorem continues_cons : Continues c (c :: r) := fun _ h => (Option.some.inj h).symm

theorem first_inj (hu : c ∉ u) (hu' : c ∉ u') (hr : Continues c r) (hr' : Continues c r') (h : u ++ r = u' ++ r') :
    u = u' ∧ r = r' := by
  induction u generalizing u' with
  | nil =>
    cases u' with
    | nil => exact ⟨rfl, h⟩
    | cons x u' =>
      have hx : x = c := hr x (by rw [show r = x :: (u' ++ r') from h]; rfl)
      exact absurd List.mem_cons_self (hx ▸ hu')
  | cons x u ih =>
    cases u' with
    | nil =>
      have hx : x = c := hr' x (by rw [show r' = x :: (u ++ r) from h.symm]; rfl)
      exact absurd List.mem_cons_self (hx ▸ hu)
    | cons y u' =>
      obtain ⟨rfl, hrest⟩ := List.cons.inj h
      obtain ⟨rfl, rfl⟩ := ih (fun hc => hu (List.mem_cons_of_mem _ hc)) (fun hc => hu' (List.mem_cons_of_mem _ hc)) hrest
      exact ⟨rfl, rfl⟩

theorem last_inj (hr : c ∉ r) (hr' : c ∉ r') (h : u ++ c :: r = u' ++ c :: r') : u = u' ∧ r = r' := by
  have hreverse := congrArg List.reverse h
  simp only [List.reverse_append, List.reverse_cons, List.append_assoc, List.singleton_append] at hreverse
  obtain ⟨hword, hrest⟩ := first_inj (by simpa using hr) (by simpa using hr') continues_cons continues_cons hreverse
  exact ⟨List.reverse_injective (List.cons.inj hrest).2, List.reverse_injective hword⟩

end Separator
