import EffectMQ.Transition.System

/-!
# Work that runs out

A measure that every step of a kind reduces, as long as there is any, is spent by as many steps of that kind.
-/

namespace Transition.System.Path

variable {σ α : Type} {M : System σ α} {I : σ → Prop} {Q : α → Prop} {s t : σ} {l : List α}

theorem spends (measure : σ → ℕ) (h : M.Path s l t) (hs : I s) (hl : ∀ a ∈ l, Q a)
    (hI : ∀ s a s', I s → Q a → M.step s a s' → I s')
    (hstep : ∀ s a s', I s → Q a → M.step s a s' → measure s' ≤ measure s - 1) :
    I t ∧ measure t ≤ measure s - l.length := by
  induction h with
  | nil => exact ⟨hs, by simp⟩
  | snoc hpath hlast ih =>
    obtain ⟨ht, hle⟩ := ih fun a ha => hl a (List.mem_append_left _ ha)
    have hlabel := hl _ (List.mem_append_right _ (List.mem_singleton_self _))
    have hnext := hstep _ _ _ ht hlabel hlast
    refine ⟨hI _ _ _ ht hlabel hlast, ?_⟩
    rw [List.length_append, List.length_singleton]
    omega

end Transition.System.Path
