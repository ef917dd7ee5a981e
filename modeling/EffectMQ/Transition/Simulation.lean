import EffectMQ.Transition.System

/-!
# Simulations

A system simulates another one when each step of that is matched by a path of its own that shows the same to an observer,
who sees some of the labels on both sides.
-/

namespace Transition

variable {σ τ α β γ : Type} {M : System σ α} {N : System τ β} {R : σ → τ → Prop} {seen : α → Option γ} {shown : β → Option γ}

/-- A system without some of its steps. -/
def System.restrict (M : System σ α) (P : σ → α → Prop) : System σ α where
  initial := M.initial
  step s a s' := P s a ∧ M.step s a s'

theorem System.Run.unrestrict {P : σ → α → Prop} {l : List α} {s : σ} (h : (M.restrict P).Run l s) : M.Run l s :=
  h.induction (P := fun l s => M.Run l s) (fun _ hs => .nil hs) fun _ _ _ _ _ ih hstep => ih.snoc hstep.2

theorem System.Run.restrict {P : σ → α → Prop} {l : List α} {s : σ} (h : M.Run l s) (hP : ∀ a ∈ l, ∀ s, P s a) :
    (M.restrict P).Run l s := by
  refine h.induction (P := fun l s => (∀ a ∈ l, ∀ s, P s a) → (M.restrict P).Run l s) (fun _ hs _ => .nil hs) ?_ hP
  intro l s a s' _ ih hstep hP
  exact (ih fun b hb => hP b (by simp [hb])).snoc ⟨hP a (by simp) s, hstep⟩

structure Simulates (M : System σ α) (N : System τ β) (R : σ → τ → Prop) (seen : α → Option γ) (shown : β → Option γ) :
    Prop where
  initial : ∀ s, M.initial s → ∃ t, N.initial t ∧ R s t
  step : ∀ l s a s' t, M.Run l s → R s t → M.step s a s' →
    ∃ k t', N.Path t k t' ∧ R s' t' ∧ k.filterMap shown = (seen a).toList

/-- Every run is matched, and the observer sees the same in the same order. -/
theorem Simulates.run (h : Simulates M N R seen shown) {l : List α} {s : σ} (hrun : M.Run l s) :
    ∃ k t, N.Run k t ∧ R s t ∧ k.filterMap shown = l.filterMap seen := by
  refine hrun.induction (P := fun l s => ∃ k t, N.Run k t ∧ R s t ∧ k.filterMap shown = l.filterMap seen) ?_ ?_
  · intro s hs
    obtain ⟨t, ht, hR⟩ := h.initial s hs
    exact ⟨[], t, .nil ht, hR, rfl⟩
  · intro l s a s' hl ih hstep
    obtain ⟨k, t, hk, hR, hseen⟩ := ih
    obtain ⟨k', t', hpath, hR', hshown⟩ := h.step l s a s' t hl hR hstep
    refine ⟨k ++ k', t', hk.extend hpath, hR', ?_⟩
    rw [List.filterMap_append, List.filterMap_append, hseen, hshown]
    cases hsees : seen a <;> simp [hsees]

end Transition
