import Mathlib

/-!
# Labelled transition systems and their runs

A system has initial states and labelled steps; a path is the list of labels of consecutive steps. An invariant
is proved of the initial states and of one step; a fact about the labels seen so far is proved by induction on
the path, whose last step comes last.
-/

namespace Transition

structure System (σ α : Type) where
  initial : σ → Prop
  step : σ → α → σ → Prop

namespace System

variable {σ α : Type} (M : System σ α)

/-- The labels in order lead from the first state to the last. -/
inductive Path (s : σ) : List α → σ → Prop
  | nil : Path s [] s
  | snoc {l : List α} {t u : σ} {a : α} (h : Path s l t) (hstep : M.step t a u) : Path s (l ++ [a]) u

/-- A path from an initial state. -/
def Run (l : List α) (s : σ) : Prop := ∃ init, M.initial init ∧ M.Path init l s

variable {M} {s t u : σ} {l k : List α}

namespace Path

theorem single {a : α} (h : M.step s a t) : M.Path s [a] t := snoc nil h

theorem trans (h : M.Path s l t) (h' : M.Path t k u) : M.Path s (l ++ k) u := by
  induction h' with
  | nil =>
    rw [List.append_nil]
    exact h
  | snoc _ hstep ih =>
    rw [← List.append_assoc]
    exact ih.snoc hstep

theorem eq_of_nil (h : M.Path s [] t) : t = s := by
  generalize hl : ([] : List α) = l at h
  cases h with
  | nil => rfl
  | snoc _ _ => exact absurd hl (by simp)

theorem of_snoc {a : α} (h : M.Path s (l ++ [a]) u) : ∃ t, M.Path s l t ∧ M.step t a u := by
  generalize hl : l ++ [a] = k at h
  cases h with
  | nil => exact absurd hl (by simp)
  | snoc h hstep =>
    obtain ⟨rfl, ha⟩ := List.append_inj' hl rfl
    obtain rfl := List.singleton_inj.mp ha
    exact ⟨_, h, hstep⟩

/-- A path through a concatenation passes a state in between. -/
theorem split (h : M.Path s (l ++ k) u) : ∃ t, M.Path s l t ∧ M.Path t k u := by
  induction k using List.reverseRecOn generalizing u with
  | nil =>
    rw [List.append_nil] at h
    exact ⟨u, h, nil⟩
  | append_singleton k a ih =>
    rw [← List.append_assoc] at h
    obtain ⟨v, hv, hstep⟩ := of_snoc h
    obtain ⟨t, ht, hk⟩ := ih hv
    exact ⟨t, ht, hk.snoc hstep⟩

/-- The first step of a path. -/
theorem of_cons {a : α} (h : M.Path s (a :: l) u) : ∃ t, M.step s a t ∧ M.Path t l u := by
  obtain ⟨t, hfirst, hrest⟩ := split (l := [a]) h
  obtain ⟨s', hnil, hstep⟩ := of_snoc (l := []) hfirst
  obtain rfl := hnil.eq_of_nil
  exact ⟨t, hstep, hrest⟩

/-- What every step preserves, a path preserves. -/
theorem preserves {I : σ → Prop} (h : M.Path s l t) (hs : I s) (hstep : ∀ s a s', I s → M.step s a s' → I s') :
    I t := by
  induction h with
  | nil => exact hs
  | snoc _ hlast ih => exact hstep _ _ _ ih hlast

/-- A reflexive and transitive relation that contains the steps from good states contains the paths. -/
theorem relates {I : σ → Prop} {R : σ → σ → Prop} (h : M.Path s l t) (hs : I s)
    (hI : ∀ s a s', I s → M.step s a s' → I s') (hrefl : ∀ s, R s s) (htrans : ∀ s t u, R s t → R t u → R s u)
    (hstep : ∀ s a s', I s → M.step s a s' → R s s') : R s t := by
  induction h with
  | nil => exact hrefl _
  | snoc h' hlast ih => exact htrans _ _ _ ih (hstep _ _ _ (h'.preserves hs hI) hlast)

end Path

namespace Run

theorem nil (h : M.initial s) : M.Run [] s := ⟨s, h, .nil⟩

theorem snoc {a : α} (h : M.Run l s) (hstep : M.step s a t) : M.Run (l ++ [a]) t := by
  obtain ⟨init, hinit, hpath⟩ := h
  exact ⟨init, hinit, hpath.snoc hstep⟩

theorem extend (h : M.Run l s) (h' : M.Path s k t) : M.Run (l ++ k) t := by
  obtain ⟨init, hinit, hpath⟩ := h
  exact ⟨init, hinit, hpath.trans h'⟩

theorem split (h : M.Run (l ++ k) t) : ∃ s, M.Run l s ∧ M.Path s k t := by
  obtain ⟨init, hinit, hpath⟩ := h
  obtain ⟨s, hs, hk⟩ := hpath.split
  exact ⟨s, ⟨init, hinit, hs⟩, hk⟩

/-- The step that a label of a run stands for, and the states around it. -/
theorem of_mem (h : M.Run l s) {a : α} (ha : a ∈ l) :
    ∃ before after t u, l = before ++ a :: after ∧ M.Run before t ∧ M.step t a u ∧ M.Path u after s := by
  obtain ⟨before, after, rfl⟩ := List.append_of_mem ha
  obtain ⟨t, hbefore, hpath⟩ := h.split
  obtain ⟨u, hstep, hafter⟩ := hpath.of_cons
  exact ⟨before, after, t, u, rfl, hbefore, hstep, hafter⟩

/-- The states before and after each of two labels of a run. -/
theorem between {before mid after : List α} {a b : α} (h : M.Run (before ++ a :: (mid ++ b :: after)) s) :
    ∃ t t' u u', M.Run before t ∧ M.step t a t' ∧ M.Path t' mid u ∧ M.step u b u' := by
  obtain ⟨t, hbefore, hpath⟩ := h.split
  obtain ⟨t', hstep, hpath⟩ := hpath.of_cons
  obtain ⟨u, hmid, hpath⟩ := hpath.split
  obtain ⟨u', hstep', _⟩ := hpath.of_cons
  exact ⟨t, t', u, u', hbefore, hstep, hmid, hstep'⟩

/-- An invariant holds of every state of a run. -/
theorem invariant {I : σ → Prop} (h : M.Run l s) (hinit : ∀ s, M.initial s → I s)
    (hstep : ∀ s a s', I s → M.step s a s' → I s') : I s := by
  obtain ⟨init, h₀, hpath⟩ := h
  exact hpath.preserves (hinit init h₀) hstep

/-- A fact about the labels of a run and its state, by induction on the last step. -/
theorem induction {P : List α → σ → Prop} (h : M.Run l s) (hinit : ∀ s, M.initial s → P [] s)
    (hstep : ∀ l s a s', M.Run l s → P l s → M.step s a s' → P (l ++ [a]) s') : P l s := by
  obtain ⟨init, h₀, hpath⟩ := h
  induction hpath with
  | nil => exact hinit init h₀
  | snoc hpath hlast ih => exact hstep _ _ _ _ ⟨init, h₀, hpath⟩ ih hlast

end Run

end System

end Transition
