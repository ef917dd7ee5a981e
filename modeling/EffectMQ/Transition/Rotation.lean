import EffectMQ.Transition.System

/-!
# Work in rotation

Some of the steps of a system serve a rotation of a fixed number of queues, each such step the next one. Among as many
of these steps as there are queues, every queue has its turn. When the step at the turn of a queue that has work
reduces a measure, and no step raises it, the measure is spent.
-/

namespace Transition.System.Path

variable {σ α : Type} {M : System σ α} {s t : σ} {l : List α} {Q : α → Bool}

/-- A path passes each of its labels of a kind. -/
theorem nth (h : M.Path s l t) {j : ℕ} (hj : j < l.countP Q) :
    ∃ l₁ a l₂ t₁ t₂, l = l₁ ++ a :: l₂ ∧ Q a = true ∧ l₁.countP Q = j ∧ M.Path s l₁ t₁ ∧ M.step t₁ a t₂ ∧
      M.Path t₂ l₂ t := by
  induction h with
  | nil => exact absurd hj (by simp)
  | @snoc l t u a hpath hstep ih =>
    by_cases hlater : j < l.countP Q
    · obtain ⟨l₁, a₁, l₂, t₁, t₂, rfl, hQ, hcount, hbefore, hserve, hafter⟩ := ih hlater
      exact ⟨l₁, a₁, l₂ ++ [a], t₁, t₂, by simp, hQ, hcount, hbefore, hserve, hafter.snoc hstep⟩
    · rw [List.countP_append, List.countP_singleton] at hj
      split at hj
      · next hQ => exact ⟨l, a, [], t, u, rfl, hQ, by omega, hpath, hstep, .nil⟩
      · omega

section Turns

variable {n : ℕ} {p : σ → ℕ} {I : σ → Prop}

/-- The turn after a path is as many places on as the path has steps of the kind. -/
theorem turn_eq (h : M.Path s l t) (hs : I s) (hI : ∀ s a s', I s → M.step s a s' → I s')
    (hturn : ∀ s a s', I s → M.step s a s' → p s' % n = (p s + if Q a then 1 else 0) % n) :
    p t % n = (p s + l.countP Q) % n := by
  induction h with
  | nil => simp
  | @snoc l t u a hpath hstep ih =>
    rw [hturn _ _ _ (hpath.preserves hs hI) hstep, Nat.add_mod, ih, ← Nat.add_mod, List.countP_append,
      List.countP_singleton, Nat.add_assoc]

/-- Every queue has its turn. -/
theorem turn_reached (h : M.Path s l t) (hs : I s) (hI : ∀ s a s', I s → M.step s a s' → I s')
    (hturn : ∀ s a s', I s → M.step s a s' → p s' % n = (p s + if Q a then 1 else 0) % n)
    (hcount : n ≤ l.countP Q) {c : ℕ} (hc : c < n) :
    ∃ l₁ a l₂ t₁ t₂, l = l₁ ++ a :: l₂ ∧ Q a = true ∧ M.Path s l₁ t₁ ∧ M.step t₁ a t₂ ∧ M.Path t₂ l₂ t ∧
      p t₁ % n = c := by
  have hpos : 0 < n := Nat.pos_of_ne_zero fun hn => absurd hc (by omega)
  have hlt := Nat.mod_lt (p s) hpos
  obtain ⟨l₁, a, l₂, t₁, t₂, hl, hQ, hplaces, hbefore, hserve, hafter⟩ :=
    h.nth (Q := Q) ((Nat.mod_lt (c + n - p s % n) hpos).trans_le hcount)
  refine ⟨l₁, a, l₂, t₁, t₂, hl, hQ, hbefore, hserve, hafter, ?_⟩
  calc p t₁ % n = (p s + (c + n - p s % n) % n) % n := by rw [hbefore.turn_eq hs hI hturn, hplaces]
    _ = (p s % n + (c + n - p s % n)) % n := by rw [Nat.add_mod_mod, Nat.mod_add_mod]
    _ = (c + n) % n := by rw [Nat.add_sub_cancel' (by omega)]
    _ = c := by rw [Nat.add_mod_right, Nat.mod_eq_of_lt hc]

/-- A measure that is reduced at the turn of a queue with work, and never raised, is spent. -/
theorem drains {R : α → Prop} (measure : σ → ℕ) (pending : ℕ → σ → Prop) (h : M.Path s l t) (hs : I s)
    (hI : ∀ s a s', I s → M.step s a s' → I s') (hl : ∀ a ∈ l, R a) (hR : ∀ a, R a → Q a = true)
    (hturn : ∀ s a s', I s → M.step s a s' → p s' % n = (p s + if Q a then 1 else 0) % n)
    (hle : ∀ s a s', I s → R a → M.step s a s' → measure s' ≤ measure s)
    (hwork : ∀ s, I s → 0 < measure s → ∃ c < n, pending c s)
    (hserved : ∀ s a s', I s → R a → M.step s a s' → pending (p s % n) s → measure s' < measure s)
    (hkeep : ∀ s a s' c, I s → R a → M.step s a s' → measure s' = measure s → pending c s → pending c s')
    (hlength : n * measure s ≤ l.length) : measure t = 0 := by
  have hfalls : ∀ {l : List α} {s t : σ}, M.Path s l t → I s → (∀ a ∈ l, R a) → measure t ≤ measure s := by
    intro l s t h hs hl
    induction h with
    | nil => exact le_rfl
    | snoc hpath hstep ih =>
      have hlast := hl _ (List.mem_append_right _ (List.mem_singleton_self _))
      exact (hle _ _ _ (hpath.preserves hs hI) hlast hstep).trans (ih fun a ha => hl a (List.mem_append_left _ ha))
  have hstays : ∀ {l : List α} {s t : σ} {c : ℕ}, M.Path s l t → I s → (∀ a ∈ l, R a) →
      measure t = measure s → pending c s → pending c t := by
    intro l s t c h hs hl heq hpending
    induction h with
    | nil => exact hpending
    | snoc hpath hstep ih =>
      have hlast := hl _ (List.mem_append_right _ (List.mem_singleton_self _))
      have hl' := fun a ha => hl a (List.mem_append_left _ ha)
      have hbefore := hfalls hpath hs hl'
      have hafter := hle _ _ _ (hpath.preserves hs hI) hlast hstep
      exact hkeep _ _ _ _ (hpath.preserves hs hI) hlast hstep (by omega) (ih hl' (by omega))
  -- a round with work at its start reduces the measure
  have hround : ∀ {l : List α} {s t : σ}, M.Path s l t → I s → (∀ a ∈ l, R a) → l.length = n →
      0 < measure s → measure t < measure s := by
    intro l s t h hs hl hlen hpos
    obtain ⟨c, hc, hpending⟩ := hwork s hs hpos
    have hcount : l.countP Q = n := (List.countP_eq_length.mpr fun a ha => hR a (hl a ha)).trans hlen
    obtain ⟨l₁, a, l₂, t₁, t₂, rfl, _, hbefore, hserve, hafter, hc'⟩ := h.turn_reached hs hI hturn hcount.ge hc
    have hs₁ := hbefore.preserves hs hI
    have hl₁ : ∀ a ∈ l₁, R a := fun b hb => hl b (List.mem_append_left _ hb)
    have ha : R a := hl a (List.mem_append_right _ List.mem_cons_self)
    have hrest := hfalls hafter (hI _ _ _ hs₁ hserve) fun b hb =>
      hl b (List.mem_append_right _ (List.mem_cons_of_mem _ hb))
    have hfirst := hfalls hbefore hs hl₁
    have hmiddle := hle _ _ _ hs₁ ha hserve
    by_contra hnot
    have hserved' := hserved _ _ _ hs₁ ha hserve (hc'.symm ▸ hstays hbefore hs hl₁ (by omega) hpending)
    omega
  -- by induction on the measure, one round at a time
  induction hm : measure s using Nat.strong_induction_on generalizing s l with
  | _ m ih =>
    rcases Nat.eq_zero_or_pos m with rfl | hpos
    · have hend := hfalls h hs hl
      omega
    · have hn : n ≤ l.length := (Nat.le_mul_of_pos_right n hpos).trans (hm ▸ hlength)
      rw [← List.take_append_drop n l] at h hl
      obtain ⟨t₁, hfirst, hrest⟩ := h.split
      have hless := hround hfirst hs (fun a ha => hl a (List.mem_append_left _ ha)) (List.length_take_of_le hn)
        (by omega)
      refine ih _ (hm ▸ hless) hrest (hfirst.preserves hs hI) (fun a ha => hl a (List.mem_append_right _ ha)) ?_ rfl
      rw [List.length_drop]
      have hmul : n * measure t₁ + n ≤ n * measure s := by
        rw [← Nat.mul_succ]
        exact Nat.mul_le_mul_left n hless
      omega

end Turns

end Transition.System.Path
