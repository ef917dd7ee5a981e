import EffectMQ.Lifecycle.Advance
import EffectMQ.Lifecycle.Moment

/-!
# What is left over from a generation

An earlier generation of an id leaves members in the expiry indexes, holds that are still to be released, and its name
among the members of other holders. Handling them changes nothing that a later generation of the id shares or owns: the
sweeps compare the generation of a member with the stored one, and no holder ever retained another generation of its own
id.
-/

namespace EffectMQ

open Redis

/-- What the store keeps for a generation: what all generations of its id share, and what is its own. -/
@[ext] structure GenerationView where
  record : Option TaskRecord
  counter : ℕ
  createdAt : Option ℚ
  waiting : ℕ
  score : TaskList → Option ℚ
  lock : Option Lock
  result : Option TerminalResult
  dates : Dates
  history : List (StreamId × HistoryEntry)
  retainedBy : Finset TaskIdentity
  retains : Finset TaskIdentity

def Store.generationView (s : Store) (x : TaskIdentity) : GenerationView where
  record := s.task x.key
  counter := s.generations x.key
  createdAt := (s.created x.queue).score x.id
  waiting := (s.lists x.queue).wait.count x.id
  score := (s.lists x.queue).score x.id
  lock := s.lock x.key
  result := s.result x
  dates := (s.expiry x.queue).dates x
  history := s.history x
  retainedBy := s.retainedBy x
  retains := s.retains x

/-- The handling of what a generation left: its members in the expiry indexes, its entry among the release continuations
with the holds that it still owns, and its name among the members of another holder. -/
inductive Leftover (env : Env) (x : TaskIdentity) (w : World) : World → Prop
  | task : Leftover env x w (expireTask env x.queue w x)
  | result : Leftover env x w (expireResult env x.queue w x)
  | terminal : Leftover env x w (expireTerminal x.queue w x)
  | deadLetter : Leftover env x w (expireDeadLetter x.queue w x)
  | continuation : Leftover env x w (releaseOwnedHolds env x w)
  | tombstone (holder : TaskIdentity) : Leftover env x w (releaseHold env holder w x)

/-- No holder retains, or is about to drop, another generation of its own id. -/
def Apart (b : Busy) (s : Store) : Prop :=
  ∀ h t, t ∈ s.retains h ∨ Pending b h t → h.key = t.key → h = t

section

variable {env : Env} {b b' : Busy} {s s' : Store} {act : EngineAction} {x y : TaskIdentity}

/-- A generation view is a part of the view of the id and the holds of the generation. -/
theorem generationView_of_view (hview : s'.view y.key = s.view y.key) (hretainedBy : s'.retainedBy y = s.retainedBy y)
    (hretains : s'.retains y = s.retains y) : s'.generationView y = s.generationView y := by
  ext1
  · exact congrArg TaskView.record hview
  · exact congrArg TaskView.counter hview
  · exact congrArg TaskView.createdAt hview
  · exact congrArg TaskView.waiting hview
  · exact congrArg TaskView.score hview
  · exact congrArg TaskView.lock hview
  · exact congrFun (congrArg TaskView.result hview) y.generation
  · exact congrFun (congrArg TaskView.dates hview) y.generation
  · exact congrFun (congrArg TaskView.history hview) y.generation
  · exact hretainedBy
  · exact hretains

/-- Changing the expiry entries of another generation. -/
theorem generationView_setExpiry {queue : String} {e : ExpiryIndexes} (hdates : e.dates y = (s.expiry queue).dates y) :
    (s.setExpiry queue e).generationView y = s.generationView y := by
  have heq : ((s.setExpiry queue e).expiry y.queue).dates y = (s.expiry y.queue).dates y := by
    by_cases hqueue : y.queue = queue
    · subst hqueue
      rw [← hdates]
      exact congrArg (ExpiryIndexes.dates · y) (Function.update_self ..)
    · exact congrArg (ExpiryIndexes.dates · y) (Function.update_of_ne hqueue _ _)
  unfold Store.generationView
  rw [heq]
  rfl

/-- A generation is stored only as long as its id has no later one. -/
theorem current_eq_none_of_lt {now : ℚ} (hs : Sane now s) (hlt : x.generation < s.generations x.key) :
    s.current x = none :=
  Option.eq_none_iff_forall_ne_some.mpr fun _ hr => absurd (hs.generation_le hr) (Nat.ne_of_lt hlt)

/-! ### The holders of other ids -/

theorem apart_empty : Apart none Store.empty := by
  rintro h t (hmem | hpending)
  · exact absurd hmem (by simp [Store.empty])
  · exact absurd hpending (not_pending_none h t)

theorem Apart.of_subset (h : Apart b s)
    (hsubset : ∀ holder t, t ∈ s'.retains holder ∨ Pending b' holder t → t ∈ s.retains holder ∨ Pending b holder t) :
    Apart b' s' :=
  fun holder t hmem => h holder t (hsubset holder t hmem)

/-- A hold between two stored generations. -/
theorem Apart.hold (h : Apart none s) {holder : TaskIdentity} (hpair : holder.key = x.key → holder = x)
    (hretains : s'.retains = (s.hold holder x).retains) : Apart none s' := by
  rintro h' t (hmem | hpending) hkey
  · rw [hretains, Store.hold] at hmem
    dsimp only at hmem
    by_cases hh : h' = holder
    · subst hh
      rw [Function.update_self, Finset.mem_insert] at hmem
      rcases hmem with rfl | hmem
      · exact hpair hkey
      · exact h h' t (Or.inl hmem) hkey
    · rw [Function.update_of_ne hh] at hmem
      exact h h' t (Or.inl hmem) hkey
  · exact absurd hpending (not_pending_none h' t)

theorem eq_of_current {r r' : TaskRecord} (hx : s.current x = some r) (hy : s.current y = some r')
    (hkey : x.key = y.key) : x = y := by
  obtain ⟨hrecord, hgeneration⟩ := current_eq_some_iff.mp hx
  obtain ⟨hrecord', hgeneration'⟩ := current_eq_some_iff.mp hy
  have heq : s.task x.key = s.task y.key := congrArg s.task hkey
  obtain rfl := Option.some.inj (hrecord.symm.trans (heq.trans hrecord'))
  exact TaskIdentity.eq_of_key hkey (hgeneration.symm.trans hgeneration')

theorem EngineStep.apart (hstep : EngineStep env b s act b' s') (h : Apart b s) : Apart b' s' := by
  cases hstep with
  | task henabled hadmissible hlocal hline =>
    refine h.of_subset fun holder t hmem => ?_
    rw [hlocal.retains] at hmem
    exact hmem.imp_right fun hpending => absurd hpending (not_pending_busy _ _ _ _ _)
  | create hfresh hlocal => exact h.of_subset fun holder t hmem => by rwa [hlocal.retains] at hmem
  | createHeld hfresh hholder hroom hlocal =>
    next a replacedTask holder =>
    obtain ⟨r, hr, _⟩ := hholder.current
    refine h.hold (fun hkey => ?_) hlocal.retains
    -- the holder is stored, the new generation is not
    have hrecord : s.task holder.key = some r := (current_eq_some_iff.mp hr).1
    rw [hkey] at hrecord
    exact absurd (hfresh.symm.trans hrecord) (by simp)
  | forget henabled hnoted hlocal => exact h.of_subset fun holder t hmem => by rwa [hlocal.retains] at hmem
  | start => exact h.of_subset fun holder t hmem => hmem.imp_right fun hp => absurd hp (not_pending_empty _ _ _)
  | pop hnodup hsubset =>
    next holder members =>
    refine h.of_subset fun holder' t hmem => Or.inl ?_
    rcases hmem with hmem | hpending
    · by_cases hh : holder' = holder
      · subst hh
        dsimp only at hmem
        rw [Function.update_self] at hmem
        exact Finset.sdiff_subset hmem
      · dsimp only at hmem
        rwa [Function.update_of_ne hh] at hmem
    · obtain ⟨rfl, hpopped⟩ := pending_some.mp hpending
      exact hsubset t hpopped
  | dropKept hkept =>
    refine h.of_subset fun holder' t hmem => hmem.imp_right fun hpending => ?_
    obtain ⟨rfl, hrest⟩ := pending_some.mp hpending
    exact pending_some.mpr ⟨rfl, List.mem_cons_of_mem _ hrest⟩
  | dropRefiled hcurrent hsettled hheld hlocal =>
    refine h.of_subset fun holder' t hmem => ?_
    rw [hlocal.retains] at hmem
    refine hmem.imp_right fun hpending => ?_
    obtain ⟨rfl, hrest⟩ := pending_some.mp hpending
    exact pending_some.mpr ⟨rfl, List.mem_cons_of_mem _ hrest⟩
  | note => exact h.of_subset fun holder t hmem => hmem.imp_right fun hp => absurd hp (not_pending_none _ _)
  | acquire hholder hcurrent hroom =>
    obtain ⟨r', hr', _⟩ := hholder.current
    exact h.hold (fun hkey => eq_of_current hr' hcurrent hkey) rfl
  | tick => exact h

/-! ### The handling of a leftover -/

/-- A drop leaves every id without the dropped generation, and the holds of the others. -/
theorem EngineStep.drop_view {holder t : TaskIdentity} {refiled : Bool}
    (hstep : EngineStep env b s (.drop holder t refiled) b' s') (hne : t ≠ y)
    (hother : t.key = y.key → s.current t = none) : s'.generationView y = s.generationView y := by
  cases hstep with
  | dropKept hkept =>
    exact generationView_of_view rfl (Function.update_of_ne hne.symm _ _) rfl
  | dropRefiled hcurrent hsettled hheld hlocal =>
    have hkey : y.key ≠ t.key := fun hkey => absurd ((hother hkey.symm).symm.trans hcurrent) (by simp)
    refine generationView_of_view (hlocal.view_of_ne hkey) ?_ (congrFun hlocal.retains y)
    exact (congrFun hlocal.retainedBy y).trans (Function.update_of_ne hne.symm _ _)

theorem EngineStep.drop_busy {holder t : TaskIdentity} {refiled : Bool}
    (hstep : EngineStep env b s (.drop holder t refiled) b' s') :
    ∃ rest, b = some (holder, t :: rest) ∧ b' = some (holder, rest) := by
  cases hstep <;> exact ⟨_, rfl, rfl⟩

theorem current_of_generationView (hview : s'.generationView y = s.generationView y) (hkey : x.key = y.key) :
    s'.current x = s.current x := by
  have hrecord : s'.task y.key = s.task y.key := congrArg GenerationView.record hview
  rw [← hkey] at hrecord
  exact congrArg (Option.filter fun r => r.generation = x.generation) hrecord

/-- Forgetting the result of another generation. -/
theorem generationView_result (hne : y ≠ x) (result : Option TerminalResult) :
    { s with result := Function.update s.result x result }.generationView y = s.generationView y := by
  ext1 <;> first | rfl | exact Function.update_of_ne hne _ _

theorem expireTask_isolated {w : World} (hcurrent : w.store.current x = none) (hne : y ≠ x) :
    (expireTask env x.queue w x).store.generationView y = w.store.generationView y := by
  have hmember : w.store.current (member x.queue x) = none := hcurrent
  unfold expireTask
  dsimp only
  rw [hmember]
  refine generationView_setExpiry ?_
  simp [ExpiryIndexes.dates, SortedSet.score_remove_of_ne _ hne]

theorem expireResult_isolated {w : World} (hne : y ≠ x) :
    (expireResult env x.queue w x).store.generationView y = w.store.generationView y := by
  unfold expireResult
  dsimp only
  split
  · refine generationView_setExpiry ?_
    simp [ExpiryIndexes.dates, SortedSet.score_add_of_ne _ _ hne]
  · refine (generationView_result hne none).trans (generationView_setExpiry ?_)
    simp [ExpiryIndexes.dates, SortedSet.score_remove_of_ne _ hne]

theorem expireTerminal_isolated {w : World} (hcurrent : w.store.current x = none) (hne : y ≠ x) :
    (expireTerminal x.queue w x).store.generationView y = w.store.generationView y := by
  have hmember : w.store.current (member x.queue x) = none := hcurrent
  have hstore : (expireTerminal x.queue w x).store = w.store.setExpiry x.queue
      { w.store.expiry x.queue with terminal := (w.store.expiry x.queue).terminal.remove x } := by
    simp [expireTerminal, hmember]
  rw [hstore]
  refine generationView_setExpiry ?_
  simp [ExpiryIndexes.dates, SortedSet.score_remove_of_ne _ hne]

theorem expireDeadLetter_isolated {w : World} (hne : y ≠ x) :
    (expireDeadLetter x.queue w x).store.generationView y = w.store.generationView y := by
  refine generationView_setExpiry ?_
  simp [ExpiryIndexes.dates, SortedSet.score_remove_of_ne _ hne]

/-- A release of the holds of an earlier generation: none of them is on the id of the generation itself. -/
theorem releaseOwnedHolds_isolated {w : World} (hs : Sane env.now w.store) (hapart : Apart b w.store)
    (hkey : x.key = y.key) (hcurrent : w.store.current x = none) (hne : y ≠ x) :
    (releaseOwnedHolds env x w).store.generationView y = w.store.generationView y := by
  obtain ⟨s₁, s₂, hpop, hdrops, hnote, _⟩ := releaseOwnedHolds_steps x hs
  have hmembers : ∀ t ∈ poppedMembers env x w, t.key = y.key → t = x := by
    intro t ht hkey'
    refine (hapart x t (Or.inl ?_) (hkey.trans hkey'.symm)).symm
    cases hpop with
    | pop hnodup hsubset => exact hsubset t ht
  have hpopped : s₁.generationView y = w.store.generationView y := by
    cases hpop with
    | pop hnodup hsubset => exact generationView_of_view rfl rfl (Function.update_of_ne hne _ _)
  have hdropped : (∀ h t, Pending (some (x, [])) h t → t.key = y.key → t = x) ∧
      s₂.generationView y = w.store.generationView y := by
    refine hdrops.preserves (I := fun b s => (∀ h t, Pending b h t → t.key = y.key → t = x) ∧
      s.generationView y = w.store.generationView y) (hpop.sane hs)
      ⟨fun h t hpending => hmembers t (pending_some.mp hpending).2, hpopped⟩ ?_
    rintro b₁ s₃ _ b₂ s₄ _ ⟨hpending, hview⟩ hstep ⟨t, refiled, rfl⟩
    obtain ⟨rest, rfl, rfl⟩ := hstep.drop_busy
    have hpair : t.key = y.key → t = x := hpending x t (pending_some.mpr ⟨rfl, List.mem_cons_self⟩)
    refine ⟨fun h t' hlater => hpending h t' ?_, (hstep.drop_view (fun heq => ?_) fun hkey' => ?_).trans hview⟩
    · obtain ⟨rfl, hrest⟩ := pending_some.mp hlater
      exact pending_some.mpr ⟨rfl, List.mem_cons_of_mem _ hrest⟩
    · exact hne (heq ▸ hpair (heq ▸ rfl))
    · rw [hpair hkey', current_of_generationView hview hkey, hcurrent]
  generalize (releaseOwnedHolds env x w).store = s₃ at hnote ⊢
  cases hnote with
  | note => exact hdropped.2

theorem releaseHold_isolated {w : World} (holder : TaskIdentity) (hcurrent : w.store.current x = none) (hne : y ≠ x) :
    (releaseHold env holder w x).store.generationView y = w.store.generationView y := by
  have hstore : (releaseHold env holder w x).store = w.store.unhold holder x := by
    unfold releaseHold
    dsimp only
    split
    · rfl
    · next r hsome =>
      have hr : w.store.current x = some r := hsome
      exact absurd (hcurrent.symm.trans hr) (by simp)
  rw [hstore]
  exact generationView_of_view rfl (Function.update_of_ne hne _ _) rfl

/-- Handling what an earlier generation left changes nothing of a later one. -/
theorem Leftover.isolated {w w' : World} (h : Leftover env x w w') (hs : Sane env.now w.store)
    (hapart : Apart b w.store) (hkey : x.key = y.key) (hlt : x.generation < y.generation)
    (hgiven : y.generation ≤ w.store.generations y.key) :
    w'.store.generationView y = w.store.generationView y := by
  have hne : y ≠ x := fun heq => absurd (congrArg TaskIdentity.generation heq) (Nat.ne_of_gt hlt)
  have hcurrent : w.store.current x = none := current_eq_none_of_lt hs (hkey ▸ hlt.trans_le hgiven)
  cases h with
  | task => exact expireTask_isolated hcurrent hne
  | result => exact expireResult_isolated hne
  | terminal => exact expireTerminal_isolated hcurrent hne
  | deadLetter => exact expireDeadLetter_isolated hne
  | continuation => exact releaseOwnedHolds_isolated hs hapart hkey hcurrent hne
  | tombstone holder => exact releaseHold_isolated holder hcurrent hne

end

end EffectMQ
