import Mathlib

/-!
# A relation stored in two halves

Every related pair is written down twice: with the owner, and with what it owns. The halves are written together but
removed apart: an owner first takes members out of its own half, and each of them stays pending until the other half
of its pair goes. A member may also be forgotten from its own side alone.
-/

namespace Relationship

variable {ι : Type}

structure Halves (ι : Type) where
  owners : ι → Finset ι
  owned : ι → Finset ι

namespace Halves

/-- The halves agree, up to the pairs that are pending and the members that were forgotten. -/
structure Matched (pending : ι → ι → Prop) (forgotten : ι → Prop) (x : Halves ι) : Prop where
  paired : ∀ h t, h ∈ x.owners t → t ∈ x.owned h ∨ pending h t
  returned : ∀ h t, t ∈ x.owned h → h ∈ x.owners t ∨ forgotten t
  popped : ∀ h t, pending h t → t ∉ x.owned h

variable {x : Halves ι} {h t : ι} {pending pending' : ι → ι → Prop} {forgotten forgotten' : ι → Prop}

theorem Matched.mono (hx : Matched pending forgotten x) (hforgotten : ∀ t, forgotten t → forgotten' t) :
    Matched pending forgotten' x :=
  { hx with returned := fun h t ht => (hx.returned h t ht).imp_right (hforgotten t) }

theorem Matched.congr (hx : Matched pending forgotten x) (hpending : ∀ h t, pending' h t ↔ pending h t) :
    Matched pending' forgotten x where
  paired h t hh := (hx.paired h t hh).imp_right (hpending h t).mpr
  returned := hx.returned
  popped h t hp := hx.popped h t ((hpending h t).mp hp)

variable [DecidableEq ι]

def link (x : Halves ι) (h t : ι) : Halves ι where
  owners := Function.update x.owners t (insert h (x.owners t))
  owned := Function.update x.owned h (insert t (x.owned h))

/-- The owner gives up some of its half. -/
def pop (x : Halves ι) (h : ι) (members : Finset ι) : Halves ι :=
  { x with owned := Function.update x.owned h (x.owned h \ members) }

/-- The other half of a popped pair goes. -/
def unlink (x : Halves ι) (h t : ι) : Halves ι :=
  { x with owners := Function.update x.owners t ((x.owners t).erase h) }

def forget (x : Halves ι) (t : ι) : Halves ι := { x with owners := Function.update x.owners t ∅ }

@[simp] theorem mem_owners_link {h' t' : ι} :
    h' ∈ (x.link h t).owners t' ↔ h' ∈ x.owners t' ∨ (h' = h ∧ t' = t) := by
  by_cases ht : t' = t
  · subst ht
    simp [link, or_comm]
  · simp [link, ht]

@[simp] theorem mem_owned_link {h' t' : ι} :
    t' ∈ (x.link h t).owned h' ↔ t' ∈ x.owned h' ∨ (h' = h ∧ t' = t) := by
  by_cases hh : h' = h
  · subst hh
    simp [link, or_comm]
  · simp [link, hh]

@[simp] theorem mem_owned_pop {members : Finset ι} {h' t' : ι} :
    t' ∈ (x.pop h members).owned h' ↔ t' ∈ x.owned h' ∧ ¬ (h' = h ∧ t' ∈ members) := by
  by_cases hh : h' = h
  · subst hh
    simp [pop]
  · simp [pop, hh]

@[simp] theorem mem_owners_unlink {h' t' : ι} :
    h' ∈ (x.unlink h t).owners t' ↔ h' ∈ x.owners t' ∧ ¬ (h' = h ∧ t' = t) := by
  by_cases ht : t' = t
  · subst ht
    simp [unlink, and_comm]
  · simp [unlink, ht]

@[simp] theorem mem_owners_forget {h' t' : ι} : h' ∈ (x.forget t).owners t' ↔ h' ∈ x.owners t' ∧ t' ≠ t := by
  by_cases ht : t' = t
  · subst ht
    simp [forget]
  · simp [forget, ht]

namespace Matched

theorem link (hx : Matched pending forgotten x) (hp : ¬ pending h t) : Matched pending forgotten (x.link h t) where
  paired h' t' hh := by
    rcases mem_owners_link.mp hh with hh | heq
    · exact (hx.paired h' t' hh).imp_left fun ht => mem_owned_link.mpr (Or.inl ht)
    · exact Or.inl (mem_owned_link.mpr (Or.inr heq))
  returned h' t' ht := by
    rcases mem_owned_link.mp ht with ht | heq
    · exact (hx.returned h' t' ht).imp_left fun hh => mem_owners_link.mpr (Or.inl hh)
    · exact Or.inl (mem_owners_link.mpr (Or.inr heq))
  popped h' t' hp' ht := by
    rcases mem_owned_link.mp ht with ht | ⟨rfl, rfl⟩
    · exact hx.popped h' t' hp' ht
    · exact hp hp'

/-- The members that an owner pops become pending. -/
theorem pop (hx : Matched pending forgotten x) (members : Finset ι)
    (hpending : ∀ h' t', pending' h' t' ↔ pending h' t' ∨ (h' = h ∧ t' ∈ members)) :
    Matched pending' forgotten (x.pop h members) where
  paired h' t' hh := by
    rw [mem_owned_pop, hpending]
    rcases hx.paired h' t' hh with ht | hp
    · by_cases hm : h' = h ∧ t' ∈ members
      · exact Or.inr (Or.inr hm)
      · exact Or.inl ⟨ht, hm⟩
    · exact Or.inr (Or.inl hp)
  returned h' t' ht := hx.returned h' t' (mem_owned_pop.mp ht).1
  popped h' t' hp ht := by
    obtain ⟨ht, hm⟩ := mem_owned_pop.mp ht
    rcases (hpending h' t').mp hp with hp | hm'
    · exact hx.popped h' t' hp ht
    · exact hm hm'

/-- The next pending pair is done. -/
theorem unlink (hx : Matched pending forgotten x) (hp : pending h t)
    (hpending : ∀ h' t', pending h' t' → pending' h' t' ∨ (h' = h ∧ t' = t))
    (hsubset : ∀ h' t', pending' h' t' → pending h' t') : Matched pending' forgotten (x.unlink h t) where
  paired h' t' hh := by
    obtain ⟨hh, hne⟩ := mem_owners_unlink.mp hh
    exact (hx.paired h' t' hh).imp_right fun hp' => (hpending h' t' hp').resolve_right hne
  returned h' t' ht := by
    refine (hx.returned h' t' ht).imp_left fun hh => mem_owners_unlink.mpr ⟨hh, ?_⟩
    rintro ⟨rfl, rfl⟩
    exact hx.popped h' t' hp ht
  popped h' t' hp' := hx.popped h' t' (hsubset h' t' hp')

theorem forget (hx : Matched pending forgotten x) (ht : x.owners t ≠ ∅ → forgotten t) :
    Matched pending forgotten (x.forget t) where
  paired h' t' hh := hx.paired h' t' (mem_owners_forget.mp hh).1
  returned h' t' ht' := by
    rcases hx.returned h' t' ht' with hh | hf
    · by_cases heq : t' = t
      · subst heq
        exact Or.inr (ht (Finset.ne_empty_of_mem hh))
      · exact Or.inl (mem_owners_forget.mpr ⟨hh, heq⟩)
    · exact Or.inr hf
  popped := hx.popped

end Matched

end Halves

end Relationship
