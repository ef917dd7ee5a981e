import EffectMQ.Redis.SortedSet

/-!
# Random removal from a set

`SPOP key count` removes up to `count` members of its own choice. A choice is a function that carries the
command's contract; the first members in byte order are one such choice, which makes a run executable.
-/

namespace Redis

/-- The server's choice of the members that `SPOP` removes from the set at a key. -/
structure RandomPop (κ α : Type) where
  pop : κ → Finset α → ℕ → List α
  nodup : ∀ k s n, (pop k s n).Nodup
  subset : ∀ k s n, ∀ m ∈ pop k s n, m ∈ s
  length : ∀ k s n, (pop k s n).length = min n s.card

section Listing

variable {α : Type} [MemberOrder α]

/-- The byte order, with equality. -/
def ByteLe (a b : α) : Prop := MemberOrder.lt b a = false

instance : DecidableRel (ByteLe (α := α)) := fun a b => by
  unfold ByteLe
  infer_instance

instance : Std.Total (ByteLe (α := α)) where
  total a b := by
    by_contra h
    simp only [ByteLe, not_or, Bool.not_eq_false] at h
    have haa := MemberOrder.trans _ _ _ h.1 h.2
    rw [MemberOrder.irrefl] at haa
    exact Bool.noConfusion haa

instance : IsTrans α (ByteLe (α := α)) where
  trans a b c hab hbc := by
    unfold ByteLe at *
    by_contra hca
    rw [Bool.not_eq_false] at hca
    by_cases hcb : MemberOrder.lt b c = true
    · rw [MemberOrder.trans _ _ _ hcb hca] at hab
      exact Bool.noConfusion hab
    · rw [MemberOrder.total _ _ hbc (Bool.eq_false_of_not_eq_true hcb), hab] at hca
      exact Bool.noConfusion hca

instance : Std.Antisymm (ByteLe (α := α)) where
  antisymm _ _ hab hba := MemberOrder.total _ _ hba hab

/-- The members of a set in byte order. -/
def listing (s : Finset α) : List α :=
  Quot.liftOn s.val (fun l => l.insertionSort ByteLe) fun l l' h =>
    List.Perm.eq_of_pairwise (fun _ _ _ _ hab hba => Std.Antisymm.antisymm _ _ hab hba)
      (List.pairwise_insertionSort ByteLe l) (List.pairwise_insertionSort ByteLe l')
      ((List.perm_insertionSort ByteLe l).trans (h.trans (List.perm_insertionSort ByteLe l').symm))

theorem coe_listing (s : Finset α) : (listing s : Multiset α) = s.val := by
  obtain ⟨⟨l⟩, _⟩ := s
  exact Quot.sound (List.perm_insertionSort ByteLe l)

/-- Pop the first members in byte order. -/
def RandomPop.first (κ α : Type) [MemberOrder α] : RandomPop κ α where
  pop _ s n := (listing s).take n
  nodup _ s n := by
    have h : (listing s).Nodup := by
      rw [← Multiset.coe_nodup, coe_listing]
      exact s.nodup
    exact h.sublist (List.take_sublist _ _)
  subset _ s n m hm := by
    have h : m ∈ (listing s : Multiset α) := List.mem_of_mem_take hm
    rwa [coe_listing] at h
  length _ s n := by
    rw [List.length_take, ← Multiset.coe_card, coe_listing]
    rfl

end Listing

end Redis
