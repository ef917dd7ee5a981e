import Mathlib

/-!
# A search that remembers its path

A depth-first search that refuses a node on the path that led to it. From a node and a path it passes exactly when every
node within reach passes a check of its own, none lies on the path, and none lies on a cycle. Reaching a node along several
paths does no harm.
-/

namespace Graph

open Relation

variable {N : Type} [DecidableEq N] {edge : N → N → Prop} {ok : N → Prop} {path : Finset N} {n : N}

/-- Everything within reach of a node passes, lies off the path and on no cycle. -/
def Clear (edge : N → N → Prop) (ok : N → Prop) (path : Finset N) (n : N) : Prop :=
  ∀ m, ReflTransGen edge n m → ok m ∧ m ∉ path ∧ ¬ TransGen edge m m

/-- A node is clear when it is on no path to it and passes, and its successors are clear with the node on their path. -/
theorem clear_iff : Clear edge ok path n ↔ (n ∉ path ∧ ok n) ∧ ∀ m, edge n m → Clear edge ok (insert n path) m := by
  constructor
  · intro h
    have hn := h n .refl
    refine ⟨⟨hn.2.1, hn.1⟩, fun m hedge k hreach => ?_⟩
    have hk := h k (hreach.head hedge)
    refine ⟨hk.1, ?_, hk.2.2⟩
    rw [Finset.mem_insert, not_or]
    refine ⟨fun heq => ?_, hk.2.1⟩
    subst heq
    exact hn.2.2 (TransGen.head' hedge hreach)
  · rintro ⟨⟨hpath, hok⟩, hnext⟩ m hreach
    have hback : ∀ {c}, edge n c → ¬ ReflTransGen edge c n := fun hedge hreach =>
      (hnext _ hedge n hreach).2.1 (Finset.mem_insert_self n path)
    rcases hreach.cases_head with rfl | ⟨c, hedge, hreach⟩
    · refine ⟨hok, hpath, fun hcycle => ?_⟩
      obtain ⟨c, hedge, hreach⟩ := TransGen.head'_iff.mp hcycle
      exact hback hedge hreach
    · have hm := hnext c hedge m hreach
      exact ⟨hm.1, fun hmem => hm.2.1 (Finset.mem_insert_of_mem hmem), hm.2.2⟩

end Graph
