import Mathlib

/-!
# Redis hashes

A hash is an association list from Mathlib. Redis lists the fields of a hash in no particular order, and nothing here
depends on one.
-/

namespace Redis

/-- A hash with string fields. -/
abbrev Hash (α : Type) := AList fun _ : String => α

namespace Hash

variable {α : Type}

/-- Change every value, given its field. -/
def mapValues (f : String → α → α) (h : Hash α) : Hash α where
  entries := h.entries.map (.map id f)
  nodupKeys := by
    have hkeys : (h.entries.map (.map id f) : List (Σ _ : String, α)).keys = h.entries.keys := by
      simp [List.keys, Function.comp_def, Sigma.map]
    rw [List.NodupKeys, hkeys]
    exact h.nodupKeys

theorem lookup_mapValues (f : String → α → α) (h : Hash α) (k : String) :
    AList.lookup k (h.mapValues f) = (AList.lookup k h).map (f k) :=
  List.dlookup_map₂ k

/-- Change the value of one field, if it is there. -/
def modify (k : String) (f : α → α) (h : Hash α) : Hash α := h.mapValues fun k' v => if k' = k then f v else v

theorem lookup_modify_self (k : String) (f : α → α) (h : Hash α) :
    AList.lookup k (h.modify k f) = (AList.lookup k h).map f := by
  simp [modify, lookup_mapValues]

theorem lookup_modify_of_ne {k k' : String} (hne : k' ≠ k) (f : α → α) (h : Hash α) :
    AList.lookup k' (h.modify k f) = AList.lookup k' h := by
  simp [modify, lookup_mapValues, hne]

theorem mapValues_mapValues (f g : String → α → α) (h : Hash α) :
    (h.mapValues f).mapValues g = h.mapValues fun k v => g k (f k v) := by
  apply AList.ext
  simp [mapValues, Function.comp_def, Sigma.map]

/-- A change that leaves every value alone. -/
theorem mapValues_eq_self {f : String → α → α} {h : Hash α}
    (hf : ∀ k v, AList.lookup k h = some v → f k v = v) : h.mapValues f = h := by
  apply AList.ext
  simp only [mapValues]
  conv_rhs => rw [← List.map_id h.entries]
  refine List.map_congr_left fun ⟨k, v⟩ hmem => ?_
  rw [Sigma.map, id, hf k v (AList.mem_lookup_iff.mpr hmem)]
  rfl

theorem mapValues_congr {f g : String → α → α} {h : Hash α}
    (hfg : ∀ k v, AList.lookup k h = some v → f k v = g k v) : h.mapValues f = h.mapValues g := by
  apply AList.ext
  simp only [mapValues]
  refine List.map_congr_left fun ⟨k, v⟩ hmem => ?_
  rw [Sigma.map, Sigma.map, hfg k v (AList.mem_lookup_iff.mpr hmem)]

end Hash

end Redis
