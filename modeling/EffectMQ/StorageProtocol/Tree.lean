import EffectMQ.StorageProtocol.Validate

/-!
# Values as trees

A value without sharing: what is packed of a value, and what normalization builds. The own keys of an object come in the
order of JavaScript, array indices first and ascending, then the other keys as they were added.
-/

namespace EffectMQ

/-- A leaf is a value over no objects. A class instance is an object that is neither a byte array, an array nor plain. -/
inductive JsTree
  | leaf (value : JsValue Empty)
  | bytes (content : List UInt8)
  | array (entries : List JsTree)
  | object (properties : List (String × JsTree))
  | classInstance (constructorName : ConstructorName)

/-- A leaf among the values of a heap. -/
def JsValue.widen {N : Type} : JsValue Empty → JsValue N
  | .undefined => .undefined
  | .null => .null
  | .boolean value => .boolean value
  | .number value => .number value
  | .string value => .string value
  | .bigint value => .bigint value
  | .symbol => .symbol
  | .function => .function

namespace OwnKeys

/-- A key that names an index of an array. -/
def isIndex (key : String) : Bool := Decimal.isDecimal key.toList && Decimal.value key.toList < 4294967295

/-- The second key may come after the first. -/
def follows (first second : String) : Bool :=
  if isIndex second then isIndex first && Decimal.value first.toList < Decimal.value second.toList else first ≠ second

/-- Keys in the order in which an object lists them. -/
def Ordered (keys : List String) : Prop := keys.Pairwise fun first second => follows first second = true

variable {α : Type}

/-- A new key takes its place. -/
def insert (key : String) (value : α) : List (String × α) → List (String × α)
  | [] => [(key, value)]
  | p :: properties =>
    if follows p.1 key then p :: insert key value properties else (key, value) :: p :: properties

end OwnKeys

/-- A property that exists keeps its place. -/
def defineDataProperty {α : Type} (target : List (String × α)) (key : String) (value : α) : List (String × α) :=
  if key ∈ target.map Prod.fst then target.map fun p => if p.1 = key then (key, value) else p
  else OwnKeys.insert key value target

namespace OwnKeys

variable {α : Type} {key key' : String} {value : α} {properties : List (String × α)}

theorem value_ne (hkey : isIndex key = true) (hkey' : isIndex key' = true) (hne : key ≠ key') :
    Decimal.value key.toList ≠ Decimal.value key'.toList := by
  simp only [isIndex, Bool.and_eq_true] at hkey hkey'
  intro h
  apply hne
  rw [← String.toList_inj, ← Decimal.toDigits_value hkey.1, ← Decimal.toDigits_value hkey'.1, h]

theorem ne_of_follows (h : follows key key' = true) : key ≠ key' := by
  unfold follows at h
  split at h
  · rintro rfl
    simp at h
  · simpa using h

theorem Ordered.nodup {keys : List String} (h : Ordered keys) : keys.Nodup :=
  List.Pairwise.imp (fun h => ne_of_follows h) h

theorem follows_trans {key'' : String} (h : follows key key' = true) (h' : follows key' key'' = true)
    (hne : key ≠ key'') : follows key key'' = true := by
  unfold follows at h h' ⊢
  split
  · next hindex =>
    simp only [hindex, if_true, Bool.and_eq_true, decide_eq_true_eq] at h'
    simp only [h'.1, if_true, Bool.and_eq_true, decide_eq_true_eq] at h
    simp only [h.1, Bool.true_and, decide_eq_true_eq]
    omega
  · simpa using hne

/-- Of two keys that differ one may follow the other. -/
theorem follows_total (hne : key ≠ key') (h : follows key key' = false) : follows key' key = true := by
  unfold follows at h ⊢
  split at h
  · next hindex' =>
    split
    · next hindex =>
      have hvalue := value_ne hindex hindex' hne
      simp only [hindex, Bool.true_and, decide_eq_false_iff_not] at h
      simp only [hindex', Bool.true_and, decide_eq_true_eq]
      omega
    · simpa using hne.symm
  · simp [hne] at h

theorem mem_insert {p : String × α} (h : p ∈ insert key value properties) : p = (key, value) ∨ p ∈ properties := by
  induction properties with
  | nil => exact Or.inl (List.mem_singleton.mp h)
  | cons q properties ih =>
    unfold insert at h
    split at h
    · rcases List.mem_cons.mp h with rfl | h
      · exact Or.inr List.mem_cons_self
      · exact (ih h).imp_right fun h => List.mem_cons_of_mem q h
    · exact List.mem_cons.mp h

theorem insert_ordered (h : Ordered (properties.map Prod.fst)) (hkey : key ∉ properties.map Prod.fst) :
    Ordered ((insert key value properties).map Prod.fst) := by
  induction properties with
  | nil => exact List.pairwise_singleton _ _
  | cons p properties ih =>
    obtain ⟨hfirst, hrest⟩ := List.pairwise_cons.mp h
    rw [List.map_cons, List.mem_cons, not_or] at hkey
    unfold insert
    split
    · next hfollows =>
      refine List.pairwise_cons.mpr ⟨fun other hother => ?_, ih hrest hkey.2⟩
      obtain ⟨q, hq, rfl⟩ := List.mem_map.mp hother
      rcases mem_insert hq with rfl | hq
      · exact hfollows
      · exact hfirst _ (List.mem_map_of_mem hq)
    · next hfollows =>
      -- the new key comes before the first that may not precede it, and so before the rest
      have hbefore := follows_total (Ne.symm hkey.1) (by simpa using hfollows)
      refine List.pairwise_cons.mpr ⟨fun other hother => ?_, h⟩
      rcases List.mem_cons.mp hother with rfl | hother
      · exact hbefore
      · exact follows_trans hbefore (hfirst _ hother) fun heq : key = other => hkey.2 (heq ▸ hother)

theorem insert_append (h : ∀ p ∈ properties, follows p.1 key = true) :
    insert key value properties = properties ++ [(key, value)] := by
  induction properties with
  | nil => rfl
  | cons p properties ih =>
    rw [insert, if_pos (h p List.mem_cons_self), ih fun q hq => h q (List.mem_cons_of_mem _ hq)]
    rfl

end OwnKeys

section

open OwnKeys

variable {α : Type} {key : String} {value : α} {target : List (String × α)}

theorem mem_defineDataProperty {p : String × α} (h : p ∈ defineDataProperty target key value) :
    p = (key, value) ∨ p ∈ target := by
  unfold defineDataProperty at h
  split at h
  · obtain ⟨q, hq, rfl⟩ := List.mem_map.mp h
    split
    · exact Or.inl rfl
    · exact Or.inr hq
  · exact mem_insert h

/-- The own keys of an object keep their order. -/
theorem defineDataProperty_ordered (h : Ordered (target.map Prod.fst)) :
    Ordered ((defineDataProperty target key value).map Prod.fst) := by
  unfold defineDataProperty
  split
  · have hkeys : (target.map fun p => if p.1 = key then (key, value) else p).map Prod.fst = target.map Prod.fst := by
      rw [List.map_map]
      apply List.map_congr_left
      intro p _
      by_cases hp : p.1 = key
      · simp [hp]
      · simp [hp]
    rw [hkeys]
    exact h
  · next hkey => exact insert_ordered h hkey

/-- A key that follows all others is added at the end. -/
theorem defineDataProperty_append (h : ∀ p ∈ target, follows p.1 key = true) :
    defineDataProperty target key value = target ++ [(key, value)] := by
  have hkey : key ∉ target.map Prod.fst := fun hmem => by
    obtain ⟨p, hp, rfl⟩ := List.mem_map.mp hmem
    exact ne_of_follows (h p hp) rfl
  rw [defineDataProperty, if_neg hkey, insert_append h]

end

end EffectMQ
