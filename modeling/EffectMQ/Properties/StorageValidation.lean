import EffectMQ.Graph.PathSearch
import EffectMQ.StorageProtocol.Validate

/-!
# What validation accepts

A value passes when nothing within its reach is outside the storage domain and no object within its reach lies on a cycle.
The walk ends on every finite heap, and it runs an accessor only to name the constructor of an object that it rejects.
-/

namespace EffectMQ

open Relation

variable {N : Type}

namespace JsValue

/-- A leaf of the storage domain, or an object. -/
def IsStorable : JsValue N → Prop
  | .null | .string _ | .boolean _ | .object _ => True
  | .number x => x.isStorable = true
  | _ => False

end JsValue

namespace JsObject

/-- Every index below the length has an enumerable data entry, and there is no other key. -/
structure IsDense (o : JsObject N) (length : ℕ) : Prop where
  entries : ∀ i < length, ∃ descriptor value, (PropertyKey.string i.repr, descriptor) ∈ o.properties ∧
    descriptor.enumerable = true ∧ descriptor.value = some value
  keys : ∀ p ∈ o.properties, ∃ i < length, p.1 = .string i.repr

/-- The prototype is `Object.prototype`, and all properties are enumerable data properties under string keys. -/
structure IsPlain (o : JsObject N) : Prop where
  hasPrototype : o.hasObjectPrototype = true
  properties : ∀ p ∈ o.properties, (∃ name, p.1 = .string name) ∧ p.2.enumerable = true ∧ ∃ value, p.2.value = some value

/-- An object of the storage domain, with leaves of it for its values. -/
def IsStorable (o : JsObject N) : Prop :=
  o.isUint8Array = true ∨ o.isUint8Array = false ∧
    (match o.arrayLength with
      | some length => o.IsDense length
      | none => o.IsPlain) ∧ ∀ p ∈ o.properties, ∀ value, p.2.value = some value → value.IsStorable

end JsObject

/-- An entry or a property of the first object is the second. -/
def Heap.Edge (heap : Heap N) (n m : N) : Prop :=
  (heap n).isUint8Array = false ∧ ∃ p ∈ (heap n).properties, p.2.value = some (.object m)

/-- A value that storage may carry: nothing within reach is outside the domain, and no cycle is within reach. -/
def Heap.Storable (heap : Heap N) (allowRootUndefined : Bool) : JsValue N → Prop
  | .undefined => allowRootUndefined = true
  | .object n => ∀ m, ReflTransGen heap.Edge n m → (heap m).IsStorable ∧ ¬ TransGen heap.Edge m m
  | value => value.IsStorable

section

variable {heap : Heap N} {o : JsObject N} {n : N} {path : String} {seen seen' : Finset N}
  {value : JsValue N} {walk : JsValue N → String → Finset N → Option (Validation N)} {result : Validation N}

/-! ### The loops -/

/-- A walk of children that leaves the set as it was when it passes, and passes those of a kind. -/
def Walks (walk : JsValue N → String → Finset N → Option (Validation N)) (seen : Finset N) (passes : JsValue N → Prop) : Prop :=
  ∀ value path result, path ≠ "$" → walk value path seen = some result →
    (∀ seen', result = .valid seen' → seen' = seen) ∧ ((∃ seen', result = .valid seen') ↔ passes value)

theorem entryPath_ne (path : String) (index : ℕ) : path ++ "[" ++ index.repr ++ "]" ≠ "$" := by
  intro h
  have hmem : '[' ∈ (path ++ "[" ++ index.repr ++ "]").toList := by simp
  rw [h] at hmem
  exact absurd hmem (by decide)

theorem propertyPath_ne (path key : String) : path ++ "." ++ key ≠ "$" := by
  intro h
  have hmem : '.' ∈ (path ++ "." ++ key).toList := by simp
  rw [h] at hmem
  exact absurd hmem (by decide)

theorem data?_eq_some {descriptor : PropertyDescriptor N} :
    descriptor.data? = some value ↔ descriptor.enumerable = true ∧ descriptor.value = some value := by
  unfold PropertyDescriptor.data?
  split <;> simp_all

variable {passes : JsValue N → Prop}

/-- A walk that stops at a child stops the loop. -/
theorem Walks.stopped (hwalk : Walks walk seen passes) {r : Validation N} (hpath : path ≠ "$")
    (h : walk value path seen = some r) (hr : ∀ seen', r ≠ .valid seen') : ¬ passes value := fun hpasses => by
  obtain ⟨seen', heq⟩ := (hwalk value path r hpath h).2.mpr hpasses
  exact hr seen' heq

/-- The loop over the entries passes when each index has an enumerable data entry that passes. -/
theorem validateEntries_spec (hwalk : Walks walk seen passes) {indices : List ℕ}
    (h : validateEntries walk o path indices seen = some result) :
    (∀ seen', result = .valid seen' → seen' = seen) ∧ ((∃ seen', result = .valid seen') ↔
      ∀ i ∈ indices, ∃ value, (o.getOwnPropertyDescriptor (.string i.repr)).bind PropertyDescriptor.data? = some value ∧
        passes value) := by
  induction indices with
  | nil =>
    obtain rfl := Option.some.inj h
    simp
  | cons i indices ih =>
    unfold validateEntries at h
    dsimp only at h
    have hpath := entryPath_ne path i
    cases hentry : (o.getOwnPropertyDescriptor (.string i.repr)).bind PropertyDescriptor.data? with
    | none =>
      rw [hentry] at h
      obtain rfl := Option.some.inj h
      simp [hentry]
    | some value =>
      rw [hentry] at h
      cases hchild : walk value (path ++ "[" ++ i.repr ++ "]") seen with
      | none => simp [hchild] at h
      | some r =>
        simp only [hchild] at h
        cases r with
        | valid seen'' =>
          obtain rfl := (hwalk value _ _ hpath hchild).1 seen'' rfl
          have hpasses := (hwalk value _ _ hpath hchild).2.mp ⟨_, rfl⟩
          refine ⟨(ih h).1, (ih h).2.trans ?_⟩
          simp [hentry, hpasses]
        | unsupported error accessorRan =>
          obtain rfl := Option.some.inj h
          have hnot := hwalk.stopped hpath hchild (by simp)
          simp [hentry, hnot]
        | threw =>
          obtain rfl := Option.some.inj h
          have hnot := hwalk.stopped hpath hchild (by simp)
          simp [hentry, hnot]

/-- The loop over the properties passes when each is an enumerable data property under a string key and passes. -/
theorem validateProperties_spec (hwalk : Walks walk seen passes)
    {properties : List (PropertyKey × PropertyDescriptor N)}
    (h : validateProperties walk path properties seen = some result) :
    (∀ seen', result = .valid seen' → seen' = seen) ∧ ((∃ seen', result = .valid seen') ↔
      ∀ p ∈ properties, (∃ name, p.1 = .string name) ∧ ∃ value, p.2.data? = some value ∧ passes value) := by
  induction properties with
  | nil =>
    obtain rfl := Option.some.inj h
    simp
  | cons p properties ih =>
    obtain ⟨key, descriptor⟩ := p
    cases key with
    | symbol index =>
      obtain rfl := Option.some.inj h
      simp
    | string key =>
      unfold validateProperties at h
      dsimp only at h
      have hpath := propertyPath_ne path key
      cases hdata : descriptor.data? with
      | none =>
        rw [hdata] at h
        obtain rfl := Option.some.inj h
        simp [hdata]
      | some value =>
        rw [hdata] at h
        cases hchild : walk value (path ++ "." ++ key) seen with
        | none => simp [hchild] at h
        | some r =>
          simp only [hchild] at h
          cases r with
          | valid seen'' =>
            obtain rfl := (hwalk value _ _ hpath hchild).1 seen'' rfl
            have hpasses := (hwalk value _ _ hpath hchild).2.mp ⟨_, rfl⟩
            refine ⟨(ih h).1, (ih h).2.trans ?_⟩
            simp [hdata, hpasses]
          | unsupported error accessorRan =>
            obtain rfl := Option.some.inj h
            have hnot := hwalk.stopped hpath hchild (by simp)
            simp [hdata, hnot]
          | threw =>
            obtain rfl := Option.some.inj h
            have hnot := hwalk.stopped hpath hchild (by simp)
            simp [hdata, hnot]

/-! ### One object -/

/-- A key that is none of the entries. -/
theorem isCustomKey_iff {length : ℕ} {key : PropertyKey} :
    isCustomKey length key = false ↔ ∃ i < length, key = .string i.repr := by
  cases key with
  | symbol index => simp [isCustomKey]
  | string key =>
    simp only [isCustomKey, Bool.or_eq_false_iff, Bool.not_eq_false', decide_eq_false_iff_not, not_le, PropertyKey.string.injEq]
    constructor
    · intro ⟨hdecimal, hlt⟩
      refine ⟨_, hlt, ?_⟩
      rw [← String.toList_inj, Nat.toList_repr, Decimal.toDigits_value hdecimal]
    · rintro ⟨i, hlt, rfl⟩
      rw [Nat.toList_repr, Decimal.value_toDigits]
      exact ⟨Decimal.isDecimal_toDigits i, hlt⟩

/-- With distinct keys a lookup finds every pair of a list. -/
theorem lookup_eq_some {β : Type} {l : List (PropertyKey × β)} (hnodup : (l.map Prod.fst).Nodup) {key : PropertyKey} {b : β} :
    l.lookup key = some b ↔ (key, b) ∈ l := by
  induction l with
  | nil => simp
  | cons p l ih =>
    obtain ⟨key', b'⟩ := p
    rw [List.map_cons, List.nodup_cons] at hnodup
    by_cases hkey : key = key'
    · subst hkey
      have hnot : ∀ b, (key, b) ∉ l := fun b hmem => hnodup.1 (List.mem_map.mpr ⟨_, hmem, rfl⟩)
      simp [hnot, eq_comm]
    · have hne : (key == key') = false := by simpa using hkey
      rw [List.lookup_cons, hne]
      simp [ih hnodup.2, hkey]

theorem getOwnPropertyDescriptor_eq_some {key : PropertyKey} {descriptor : PropertyDescriptor N} :
    o.getOwnPropertyDescriptor key = some descriptor ↔ (key, descriptor) ∈ o.properties :=
  lookup_eq_some o.keys_nodup

/-- The entries of an array and its other keys decide whether it is dense, and its values are those of its entries. -/
theorem dense_iff {length : ℕ} :
    ((∀ i ∈ List.range length, ∃ value,
        (o.getOwnPropertyDescriptor (.string i.repr)).bind PropertyDescriptor.data? = some value ∧ passes value) ∧
      (o.properties.any fun p => isCustomKey length p.1) = false) ↔
    o.IsDense length ∧ ∀ p ∈ o.properties, ∀ value, p.2.value = some value → passes value := by
  have hentry : ∀ {i : ℕ} {value : JsValue N}, (o.getOwnPropertyDescriptor (.string i.repr)).bind PropertyDescriptor.data? = some value ↔
      ∃ descriptor, (PropertyKey.string i.repr, descriptor) ∈ o.properties ∧ descriptor.enumerable = true ∧
        descriptor.value = some value := fun {i value} => by
    rw [Option.bind_eq_some_iff]
    simp only [getOwnPropertyDescriptor_eq_some, data?_eq_some]
  simp only [hentry, List.mem_range, List.any_eq_false, Bool.not_eq_true, isCustomKey_iff]
  constructor
  · intro ⟨hentries, hkeys⟩
    refine ⟨⟨fun i hi => ?_, hkeys⟩, fun p hp value hvalue => ?_⟩
    · obtain ⟨value, ⟨descriptor, hmem, henumerable, hvalue⟩, _⟩ := hentries i hi
      exact ⟨descriptor, value, hmem, henumerable, hvalue⟩
    · obtain ⟨i, hi, hkey⟩ := hkeys p hp
      obtain ⟨value', ⟨descriptor, hmem, _, hvalue'⟩, hpasses⟩ := hentries i hi
      have hdescriptor : p.2 = descriptor := by
        have hfirst := getOwnPropertyDescriptor_eq_some.mpr hp
        rw [hkey] at hfirst
        exact Option.some.inj (hfirst.symm.trans (getOwnPropertyDescriptor_eq_some.mpr hmem))
      rw [hdescriptor, hvalue'] at hvalue
      exact Option.some.inj hvalue ▸ hpasses
  · intro ⟨hdense, hpasses⟩
    refine ⟨fun i hi => ?_, hdense.keys⟩
    obtain ⟨descriptor, value, hmem, henumerable, hvalue⟩ := hdense.entries i hi
    exact ⟨value, ⟨descriptor, hmem, henumerable, hvalue⟩, hpasses _ hmem value hvalue⟩

theorem plain_iff (hprototype : o.hasObjectPrototype = true) :
    (∀ p ∈ o.properties, (∃ name, p.1 = .string name) ∧ ∃ value, p.2.data? = some value ∧ passes value) ↔
    o.IsPlain ∧ ∀ p ∈ o.properties, ∀ value, p.2.value = some value → passes value := by
  simp only [data?_eq_some]
  constructor
  · intro h
    refine ⟨⟨hprototype, fun p hp => ?_⟩, fun p hp value hvalue => ?_⟩
    · obtain ⟨hname, value, ⟨henumerable, hvalue⟩, _⟩ := h p hp
      exact ⟨hname, henumerable, value, hvalue⟩
    · obtain ⟨_, value', ⟨_, hvalue'⟩, hpasses⟩ := h p hp
      exact Option.some.inj (hvalue'.symm.trans hvalue) ▸ hpasses
  · intro ⟨hplain, hpasses⟩ p hp
    obtain ⟨hname, henumerable, value, hvalue⟩ := hplain.properties p hp
    exact ⟨hname, value, ⟨henumerable, hvalue⟩, hpasses p hp value hvalue⟩

/-- What passes a walk at a path: a storable leaf, or an object that is clear. -/
def Heap.Passes [DecidableEq N] (heap : Heap N) (seen : Finset N) : JsValue N → Prop
  | .object n => Graph.Clear heap.Edge (fun m => (heap m).IsStorable) seen n
  | value => value.IsStorable

theorem passes_iff [DecidableEq N] : heap.Passes seen value ↔ value.IsStorable ∧
    ∀ m, value = .object m → Graph.Clear heap.Edge (fun m => (heap m).IsStorable) seen m := by
  cases value <;> simp [Heap.Passes, JsValue.IsStorable]

/-- An object passes off the path, when it is storable and its values pass with it on the path. -/
theorem passes_object [DecidableEq N] (hbytes : (heap n).isUint8Array = false) :
    heap.Passes seen (.object n) ↔ n ∉ seen ∧
      (match (heap n).arrayLength with
        | some length => (heap n).IsDense length
        | none => (heap n).IsPlain) ∧
      ∀ p ∈ (heap n).properties, ∀ value, p.2.value = some value → heap.Passes (insert n seen) value := by
  have hstorable : (heap n).IsStorable ↔ (match (heap n).arrayLength with
      | some length => (heap n).IsDense length
      | none => (heap n).IsPlain) ∧ ∀ p ∈ (heap n).properties, ∀ value, p.2.value = some value → value.IsStorable := by
    simp [JsObject.IsStorable, hbytes]
  rw [Heap.Passes, Graph.clear_iff, hstorable]
  simp only [passes_iff]
  constructor
  · rintro ⟨⟨hseen, hshape, hleaves⟩, hnext⟩
    exact ⟨hseen, hshape, fun p hp value hvalue => ⟨hleaves p hp value hvalue, fun m hm =>
      hnext m ⟨hbytes, p, hp, hm ▸ hvalue⟩⟩⟩
  · rintro ⟨hseen, hshape, hvalues⟩
    refine ⟨⟨hseen, hshape, fun p hp value hvalue => (hvalues p hp value hvalue).1⟩, ?_⟩
    rintro m ⟨_, p, hp, hvalue⟩
    exact (hvalues p hp _ hvalue).2 m rfl

/-- A byte array off the path passes. -/
theorem passes_bytes [DecidableEq N] (hbytes : (heap n).isUint8Array = true) (hseen : n ∉ seen) :
    heap.Passes seen (.object n) := by
  refine Graph.clear_iff.mpr ⟨⟨hseen, Or.inl hbytes⟩, ?_⟩
  rintro m ⟨hnot, _⟩
  exact absurd (hbytes.symm.trans hnot) (by simp)

end

/-! ### The walk -/

section

variable [DecidableEq N] {heap : Heap N} {value : JsValue N} {path : String} {seen : Finset N} {allow : Bool}
  {result : Validation N} {depth : ℕ}

/-- There is no byte array on the path. -/
def Heap.PathOnly (heap : Heap N) (seen : Finset N) : Prop := ∀ n ∈ seen, (heap n).isUint8Array = false

/-- A walk that ends leaves the set as it was when it passes, and it passes exactly where it should. -/
theorem validate_spec (hseen : heap.PathOnly seen) (h : validate heap depth value path seen allow = some result) :
    (∀ seen', result = .valid seen' → seen' = seen) ∧ ((∃ seen', result = .valid seen') ↔
      heap.Passes seen value ∨ value = .undefined ∧ path = "$" ∧ allow = true) := by
  induction depth generalizing value path seen allow result with
  | zero => exact absurd h (by simp [validate])
  | succ depth ih =>
    cases value with
    | undefined =>
      obtain rfl := Option.some.inj h
      split <;> simp_all [Heap.Passes, JsValue.IsStorable]
    | null | boolean | string =>
      obtain rfl := Option.some.inj h
      simp [Heap.Passes, JsValue.IsStorable]
    | number x =>
      obtain rfl := Option.some.inj h
      cases hx : x.isStorable <;> simp [Heap.Passes, JsValue.IsStorable, hx]
    | bigint | symbol | function =>
      obtain rfl := Option.some.inj h
      simp [Heap.Passes, JsValue.IsStorable]
    | object n =>
      simp only [reduceCtorEq, false_and, or_false]
      unfold validate at h
      dsimp only at h
      by_cases hbytes : (heap n).isUint8Array = true
      · rw [if_pos hbytes] at h
        obtain rfl := Option.some.inj h
        have hnot : n ∉ seen := fun hmem => absurd (hbytes.symm.trans (hseen n hmem)) (by simp)
        simp [passes_bytes hbytes hnot]
      rw [if_neg hbytes] at h
      rw [Bool.not_eq_true] at hbytes
      by_cases hmem : n ∈ seen
      · rw [if_pos hmem] at h
        obtain rfl := Option.some.inj h
        simp [passes_object hbytes, hmem]
      rw [if_neg hmem] at h
      have hpath : heap.PathOnly (insert n seen) := fun m hm =>
        (Finset.mem_insert.mp hm).elim (fun heq => heq ▸ hbytes) (hseen m)
      have hwalk : Walks (fun value path seen => validate heap depth value path seen false) (insert n seen)
          (heap.Passes (insert n seen)) := fun value path result _ hresult => by
        simpa using ih hpath hresult
      rw [passes_object hbytes]
      cases hlength : (heap n).arrayLength with
      | some length =>
        rw [hlength] at h
        dsimp only at h ⊢
        cases hentries : validateEntries (fun value path seen => validate heap depth value path seen false) (heap n) path
            (List.range length) (insert n seen) with
        | none => simp [hentries] at h
        | some r =>
          obtain ⟨hrestored, hpasses⟩ := validateEntries_spec hwalk hentries
          rw [hentries] at h
          simp only [hmem, not_false_eq_true, true_and]
          rw [← dense_iff, ← hpasses]
          cases r with
          | valid seen' =>
            obtain rfl := hrestored seen' rfl
            dsimp only at h
            split at h
            · next hcustom =>
              obtain rfl := Option.some.inj h
              simp [hcustom]
            · next hcustom =>
              obtain rfl := Option.some.inj h
              simp [hcustom, Finset.erase_insert hmem]
          | unsupported error accessorRan =>
            obtain rfl := Option.some.inj h
            simp
          | threw =>
            obtain rfl := Option.some.inj h
            simp
      | none =>
        rw [hlength] at h
        dsimp only at h ⊢
        simp only [hmem, not_false_eq_true, true_and]
        by_cases hprototype : (heap n).hasObjectPrototype = false
        · rw [if_pos hprototype] at h
          obtain rfl := Option.some.inj h
          have hnot : ¬ (heap n).IsPlain := fun hplain => absurd (hprototype.symm.trans hplain.hasPrototype) (by simp)
          cases (heap n).constructorName with
          | data name => simp [unsupportedObject, hnot]
          | accessor name => cases name <;> simp [unsupportedObject, hnot]
        · rw [if_neg hprototype] at h
          obtain ⟨r, hproperties, rfl⟩ := Option.map_eq_some_iff.mp h
          obtain ⟨hrestored, hpasses⟩ := validateProperties_spec hwalk hproperties
          rw [← plain_iff (by simpa using hprototype), ← hpasses]
          cases r with
          | valid seen' =>
            obtain rfl := hrestored seen' rfl
            simp [Validation.leave, Finset.erase_insert hmem]
          | unsupported error accessorRan => simp [Validation.leave]
          | threw => simp [Validation.leave]

omit [DecidableEq N] in
theorem validateEntries_ends {o : JsObject N} {walk : JsValue N → String → Finset N → Option (Validation N)}
    (hends : ∀ p ∈ o.properties, ∀ value, p.2.value = some value → ∀ path, ∃ result, walk value path seen = some result)
    (hrestored : ∀ value path seen', walk value path seen = some (.valid seen') → seen' = seen) (indices : List ℕ) :
    ∃ result, validateEntries walk o path indices seen = some result := by
  induction indices with
  | nil => exact ⟨_, rfl⟩
  | cons i indices ih =>
    unfold validateEntries
    dsimp only
    cases hentry : (o.getOwnPropertyDescriptor (.string i.repr)).bind PropertyDescriptor.data? with
    | none => exact ⟨_, rfl⟩
    | some value =>
      obtain ⟨descriptor, hdescriptor, hdata⟩ := Option.bind_eq_some_iff.mp hentry
      obtain ⟨r, hr⟩ := hends _ (getOwnPropertyDescriptor_eq_some.mp hdescriptor) value (data?_eq_some.mp hdata).2
        (path ++ "[" ++ i.repr ++ "]")
      simp only [hr]
      cases r with
      | valid seen' =>
        obtain rfl := hrestored _ _ _ hr
        exact ih
      | unsupported | threw => exact ⟨_, rfl⟩

omit [DecidableEq N] in
theorem validateProperties_ends {walk : JsValue N → String → Finset N → Option (Validation N)}
    {properties : List (PropertyKey × PropertyDescriptor N)}
    (hends : ∀ p ∈ properties, ∀ value, p.2.value = some value → ∀ path, ∃ result, walk value path seen = some result)
    (hrestored : ∀ value path seen', walk value path seen = some (.valid seen') → seen' = seen) :
    ∃ result, validateProperties walk path properties seen = some result := by
  induction properties with
  | nil => exact ⟨_, rfl⟩
  | cons p properties ih =>
    obtain ⟨key, descriptor⟩ := p
    cases key with
    | symbol => exact ⟨_, rfl⟩
    | string key =>
      unfold validateProperties
      dsimp only
      cases hdata : descriptor.data? with
      | none => exact ⟨_, rfl⟩
      | some value =>
        obtain ⟨r, hr⟩ := hends _ List.mem_cons_self value (data?_eq_some.mp hdata).2 (path ++ "." ++ key)
        simp only [hr]
        cases r with
        | valid seen' =>
          obtain rfl := hrestored _ _ _ hr
          exact ih fun p hp => hends p (List.mem_cons_of_mem _ hp)
        | unsupported | threw => exact ⟨_, rfl⟩

/-- A walk ends when a measure falls from each object to its values, and the depth is larger. -/
theorem validate_ends (measure : Finset N → JsValue N → ℕ)
    (hfalls : ∀ seen n p value, n ∉ seen → p ∈ (heap n).properties → p.2.value = some value →
      measure (insert n seen) value < measure seen (.object n))
    (hseen : heap.PathOnly seen) (hdepth : measure seen value < depth) :
    ∃ result, validate heap depth value path seen allow = some result := by
  induction depth generalizing value path seen allow with
  | zero => omega
  | succ depth ih =>
    cases value with
    | undefined | null | boolean | string | number | bigint | symbol | function => exact ⟨_, rfl⟩
    | object n =>
      unfold validate
      dsimp only
      split
      · exact ⟨_, rfl⟩
      next hbytes =>
      split
      · exact ⟨_, rfl⟩
      next hmem =>
      have hpath : heap.PathOnly (insert n seen) := fun m hm =>
        (Finset.mem_insert.mp hm).elim (fun heq => heq ▸ (Bool.not_eq_true _).mp hbytes) (hseen m)
      have hchild : ∀ p ∈ (heap n).properties, ∀ value, p.2.value = some value → ∀ path, ∃ result,
          validate heap depth value path (insert n seen) false = some result := fun p hp value hvalue path =>
        ih hpath ((hfalls seen n p value hmem hp hvalue).trans_le (Nat.le_of_lt_succ hdepth))
      have hrestored : ∀ value path seen', validate heap depth value path (insert n seen) false = some (.valid seen') →
          seen' = insert n seen := fun value path seen' h => (validate_spec hpath h).1 seen' rfl
      cases (heap n).arrayLength with
      | some length =>
        obtain ⟨r, hr⟩ := @validateEntries_ends N path (insert n seen) (heap n)
          (fun value path seen => validate heap depth value path seen false) hchild hrestored (List.range length)
        dsimp only
        rw [hr]
        cases r with
        | valid seen' =>
          dsimp only
          split <;> exact ⟨_, rfl⟩
        | unsupported | threw => exact ⟨_, rfl⟩
      | none =>
        obtain ⟨r, hr⟩ := @validateProperties_ends N path (insert n seen)
          (fun value path seen => validate heap depth value path seen false) _ hchild hrestored
        dsimp only
        split
        · exact ⟨_, rfl⟩
        · rw [hr]
          exact ⟨_, rfl⟩

/-- On a finite heap every depth beyond the number of its objects is enough. -/
theorem validate_ends_of_finite [Fintype N] (hdepth : Fintype.card N < depth) :
    ∃ result, validate heap depth value "$" ∅ allow = some result := by
  refine validate_ends (fun seen _ => seenᶜ.card) (fun seen n p value hmem _ _ => ?_) (fun _ h => absurd h (by simp))
    (lt_of_le_of_lt (Finset.card_le_univ _) hdepth)
  exact Finset.card_lt_card (Finset.compl_ssubset_compl.mpr (Finset.ssubset_insert hmem))

omit [DecidableEq N] in
theorem validateEntries_mono {o : JsObject N} {walk walk' : JsValue N → String → Finset N → Option (Validation N)}
    (hwalk : ∀ value path seen result, walk value path seen = some result → walk' value path seen = some result)
    {indices : List ℕ} (h : validateEntries walk o path indices seen = some result) :
    validateEntries walk' o path indices seen = some result := by
  induction indices generalizing seen with
  | nil => exact h
  | cons i indices ih =>
    unfold validateEntries at h ⊢
    dsimp only at h ⊢
    cases hentry : (o.getOwnPropertyDescriptor (.string i.repr)).bind PropertyDescriptor.data? with
    | none => rwa [hentry] at h
    | some value =>
      rw [hentry] at h
      cases hchild : walk value (path ++ "[" ++ i.repr ++ "]") seen with
      | none => simp [hchild] at h
      | some r =>
        simp only [hchild] at h
        simp only [hwalk _ _ _ _ hchild]
        cases r with
        | valid seen' => exact ih h
        | unsupported | threw => exact h

omit [DecidableEq N] in
theorem validateProperties_mono {walk walk' : JsValue N → String → Finset N → Option (Validation N)}
    (hwalk : ∀ value path seen result, walk value path seen = some result → walk' value path seen = some result)
    {properties : List (PropertyKey × PropertyDescriptor N)}
    (h : validateProperties walk path properties seen = some result) :
    validateProperties walk' path properties seen = some result := by
  induction properties generalizing seen with
  | nil => exact h
  | cons p properties ih =>
    obtain ⟨key, descriptor⟩ := p
    cases key with
    | symbol => exact h
    | string key =>
      unfold validateProperties at h ⊢
      dsimp only at h ⊢
      cases hdata : descriptor.data? with
      | none => rwa [hdata] at h
      | some value =>
        rw [hdata] at h
        cases hchild : walk value (path ++ "." ++ key) seen with
        | none => simp [hchild] at h
        | some r =>
          simp only [hchild] at h
          simp only [hwalk _ _ _ _ hchild]
          cases r with
          | valid seen' => exact ih h
          | unsupported | threw => exact h

/-- A larger depth changes nothing in a walk that ends. -/
theorem validate_mono {depth' : ℕ} (hdepth : depth ≤ depth')
    (h : validate heap depth value path seen allow = some result) :
    validate heap depth' value path seen allow = some result := by
  induction depth generalizing depth' value path seen allow result with
  | zero => exact absurd h (by simp [validate])
  | succ depth ih =>
    obtain ⟨depth', rfl⟩ := Nat.exists_eq_add_of_lt (Nat.lt_of_succ_le hdepth)
    have hwalk : ∀ value path seen result, validate heap depth value path seen false = some result →
        validate heap (depth + depth') value path seen false = some result := fun value path seen result h =>
      ih (Nat.le_add_right depth depth') h
    cases value with
    | undefined | null | boolean | string | number | bigint | symbol | function => exact h
    | object n =>
      unfold validate at h ⊢
      dsimp only at h ⊢
      split at h
      · next hbytes => rwa [if_pos hbytes]
      next hbytes =>
      rw [if_neg hbytes]
      split at h
      · next hmem => rwa [if_pos hmem]
      next hmem =>
      rw [if_neg hmem]
      cases hlength : (heap n).arrayLength with
      | some length =>
        rw [hlength] at h
        dsimp only at h ⊢
        cases hentries : validateEntries (fun value path seen => validate heap depth value path seen false) (heap n) path
            (List.range length) (insert n seen) with
        | none => simp [hentries] at h
        | some r =>
          rw [hentries] at h
          rw [validateEntries_mono hwalk hentries]
          exact h
      | none =>
        rw [hlength] at h
        dsimp only at h ⊢
        split at h
        · next hprototype => rwa [if_pos hprototype]
        · next hprototype =>
          obtain ⟨r, hproperties, rfl⟩ := Option.map_eq_some_iff.mp h
          rw [if_neg hprototype, validateProperties_mono hwalk hproperties]
          rfl

/-! ### Accessors -/

/-- An accessor ran in the walk. -/
def Validation.AccessorRan : Validation N → Prop
  | .valid _ => False
  | .unsupported _ accessorRan => accessorRan = true
  | .threw => True

/-- An object that is rejected for its prototype, whose constructor is named through an accessor. -/
def Heap.NamedByAccessor (heap : Heap N) (n : N) : Prop :=
  (heap n).isUint8Array = false ∧ (heap n).arrayLength = none ∧ (heap n).hasObjectPrototype = false ∧
    ∃ name, (heap n).constructorName = .accessor name

/-- An object within reach of a value. -/
def Heap.Reaches (heap : Heap N) (value : JsValue N) (m : N) : Prop :=
  ∃ n, value = .object n ∧ ReflTransGen heap.Edge n m

omit [DecidableEq N] in
theorem validateEntries_accessor {o : JsObject N} {walk : JsValue N → String → Finset N → Option (Validation N)}
    {indices : List ℕ} (h : validateEntries walk o path indices seen = some result) (hran : result.AccessorRan) :
    ∃ p ∈ o.properties, ∃ value path seen, p.2.value = some value ∧ walk value path seen = some result := by
  induction indices generalizing seen with
  | nil =>
    obtain rfl := Option.some.inj h
    exact hran.elim
  | cons i indices ih =>
    unfold validateEntries at h
    dsimp only at h
    cases hentry : (o.getOwnPropertyDescriptor (.string i.repr)).bind PropertyDescriptor.data? with
    | none =>
      rw [hentry] at h
      obtain rfl := Option.some.inj h
      exact absurd hran (by simp [Validation.AccessorRan])
    | some value =>
      obtain ⟨descriptor, hdescriptor, hdata⟩ := Option.bind_eq_some_iff.mp hentry
      rw [hentry] at h
      dsimp only at h
      split at h
      · exact ih h
      · exact ⟨_, getOwnPropertyDescriptor_eq_some.mp hdescriptor, value, _, _, (data?_eq_some.mp hdata).2, h⟩

omit [DecidableEq N] in
theorem validateProperties_accessor {walk : JsValue N → String → Finset N → Option (Validation N)}
    {properties : List (PropertyKey × PropertyDescriptor N)}
    (h : validateProperties walk path properties seen = some result) (hran : result.AccessorRan) :
    ∃ p ∈ properties, ∃ value path seen, p.2.value = some value ∧ walk value path seen = some result := by
  induction properties generalizing seen with
  | nil =>
    obtain rfl := Option.some.inj h
    exact hran.elim
  | cons p properties ih =>
    obtain ⟨key, descriptor⟩ := p
    cases key with
    | symbol =>
      obtain rfl := Option.some.inj h
      exact absurd hran (by simp [Validation.AccessorRan])
    | string key =>
      unfold validateProperties at h
      dsimp only at h
      cases hdata : descriptor.data? with
      | none =>
        rw [hdata] at h
        obtain rfl := Option.some.inj h
        exact absurd hran (by simp [Validation.AccessorRan])
      | some value =>
        rw [hdata] at h
        dsimp only at h
        split at h
        · obtain ⟨p, hp, hrest⟩ := ih h
          exact ⟨p, List.mem_cons_of_mem _ hp, hrest⟩
        · exact ⟨_, List.mem_cons_self, value, _, _, (data?_eq_some.mp hdata).2, h⟩

/-- An accessor that runs names the constructor of an object within reach that is rejected. -/
theorem validate_accessor (h : validate heap depth value path seen allow = some result) (hran : result.AccessorRan) :
    ∃ m, heap.Reaches value m ∧ heap.NamedByAccessor m := by
  induction depth generalizing value path seen allow result with
  | zero => exact absurd h (by simp [validate])
  | succ depth ih =>
    cases value with
    | undefined | number =>
      obtain rfl := Option.some.inj h
      split at hran <;> exact absurd hran (by simp [Validation.AccessorRan])
    | null | boolean | string | bigint | symbol | function =>
      obtain rfl := Option.some.inj h
      exact absurd hran (by simp [Validation.AccessorRan])
    | object n =>
      unfold validate at h
      dsimp only at h
      split at h
      · obtain rfl := Option.some.inj h
        exact hran.elim
      next hbytes =>
      split at h
      · obtain rfl := Option.some.inj h
        exact absurd hran (by simp [Validation.AccessorRan])
      -- what an object of the heap hands on comes from one of its values
      have hchild : (∃ p ∈ (heap n).properties, ∃ value path seen, p.2.value = some value ∧
          validate heap depth value path seen false = some result) →
          ∃ m, heap.Reaches (.object n) m ∧ heap.NamedByAccessor m := by
        rintro ⟨p, hp, value, path, seen, hvalue, hresult⟩
        obtain ⟨m, ⟨c, rfl, hreach⟩, hnamed⟩ := ih hresult hran
        exact ⟨m, ⟨n, rfl, hreach.head ⟨(Bool.not_eq_true _).mp hbytes, p, hp, hvalue⟩⟩, hnamed⟩
      cases hlength : (heap n).arrayLength with
      | some length =>
        rw [hlength] at h
        dsimp only at h
        split at h
        · split at h
          · obtain rfl := Option.some.inj h
            exact absurd hran (by simp [Validation.AccessorRan])
          · obtain rfl := Option.some.inj h
            exact hran.elim
        · exact hchild (validateEntries_accessor h hran)
      | none =>
        rw [hlength] at h
        dsimp only at h
        split at h
        · next hprototype =>
          obtain rfl := Option.some.inj h
          refine ⟨n, ⟨n, rfl, .refl⟩, (Bool.not_eq_true _).mp hbytes, hlength, hprototype, ?_⟩
          cases hname : (heap n).constructorName with
          | data name => exact absurd hran (by simp [hname, unsupportedObject, Validation.AccessorRan])
          | accessor name => exact ⟨name, rfl⟩
        · obtain ⟨r, hproperties, rfl⟩ := Option.map_eq_some_iff.mp h
          cases r with
          | valid seen' => exact hran.elim
          | unsupported error accessorRan => exact hchild (validateProperties_accessor hproperties hran)
          | threw => exact hchild (validateProperties_accessor hproperties hran)

end

/-- On a finite heap the walk of a value ends, at every depth beyond the number of objects alike. It passes exactly the
storable values, and an accessor that runs in it is one that names the constructor of an object it rejects. -/
theorem validate_exact {N : Type} [DecidableEq N] [Fintype N] (heap : Heap N) (value : JsValue N) (allowRootUndefined : Bool) :
    ∃ result, (∀ depth, Fintype.card N < depth →
        validate heap depth value "$" ∅ allowRootUndefined = some result) ∧
      ((∃ seen, result = .valid seen) ↔ heap.Storable allowRootUndefined value) ∧
      (result.AccessorRan → ∃ m, heap.Reaches value m ∧ heap.NamedByAccessor m) := by
  obtain ⟨result, h⟩ : ∃ result, validate heap (Fintype.card N + 1) value "$" ∅ allowRootUndefined = some result :=
    validate_ends_of_finite (Nat.lt_succ_self _)
  refine ⟨result, fun depth hdepth => validate_mono hdepth h, ?_, validate_accessor h⟩
  rw [(validate_spec (fun _ h => absurd h (by simp)) h).2]
  cases value <;> simp [Heap.Passes, Heap.Storable, Graph.Clear, JsValue.IsStorable]

/-- An object without a prototype whose `constructor` is an accessor: the walk runs it. -/
theorem validate_runs_accessor : ∃ (heap : Heap Unit) (result : Validation Unit),
    (heap ()).properties = [(.string "constructor", ⟨true, none⟩)] ∧
      validate heap 2 (.object ()) "$" ∅ false = some result ∧ result.AccessorRan :=
  ⟨fun _ => ⟨false, none, false, [(.string "constructor", ⟨true, none⟩)], by simp, .accessor (some (some "Model"))⟩,
    _, rfl, rfl, rfl⟩

end EffectMQ
