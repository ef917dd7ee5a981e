import EffectMQ.Properties.StorageValidation
import EffectMQ.StorageProtocol.Envelope

/-!
# Stored values as trees

What passes validation is a tree of the storage domain, and a tree of the domain passes. Normalization gives a tree, whatever
was unpacked, and gives back the tree that was packed.
-/

namespace EffectMQ

theorem mapM_eq_some {α β : Type} {f : α → Option β} {l : List α} {m : List β} :
    l.mapM f = some m ↔ List.Forall₂ (fun a b => f a = some b) l m := by
  induction l generalizing m with
  | nil => simp [eq_comm]
  | cons a l ih =>
    rw [List.mapM_cons]
    constructor
    · intro h
      obtain ⟨b, hb, h⟩ := Option.bind_eq_some_iff.mp h
      obtain ⟨m, hm, h⟩ := Option.bind_eq_some_iff.mp h
      obtain rfl := Option.some.inj h
      exact .cons hb (ih.mp hm)
    · intro h
      cases h with
      | cons hb hm => simp [hb, ih.mpr hm]

theorem exists_mapM {α β : Type} {f : α → Option β} {l : List α} {good : α → β → Prop}
    (h : ∀ a ∈ l, ∃ b, f a = some b ∧ good a b) : ∃ m, l.mapM f = some m ∧ List.Forall₂ good l m := by
  induction l with
  | nil => exact ⟨[], rfl, .nil⟩
  | cons a l ih =>
    obtain ⟨b, hb, hgood⟩ := h a List.mem_cons_self
    obtain ⟨m, hm, hall⟩ := ih fun a ha => h a (List.mem_cons_of_mem _ ha)
    exact ⟨b :: m, by simp [hb, hm], .cons hgood hall⟩

theorem exists_of_forall₂ {α β : Type} {good : α → β → Prop} {l : List α} {m : List β} {b : β} (h : List.Forall₂ good l m)
    (hb : b ∈ m) : ∃ a ∈ l, good a b := by
  induction h with
  | nil => cases hb
  | @cons a c l m hgood _ ih =>
    rcases List.mem_cons.mp hb with rfl | hb
    · exact ⟨a, List.mem_cons_self, hgood⟩
    · obtain ⟨a, ha, hgood⟩ := ih hb
      exact ⟨a, List.mem_cons_of_mem _ ha, hgood⟩

/-! ### Trees to a depth -/

namespace JsTree

variable {leaf leaf' : JsValue Empty → Prop} {named named' : ConstructorName → Prop} {depth depth' : ℕ} {t root : JsTree}
  {path : List ℕ}

/-- Leaves of a kind, byte arrays, arrays, plain objects and class instances of a kind, to a depth. -/
def Of (leaf : JsValue Empty → Prop) (named : ConstructorName → Prop) : ℕ → JsTree → Prop
  | 0, _ => False
  | _ + 1, .leaf value => leaf value
  | _ + 1, .bytes _ => True
  | depth + 1, .array entries => ∀ entry ∈ entries, Of leaf named depth entry
  | depth + 1, .object properties =>
    OwnKeys.Ordered (properties.map Prod.fst) ∧ ∀ p ∈ properties, Of leaf named depth p.2
  | _ + 1, .classInstance name => named name

/-- A tree of the storage domain. -/
abbrev Storable (depth : ℕ) (t : JsTree) : Prop := t.Of JsValue.IsStorable (fun _ => False) depth

/-- A tree that may be packed: what is undefined is packed too. -/
abbrev Packable (depth : ℕ) (t : JsTree) : Prop :=
  t.Of (fun value => value.IsStorable ∨ value = .undefined) (fun _ => False) depth

/-- A tree whose objects list their keys in order. -/
abbrev Shaped (depth : ℕ) (t : JsTree) : Prop := t.Of (fun _ => True) (fun _ => True) depth

theorem Of.mono (hleaf : ∀ value, leaf value → leaf' value) (hnamed : ∀ name, named name → named' name)
    (hdepth : depth ≤ depth') (h : t.Of leaf named depth) : t.Of leaf' named' depth' := by
  induction depth generalizing depth' t with
  | zero => exact h.elim
  | succ depth ih =>
    obtain ⟨depth', rfl⟩ := Nat.exists_eq_add_of_lt (Nat.lt_of_succ_le hdepth)
    have hchild : ∀ {t : JsTree}, t.Of leaf named depth → t.Of leaf' named' (depth + depth') :=
      fun h => ih (Nat.le_add_right _ _) h
    cases t with
    | leaf value => exact hleaf value h
    | bytes content => trivial
    | array entries => exact fun entry hentry => hchild (h entry hentry)
    | object properties => exact ⟨h.1, fun p hp => hchild (h.2 p hp)⟩
    | classInstance name => exact hnamed name h

theorem Of.packable (h : t.Storable depth) : t.Packable depth := h.mono (fun _ => Or.inl) (fun _ => id) le_rfl

/-! ### The objects of a tree -/

theorem at?_append (path' : List ℕ) : root.at? (path ++ path') = (root.at? path).bind fun t => t.at? path' := by
  induction path generalizing root with
  | nil => rfl
  | cons i path ih =>
    rw [List.cons_append, at?, at?]
    cases root.child i with
    | none => rfl
    | some t => exact ih

theorem at?_child {i : ℕ} (h : root.at? path = some t) : root.at? (path ++ [i]) = t.child i := by
  rw [at?_append, h]
  cases hchild : t.child i <;> simp [at?, hchild]

theorem heap_eq (h : root.at? path = some t) : root.heap path = t.toObject path := by
  rw [heap, h]
  rfl

theorem content_eq {content : List UInt8} (h : root.at? path = some (.bytes content)) : root.content path = content := by
  rw [JsTree.content, h]

theorem properties_eq {properties : List (String × JsTree)} (h : OwnKeys.Ordered (properties.map Prod.fst)) :
    ((object properties).toObject path).properties = objectProperties path properties := by
  have hkeys : (objectProperties path properties).map Prod.fst = (properties.map Prod.fst).map PropertyKey.string := by
    conv_rhs => rw [← List.zipIdx_map_fst 0 properties]
    rw [objectProperties, List.map_map, List.map_map, List.map_map]
    rfl
  have hnodup : ((objectProperties path properties).map Prod.fst).Nodup := by
    rw [hkeys]
    exact List.Nodup.map (fun _ _ => PropertyKey.string.inj) h.nodup
  exact List.pwFilter_eq_self.mpr (List.pairwise_map.mp hnodup)

theorem data?_dataDescriptor (path : List ℕ) (i : ℕ) (t : JsTree) :
    (dataDescriptor path i t).data? = some (t.toValue (path ++ [i])) := rfl

theorem mem_entryProperties {entries : List JsTree} {i : ℕ} (h : entries[i]? = some t) :
    (PropertyKey.string i.repr, dataDescriptor path i t) ∈ entryProperties path entries :=
  List.mem_map.mpr ⟨(t, i), List.mem_zipIdx_iff_getElem?.mpr h, rfl⟩

/-- The packer reads a tree off its objects. -/
theorem tree_heap (hshaped : t.Shaped depth) (hat : root.at? path = some t) :
    root.heap.tree root.content depth (t.toValue path) = some t := by
  induction depth generalizing t path with
  | zero => exact hshaped.elim
  | succ depth ih =>
    cases t with
    | leaf value => cases value <;> first | rfl | contradiction
    | bytes content => simp [Heap.tree, toValue, heap_eq hat, toObject, content_eq hat]
    | classInstance name => simp [Heap.tree, toValue, heap_eq hat, toObject]
    | array entries =>
      have hentries : (List.range entries.length).mapM (fun index =>
          ((((array entries).toObject path).getOwnPropertyDescriptor (.string index.repr)).bind PropertyDescriptor.data?).bind
            (root.heap.tree root.content depth)) = some entries := by
        rw [mapM_eq_some, List.forall₂_iff_get]
        refine ⟨List.length_range, fun i hi hi' => ?_⟩
        have hentry : entries[i]? = some (entries.get ⟨i, hi'⟩) := List.getElem?_eq_getElem hi'
        have hdescriptor := getOwnPropertyDescriptor_eq_some.mpr
          (show _ ∈ ((array entries).toObject path).properties from mem_entryProperties hentry)
        simp only [List.get_eq_getElem, List.getElem_range] at hdescriptor ⊢
        rw [hdescriptor]
        exact ih (hshaped _ (List.getElem_mem hi')) ((at?_child hat).trans hentry)
      rw [toValue, Heap.tree]
      · rw [heap_eq hat, if_neg (by simp [toObject])]
        exact congrArg (Option.map array) hentries
      · simp
    | object properties =>
      have hproperties : (((object properties).toObject path).properties).mapM
          (packProperty (root.heap.tree root.content depth)) = some properties := by
        rw [properties_eq hshaped.1, mapM_eq_some, List.forall₂_iff_get]
        refine ⟨by simp [objectProperties], fun i hi hi' => ?_⟩
        have hentry : properties[i]? = some (properties.get ⟨i, hi'⟩) := List.getElem?_eq_getElem hi'
        have hchild := ih (hshaped.2 _ (List.getElem_mem hi')) ((at?_child hat).trans (congrArg (Option.map Prod.snd) hentry))
        simp [objectProperties, packProperty, data?_dataDescriptor, hchild]
      rw [toValue, Heap.tree]
      · rw [heap_eq hat, if_neg (by simp [toObject])]
        exact congrArg (Option.map object) hproperties
      · simp

theorem shaped_at (hroot : root.Shaped depth) (hat : root.at? path = some t) : ∃ depth, t.Shaped depth := by
  induction path generalizing root depth with
  | nil =>
    obtain rfl := Option.some.inj hat
    exact ⟨depth, hroot⟩
  | cons i path ih =>
    obtain ⟨c, hc, hrest⟩ := Option.bind_eq_some_iff.mp hat
    cases depth with
    | zero => exact hroot.elim
    | succ depth =>
      cases root with
      | leaf | bytes | classInstance => cases hc
      | array entries => exact ih (hroot c (List.mem_of_getElem? hc)) hrest
      | object properties =>
        obtain ⟨p, hp, rfl⟩ := Option.map_eq_some_iff.mp hc
        exact ih (hroot.2 p (List.mem_of_getElem? hp)) hrest

end JsTree

/-! ### Validation and trees -/

section

variable {N : Type} {heap : Heap N} {content : N → List UInt8} {o : JsObject N} {value : JsValue N} {path : String}
  {seen seen' : Finset N} {walk : JsValue N → String → Finset N → Option (Validation N)} {allow : Bool} {depth : ℕ}

/-- Objects other than arrays list their keys in order, as JavaScript has it. -/
def Heap.Ordered (heap : Heap N) : Prop :=
  ∀ n keys, (heap n).arrayLength = none → (heap n).properties.map Prod.fst = keys.map PropertyKey.string →
    OwnKeys.Ordered keys

theorem validateEntries_valid {indices : List ℕ} (h : validateEntries walk o path indices seen = some (.valid seen')) :
    ∀ i ∈ indices, ∃ value path seen seen', path ≠ "$" ∧
      (o.getOwnPropertyDescriptor (.string i.repr)).bind PropertyDescriptor.data? = some value ∧
      walk value path seen = some (.valid seen') := by
  induction indices generalizing seen with
  | nil => simp
  | cons i indices ih =>
    unfold validateEntries at h
    cases hentry : (o.getOwnPropertyDescriptor (.string i.repr)).bind PropertyDescriptor.data? with
    | none => simp [hentry] at h
    | some value =>
      simp only [hentry] at h
      split at h
      · next hwalk =>
        intro j hj
        rcases List.mem_cons.mp hj with rfl | hj
        · exact ⟨value, _, _, _, entryPath_ne path j, hentry, hwalk⟩
        · exact ih h j hj
      · next hstopped => exact absurd h (hstopped _)

theorem validateProperties_valid {properties : List (PropertyKey × PropertyDescriptor N)}
    (h : validateProperties walk path properties seen = some (.valid seen')) :
    ∀ p ∈ properties, ∃ key value path seen seen', path ≠ "$" ∧ p.1 = .string key ∧ p.2.data? = some value ∧
      walk value path seen = some (.valid seen') := by
  induction properties generalizing seen with
  | nil => simp
  | cons p properties ih =>
    obtain ⟨key, descriptor⟩ := p
    cases key with
    | symbol index => exact absurd h (by simp [validateProperties])
    | string key =>
      unfold validateProperties at h
      cases hdata : descriptor.data? with
      | none => simp [hdata] at h
      | some value =>
        simp only [hdata] at h
        split at h
        · next hwalk =>
          intro q hq
          rcases List.mem_cons.mp hq with rfl | hq
          · exact ⟨key, value, _, _, _, propertyPath_ne path key, rfl, hdata, hwalk⟩
          · exact ih h q hq
        · next hstopped => exact absurd h (hstopped _)

/-- What passes is read as a tree of the storage domain, or it is the root that may be undefined. -/
theorem tree_of_valid [DecidableEq N] (content : N → List UInt8) (hordered : heap.Ordered)
    (h : validate heap depth value path seen allow = some (.valid seen')) :
    ∃ t, heap.tree content depth value = some t ∧ (t.Storable depth ∨ t = .leaf .undefined ∧ path = "$" ∧ allow = true) := by
  induction depth generalizing value path seen seen' allow with
  | zero => exact absurd h (by simp [validate])
  | succ depth ih =>
    have hchild : ∀ value path seen seen', path ≠ "$" → validate heap depth value path seen false = some (.valid seen') →
        ∃ t, heap.tree content depth value = some t ∧ t.Storable depth := fun value path seen seen' hpath h => by
      obtain ⟨t, ht, hstorable | ⟨_, heq, _⟩⟩ := ih h
      · exact ⟨t, ht, hstorable⟩
      · exact absurd heq hpath
    cases value with
    | undefined =>
      refine ⟨_, rfl, Or.inr ⟨rfl, ?_⟩⟩
      simp only [validate] at h
      split at h
      · assumption
      · simp at h
    | null | string | boolean => exact ⟨_, rfl, Or.inl trivial⟩
    | number x =>
      refine ⟨_, rfl, Or.inl ?_⟩
      simp only [validate] at h
      split at h
      · assumption
      · simp at h
    | bigint | symbol | function => simp [validate] at h
    | object n =>
      unfold validate at h
      dsimp only at h
      rw [Heap.tree]
      split at h
      · next hbytes =>
        rw [if_pos hbytes]
        exact ⟨_, rfl, Or.inl trivial⟩
      next hbytes =>
      rw [if_neg hbytes]
      split at h
      · simp at h
      cases hlength : (heap n).arrayLength with
      | some length =>
        simp only [hlength] at h
        split at h
        · next hentries =>
          have hread : ∀ i ∈ List.range length, ∃ t,
              (((heap n).getOwnPropertyDescriptor (.string i.repr)).bind PropertyDescriptor.data?).bind
                (heap.tree content depth) = some t ∧ t.Storable depth := fun i hi => by
            obtain ⟨value, path, seen, seen', hpath, hvalue, hwalk⟩ := validateEntries_valid hentries i hi
            rw [hvalue]
            exact hchild value path seen seen' hpath hwalk
          obtain ⟨entries, hentries, hall⟩ := exists_mapM hread
          refine ⟨.array entries, congrArg (Option.map JsTree.array) hentries, Or.inl fun t ht => ?_⟩
          obtain ⟨i, _, hstorable⟩ := exists_of_forall₂ hall ht
          exact hstorable
        · next hstopped => exact absurd h (hstopped _)
      | none =>
        simp only [hlength] at h ⊢
        split at h
        · exact absurd h (by cases (heap n).constructorName with
            | data name => simp [unsupportedObject]
            | accessor name => cases name <;> simp [unsupportedObject])
        next hprototype =>
        rw [if_pos (by simpa using hprototype)]
        obtain ⟨r, hproperties, hr⟩ := Option.map_eq_some_iff.mp h
        cases r with
        | unsupported | threw => cases hr
        | valid seen'' =>
          have hread : ∀ p ∈ (heap n).properties, ∃ q, packProperty (heap.tree content depth) p = some q ∧
              (p.1 = .string q.1 ∧ q.2.Storable depth) := fun p hp => by
            obtain ⟨key, value, path, seen, seen', hpath, hkey, hdata, hwalk⟩ := validateProperties_valid hproperties p hp
            obtain ⟨t, ht, hstorable⟩ := hchild value path seen seen' hpath hwalk
            obtain ⟨_, descriptor⟩ := p
            dsimp only at hkey
            subst hkey
            exact ⟨(key, t), by simp [packProperty, hdata, ht], rfl, hstorable⟩
          obtain ⟨properties, hproperties, hall⟩ := exists_mapM hread
          refine ⟨.object properties, congrArg (Option.map JsTree.object) hproperties, Or.inl ⟨?_, fun q hq => ?_⟩⟩
          · apply hordered n _ hlength
            rw [List.map_map, ← List.forall₂_eq_eq_eq, List.forall₂_map_left_iff, List.forall₂_map_right_iff]
            exact hall.imp fun p q h => h.1
          · obtain ⟨p, _, _, hstorable⟩ := exists_of_forall₂ hall hq
            exact hstorable

theorem validateEntries_of_valid {indices : List ℕ} (h : ∀ i ∈ indices, ∃ value,
    (o.getOwnPropertyDescriptor (.string i.repr)).bind PropertyDescriptor.data? = some value ∧
      ∀ path, walk value path seen = some (.valid seen)) :
    validateEntries walk o path indices seen = some (.valid seen) := by
  induction indices with
  | nil => rfl
  | cons i indices ih =>
    obtain ⟨value, hvalue, hwalk⟩ := h i List.mem_cons_self
    simp only [validateEntries, hvalue, hwalk]
    exact ih fun j hj => h j (List.mem_cons_of_mem _ hj)

theorem validateProperties_of_valid {properties : List (PropertyKey × PropertyDescriptor N)}
    (h : ∀ p ∈ properties, ∃ key value, p.1 = .string key ∧ p.2.data? = some value ∧
      ∀ path, walk value path seen = some (.valid seen)) :
    validateProperties walk path properties seen = some (.valid seen) := by
  induction properties with
  | nil => rfl
  | cons p properties ih =>
    obtain ⟨key, value, hkey, hvalue, hwalk⟩ := h p List.mem_cons_self
    obtain ⟨_, descriptor⟩ := p
    dsimp only at hkey hvalue
    subst hkey
    simp only [validateProperties, hvalue, hwalk]
    exact ih fun q hq => h q (List.mem_cons_of_mem _ hq)

end

open JsTree in
/-- A tree of the storage domain passes validation. -/
theorem valid_of_storable {root t : JsTree} {depth : ℕ} {path : List ℕ} {seen : Finset (List ℕ)} {text : String} {allow : Bool}
    (hstorable : t.Storable depth) (hat : root.at? path = some t) (hseen : ∀ p ∈ seen, p.length < path.length) :
    validate root.heap depth (t.toValue path) text seen allow = some (.valid seen) := by
  induction depth generalizing t path seen text allow with
  | zero => exact hstorable.elim
  | succ depth ih =>
    have hpath : path ∉ seen := fun h => absurd (hseen path h) (lt_irrefl _)
    -- on the way to a child the path is longer than every path that has been seen
    have hchild : ∀ (t : JsTree) (i : ℕ), t.Storable depth → root.at? (path ++ [i]) = some t → ∀ text,
        validate root.heap depth (t.toValue (path ++ [i])) text (insert path seen) false = some (.valid (insert path seen)) := by
      intro t i hstorable hat text
      refine ih hstorable hat fun p hp => ?_
      rw [List.length_append, List.length_singleton]
      rcases Finset.mem_insert.mp hp with rfl | hp
      · exact Nat.lt_succ_self _
      · exact (hseen p hp).trans (Nat.lt_succ_self _)
    cases t with
    | leaf value =>
      cases value with
      | null | boolean | string => rfl
      | number x => exact congrArg some (if_pos hstorable)
      | undefined | bigint | symbol | function => exact hstorable.elim
      | object node => exact node.elim
    | bytes content =>
      rw [toValue, validate, heap_eq hat]
      · exact if_pos rfl
      · simp
    | classInstance name => exact hstorable.elim
    | array entries =>
      have hentries : validateEntries (fun value path seen => validate root.heap depth value path seen false)
          ((array entries).toObject path) text (List.range entries.length) (insert path seen) =
          some (.valid (insert path seen)) := by
        refine validateEntries_of_valid fun i hi => ?_
        have hlt := List.mem_range.mp hi
        have hentry : entries[i]? = some entries[i] := List.getElem?_eq_getElem hlt
        refine ⟨_, Option.bind_eq_some_iff.mpr ⟨_, getOwnPropertyDescriptor_eq_some.mpr (mem_entryProperties hentry), rfl⟩, ?_⟩
        exact hchild _ i (hstorable _ (List.getElem_mem _)) ((at?_child hat).trans hentry)
      have hcustom : ((array entries).toObject path).properties.any (fun p => isCustomKey entries.length p.1) = false := by
        rw [List.any_eq_false]
        intro p hp
        obtain ⟨q, hq, rfl⟩ := List.mem_map.mp hp
        have hlt : q.2 < entries.length := (List.getElem?_eq_some_iff.mp (List.mem_zipIdx_iff_getElem?.mp hq)).1
        rw [Bool.not_eq_true]
        exact isCustomKey_iff.mpr ⟨q.2, hlt, rfl⟩
      rw [toValue, validate, heap_eq hat]
      · rw [if_neg (by simp [toObject]), if_neg hpath]
        simp only [toObject] at hentries hcustom ⊢
        simp only [hentries, hcustom]
        simp [Finset.erase_insert hpath]
      · simp
    | object properties =>
      have hproperties : validateProperties (fun value path seen => validate root.heap depth value path seen false) text
          ((object properties).toObject path).properties (insert path seen) = some (.valid (insert path seen)) := by
        rw [properties_eq hstorable.1]
        refine validateProperties_of_valid fun p hp => ?_
        obtain ⟨q, hq, rfl⟩ := List.mem_map.mp hp
        have hentry := List.mem_zipIdx_iff_getElem?.mp hq
        refine ⟨_, _, rfl, rfl, hchild _ q.2 (hstorable.2 _ (List.mem_of_getElem? hentry)) ?_⟩
        exact (at?_child hat).trans (congrArg (Option.map Prod.snd) hentry)
      rw [toValue, validate, heap_eq hat]
      · rw [if_neg (by simp [toObject]), if_neg hpath]
        simp only [toObject] at hproperties ⊢
        simp only [hproperties]
        simp [Validation.leave, Finset.erase_insert hpath]
      · simp

open JsTree in
theorem heap_ordered {root : JsTree} {depth : ℕ} (hroot : root.Shaped depth) : root.heap.Ordered := by
  intro path keys hlength hkeys
  have hnil : ∀ {keys : List String}, [] = keys.map PropertyKey.string → OwnKeys.Ordered keys := fun h => by
    rw [List.map_eq_nil_iff.mp h.symm]
    exact List.Pairwise.nil
  cases hat : root.at? path with
  | none =>
    rw [JsTree.heap, hat] at hkeys
    exact hnil hkeys
  | some t =>
    rw [heap_eq hat] at hlength hkeys
    obtain ⟨depth, hshaped⟩ := shaped_at hroot hat
    cases depth with
    | zero => exact hshaped.elim
    | succ depth =>
      cases t with
      | leaf | bytes | classInstance => exact hnil hkeys
      | array entries => cases hlength
      | object properties =>
        have hstrings : keys.map PropertyKey.string = (properties.map Prod.fst).map PropertyKey.string := by
          rw [← hkeys, properties_eq hshaped.1]
          conv_rhs => rw [← List.zipIdx_map_fst 0 properties]
          rw [objectProperties, List.map_map, List.map_map, List.map_map]
          rfl
        rw [List.map_injective_iff.mpr (fun _ _ => PropertyKey.string.inj) hstrings]
        exact hshaped.1

/-! ### Normalization -/

section

variable {objects : ℕ → UnpackedObject} {depth depth' : ℕ} {value : JsValue ℕ} {t : JsTree}
  {normalize : JsValue ℕ → Option JsTree} {entries : List (JsValue ℕ × JsValue ℕ)}
  {target properties : List (String × JsTree)}

theorem normalizeProperties_shaped (hnormalize : ∀ value t, normalize value = some t → t.Shaped depth)
    (h : normalizeProperties normalize entries target = some properties) (hordered : OwnKeys.Ordered (target.map Prod.fst))
    (hshaped : ∀ p ∈ target, p.2.Shaped depth) :
    OwnKeys.Ordered (properties.map Prod.fst) ∧ ∀ p ∈ properties, p.2.Shaped depth := by
  induction entries generalizing target with
  | nil =>
    obtain rfl := Option.some.inj h
    exact ⟨hordered, hshaped⟩
  | cons entry entries ih =>
    obtain ⟨key, nested⟩ := entry
    cases key with
    | string key =>
      obtain ⟨t, ht, h⟩ := Option.bind_eq_some_iff.mp h
      refine ih h (defineDataProperty_ordered hordered) fun p hp => ?_
      rcases mem_defineDataProperty hp with rfl | hp
      · exact hnormalize nested t ht
      · exact hshaped p hp
    | undefined | null | boolean | number | bigint | symbol | function | object => cases h

/-- Whatever was unpacked, a normalized value is a tree with ordered objects. -/
theorem shaped_of_normalized (h : normalizeDecoded objects depth value = some t) : t.Shaped depth := by
  induction depth generalizing value t with
  | zero => cases h
  | succ depth ih =>
    cases value with
    | undefined | null | boolean | number | string | bigint | symbol | function =>
      obtain rfl := Option.some.inj h
      trivial
    | object n =>
      simp only [normalizeDecoded] at h
      split at h
      · obtain rfl := Option.some.inj h
        trivial
      · obtain rfl := Option.some.inj h
        trivial
      · obtain ⟨entries, hentries, rfl⟩ := Option.map_eq_some_iff.mp h
        intro entry hentry
        obtain ⟨value, _, hvalue⟩ := exists_of_forall₂ (mapM_eq_some.mp hentries) hentry
        exact ih hvalue
      · obtain ⟨properties, hproperties, rfl⟩ := Option.map_eq_some_iff.mp h
        exact normalizeProperties_shaped (fun _ _ => ih) hproperties List.Pairwise.nil (by simp)
      · obtain ⟨properties, hproperties, rfl⟩ := Option.map_eq_some_iff.mp h
        exact normalizeProperties_shaped (fun _ _ => ih) hproperties List.Pairwise.nil (by simp)
      · obtain rfl := Option.some.inj h
        trivial

/-- What an unpacked value stands for. Numbers beyond 32 bits may be unpacked as integers, byte arrays as buffers, and plain
objects as maps. -/
def Reads (objects : ℕ → UnpackedObject) : ℕ → JsValue ℕ → JsTree → Prop
  | 0, _, _ => False
  | _ + 1, value, .leaf leaf =>
    value = leaf.widen ∨ ∃ z : ℤ, value = .bigint z ∧ leaf = .number (.finite z) ∧ 2 ^ 32 ≤ |z| ∧ |z| ≤ maxSafeInteger
  | _ + 1, value, .bytes content =>
    ∃ n, value = .object n ∧ (objects n = .buffer content ∨ objects n = .uint8Array content)
  | depth + 1, value, .array entries =>
    ∃ n values, value = .object n ∧ objects n = .array values ∧ List.Forall₂ (Reads objects depth) values entries
  | depth + 1, value, .object properties =>
    ∃ n values, value = .object n ∧
      (objects n = .map (values.map fun v => (.string v.1, v.2)) ∨ objects n = .plain values) ∧
      List.Forall₂ (fun v p => v.1 = p.1 ∧ Reads objects depth v.2 p.2) values properties
  | _ + 1, _, .classInstance _ => False

/-- Properties whose keys are in order are added one after the other. -/
theorem normalizeProperties_eq {values : List (String × JsValue ℕ)}
    (hall : List.Forall₂ (fun v p => v.1 = p.1 ∧ normalize v.2 = some p.2) values properties)
    (hordered : OwnKeys.Ordered ((target ++ properties).map Prod.fst)) :
    normalizeProperties normalize (values.map fun v => (.string v.1, v.2)) target = some (target ++ properties) := by
  induction hall generalizing target with
  | nil => simp [normalizeProperties]
  | @cons v p values properties hfirst _ ih =>
    obtain ⟨hkey, hvalue⟩ := hfirst
    have hfollows : ∀ q ∈ target, OwnKeys.follows q.1 p.1 = true := fun q hq => by
      rw [List.map_append] at hordered
      exact (List.pairwise_append.mp hordered).2.2 _ (List.mem_map_of_mem hq) _ (by simp)
    simp only [List.map_cons, normalizeProperties, hvalue, Option.bind_some, hkey]
    rw [defineDataProperty_append hfollows, ih (by simpa using hordered)]
    simp

/-- What was packed of a tree is normalized to it. -/
theorem normalized_of_reads (hreads : Reads objects depth value t) (hpackable : t.Packable depth) :
    normalizeDecoded objects depth value = some t := by
  induction depth generalizing value t with
  | zero => exact hreads.elim
  | succ depth ih =>
    cases t with
    | leaf leaf =>
      rcases hreads with rfl | ⟨z, rfl, rfl, _, hsafe⟩
      · rcases hpackable with hstorable | rfl
        · cases leaf with
          | null | boolean | string | number => rfl
          | undefined | bigint | symbol | function => exact hstorable.elim
          | object node => exact node.elim
        · rfl
      · simp only [normalizeDecoded]
        rw [if_pos (abs_le.mp hsafe)]
    | bytes content =>
      obtain ⟨n, rfl, hobject | hobject⟩ := hreads <;> simp [normalizeDecoded, hobject]
    | classInstance name => exact hreads.elim
    | array entries =>
      obtain ⟨n, values, rfl, hobject, hall⟩ := hreads
      have hentries : values.mapM (normalizeDecoded objects depth) = some entries := by
        rw [mapM_eq_some, List.forall₂_iff_zip]
        refine ⟨hall.length_eq, fun hmem => ?_⟩
        exact ih ((List.forall₂_iff_zip.mp hall).2 hmem) (hpackable _ (List.of_mem_zip hmem).2)
      simp [normalizeDecoded, hobject, hentries]
    | object properties =>
      obtain ⟨n, values, rfl, hobject, hall⟩ := hreads
      have hproperties : List.Forall₂ (fun v p => v.1 = p.1 ∧ normalizeDecoded objects depth v.2 = some p.2) values properties := by
        rw [List.forall₂_iff_zip]
        refine ⟨hall.length_eq, fun hmem => ?_⟩
        obtain ⟨hkey, hreads⟩ := (List.forall₂_iff_zip.mp hall).2 hmem
        exact ⟨hkey, ih hreads (hpackable.2 _ (List.of_mem_zip hmem).2)⟩
      have heq : normalizeProperties (normalizeDecoded objects depth) (values.map fun v => (.string v.1, v.2)) [] =
          some properties := normalizeProperties_eq hproperties hpackable.1
      rcases hobject with hobject | hobject <;> simp [normalizeDecoded, hobject, heq]

end

end EffectMQ
