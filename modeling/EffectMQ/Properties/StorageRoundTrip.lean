import EffectMQ.Properties.StoredTrees

/-!
# What an envelope carries

A value that is encoded decodes to the tree that was packed of it, under its own schema and kind only. What is decoded, from
whatever bytes, lies in the storage domain, and encoding it again leads back to it.
-/

namespace EffectMQ

/-! ### Envelopes -/

/-- A packer whose bytes are unpacked to what was packed, for values of the kinds that MessagePack carries. -/
structure MessagePack.Lossless (codec : MessagePack) : Prop where
  nonempty : ∀ t bytes, codec.pack t = some bytes → bytes ≠ []
  unpack : ∀ depth t bytes, t.Packable depth → codec.pack t = some bytes →
    ∃ u, codec.unpack bytes = some u ∧ Reads u.objects depth u.value t
  text : ∀ s, codec.text (.string s) = s

/-- A value that an envelope of a kind carries. -/
def Carried (kind : ValueKind) (depth : ℕ) (t : JsTree) : Prop :=
  t.Storable depth ∨ t = .leaf .undefined ∧ kind = .success ∧ 0 < depth

def sealed (bytes : List UInt8) : String := String.ofList (marker.toList ++ Base64.encode .standard true bytes)

theorem sealed_injective {bytes bytes' : List UInt8} (h : sealed bytes = sealed bytes') : bytes = bytes' := by
  have hlist := List.append_cancel_left (String.ofList_inj.mp h)
  rw [← Base64.decode_encode .standard true bytes, hlist, Base64.decode_encode]

section

variable {N : Type} [DecidableEq N] {codec : MessagePack} {heap : Heap N} {content : N → List UInt8} {stack stack' : ℕ}
  {schemaId text : String} {kind : ValueKind} {value : JsValue N} {limit : Option ℕ} {t : JsTree}
  {bytes : List UInt8}

theorem encodeValue_eq_ok (hordered : heap.Ordered)
    (h : encodeValue codec heap content stack schemaId kind value limit = .ok text) :
    ∃ t bytes, heap.tree content stack value = some t ∧ Carried kind stack t ∧
      codec.pack (envelope schemaId kind t) = some bytes ∧ bytes.length ≤ limit.getD defaultMaxValueBytes ∧
      text = sealed bytes := by
  unfold encodeValue at h
  split at h
  · cases h
  · cases h
  · cases h
  next seen hvalid =>
  obtain ⟨t, ht, hstorable⟩ := tree_of_valid content hordered hvalid
  rw [ht, Option.bind_some] at h
  split at h
  · cases h
  next bytes hpack =>
  dsimp only at h
  split at h
  · cases h
  next hlimit =>
  refine ⟨t, bytes, ht, ?_, hpack, Nat.le_of_not_lt hlimit, (Except.ok.inj h).symm⟩
  refine hstorable.imp_right fun ⟨hundefined, _, hkind⟩ => ⟨hundefined, of_decide_eq_true hkind, ?_⟩
  cases stack with
  | zero => cases hvalid
  | succ stack => exact Nat.succ_pos stack

omit [DecidableEq N] in
theorem Carried.mono (hstack : stack ≤ stack') (h : Carried kind stack t) : Carried kind stack' t :=
  h.imp (fun h => h.mono (fun _ => id) (fun _ => id) hstack) fun h => ⟨h.1, h.2.1, h.2.2.trans_le hstack⟩

omit [DecidableEq N] in
theorem Carried.depth_pos (h : Carried kind stack t) : 0 < stack := by
  rcases h with h | h
  · cases stack with
    | zero => exact h.elim
    | succ stack => exact Nat.succ_pos stack
  · exact h.2.2

omit [DecidableEq N] in
theorem Carried.packable (h : Carried kind stack t) : (envelope schemaId kind t).Packable (stack + 1) := by
  obtain ⟨depth, rfl⟩ := Nat.exists_eq_succ_of_ne_zero h.depth_pos.ne'
  have ht : t.Packable (depth + 1) := by
    rcases h with h | ⟨rfl, _⟩
    · exact JsTree.Of.packable h
    · exact Or.inr rfl
  intro entry hentry
  simp only [List.mem_cons, List.not_mem_nil, or_false] at hentry
  obtain rfl | rfl | rfl | rfl := hentry
  · exact Or.inl (show JsNumber.isStorable (.finite protocolVersion) = true by decide +kernel)
  · exact Or.inl trivial
  · exact Or.inl trivial
  · exact ht

omit [DecidableEq N] in
/-- A carried value is decoded once more. -/
theorem decodeNormalized_eq {objects : ℕ → UnpackedObject} {value : JsValue ℕ} (ht : Carried kind stack t)
    (hreads : Reads objects stack value t) : decodeNormalized objects stack kind value = some (.ok t) := by
  obtain ⟨depth, rfl⟩ := Nat.exists_eq_succ_of_ne_zero ht.depth_pos.ne'
  have hpackable : t.Packable (depth + 1) := by
    rcases ht with h | ⟨rfl, _⟩
    · exact JsTree.Of.packable h
    · exact Or.inr rfl
  have hvalid : ∃ seen, validate t.heap (depth + 1) (t.toValue []) "$" ∅ (kind = .success) = some (.valid seen) := by
    rcases ht with h | ⟨rfl, rfl, _⟩
    · exact ⟨∅, valid_of_storable h rfl (by simp)⟩
    · exact ⟨∅, rfl⟩
  obtain ⟨seen, hvalid⟩ := hvalid
  rw [decodeNormalized, normalized_of_reads hreads hpackable]
  dsimp only
  rw [hvalid]

omit [DecidableEq N] in
theorem widen_reads {objects : ℕ → UnpackedObject} {depth : ℕ} {value : JsValue ℕ} {leaf : JsValue Empty}
    (h : Reads objects depth value (.leaf leaf)) (hsmall : ∀ z : ℤ, leaf = .number (.finite z) → |z| < 2 ^ 32) :
    value = leaf.widen := by
  cases depth with
  | zero => exact h.elim
  | succ depth =>
    rcases h with h | ⟨z, _, rfl, hlarge, _⟩
    · exact h
    · exact absurd (hsmall z rfl) (not_lt.mpr hlarge)

omit [DecidableEq N] in
theorem tuple_of_reads {u : Unpacked} (h : Reads u.objects (stack + 1) u.value (envelope schemaId kind t)) :
    ∃ value, u.tuple = some (.number (.finite protocolVersion), .string schemaId, .string kind.text, value) ∧
      Reads u.objects stack value t := by
  obtain ⟨n, values, hvalue, hobject, hall⟩ := h
  cases hall with
  | @cons version _ values _ hversion hall =>
  cases hall with
  | @cons schema _ values _ hschema hall =>
  cases hall with
  | @cons kind' _ values _ hkind hall =>
  cases hall with
  | @cons value _ values _ hreads hall =>
  cases hall with
  | nil =>
  refine ⟨value, ?_, hreads⟩
  have hversion := widen_reads hversion fun z hz => by
    have hq : (z : ℚ) = (protocolVersion : ℚ) := (JsNumber.finite.inj (JsValue.number.inj hz)).symm
    have hone : z = 1 := by exact_mod_cast hq
    rw [hone]
    norm_num
  have hschema := widen_reads hschema (by simp)
  have hkind := widen_reads hkind (by simp)
  rw [Unpacked.tuple, hvalue]
  simp only [hobject, hversion, hschema, hkind]
  rfl

theorem ValueKind.text_injective {kind kind' : ValueKind} (h : kind.text = kind'.text) : kind = kind' := by
  cases kind <;> cases kind' <;> first | rfl | exact absurd h (by decide)

omit [DecidableEq N] in
/-- What a packed envelope decodes to. -/
theorem decodeValue_sealed (hcodec : codec.Lossless) (ht : Carried kind stack t)
    (hpack : codec.pack (envelope schemaId kind t) = some bytes) (expectedSchemaId : String) (expectedKind : ValueKind) :
    decodeValue codec stack (.string (sealed bytes)) expectedSchemaId expectedKind =
      some (if expectedSchemaId ≠ schemaId then .error (.schemaMismatch expectedSchemaId schemaId)
        else if expectedKind ≠ kind then
          .error (.corrupt ("Expected " ++ expectedKind.text ++ " envelope, received " ++ kind.text) none)
        else .ok t) := by
  have hbytes := hcodec.nonempty _ _ hpack
  have hmarked : marker.toList.isPrefixOf (sealed bytes).toList = true := by
    rw [sealed, String.toList_ofList]
    exact List.isPrefixOf_iff_prefix.mpr (List.prefix_append _ _)
  have hdrop : (sealed bytes).toList.drop marker.length = Base64.encode .standard true bytes := by
    rw [sealed, String.toList_ofList]
    exact List.drop_left' String.length_toList
  have hbase64 : ¬ (Base64.encode .standard true bytes = [] ∨ (Base64.encode .standard true bytes).length % 4 ≠ 0 ∨
      Base64.isPadded .standard (Base64.encode .standard true bytes) = false) := by
    simp [Base64.encode_ne_nil hbytes, Base64.length_encode, Base64.isPadded_encode]
  obtain ⟨u, hunpack, hunpacked⟩ := hcodec.unpack _ _ _ ht.packable hpack
  obtain ⟨value, htuple, hreads⟩ := tuple_of_reads hunpacked
  rw [decodeValue]
  simp only [hmarked, hdrop, if_neg hbase64, Base64.decode_encode, hunpack, decodeEnvelope, htuple, hcodec.text]
  have hversion : (readableProtocolVersions.all fun readable =>
      JsNumber.finite (protocolVersion : ℚ) ≠ .finite (readable : ℚ)) = false := by
    simp [readableProtocolVersions, protocolVersion]
  simp only [hversion]
  by_cases hschema : expectedSchemaId = schemaId
  · subst hschema
    by_cases hkind : expectedKind = kind
    · subst hkind
      simp [decodeNormalized_eq ht hreads]
    · have htext : kind.text ≠ expectedKind.text := fun h => hkind (ValueKind.text_injective h).symm
      simp [hkind, htext]
  · simp [hschema, Ne.symm hschema]

omit [DecidableEq N] in
theorem normalized_of_decoded {encoded : JsValue ℕ} (h : decodeValue codec stack encoded schemaId kind = some (.ok t)) :
    ∃ objects value, normalizeDecoded objects stack value = some t ∧
      ∃ seen, validate t.heap stack (t.toValue []) "$" ∅ (kind = .success) = some (.valid seen) := by
  obtain ⟨objects, value, h⟩ : ∃ objects value, decodeNormalized objects stack kind value = some (.ok t) := by
    unfold decodeValue at h
    split at h
    · split at h
      · simp at h
      · dsimp only at h
        split at h
        · simp at h
        split at h
        · simp at h
        next u _ =>
        unfold decodeEnvelope at h
        split at h
        · simp at h
        · split at h
          · split at h
            · simp at h
            split at h
            · simp at h
            split at h
            · simp at h
            exact ⟨_, _, h⟩
          · simp at h
    · simp at h
  unfold decodeNormalized at h
  split at h
  · simp at h
  next normalized hnormalized =>
  split at h
  · next hvalid =>
    obtain rfl := Except.ok.inj (Option.some.inj h)
    exact ⟨objects, value, hnormalized, _, hvalid⟩
  · simp at h
  · cases h
  · cases h

omit [DecidableEq N] in
theorem carried_of_decoded {encoded : JsValue ℕ} (h : decodeValue codec stack encoded schemaId kind = some (.ok t)) :
    Carried kind stack t ∧ t.heap.tree t.content stack (t.toValue []) = some t := by
  obtain ⟨objects, value, hnormalized, seen, hvalid⟩ := normalized_of_decoded h
  have hshaped := shaped_of_normalized hnormalized
  have htree : t.heap.tree t.content stack (t.toValue []) = some t := JsTree.tree_heap hshaped rfl
  refine ⟨?_, htree⟩
  obtain ⟨t', ht', hstorable⟩ := tree_of_valid _ (heap_ordered hshaped) hvalid
  obtain rfl := Option.some.inj (ht'.symm.trans htree)
  refine hstorable.imp_right fun ⟨hundefined, _, hkind⟩ => ⟨hundefined, of_decide_eq_true hkind, ?_⟩
  cases stack with
  | zero => cases hvalid
  | succ stack => exact Nat.succ_pos stack

end

/-! An object with a byte array, and a packer for it that refuses everything else. -/

namespace Invoice

def packed : List UInt8 :=
  [0x94, 1, 0xa1, 115, 0xa7, 112, 97, 121, 108, 111, 97, 100, 0xde, 0, 1, 0xa1, 97, 0xc4, 2, 1, 2]

def unpacked : Unpacked where
  objects
    | 0 => .array [.number (.finite 1), .string "s", .string "payload", .object 1]
    | 1 => .map [(.string "a", .object 2)]
    | _ => .buffer [1, 2]
  value := .object 0

def codec : MessagePack where
  pack
    | .array [.leaf (.number (.finite version)), .leaf (.string schemaId), .leaf (.string kind), .object [(key, .bytes content)]] =>
      if version = 1 ∧ schemaId = "s" ∧ kind = "payload" ∧ key = "a" ∧ content = [1, 2] then some packed else none
    | _ => none
  unpack bytes := if bytes = packed then some unpacked else none
  text
    | .string s => s
    | _ => ""

def heap : Heap Bool
  | false => ⟨false, none, true, [(.string "a", ⟨true, some (.object true)⟩)], by simp, .data (some "Object")⟩
  | true => ⟨true, none, false, [], by simp, .data (some "Uint8Array")⟩

theorem heap_ordered : heap.Ordered := by
  intro n keys _ hkeys
  cases n with
  | false =>
    obtain ⟨key, hkeys, _⟩ := List.map_eq_singleton_iff.mp hkeys.symm
    rw [hkeys]
    exact List.pairwise_singleton _ _
  | true =>
    rw [List.map_eq_nil_iff.mp hkeys.symm]
    exact List.Pairwise.nil

theorem lossless : codec.Lossless where
  nonempty t bytes h := by
    simp only [codec] at h
    split at h
    · split at h
      · obtain rfl := Option.some.inj h
        decide
      · cases h
    · cases h
  unpack depth t bytes ht h := by
    simp only [codec] at h
    split at h
    · split at h
      · next version schemaId kind key content heq =>
        obtain ⟨rfl, rfl, rfl, rfl, rfl⟩ := heq
        obtain rfl := Option.some.inj h
        refine ⟨unpacked, by simp [codec], ?_⟩
        match depth, ht with
        | 1, ht => exact (ht _ List.mem_cons_self).elim
        | 2, ht => exact ((ht (.object [("a", .bytes [1, 2])]) (by simp)).2 _ List.mem_cons_self).elim
        | depth + 3, _ =>
          have hbytes : Reads unpacked.objects (depth + 1) (.object 2) (.bytes [1, 2]) := ⟨2, rfl, Or.inl rfl⟩
          have hobject : Reads unpacked.objects (depth + 2) (.object 1) (.object [("a", .bytes [1, 2])]) :=
            ⟨1, [("a", .object 2)], rfl, Or.inl rfl, .cons ⟨rfl, hbytes⟩ .nil⟩
          exact ⟨0, _, rfl, rfl, .cons (Or.inl rfl) (.cons (Or.inl rfl) (.cons (Or.inl rfl) (.cons hobject .nil)))⟩
      · cases h
    · cases h
  text s := rfl

end Invoice

/-- An encoded value decodes, wherever the stack is no smaller, to the tree that the packer read of it. Under another schema or
another kind it is refused with an error that names both. -/
theorem decodeValue_encodeValue {N : Type} [DecidableEq N] {codec : MessagePack} (hcodec : codec.Lossless) {heap : Heap N}
    (hordered : heap.Ordered) {content : N → List UInt8} {stack stack' : ℕ} (hstack : stack ≤ stack') {schemaId : String}
    {kind : ValueKind} {value : JsValue N} {limit : Option ℕ} {text : String}
    (h : encodeValue codec heap content stack schemaId kind value limit = .ok text) :
    ∃ t, heap.tree content stack value = some t ∧ ∀ expectedSchemaId expectedKind,
      decodeValue codec stack' (.string text) expectedSchemaId expectedKind =
        some (if expectedSchemaId ≠ schemaId then .error (.schemaMismatch expectedSchemaId schemaId)
          else if expectedKind ≠ kind then
            .error (.corrupt ("Expected " ++ expectedKind.text ++ " envelope, received " ++ kind.text) none)
          else .ok t) := by
  obtain ⟨t, bytes, ht, hcarried, hpack, _, rfl⟩ := encodeValue_eq_ok hordered h
  exact ⟨t, ht, decodeValue_sealed hcodec (hcarried.mono hstack) hpack⟩

theorem decodeValue_encodeValue_invoice : ∃ text,
    encodeValue Invoice.codec Invoice.heap (fun _ => [1, 2]) 3 "s" .payload (.object false) none = .ok text ∧
      ∃ t, Invoice.heap.tree (fun _ => [1, 2]) 3 (.object false) = some t ∧
        decodeValue Invoice.codec 3 (.string text) "s" .payload = some (.ok t) := by
  have hencode : encodeValue Invoice.codec Invoice.heap (fun _ => [1, 2]) 3 "s" .payload (.object false) none =
      .ok (sealed Invoice.packed) := rfl
  obtain ⟨t, ht, h⟩ := decodeValue_encodeValue Invoice.lossless Invoice.heap_ordered (le_refl 3) hencode
  exact ⟨_, hencode, t, ht, h "s" .payload⟩

/-- An envelope tells its values apart: what two values of any two heaps are both encoded to has one schema, one kind and one
tree. -/
theorem encodeValue_injective {N M : Type} [DecidableEq N] [DecidableEq M] {codec : MessagePack} (hcodec : codec.Lossless)
    {heap : Heap N} {heap' : Heap M} (hordered : heap.Ordered) (hordered' : heap'.Ordered) {content : N → List UInt8}
    {content' : M → List UInt8} {stack stack' : ℕ} {schemaId schemaId' : String} {kind kind' : ValueKind} {value : JsValue N}
    {value' : JsValue M} {limit limit' : Option ℕ} {text : String}
    (h : encodeValue codec heap content stack schemaId kind value limit = .ok text)
    (h' : encodeValue codec heap' content' stack' schemaId' kind' value' limit' = .ok text) :
    schemaId = schemaId' ∧ kind = kind' ∧ ∃ t, heap.tree content stack value = some t ∧
      heap'.tree content' stack' value' = some t := by
  obtain ⟨t, bytes, ht, hcarried, hpack, _, htext⟩ := encodeValue_eq_ok hordered h
  obtain ⟨t', bytes', ht', hcarried', hpack', _, htext'⟩ := encodeValue_eq_ok hordered' h'
  obtain rfl := sealed_injective (htext.symm.trans htext')
  -- both decode alike, each as itself
  have hdecode := decodeValue_sealed hcodec (hcarried.mono (le_max_left stack stack')) hpack schemaId kind
  have hdecode' := decodeValue_sealed hcodec (hcarried'.mono (le_max_right stack stack')) hpack' schemaId kind
  rw [hdecode] at hdecode'
  simp only [ne_eq, not_true_eq_false, if_false, Option.some.injEq] at hdecode'
  split at hdecode'
  · cases hdecode'
  next hschema =>
  split at hdecode'
  · cases hdecode'
  next hkind =>
  rw [Except.ok.inj hdecode'] at ht
  exact ⟨not_not.mp hschema, not_not.mp hkind, t', ht, ht'⟩

theorem encodeValue_injective_invoice : encodeValue Invoice.codec Invoice.heap (fun _ => [1, 2]) 3 "s" .payload (.object false)
    none = .ok (sealed Invoice.packed) ∧ ∃ t, Invoice.heap.tree (fun _ => [1, 2]) 3 (.object false) = some t ∧
      Invoice.heap.tree (fun _ => [1, 2]) 4 (.object false) = some t := by
  have hencode : encodeValue Invoice.codec Invoice.heap (fun _ => [1, 2]) 3 "s" .payload (.object false) none =
      .ok (sealed Invoice.packed) := rfl
  have hencode' : encodeValue Invoice.codec Invoice.heap (fun _ => [1, 2]) 4 "s" .payload (.object false) (some 100) =
      .ok (sealed Invoice.packed) := rfl
  exact ⟨hencode, (encodeValue_injective Invoice.lossless Invoice.heap_ordered Invoice.heap_ordered hencode hencode').2.2⟩

/-- What decodes, from whatever text and bytes, lies in the storage domain. It is encoded again to a text that decodes to it,
unless the packer throws or its bytes are beyond the limit. -/
theorem encodeValue_decodeValue {codec : MessagePack} (hcodec : codec.Lossless) {stack : ℕ} {encoded : JsValue ℕ} {schemaId : String}
    {kind : ValueKind} {t : JsTree} (h : decodeValue codec stack encoded schemaId kind = some (.ok t)) (limit : Option ℕ) :
    Carried kind stack t ∧
      match encodeValue codec t.heap t.content stack schemaId kind (t.toValue []) limit with
      | .ok text => ∀ stack', stack ≤ stack' → decodeValue codec stack' (.string text) schemaId kind = some (.ok t)
      | .error failure => codec.pack (envelope schemaId kind t) = none ∨
          ∃ bytes, codec.pack (envelope schemaId kind t) = some bytes ∧
            failure = .limitExceeded kind bytes.length (limit.getD defaultMaxValueBytes) := by
  obtain ⟨hcarried, htree⟩ := carried_of_decoded h
  obtain ⟨_, _, _, seen, hvalid⟩ := normalized_of_decoded h
  refine ⟨hcarried, ?_⟩
  simp only [encodeValue, hvalid, htree, Option.bind_some]
  cases hpack : codec.pack (envelope schemaId kind t) with
  | none => exact Or.inl rfl
  | some bytes =>
    dsimp only
    by_cases hlimit : limit.getD defaultMaxValueBytes < bytes.length
    · rw [if_pos hlimit]
      exact Or.inr ⟨bytes, rfl, rfl⟩
    · rw [if_neg hlimit]
      intro stack' hstack
      have hdecode := decodeValue_sealed hcodec (hcarried.mono hstack) hpack schemaId kind
      simpa [sealed] using hdecode

theorem encodeValue_decodeValue_invoice : decodeValue Invoice.codec 3 (.string (sealed Invoice.packed)) "s" .payload =
    some (.ok (.object [("a", .bytes [1, 2])])) ∧ Carried .payload 3 (.object [("a", .bytes [1, 2])]) := by
  have hdecode : decodeValue Invoice.codec 3 (.string (sealed Invoice.packed)) "s" .payload =
      some (.ok (.object [("a", .bytes [1, 2])])) := rfl
  exact ⟨hdecode, (encodeValue_decodeValue Invoice.lossless hdecode none).1⟩

end EffectMQ
