import EffectMQ.StorageProtocol.Tree
import EffectMQ.Text.Base64

/-!
# Storage envelopes

A value is validated, packed with its protocol version, schema and kind, and written as base64. Unpacked bytes may be anything:
a graph of objects, which normalization turns into fresh objects before the value is validated again. A depth stands for the
stack: past it a walk throws.
-/

namespace EffectMQ

inductive ValueKind
  | payload
  | success
  | failure
  | progress
deriving DecidableEq, Repr

def ValueKind.text : ValueKind → String
  | .payload => "payload"
  | .success => "success"
  | .failure => "failure"
  | .progress => "progress"

/-! ### What is packed and unpacked -/

/-- An object as it is unpacked. A plain object comes with its own properties, an array with its entries. -/
inductive UnpackedObject
  | buffer (content : List UInt8)
  | uint8Array (content : List UInt8)
  | array (entries : List (JsValue ℕ))
  | map (entries : List (JsValue ℕ × JsValue ℕ))
  | plain (entries : List (String × JsValue ℕ))
  | classInstance (constructorName : ConstructorName)

/-- An unpacked value, whose objects are numbered: hostile bytes may make it refer to itself. -/
structure Unpacked where
  objects : ℕ → UnpackedObject
  value : JsValue ℕ

/-- The packer, and `String` of what it unpacks. -/
structure MessagePack where
  pack : JsTree → Option (List UInt8)
  unpack : List UInt8 → Option Unpacked
  text : JsValue ℕ → String

def packProperty {N : Type} (read : JsValue N → Option JsTree) : PropertyKey × PropertyDescriptor N → Option (String × JsTree)
  | (.string key, descriptor) => (descriptor.data?.bind read).map fun value => (key, value)
  | (.symbol _, _) => none

/-- What the packer reads of a value of the storage domain. -/
def Heap.tree {N : Type} (heap : Heap N) (content : N → List UInt8) : ℕ → JsValue N → Option JsTree
  | 0, _ => none
  | depth + 1, value =>
    match value with
    | .undefined => some (.leaf .undefined)
    | .null => some (.leaf .null)
    | .boolean value => some (.leaf (.boolean value))
    | .number value => some (.leaf (.number value))
    | .string value => some (.leaf (.string value))
    | .bigint value => some (.leaf (.bigint value))
    | .symbol => some (.leaf .symbol)
    | .function => some (.leaf .function)
    | .object n =>
      let o := heap n
      if o.isUint8Array then some (.bytes (content n))
      else
        match o.arrayLength with
        | some length =>
          ((List.range length).mapM fun index =>
            ((o.getOwnPropertyDescriptor (.string index.repr)).bind PropertyDescriptor.data?).bind (heap.tree content depth)).map
              .array
        | none =>
          if o.hasObjectPrototype then
            (o.properties.mapM (packProperty (heap.tree content depth))).map .object
          else some (.classInstance o.constructorName)

/-- The loop over the entries of a map, which throws at a key that is no string. -/
def normalizeProperties (normalize : JsValue ℕ → Option JsTree) :
    List (JsValue ℕ × JsValue ℕ) → List (String × JsTree) → Option (List (String × JsTree))
  | [], normalized => some normalized
  | (.string key, nested) :: entries, normalized =>
    (normalize nested).bind fun value => normalizeProperties normalize entries (defineDataProperty normalized key value)
  | _ :: _, _ => none

/-- `normalizeDecoded`, to a depth. Without a value it throws. -/
def normalizeDecoded (objects : ℕ → UnpackedObject) : ℕ → JsValue ℕ → Option JsTree
  | 0, _ => none
  | depth + 1, value =>
    match value with
    | .undefined => some (.leaf .undefined)
    | .null => some (.leaf .null)
    | .boolean value => some (.leaf (.boolean value))
    | .number value => some (.leaf (.number value))
    | .string value => some (.leaf (.string value))
    | .bigint value =>
      some (.leaf (if -(maxSafeInteger : ℤ) ≤ value ∧ value ≤ maxSafeInteger then .number (.finite value) else .bigint value))
    | .symbol => some (.leaf .symbol)
    | .function => some (.leaf .function)
    | .object n =>
      match objects n with
      | .buffer content | .uint8Array content => some (.bytes content)
      | .array entries => (entries.mapM (normalizeDecoded objects depth)).map .array
      | .map entries => (normalizeProperties (normalizeDecoded objects depth) entries []).map .object
      | .plain entries =>
        (normalizeProperties (normalizeDecoded objects depth) (entries.map fun p => (.string p.1, p.2)) []).map .object
      | .classInstance name => some (.classInstance name)

/-! ### The objects of a tree -/

namespace JsTree

def child : JsTree → ℕ → Option JsTree
  | .array entries, i => entries[i]?
  | .object properties, i => properties[i]?.map Prod.snd
  | _, _ => none

/-- The part of a tree at a path. -/
def at? (t : JsTree) : List ℕ → Option JsTree
  | [] => some t
  | i :: path => (t.child i).bind fun t => t.at? path

/-- A tree as a value: a leaf, or the object at its path. -/
def toValue (path : List ℕ) : JsTree → JsValue (List ℕ)
  | .leaf value => value.widen
  | _ => .object path

/-- An entry or a property as it is assigned. -/
def dataDescriptor (path : List ℕ) (i : ℕ) (t : JsTree) : PropertyDescriptor (List ℕ) := ⟨true, some (t.toValue (path ++ [i]))⟩

/-- The entries of an array under their indices. -/
def entryProperties (path : List ℕ) (entries : List JsTree) : List (PropertyKey × PropertyDescriptor (List ℕ)) :=
  entries.zipIdx.map fun p => (.string p.2.repr, dataDescriptor path p.2 p.1)

def objectProperties (path : List ℕ) (properties : List (String × JsTree)) :
    List (PropertyKey × PropertyDescriptor (List ℕ)) :=
  properties.zipIdx.map fun p => (.string p.1.1, dataDescriptor path p.2 p.1.2)

theorem entryProperties_nodup (path : List ℕ) (entries : List JsTree) :
    ((entryProperties path entries).map Prod.fst).Nodup := by
  have hkeys : (entryProperties path entries).map Prod.fst =
      (List.range' 0 entries.length).map fun i => PropertyKey.string i.repr := by
    rw [← List.zipIdx_map_snd, entryProperties, List.map_map, List.map_map]
    rfl
  rw [hkeys]
  refine List.Nodup.map (fun i j h => ?_) List.nodup_range'
  exact Nat.repr_inj.mp (PropertyKey.string.inj h)

/-- The object of a tree. Of two properties with one key the last stays. -/
def toObject (path : List ℕ) : JsTree → JsObject (List ℕ)
  | .leaf _ => ⟨false, none, true, [], List.nodup_nil, .data (some "Object")⟩
  | .bytes _ => ⟨true, none, false, [], List.nodup_nil, .data (some "Uint8Array")⟩
  | .array entries =>
    { isUint8Array := false
      arrayLength := some entries.length
      hasObjectPrototype := false
      properties := entryProperties path entries
      keys_nodup := entryProperties_nodup path entries
      constructorName := .data (some "Array") }
  | .object properties =>
    { isUint8Array := false
      arrayLength := none
      hasObjectPrototype := true
      properties := (objectProperties path properties).pwFilter fun p q => p.1 ≠ q.1
      keys_nodup := List.pairwise_map.mpr (List.pairwise_pwFilter _)
      constructorName := .data (some "Object") }
  | .classInstance name => ⟨false, none, false, [], List.nodup_nil, name⟩

/-- The objects of a tree, each at its path. -/
def heap (t : JsTree) : Heap (List ℕ) := fun path => (((t.at? path).map (toObject path)).getD (toObject path (.leaf .undefined)))

/-- The bytes of a byte array of a tree. -/
def content (t : JsTree) (path : List ℕ) : List UInt8 :=
  match t.at? path with
  | some (.bytes content) => content
  | _ => []

end JsTree

/-! ### Encoding -/

def protocolVersion : ℕ := 1

def readableProtocolVersions : List ℕ := [1]

def marker : String := "effectmq:v1:"

def defaultMaxValueBytes : ℕ := 1024 * 1024

inductive StorageEncodingFailure
  | unsupported (error : UnsupportedStorageValue)
  | limitExceeded (kind : ValueKind) (actualBytes maxBytes : ℕ)
  | encoding (stage path : String)
deriving DecidableEq

/-- The tuple that is packed. -/
def envelope (schemaId : String) (kind : ValueKind) (value : JsTree) : JsTree :=
  .array [.leaf (.number (.finite protocolVersion)), .leaf (.string schemaId), .leaf (.string kind.text), value]

section

variable {N : Type} [DecidableEq N]

def encodeValue (codec : MessagePack) (heap : Heap N) (content : N → List UInt8) (stack : ℕ) (schemaId : String)
    (kind : ValueKind) (value : JsValue N) (maxValueBytes : Option ℕ) : Except StorageEncodingFailure String :=
  match validate heap stack value "$" ∅ (kind = .success) with
  | none | some .threw => .error (.encoding "messagepack" "$")
  | some (.unsupported error _) => .error (.unsupported error)
  | some (.valid _) =>
    match (heap.tree content stack value).bind fun value => codec.pack (envelope schemaId kind value) with
    | none => .error (.encoding "messagepack" "$")
    | some bytes =>
      let maxValueBytes := maxValueBytes.getD defaultMaxValueBytes
      if maxValueBytes < bytes.length then .error (.limitExceeded kind bytes.length maxValueBytes)
      else .ok (String.ofList (marker.toList ++ Base64.encode .standard true bytes))

end

/-! ### Decoding -/

inductive StorageDecodingFailure
  | corrupt (message : String) (cause : Option UnsupportedStorageValue)
  | decoding (stage path : String)
  | unsupportedVersion (encountered : JsNumber) (supported : List ℕ)
  | schemaMismatch (expected encountered : String)
deriving DecidableEq

/-- The entries of an array of four. -/
def Unpacked.tuple (u : Unpacked) : Option (JsValue ℕ × JsValue ℕ × JsValue ℕ × JsValue ℕ) :=
  match u.value with
  | .object n =>
    match u.objects n with
    | .array [version, schemaId, kind, value] => some (version, schemaId, kind, value)
    | _ => none
  | _ => none

/-- The value of an envelope that is as expected. -/
def decodeNormalized (objects : ℕ → UnpackedObject) (stack : ℕ) (kind : ValueKind) (value : JsValue ℕ) :
    Option (Except StorageDecodingFailure JsTree) :=
  match normalizeDecoded objects stack value with
  | none => some (.error (.corrupt "Stored value could not be normalized safely" none))
  | some normalized =>
    match validate normalized.heap stack (normalized.toValue []) "$" ∅ (kind = .success) with
    | some (.valid _) => some (.ok normalized)
    | some (.unsupported error _) =>
      some (.error (.corrupt ("Stored value is outside the supported storage domain at " ++ error.path) (some error)))
    | none | some .threw => none

def decodeEnvelope (codec : MessagePack) (stack : ℕ) (expectedSchemaId : String) (expectedKind : ValueKind) (u : Unpacked) :
    Option (Except StorageDecodingFailure JsTree) :=
  match u.tuple with
  | none => some (.error (.corrupt "Storage envelope must be a four-item tuple" none))
  | some (version, schemaId, kind, value) =>
    match version with
    | .number version =>
      if readableProtocolVersions.all fun readable => version ≠ .finite readable then
        some (.error (.unsupportedVersion version readableProtocolVersions))
      else if schemaId ≠ .string expectedSchemaId then
        some (.error (.schemaMismatch expectedSchemaId (codec.text schemaId)))
      else if kind ≠ .string expectedKind.text then
        some (.error (.corrupt ("Expected " ++ expectedKind.text ++ " envelope, received " ++ codec.text kind) none))
      else decodeNormalized u.objects stack expectedKind value
    | _ => some (.error (.corrupt "Storage envelope version is not numeric" none))

/-- `decodeValue`. Without a result it throws: the second validation is not caught. -/
def decodeValue (codec : MessagePack) (stack : ℕ) (encoded : JsValue ℕ) (expectedSchemaId : String)
    (expectedKind : ValueKind) : Option (Except StorageDecodingFailure JsTree) :=
  match encoded with
  | .string encoded =>
    if marker.toList.isPrefixOf encoded.toList = false then
      some (.error (.corrupt "Stored value is not an effectmq v1 envelope" none))
    else
      let base64 := encoded.toList.drop marker.length
      if base64 = [] ∨ base64.length % 4 ≠ 0 ∨ Base64.isPadded .standard base64 = false then
        some (.error (.decoding "base64" "$"))
      else
        match codec.unpack (Base64.decode .standard base64) with
        | none => some (.error (.decoding "messagepack" "$"))
        | some u => decodeEnvelope codec stack expectedSchemaId expectedKind u
  | _ => some (.error (.corrupt "Stored value is not an effectmq v1 envelope" none))

end EffectMQ
