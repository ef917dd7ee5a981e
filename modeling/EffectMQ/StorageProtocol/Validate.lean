import EffectMQ.StorageProtocol.Value
import EffectMQ.Text.Decimal

/-!
# Validating a value for storage

The walk over a value before it is encoded and after it is decoded. The objects on the current path are kept in a set, which
is restored on the way back. Property values are read from their descriptors.
-/

namespace EffectMQ

structure UnsupportedStorageValue where
  path : String
  valueType : String
deriving DecidableEq

/-- How a walk ends: with the set as it is left, with an error, or with what an accessor threw. With the last two comes
whether an accessor ran. -/
inductive Validation (N : Type)
  | valid (seen : Finset N)
  | unsupported (error : UnsupportedStorageValue) (accessorRan : Bool)
  | threw

variable {N : Type} [DecidableEq N]

/-- The error for an object with another prototype, which names the constructor. -/
def unsupportedObject (path : String) : ConstructorName → Validation N
  | .data name => .unsupported ⟨path, name.getD "non-plain object"⟩ false
  | .accessor none => .threw
  | .accessor (some name) => .unsupported ⟨path, name.getD "non-plain object"⟩ true

/-- The walk over the entries of an array at the indices that are left. -/
def validateEntries (walk : JsValue N → String → Finset N → Option (Validation N)) (o : JsObject N) (path : String) :
    List ℕ → Finset N → Option (Validation N)
  | [], seen => some (.valid seen)
  | index :: indices, seen =>
    let entryPath := path ++ "[" ++ index.repr ++ "]"
    match (o.getOwnPropertyDescriptor (.string index.repr)).bind PropertyDescriptor.data? with
    | none => some (.unsupported ⟨entryPath, "sparse or non-data array entry"⟩ false)
    | some value =>
      match walk value entryPath seen with
      | some (.valid seen) => validateEntries walk o path indices seen
      | stopped => stopped

/-- A key of an array that is none of its entries. -/
def isCustomKey (length : ℕ) : PropertyKey → Bool
  | .symbol _ => true
  | .string key => !Decimal.isDecimal key.toList || length ≤ Decimal.value key.toList

/-- The walk over the properties of an object that are left. -/
def validateProperties (walk : JsValue N → String → Finset N → Option (Validation N)) (path : String) :
    List (PropertyKey × PropertyDescriptor N) → Finset N → Option (Validation N)
  | [], seen => some (.valid seen)
  | (.symbol _, _) :: _, _ => some (.unsupported ⟨path, "symbol-keyed object"⟩ false)
  | (.string key, descriptor) :: properties, seen =>
    let propertyPath := path ++ "." ++ key
    match descriptor.data? with
    | none => some (.unsupported ⟨propertyPath, "non-data property"⟩ false)
    | some value =>
      match walk value propertyPath seen with
      | some (.valid seen) => validateProperties walk path properties seen
      | stopped => stopped

/-- Takes an object off the path after a walk that passed. -/
def Validation.leave (n : N) : Validation N → Validation N
  | .valid seen => .valid (seen.erase n)
  | stopped => stopped

/-- `validate`, to a depth. -/
def validate (heap : Heap N) : ℕ → JsValue N → String → Finset N → Bool → Option (Validation N)
  | 0, _, _, _, _ => none
  | depth + 1, value, path, seen, allowRootUndefined =>
    match value with
    | .undefined =>
      some (if path = "$" ∧ allowRootUndefined = true then .valid seen else .unsupported ⟨path, "undefined"⟩ false)
    | .null | .string _ | .boolean _ => some (.valid seen)
    | .number x => some (if x.isStorable then .valid seen else .unsupported ⟨path, "unsafe number"⟩ false)
    | .bigint _ => some (.unsupported ⟨path, "bigint"⟩ false)
    | .symbol => some (.unsupported ⟨path, "symbol"⟩ false)
    | .function => some (.unsupported ⟨path, "function"⟩ false)
    | .object n =>
      let o := heap n
      let walk := fun value path seen => validate heap depth value path seen false
      if o.isUint8Array then some (.valid seen)
      else if n ∈ seen then some (.unsupported ⟨path, "cyclic object"⟩ false)
      else
        match o.arrayLength with
        | some length =>
          match validateEntries walk o path (List.range length) (insert n seen) with
          | some (.valid seen) =>
            if o.properties.any fun p => isCustomKey length p.1 then
              some (.unsupported ⟨path, "array with custom properties"⟩ false)
            else some (.valid (seen.erase n))
          | stopped => stopped
        | none =>
          if o.hasObjectPrototype = false then some (unsupportedObject path o.constructorName)
          else (validateProperties walk path o.properties (insert n seen)).map (Validation.leave n)

end EffectMQ
