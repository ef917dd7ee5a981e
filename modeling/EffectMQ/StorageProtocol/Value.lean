import EffectMQ.TaskEngine.Store

/-!
# JavaScript values

What the storage boundary sees of a JavaScript value: the type of a leaf, and for an object its kind, its prototype, and its
own properties, which may be accessors. Objects live in a heap, so that one may be reached along several paths or from
itself.
-/

namespace EffectMQ

/-- A number: finite and other than negative zero, or one of the rest. -/
inductive JsNumber
  | finite (value : ℚ)
  | negativeZero
  | infinity (negative : Bool)
  | nan
deriving DecidableEq

inductive JsValue (N : Type)
  | undefined
  | null
  | boolean (value : Bool)
  | number (value : JsNumber)
  | string (value : String)
  | bigint (value : ℤ)
  | symbol
  | function
  | object (node : N)
deriving DecidableEq

inductive PropertyKey
  | string (name : String)
  | symbol (index : ℕ)
deriving DecidableEq

/-- An own property. An accessor has no value. -/
structure PropertyDescriptor (N : Type) where
  enumerable : Bool
  value : Option (JsValue N)
deriving DecidableEq

/-- What reading the name of an object's constructor comes to: the name, or what an accessor on the way makes of it, which
may throw. -/
inductive ConstructorName
  | data (name : Option String)
  | accessor (name : Option (Option String))
deriving DecidableEq

/-- An object. The length of an array is not among its properties here. -/
structure JsObject (N : Type) where
  isUint8Array : Bool
  arrayLength : Option ℕ
  hasObjectPrototype : Bool
  properties : List (PropertyKey × PropertyDescriptor N)
  keys_nodup : (properties.map Prod.fst).Nodup
  constructorName : ConstructorName

abbrev Heap (N : Type) := N → JsObject N

variable {N : Type}

/-- The value of an enumerable data property. -/
def PropertyDescriptor.data? (descriptor : PropertyDescriptor N) : Option (JsValue N) :=
  if descriptor.enumerable then descriptor.value else none

namespace JsObject

/-- The descriptor of an own property. -/
def getOwnPropertyDescriptor (o : JsObject N) (key : PropertyKey) : Option (PropertyDescriptor N) := o.properties.lookup key

end JsObject

/-- A number that survives storage. -/
def JsNumber.isStorable : JsNumber → Bool
  | .finite value => |value| ≤ (maxSafeInteger : ℚ)
  | _ => false

end EffectMQ
