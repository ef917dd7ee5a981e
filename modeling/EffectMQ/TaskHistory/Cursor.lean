import EffectMQ.StorageProtocol.Value
import EffectMQ.TaskEngine.HistoryReader
import EffectMQ.Text.Decimal

/-!
# The text of a history cursor

A cursor is a marker and the base64url text of a JSON array: the identity of the history and a position in it. Whoever reads
one back takes nothing on trust. JSON, UTF-8 and base64url are those of the platform.
-/

namespace EffectMQ

inductive Json
  | null
  | boolean (value : Bool)
  | number (value : JsNumber)
  | string (value : String)
  | array (items : List Json)
  | object (members : List (String × Json))

/-- The codecs that cursors are built from. `parse` may throw, `decode` takes any text. -/
structure CursorCodec where
  Bytes : Type
  stringify : Json → String
  parse : String → Except String Json
  fromText : String → Bytes
  toText : Bytes → String
  encode : Bytes → String
  decode : String → Bytes

namespace TaskHistory

/-- The identity of a history, whose generation is a safe integer. -/
structure Identity where
  queue : String
  taskId : String
  generation : ℕ
  safe : generation ≤ maxSafeInteger
deriving DecidableEq

/-- The identity of a history of the engine. -/
def Identity.ofTask (x : TaskIdentity) (h : x.generation ≤ maxSafeInteger) : Identity := ⟨x.queue, x.id, x.generation, h⟩

structure Position where
  sequence : JsNumber
  id : String
deriving DecidableEq

def cursorPrefixText : String := "effectmq:history:v1:"

/-- A component of a stream id in decimal: at most 20 digits, and as a text not above the largest one. -/
def validPart (part : List Char) : Bool :=
  part.length < 20 || part.length = 20 && String.ofList part ≤ "18446744073709551615"

def validRedisId (id : String) : Bool :=
  match id.toList.splitOn '-' with
  | [time, sequence] =>
    Decimal.isDecimal time && Decimal.isDecimal sequence && [time, sequence].all validPart
  | _ => false

def cursor (codec : CursorCodec) (identity : Identity) (position : Position) : String :=
  cursorPrefixText ++ codec.encode (codec.fromText (codec.stringify (.array
    [.string identity.queue, .string identity.taskId, .number (.finite identity.generation), .number position.sequence,
      .string position.id])))

end TaskHistory

/-- The number that comparisons see. -/
def JsNumber.value? : JsNumber → Option ℚ
  | .finite value => some value
  | .negativeZero => some 0
  | _ => none

/-- `Number.isSafeInteger`. -/
def JsNumber.isSafeInteger (x : JsNumber) : Bool := x.value?.any fun value : ℚ => value.den = 1 ∧ |value| ≤ (maxSafeInteger : ℚ)

/-- The letters of base64url. -/
def isBase64Url (c : Char) : Bool :=
  'A' ≤ c && c ≤ 'Z' || 'a' ≤ c && c ≤ 'z' || c.isDigit || c = '_' || c = '-'

namespace TaskHistory

/-- The check of the parsed fields. -/
def checkFields (identity : Identity) : Json → Except String Position
  | .array [.string queue, .string taskId, .number generation, .number sequence, .string id] =>
    if queue = identity.queue ∧ taskId = identity.taskId ∧ generation.value? = some (identity.generation : ℚ) ∧
        sequence.isSafeInteger = true ∧ sequence.value?.any (fun n : ℚ => n < 0) = false ∧ validRedisId id = true then
      .ok ⟨sequence, id⟩
    else .error "Error: Mismatched or invalid cursor fields"
  | _ => .error "Error: Mismatched or invalid cursor fields"

/-- `parseCursor`. The fault is the reason of the error. -/
def parseCursor (codec : CursorCodec) (identity : Identity) (value : String) : Except String Position :=
  if cursorPrefixText.toList.isPrefixOf value.toList = false then .error "Error: Expected a history cursor"
  else
    let encoded := String.ofList (value.toList.drop cursorPrefixText.length)
    if encoded = "" ∨ encoded.toList.all isBase64Url = false then .error "Error: Invalid cursor encoding"
    else
      let bytes := codec.decode encoded
      if codec.encode bytes ≠ encoded then .error "Error: Noncanonical cursor"
      else (codec.parse (codec.toText bytes)).bind (checkFields identity)

end TaskHistory

/-- What the codecs of the platform do: parsing undoes stringifying on arrays of strings and safe integers, no JSON text is
empty, UTF-8 and base64url are undone, no bytes are the empty text, and base64url has its letters. -/
structure CursorCodec.Lawful (codec : CursorCodec) : Prop where
  parse_stringify : ∀ fields : List Json,
    (∀ field ∈ fields, (∃ text, field = .string text) ∨
      ∃ n : ℤ, |n| ≤ (maxSafeInteger : ℤ) ∧ field = .number (.finite n)) →
    codec.parse (codec.stringify (.array fields)) = .ok (.array fields)
  stringify_ne : ∀ value, codec.stringify value ≠ ""
  toText_fromText : ∀ text, codec.toText (codec.fromText text) = text
  decode_encode : ∀ bytes, codec.decode (codec.encode bytes) = bytes
  toText_empty : codec.toText (codec.decode "") = ""
  letters : ∀ bytes, ∀ c ∈ (codec.encode bytes).toList, isBase64Url c = true

end EffectMQ
