import EffectMQ.StorageProtocol.Envelope
import EffectMQ.TaskQueue.Fail

/-!
# Decoding stored values

A stored value is taken out of its envelope and then decoded by a schema of the queue definition. The schemas are functions,
and the value `none` is `undefined`. The failures that the engine records itself are in no envelope.
-/

namespace EffectMQ

/-- Why a stored value is not decoded: its envelope is refused, the second validation throws, or a schema refuses it. -/
inductive DecodeFault
  | storage (failure : StorageDecodingFailure)
  | thrown
  | schema

/-- What decoding uses of a queue definition. -/
structure QueueCodec (V F : Type) where
  name : String
  taskName : String
  schemaId : String
  messagePack : MessagePack
  stack : ℕ
  payloadSchema : JsTree → Bool
  successSchema : JsTree → Option V
  /-- The schema of a failure, which the engine recorded itself or which was in an envelope. -/
  errorSchema : LuaValue ⊕ JsTree → Option F
  /-- The decoded failure is `undefined`. -/
  isUndefined : F → Bool

/-- A value of a record or an event, as it is parsed. No table is a string. -/
def LuaValue.parsed : LuaValue → JsValue ℕ
  | .nil => .undefined
  | .boolean value => .boolean value
  | .number value => .number (.finite value)
  | .string value => .string value
  | .table _ _ => .object 0

/-- A value that a definition decodes. -/
inductive StoredValue
  | payload (payload : String)
  | success (success : String)
  | failure (error : LuaValue)

/-- The values of a record. -/
def TaskRecord.values (task : TaskRecord) : List StoredValue :=
  task.errors.map (fun entry => .failure entry.error) ++ .payload task.payload :: task.success.toList.map .success

/-- What a schema makes of a value. -/
def accepted {α : Type} (value : Option α) : Except DecodeFault α := value.elim (.error .schema) .ok

/-- The decoded values of a record. -/
structure DecodedTask (V F : Type) where
  success : Option V
  errors : List F

namespace QueueCodec

variable {V F : Type} (codec : QueueCodec V F)

/-- The value in an envelope of the queue's schema. -/
def decodeStored (kind : ValueKind) (value : LuaValue) : Except DecodeFault JsTree :=
  match decodeValue codec.messagePack codec.stack value.parsed codec.schemaId kind with
  | none => .error .thrown
  | some (.error failure) => .error (.storage failure)
  | some (.ok value) => .ok value

/-- A failure before its schema decodes it. -/
def storedFailure (error : LuaValue) : Except DecodeFault (LuaValue ⊕ JsTree) :=
  if error.errorTag.any fun tag => tag ∈ builtInErrorTags then .ok (.inl error)
  else (codec.decodeStored .failure error).map .inr

def decodePayload (payload : String) : Except DecodeFault Unit := do
  let tree ← codec.decodeStored .payload (.string payload)
  accepted (if codec.payloadSchema tree then some () else none)

def decodeSuccess (success : String) : Except DecodeFault V := do
  let tree ← codec.decodeStored .success (.string success)
  accepted (codec.successSchema tree)

def decodeFailure (error : LuaValue) : Except DecodeFault F := do
  let stored ← codec.storedFailure error
  accepted (codec.errorSchema stored)

/-- The success of a record is optional: `undefined` decodes as itself where the schema refuses it. -/
def successField (tree : JsTree) : Option (Option V) :=
  match codec.successSchema tree, tree with
  | some value, _ => some (some value)
  | none, .leaf .undefined => some none
  | none, _ => none

/-- The schema of a record, after its values were taken out of their envelopes. -/
def taskSchema (payload : JsTree) (success : Option JsTree) (errors : List (LuaValue ⊕ JsTree)) :
    Except DecodeFault (DecodedTask V F) := do
  accepted (if codec.payloadSchema payload then some () else none)
  let errors ← errors.mapM fun stored => accepted (codec.errorSchema stored)
  let success ← accepted (success.elim (some none) codec.successField)
  return ⟨success, errors⟩

/-- The values of a record. -/
def decodeFields (task : TaskRecord) : Except DecodeFault (DecodedTask V F) := do
  let errors ← task.errors.mapM fun entry => codec.storedFailure entry.error
  let payload ← codec.decodeStored .payload (.string task.payload)
  match task.success with
  | none => codec.taskSchema payload none errors
  | some success =>
    let success ← codec.decodeStored .success (.string success)
    codec.taskSchema payload (some success) errors

/-- A value that does not decode, and why. -/
def Refuses (fault : DecodeFault) : StoredValue → Prop
  | .payload payload => codec.decodePayload payload = .error fault
  | .success success => codec.decodeSuccess success = .error fault
  | .failure error => codec.decodeFailure error = .error fault

/-- What the success of a record is decoded to. -/
def Yields (success : String) (value : Option V) : Prop :=
  ∃ tree, codec.decodeStored .success (.string success) = .ok tree ∧ codec.successField tree = some value

end QueueCodec

/-! ### What was decoded -/

section

variable {V F α β ε : Type}

theorem bind_eq_ok {x : Except ε α} {f : α → Except ε β} {b : β} (h : x >>= f = .ok b) : ∃ a, x = .ok a ∧ f a = .ok b := by
  cases x with
  | error fault => cases h
  | ok a => exact ⟨a, rfl, h⟩

theorem bind_eq_error {x : Except ε α} {f : α → Except ε β} {fault : ε} (h : x >>= f = .error fault) :
    x = .error fault ∨ ∃ a, x = .ok a ∧ f a = .error fault := by
  cases x with
  | error fault' =>
    cases h
    exact Or.inl rfl
  | ok a => exact Or.inr ⟨a, rfl, h⟩

theorem error_bind {x : Except ε α} {f : α → Except ε β} {fault : ε} (h : x = .error fault) : x >>= f = .error fault := by
  rw [h]
  rfl

theorem ok_bind {x : Except ε α} {f : α → Except ε β} {a : α} (h : x = .ok a) : x >>= f = f a := by
  rw [h]
  rfl

theorem map_eq_ok {x : Except ε α} {f : α → β} {b : β} (h : x.map f = .ok b) : ∃ a, x = .ok a ∧ f a = b := by
  cases x with
  | error fault => cases h
  | ok a => exact ⟨a, rfl, Except.ok.inj h⟩

theorem map_eq_error {x : Except ε α} {f : α → β} {fault : ε} (h : x.map f = .error fault) : x = .error fault := by
  cases x with
  | error fault' =>
    cases h
    rfl
  | ok a => cases h

theorem mapError_eq_ok {x : Except ε α} {f : ε → β} {a : α} (h : x.mapError f = .ok a) : x = .ok a := by
  cases x with
  | error fault => cases h
  | ok a' =>
    cases h
    rfl

theorem mapError_eq_error {x : Except ε α} {f : ε → β} {fault : β} (h : x.mapError f = .error fault) :
    ∃ fault', x = .error fault' ∧ f fault' = fault := by
  cases x with
  | error fault' => exact ⟨fault', rfl, Except.error.inj h⟩
  | ok a => cases h

theorem forall₂_of_mapM {f : α → Except ε β} {l : List α} {l' : List β} (h : l.mapM f = .ok l') :
    List.Forall₂ (fun x y => f x = .ok y) l l' := by
  induction l generalizing l' with
  | nil =>
    cases h
    exact .nil
  | cons x rest ih =>
    rw [List.mapM_cons] at h
    obtain ⟨y, hy, h⟩ := bind_eq_ok h
    obtain ⟨rest', hrest, h⟩ := bind_eq_ok h
    cases h
    exact .cons hy (ih hrest)

theorem error_of_mapM {f : α → Except ε β} {l : List α} {fault : ε} (h : l.mapM f = .error fault) :
    ∃ x ∈ l, f x = .error fault := by
  induction l with
  | nil => cases h
  | cons x rest ih =>
    rw [List.mapM_cons] at h
    rcases bind_eq_error h with hx | ⟨y, _, h⟩
    · exact ⟨x, List.mem_cons_self, hx⟩
    · rcases bind_eq_error h with hrest | ⟨_, _, h⟩
      · obtain ⟨x', hmem, hx'⟩ := ih hrest
        exact ⟨x', List.mem_cons_of_mem _ hmem, hx'⟩
      · cases h

theorem exists_of_mapM {f : α → Except ε β} {l : List α} {l' : List β} (h : l.mapM f = .ok l') {y : β} (hy : y ∈ l') :
    ∃ x ∈ l, f x = .ok y := by
  obtain ⟨i, hi, rfl⟩ := List.mem_iff_getElem.mp hy
  have hforall := List.forall₂_iff_get.mp (forall₂_of_mapM h)
  have hi' : i < l.length := hforall.1 ▸ hi
  exact ⟨l[i], List.getElem_mem hi', hforall.2 i hi' hi⟩

theorem getLast?_forall₂ {R : α → β → Prop} {l : List α} {l' : List β} (h : List.Forall₂ R l l') {y : β}
    (hy : l'.getLast? = some y) : ∃ x, l.getLast? = some x ∧ R x y := by
  induction h with
  | nil => cases hy
  | @cons x y' rest rest' hx hrest ih =>
    cases hrest with
    | nil =>
      cases hy
      exact ⟨x, rfl, hx⟩
    | @cons x₁ y₁ l l' hx₁ hrest =>
      rw [List.getLast?_cons_cons] at hy ⊢
      exact ih hy

theorem eq_some_of_accepted {value : Option α} {a : α} (h : accepted value = .ok a) : value = some a := by
  cases value with
  | none => cases h
  | some a' =>
    cases h
    rfl

theorem eq_none_of_accepted {value : Option α} {fault : DecodeFault} (h : accepted value = .error fault) :
    fault = .schema ∧ value = none := by
  cases value with
  | none =>
    cases h
    exact ⟨rfl, rfl⟩
  | some a => cases h

namespace QueueCodec

variable {codec : QueueCodec V F} {task : TaskRecord} {decoded : DecodedTask V F} {fault : DecodeFault}
  {payload : JsTree} {success : Option JsTree} {errors : List (LuaValue ⊕ JsTree)}

/-! ### Refusals -/

theorem successField_of_decodes {tree : JsTree} {value : V} (h : codec.successSchema tree = some value) :
    codec.successField tree = some (some value) := by
  unfold successField
  rw [h]

/-- What the schema of a record refuses is one of its values. -/
theorem taskSchema_error (h : codec.taskSchema payload success errors = .error fault) :
    accepted (if codec.payloadSchema payload then some () else none) = .error fault ∨
      (∃ stored ∈ errors, accepted (codec.errorSchema stored) = .error fault) ∨
      ∃ tree, success = some tree ∧ accepted (codec.successSchema tree) = .error fault := by
  rcases bind_eq_error h with hpayload | ⟨_, _, h⟩
  · exact Or.inl hpayload
  rcases bind_eq_error h with herrors | ⟨_, _, h⟩
  · exact Or.inr (Or.inl (error_of_mapM herrors))
  rcases bind_eq_error h with hsuccess | ⟨_, _, h⟩
  · obtain ⟨rfl, hnone⟩ := eq_none_of_accepted hsuccess
    cases success with
    | none => cases hnone
    | some tree =>
      refine Or.inr (Or.inr ⟨tree, rfl, ?_⟩)
      cases hschema : codec.successSchema tree with
      | none => rfl
      | some value => exact absurd ((successField_of_decodes hschema).symm.trans hnone) (by simp)
  · cases h

/-- A record that does not decode has a value that does not. -/
theorem decodeFields_error (h : codec.decodeFields task = .error fault) :
    ∃ value ∈ task.values, codec.Refuses fault value := by
  have herror : ∀ entry ∈ task.errors, codec.decodeFailure entry.error = .error fault →
      ∃ value ∈ task.values, codec.Refuses fault value := fun entry hentry hfault =>
    ⟨_, List.mem_append_left _ (List.mem_map_of_mem hentry), hfault⟩
  have hpayload : codec.decodePayload task.payload = .error fault → ∃ value ∈ task.values, codec.Refuses fault value :=
    fun hfault => ⟨_, List.mem_append_right _ List.mem_cons_self, hfault⟩
  have hsuccess : ∀ success, task.success = some success → codec.decodeSuccess success = .error fault →
      ∃ value ∈ task.values, codec.Refuses fault value := fun success hsome hfault => by
    refine ⟨.success success, List.mem_append_right _ (List.mem_cons_of_mem _ ?_), hfault⟩
    rw [hsome]
    exact List.mem_singleton_self _
  rcases bind_eq_error h with herrors | ⟨errors, herrors, h⟩
  · obtain ⟨entry, hentry, hfault⟩ := error_of_mapM herrors
    exact herror entry hentry (error_bind hfault)
  rcases bind_eq_error h with hfault | ⟨payload, hopened, h⟩
  · exact hpayload (error_bind hfault)
  have hschema : ∀ success, (∀ tree, success = some tree → ∃ raw, task.success = some raw ∧
        codec.decodeStored .success (.string raw) = .ok tree) → codec.taskSchema payload success errors = .error fault →
      ∃ value ∈ task.values, codec.Refuses fault value := fun success hopened' h => by
    rcases taskSchema_error h with hfault | ⟨stored, hstored, hfault⟩ | ⟨tree, htree, hfault⟩
    · exact hpayload ((ok_bind hopened).trans hfault)
    · obtain ⟨entry, hentry, heq⟩ := exists_of_mapM herrors hstored
      exact herror entry hentry ((ok_bind heq).trans hfault)
    · obtain ⟨raw, hraw, heq⟩ := hopened' tree htree
      exact hsuccess raw hraw ((ok_bind heq).trans hfault)
  split at h
  · exact hschema none (fun tree htree => nomatch htree) h
  · next raw hraw =>
    rcases bind_eq_error h with hfault | ⟨tree, htree, h⟩
    · exact hsuccess raw hraw (error_bind hfault)
    · refine hschema (some tree) (fun tree' heq => ⟨raw, hraw, ?_⟩) h
      rw [htree, Option.some.inj heq]

/-! ### Values -/

theorem yields_of_decodeSuccess {success : String} {value : V} (h : codec.decodeSuccess success = .ok value) :
    codec.Yields success (some value) := by
  obtain ⟨tree, htree, h⟩ := bind_eq_ok h
  exact ⟨tree, htree, successField_of_decodes (eq_some_of_accepted h)⟩

theorem taskSchema_ok (h : codec.taskSchema payload success errors = .ok decoded) :
    success.elim (some none) codec.successField = some decoded.success ∧
      errors.mapM (fun stored => accepted (codec.errorSchema stored)) = .ok decoded.errors := by
  obtain ⟨_, _, h⟩ := bind_eq_ok h
  obtain ⟨errors', herrors, h⟩ := bind_eq_ok h
  obtain ⟨success', hsuccess, h⟩ := bind_eq_ok h
  cases h
  exact ⟨eq_some_of_accepted hsuccess, herrors⟩

/-- The last failure of a decoded record is its last error, decoded. -/
theorem decodeFields_errors (h : codec.decodeFields task = .ok decoded) {failure : F}
    (hlast : decoded.errors.getLast? = some failure) :
    ∃ entry, task.errors.getLast? = some entry ∧ codec.decodeFailure entry.error = .ok failure := by
  obtain ⟨errors, herrors, h⟩ := bind_eq_ok h
  obtain ⟨payload, _, h⟩ := bind_eq_ok h
  have hschema : errors.mapM (fun stored => accepted (codec.errorSchema stored)) = .ok decoded.errors := by
    split at h
    · exact (taskSchema_ok h).2
    · obtain ⟨success, _, h⟩ := bind_eq_ok h
      exact (taskSchema_ok h).2
  obtain ⟨stored, hstored, hfailure⟩ := getLast?_forall₂ (forall₂_of_mapM hschema) hlast
  obtain ⟨entry, hentry, herror⟩ := getLast?_forall₂ (forall₂_of_mapM herrors) hstored
  refine ⟨entry, hentry, ?_⟩
  rw [decodeFailure, herror]
  exact hfailure

theorem decodeFields_success (h : codec.decodeFields task = .ok decoded) {success : String}
    (hsuccess : task.success = some success) : codec.Yields success decoded.success := by
  obtain ⟨errors, _, h⟩ := bind_eq_ok h
  obtain ⟨payload, _, h⟩ := bind_eq_ok h
  rw [hsuccess] at h
  obtain ⟨tree, htree, h⟩ := bind_eq_ok h
  exact ⟨tree, htree, (taskSchema_ok h).1⟩

end QueueCodec

end

end EffectMQ
