import EffectMQ.Lifecycle.Verdict
import EffectMQ.TaskQueue.Wait

/-!
# Decoded settlements

A batch of events settles the generation of a handle exactly when it holds a verdict on it, and then as the verdict says,
unless a value before it does not decode.
-/

namespace EffectMQ

open Redis Transition

section

variable {V F : Type}

/-- The values of a result. -/
def TerminalResult.values (t : TerminalResult) : List StoredValue :=
  t.success.toList.map .success ++ t.failure.toList.map .failure

/-- The values of an event. -/
def Event.values (event : Event) : List StoredValue :=
  match event.body with
  | .created newTask _ => newTask.values
  | .updated existingTask newTask _ => existingTask.values ++ newTask.values
  | .failed error .. => [.failure error]
  | .completed success _ => [.success success]
  | .moved .. => []

/-- An error that says nothing of a generation: the identity of a stored value, or a value that does not decode. -/
def WaitError.IsFault (codec : QueueCodec V F) (held : StoredValue → Prop) : WaitError F → Prop
  | .unsupportedProtocolVersion _ _ | .schemaIdentityMismatch _ _ => True
  | .decoding fault => ∃ value, held value ∧ codec.Refuses fault value
  | _ => False

/-- A settlement, decoded. -/
def Settled.Decodes (codec : QueueCodec V F) : Settled V F → Verdict → Prop
  | .success value, .success raw => codec.decodeSuccess raw = .ok value
  | .failure decoded, .failure raw => codec.decodeFailure raw = .ok decoded
  | _, _ => False

namespace QueueCodec

variable {codec : QueueCodec V F} {task : TaskRecord} {decoded : DecodedTask V F} {handle : TaskHandle} {event : Event}
  {entries : List (StreamId × Event)} {error : WaitError F} {settled : Option (Settled V F)}
  {held held' : StoredValue → Prop}

theorem isFault_mono (h : error.IsFault codec held) (hmono : ∀ value, held value → held' value) :
    error.IsFault codec held' := by
  cases error with
  | unsupportedProtocolVersion | schemaIdentityMismatch => trivial
  | decoding fault =>
    obtain ⟨value, hheld, hrefuses⟩ := h
    exact ⟨value, hmono value hheld, hrefuses⟩
  | taskHandleMismatch | corruptStorageValue | taskFailed | taskNotFound | resultExpired | stream | engine | waiting =>
    exact h.elim

theorem identityFault_isFault {version : ℕ} {schemaId : String} (h : codec.identityFault version schemaId = some error) :
    error.IsFault codec held := by
  unfold identityFault at h
  split at h
  · cases h
    trivial
  · split at h
    · cases h
      trivial
    · cases h

theorem decodeTask_isFault (h : codec.decodeTask task = .error error) : error.IsFault codec (· ∈ task.values) := by
  unfold decodeTask at h
  split at h
  · next fault hfault =>
    cases h
    exact identityFault_isFault hfault
  · obtain ⟨fault, hfields, rfl⟩ := mapError_eq_error h
    exact decodeFields_error hfields

theorem decodeFields_of_decodeTask (h : codec.decodeTask task = .ok decoded) : codec.decodeFields task = .ok decoded := by
  unfold decodeTask at h
  split at h
  · cases h
  · exact mapError_eq_ok h

theorem decodeEvent_isFault (h : codec.decodeEvent event = .error error) : error.IsFault codec (· ∈ event.values) := by
  unfold decodeEvent at h
  unfold Event.values
  cases hbody : event.body with
  | created newTask state =>
    simp only [hbody] at h
    exact decodeTask_isFault (map_eq_error h)
  | updated existingTask newTask state =>
    simp only [hbody] at h
    cases hexisting : codec.decodeTask existingTask with
    | error fault =>
      rw [hexisting] at h
      cases h
      exact isFault_mono (decodeTask_isFault hexisting) fun _ => List.mem_append_left _
    | ok existing =>
      simp only [hexisting] at h
      exact isFault_mono (decodeTask_isFault (map_eq_error h)) fun _ => List.mem_append_right _
  | moved =>
    simp only [hbody] at h
    cases h
  | completed success policy =>
    simp only [hbody] at h
    split at h
    · next hdecoded =>
      cases h
      exact ⟨_, List.mem_singleton_self _, hdecoded⟩
    · cases h
  | failed raw policy kind attempt terminal retryAt =>
    simp only [hbody] at h
    split at h
    · next hdecoded =>
      cases h
      exact ⟨_, List.mem_singleton_self _, hdecoded⟩
    · cases h

/-- A decoded event settles its generation as its verdict does. -/
theorem decodeEvent_ok (h : codec.decodeEvent event = .ok settled) :
    (settled = none ∧ event.verdict event.generation = none) ∨
      ∃ ended w, settled = some ended ∧ event.verdict event.generation = some w ∧ ended.Decodes codec w := by
  unfold decodeEvent at h
  cases hbody : event.body with
  | created newTask state =>
    simp only [hbody] at h
    obtain ⟨_, _, rfl⟩ := map_eq_ok h
    exact Or.inl ⟨rfl, by simp [Event.verdict, hbody]⟩
  | updated existingTask newTask state =>
    simp only [hbody] at h
    split at h
    · cases h
    · obtain ⟨_, _, rfl⟩ := map_eq_ok h
      exact Or.inl ⟨rfl, by simp [Event.verdict, hbody]⟩
  | moved =>
    simp only [hbody] at h
    cases h
    exact Or.inl ⟨rfl, by simp [Event.verdict, hbody]⟩
  | completed success policy =>
    simp only [hbody] at h
    split at h
    · cases h
    · next value hvalue =>
      cases h
      exact Or.inr ⟨_, .success success, rfl, by simp [Event.verdict, hbody], hvalue⟩
  | failed raw policy kind attempt terminal retryAt =>
    simp only [hbody] at h
    split at h
    · cases h
    · next failure hfailure =>
      cases h
      cases terminal with
      | false => exact Or.inl ⟨rfl, by simp [Event.verdict, hbody]⟩
      | true => exact Or.inr ⟨_, .failure raw, rfl, by simp [Event.verdict, hbody], hfailure⟩

theorem firstTerminal_isFault (h : codec.firstTerminal handle entries = .error error) :
    error.IsFault codec fun value => ∃ entry ∈ entries, value ∈ entry.2.values := by
  induction entries with
  | nil => cases h
  | cons entry rest ih =>
    unfold firstTerminal at h
    split at h
    · next fault hfault =>
      cases h
      exact isFault_mono (decodeEvent_isFault hfault) fun value hvalue => ⟨entry, List.mem_cons_self, hvalue⟩
    · split at h
      · cases h
      · refine isFault_mono (ih h) fun value hvalue => ?_
        obtain ⟨later, hmem, hvalue⟩ := hvalue
        exact ⟨later, List.mem_cons_of_mem _ hmem, hvalue⟩

/-- A batch without a settlement has no verdict on the generation of the handle. -/
theorem firstTerminal_none (h : codec.firstTerminal handle entries = .ok none) {entry : StreamId × Event}
    (hentry : entry ∈ entries) (hid : entry.2.taskId = handle.taskId) :
    ¬ (entry.2.verdict handle.generation).isSome := by
  induction entries with
  | nil => cases hentry
  | cons first rest ih =>
    unfold firstTerminal at h
    split at h
    · cases h
    · next settled hsettled =>
      split at h
      · next hmatch =>
        cases h
        exact absurd hmatch.2.2 (by simp)
      · next hmatch =>
        rcases List.mem_cons.mp hentry with rfl | hrest
        · intro hverdict
          have hgeneration : entry.2.generation = handle.generation := by
            unfold Event.verdict at hverdict
            split at hverdict
            · assumption
            · cases hverdict
          rw [← hgeneration] at hverdict
          rcases decodeEvent_ok hsettled with ⟨_, hnone⟩ | ⟨ended, w, rfl, _, _⟩
          · rw [hnone] at hverdict
            cases hverdict
          · exact hmatch ⟨hid, hgeneration, rfl⟩
        · exact ih h hrest

/-- The settlement of a batch is the verdict of one of its events, decoded. -/
theorem firstTerminal_some {ended : Settled V F} (h : codec.firstTerminal handle entries = .ok (some ended)) :
    ∃ entry ∈ entries, entry.2.taskId = handle.taskId ∧
      ∃ w, entry.2.verdict handle.generation = some w ∧ ended.Decodes codec w := by
  induction entries with
  | nil => cases h
  | cons first rest ih =>
    unfold firstTerminal at h
    split at h
    · cases h
    · next settled hsettled =>
      split at h
      · next hmatch =>
        cases h
        rcases decodeEvent_ok hsettled with ⟨hnone, _⟩ | ⟨ended', w, heq, hw, hdecodes⟩
        · cases hnone
        · cases heq
          exact ⟨first, List.mem_cons_self, hmatch.1, w, hmatch.2.1 ▸ hw, hdecodes⟩
      · obtain ⟨entry, hentry, hid, hw⟩ := ih h
        exact ⟨entry, List.mem_cons_of_mem _ hentry, hid, hw⟩

end QueueCodec

end

end EffectMQ
