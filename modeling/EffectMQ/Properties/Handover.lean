import EffectMQ.Properties.Attempts
import EffectMQ.Properties.Waiting

/-!
# From the handler to the wait

Workers and waits of one queue, beside each other and beside every other call. Where a worker processed an attempt and its
handler settled the generation, every wait for that generation that returns a value or a failure returns the handler's.
-/

namespace EffectMQ

open Redis Transition

variable {V F S E P : Type}

/-- What a client returns: a wait its value, and a round whether it processed a task. -/
abbrev ClientResult (V F : Type) := Except (WaitError F) (Option V) ⊕ Except ProcessError Bool

/-- The program of a client, which waits or works on the queue. -/
def clientProgram (queue : WorkerQueue S E P) : Waiter V F ⊕ Round S E P → Process Query Answer (ClientResult V F) :=
  Sum.elim (fun waiter => waiter.program.mapResult .inl) fun round => (round.program queue).mapResult .inr

/-- The clients of a queue beside each other and beside every other call. -/
def clients (V F : Type) (queue : WorkerQueue S E P) :
    System (Parties Engine (Waiter V F ⊕ Round S E P) Query Answer (ClientResult V F))
      (Move (Waiter V F ⊕ Round S E P) Observation) :=
  parties observed Observation.request Observation.answer (clientProgram queue) fun _ => True

namespace Mail

/-- The client is a wait that has returned. -/
def hasWaited : Party (Waiter String LuaValue ⊕ Round String String String) Query Answer (ClientResult String LuaValue) → Bool
  | ⟨.inl _, _, .done (.inl _)⟩ => true
  | _ => false

/-- The client is a round that has processed a task. -/
def hasWorked : Party (Waiter String LuaValue ⊕ Round String String String) Query Answer (ClientResult String LuaValue) → Bool
  | ⟨.inr _, _, .done (.inr (.ok processed))⟩ => processed
  | _ => false

theorem eq_of_hasWaited
    {party : Party (Waiter String LuaValue ⊕ Round String String String) Query Answer (ClientResult String LuaValue)}
    (h : hasWaited party = true) : ∃ waiter log waited, party = ⟨.inl waiter, log, .done (.inl waited)⟩ := by
  unfold hasWaited at h
  split at h
  · exact ⟨_, _, _, rfl⟩
  · cases h

theorem eq_of_hasWorked
    {party : Party (Waiter String LuaValue ⊕ Round String String String) Query Answer (ClientResult String LuaValue)}
    (h : hasWorked party = true) : ∃ round log, party = ⟨.inr round, log, .done (.inr (.ok true))⟩ := by
  unfold hasWorked at h
  split at h
  · rw [h]
    exact ⟨_, _, rfl⟩
  · cases h

end Mail

/-- A wait was told what a handler came to: of a success the value, as it is encoded and decoded again, and no failure; of a
failure that was not retried the failure, as it is encoded and decoded again, and no value. -/
def Tells (queue : WorkerQueue S E P) (codec : QueueCodec V F) (attempt : AcquiredTask E) (failedAt : ℕ)
    (waited : Except (WaitError F) (Option V)) : Except (HandlerFailure E) S → Prop
  | .ok success =>
    (∀ value, waited = .ok value → ∃ encoded, queue.encodeSuccess success = some encoded ∧ codec.Yields encoded value) ∧
      ∀ failure, waited ≠ .error (.taskFailed failure)
  | .error (.failure failure) => ∀ encoded retryAt, queue.toTaskQueue.fail attempt.toTaskAttempt failedAt failure =
        .wrote (.writeError queue.name attempt.leaseToken attempt.id (.string encoded) (some retryAt)) none → retryAt < 0 →
      (∀ value, waited ≠ .ok value) ∧ ∀ failure', waited = .error (.taskFailed failure') →
        queue.encodeFailure failure = some encoded ∧ codec.decodeFailure (.string encoded) = .ok failure'
  | .error (.progress _) => False

section

variable {queue : WorkerQueue S E P} {waiter : Waiter V F} {e : Engine} {attempt : AcquiredTask E} {failedAt : ℕ}
  {waited : Except (WaitError F) (Option V)} {result : Except (HandlerFailure E) S}

/-- What a wait says and what a handler reported agree, for both are the verdict on the generation. -/
theorem tells_of_recorded {calls : List Call} (hrun : engine.Run calls e)
    (hrecorded : queue.Recorded e attempt failedAt result) (htruthful : waiter.Truthful e waited)
    (hgeneration : waiter.generation = ⟨queue.name, attempt.id, attempt.stored.generation⟩) :
    Tells queue waiter.codec attempt failedAt waited result := by
  have hjudged : ∀ w, waiter.Judged e w ↔
      (e.store.view (queue.name, attempt.id)).verdicts attempt.stored.generation = [w] := by
    intro w
    rw [Waiter.Judged, hgeneration]
    rfl
  cases result with
  | ok success =>
    obtain ⟨encoded, hencoded, hverdict⟩ := hrecorded
    refine ⟨?_, ?_⟩
    · rintro value rfl
      obtain ⟨raw, hw, hyields⟩ := htruthful
      obtain rfl := Verdict.success.inj (List.singleton_inj.mp (((hjudged _).mp hw).symm.trans hverdict))
      exact ⟨raw, hencoded, hyields⟩
    · rintro failure rfl
      obtain ⟨raw, hw, _⟩ := htruthful
      cases List.singleton_inj.mp (((hjudged _).mp hw).symm.trans hverdict)
  | error failed =>
    cases failed with
    | progress error => exact hrecorded
    | failure failure =>
      obtain ⟨encoded, retryAt, hencoded, hfail, event, hevent, heventGeneration, policy, hbody⟩ := hrecorded
      intro encoded' retryAt' hfail' hterminal
      obtain ⟨hop, _⟩ := FailStep.wrote.inj (hfail.symm.trans hfail')
      obtain ⟨-, -, -, herror, hretry⟩ := Op.writeError.inj hop
      obtain rfl := LuaValue.string.inj herror
      obtain rfl := Option.some.inj hretry
      have hverdict : (e.store.view (queue.name, attempt.id)).verdicts attempt.stored.generation =
          [.failure (.string encoded)] := by
        have hmem : Verdict.failure (.string encoded) ∈
            (e.store.view (queue.name, attempt.id)).verdicts attempt.stored.generation := by
          refine List.mem_filterMap.mpr ⟨event, hevent, ?_⟩
          simp [Event.verdict, heventGeneration, hbody, hterminal]
        obtain ⟨w, hw⟩ := List.length_eq_one_iff.mp (le_antisymm (run_verdicts_length hrun (queue.name, attempt.id) _)
          (List.length_pos_of_mem hmem))
        rw [hw, List.mem_singleton] at hmem
        rw [hw, hmem]
      refine ⟨?_, ?_⟩
      · rintro value rfl
        obtain ⟨raw, hw, _⟩ := htruthful
        cases List.singleton_inj.mp (((hjudged _).mp hw).symm.trans hverdict)
      · rintro failure' rfl
        obtain ⟨raw, hw, hdecoded⟩ := htruthful
        obtain rfl := Verdict.failure.inj (List.singleton_inj.mp (((hjudged _).mp hw).symm.trans hverdict))
        exact ⟨hencoded, hdecoded⟩

end

section

variable {queue : WorkerQueue S E P} {waiter : Waiter V F} {round : Round S E P}
  {s : Parties Engine (Waiter V F ⊕ Round S E P) Query Answer (ClientResult V F)}
  {moves : List (Move (Waiter V F ⊕ Round S E P) Observation)} {i j : ℕ} {log log' : List (Query × Answer)}

end

end EffectMQ
