import EffectMQ.Lifecycle.Scenario
import EffectMQ.Lifecycle.Verdict
import EffectMQ.TaskQueue.Attempt
import EffectMQ.TaskQueue.Wait

/-!
# Executed waits

Turns of clients that wait beside other calls, and one run of them: a wait that finds its task waiting reads the stream.
-/

namespace EffectMQ

open Redis Transition

/-- One observation in given surroundings. -/
def observe (e : Engine) (env : Env) : Query → Option (Observation × Engine)
  | .call op => (perform e env op).map fun performed => (.call performed.1, performed.2)
  | .read queue position => some (.read queue position (entriesAfter (e.store.events queue).retained position), e)

theorem observe_step {e e' : Engine} {env : Env} {query : Query} {observation : Observation}
    (h : observe e env query = some (observation, e')) : observed.step e observation e' ∧ observation.request = query := by
  cases query with
  | call op =>
    obtain ⟨⟨c, e₁⟩, hperform, heq⟩ := Option.map_eq_some_iff.mp h
    obtain ⟨rfl, rfl⟩ := Prod.mk.inj heq
    exact ⟨perform_step hperform, congrArg Query.call (perform_op hperform)⟩
  | read queue position =>
    obtain ⟨rfl, rfl⟩ := Prod.mk.inj (Option.some.inj h)
    exact ⟨⟨rfl, rfl⟩, rfl⟩

/-- An invocation whose reply arrived. -/
def Observation.answered? : Observation → Option Call
  | .call c => some c
  | _ => none

/-- Every client that waits is launched after the offer that issued its handle. -/
def issuedMoves {V F ι : Type} (waiter : ι → Option (Waiter V F)) (seen : List Call) : List (Move ι Observation) → Bool
  | [] => true
  | .launch _ start :: rest =>
    ((waiter start).all fun waiter => seen.any fun c => decide (waiter.IssuedBy c)) && issuedMoves waiter seen rest
  | move :: rest => issuedMoves waiter ((move.action.bind Observation.answered?).toList ++ seen) rest

section

variable {V F ι α : Type}

theorem issued_of_issuedMoves {waiter : ι → Option (Waiter V F)} {seen : List Call} {moves : List (Move ι Observation)}
    (h : issuedMoves waiter seen moves = true) {start : ι} {waiting : Waiter V F} (hstart : waiter start = some waiting) {i : ℕ}
    {before after : List (Move ι Observation)} (hmoves : moves = before ++ .launch i start :: after) :
    ∃ c, (c ∈ seen ∨ Observation.call c ∈ before.filterMap Move.action) ∧ waiting.IssuedBy c := by
  induction moves generalizing seen before with
  | nil => exact absurd hmoves (by simp)
  | cons move rest ih =>
    cases before with
    | nil =>
      obtain ⟨rfl, rfl⟩ := List.cons.inj hmoves
      obtain ⟨hany, _⟩ := Bool.and_eq_true_iff.mp h
      rw [hstart] at hany
      obtain ⟨c, hc, hissued⟩ := List.any_eq_true.mp hany
      exact ⟨c, Or.inl hc, of_decide_eq_true hissued⟩
    | cons first before =>
      obtain ⟨rfl, hrest⟩ := List.cons.inj hmoves
      have hgrow : ∀ action : Option Observation, move.action = action →
          issuedMoves waiter ((action.bind Observation.answered?).toList ++ seen) rest = true →
          ∃ c, (c ∈ seen ∨ Observation.call c ∈ (move :: before).filterMap Move.action) ∧ waiting.IssuedBy c := by
        intro action haction hissued
        obtain ⟨c, hc, hissued⟩ := ih hissued hrest
        refine ⟨c, ?_, hissued⟩
        rcases hc with hc | hc
        · rcases List.mem_append.mp hc with hc | hc
          · refine Or.inr (List.mem_filterMap.mpr ⟨move, List.mem_cons_self, ?_⟩)
            obtain ⟨observation, hsome, hcall⟩ := Option.bind_eq_some_iff.mp (Option.mem_toList.mp hc)
            rw [haction, hsome]
            cases observation with
            | call c' =>
              obtain rfl := Option.some.inj hcall
              rfl
            | read | unanswered | undelivered => cases hcall
          · exact Or.inl hc
        · refine Or.inr ?_
          rw [List.filterMap_cons]
          split
          · exact hc
          · exact List.mem_cons_of_mem _ hc
      cases move with
      | launch j start => exact hgrow none rfl (Bool.and_eq_true_iff.mp h).2
      | call j observation => exact hgrow _ rfl h
      | stop j => exact hgrow _ rfl h
      | other observation => exact hgrow _ rfl h

theorem issuedAs_of_issuedMoves {waiter : ι → Option (Waiter V F)} {moves : List (Move ι Observation)}
    (h : issuedMoves waiter [] moves = true) {start : ι} {waiting : Waiter V F} (hstart : waiter start = some waiting) :
    waiting.IssuedAs start moves := by
  intro before i after hmoves
  obtain ⟨c, hc, hissued⟩ := issued_of_issuedMoves h hstart hmoves
  exact ⟨c, hc.resolve_left (by simp), hissued⟩

/-- The clients of a program, turn by turn, from the empty engine. -/
def playClients (program : ι → Process Query Answer α) (turns : List (Turn ι Env Query)) :
    Option (List (Move ι Observation) × Parties Engine ι Query Answer α) :=
  Parties.play observe Observation.answer program (fun _ => true) ⟨Engine.start, fun _ => none⟩ turns

theorem playClients_run {program : ι → Process Query Answer α} {turns : List (Turn ι Env Query)}
    {p : List (Move ι Observation) → Parties Engine ι Query Answer α → Bool}
    (h : ((playClients program turns).any fun last => p last.1 last.2) = true) : ∃ moves s,
      (parties observed Observation.request Observation.answer program fun _ => True).Run moves s ∧ p moves s = true := by
  obtain ⟨⟨moves, s⟩, hplay, hlast⟩ := (Option.any_eq_true _ _).mp h
  have hpath : (parties observed Observation.request Observation.answer program fun _ => True).Path
      ⟨Engine.start, fun _ => none⟩ moves s := play_turns observe_step (fun _ _ => trivial) hplay
  exact ⟨moves, s, ⟨⟨Engine.start, fun _ => none⟩, ⟨rfl, fun _ => rfl⟩, hpath⟩, hlast⟩

end

namespace Mail

/-! A packer of one success, which refuses everything else. -/

def packed : List UInt8 :=
  [0x94, 1, 0xa4, 109, 97, 105, 108, 0xa7, 115, 117, 99, 99, 101, 115, 115, 0xa4, 115, 101, 110, 116]

def messagePack : MessagePack where
  pack
    | .array [.leaf (.number (.finite version)), .leaf (.string schemaId), .leaf (.string kind), .leaf (.string value)] =>
      if version = 1 ∧ schemaId = "mail" ∧ kind = "success" ∧ value = "sent" then some packed else none
    | _ => none
  unpack bytes :=
    if bytes = packed then
      some ⟨fun _ => .array [.number (.finite 1), .string "mail", .string "success", .string "sent"], .object 0⟩
    else none
  text
    | .string s => s
    | _ => ""

/-- The text of a success, in its envelope. -/
def encodeSuccess (success : String) : Option String :=
  (encodeValue messagePack (fun node : Empty => node.elim) Empty.elim 2 "mail" .success (.string success) none).toOption

def waiter : Waiter String LuaValue where
  codec :=
    { name := "mail"
      taskName := "mail"
      schemaId := "mail"
      messagePack := messagePack
      stack := 2
      payloadSchema := fun _ => true
      successSchema
        | .leaf (.string success) => some success
        | _ => none
      errorSchema
        | .inl error => some error
        | .inr (.leaf (.string failure)) => some (.string failure)
        | _ => none
      isUndefined := fun failure => failure = .nil }
  client := ⟨"q", none⟩
  handle := ⟨"mail", "a", 1, ⟨1, 1⟩, "mail", "mail", 1⟩
  schedule := [false]
  reads := 4

/-- A wait that finds its task waiting, opens the stream, looks again and reads; meanwhile the task succeeds. -/
def turns : List (Turn (Waiter String LuaValue) Env Query) :=
  [.other (.at 1) (.call (.createTask { CreateArgs.default "q:mail" "a" with schemaId := some "mail" })),
    .launch 0 waiter, .call 0 (.at 2), .call 0 (.at 2), .call 0 (.at 2), .call 0 (.at 2),
    .other (.at 3) (.call (.takeTask "q:mail" "token" (some 30000))),
    .other (.at 4) (.call (.writeSuccess "q:mail" "token" "a" ((encodeSuccess "sent").getD "")))]

/-- What the turns lead to shows something of the first client. -/
def shows (p : Engine → Waiter String LuaValue → Process Query Answer (Except (WaitError LuaValue) (Option String)) → Bool)
    (moves : List (Move (Waiter String LuaValue) Observation))
    (s : Parties Engine (Waiter String LuaValue) Query Answer (Except (WaitError LuaValue) (Option String))) : Bool :=
  issuedMoves some [] moves && (s.party 0).any fun party => p s.shared party.start party.rest

/-- The client has returned the value of the success. -/
def hasReturned : Process Query Answer (Except (WaitError LuaValue) (Option String)) → Bool
  | .done (.ok (some value)) => value = "sent"
  | _ => false

/-- The client is about to read a stream that holds its verdict. -/
def isReading (e : Engine) (waiter : Waiter String LuaValue) :
    Process Query Answer (Except (WaitError LuaValue) (Option String)) → Bool
  | .ask (.read queue _) _ => decide ((e.store.events queue).trimmed = 0) &&
      decide ((e.store.view (waiter.generation.queue, waiter.generation.id)).verdicts waiter.handle.generation ≠ [])
  | _ => false

theorem shows_run {turns : List (Turn (Waiter String LuaValue) Env Query)}
    {p : Engine → Waiter String LuaValue → Process Query Answer (Except (WaitError LuaValue) (Option String)) → Bool}
    (h : ((playClients Waiter.program turns).any fun last => shows p last.1 last.2) = true) :
    ∃ moves s waiter log rest, (waiters String LuaValue).Run moves s ∧ waiter.Issued moves ∧
      s.party 0 = some ⟨waiter, log, rest⟩ ∧ p s.shared waiter rest = true := by
  obtain ⟨moves, s, hrun, hlast⟩ := playClients_run h
  obtain ⟨hissued, hparty⟩ := Bool.and_eq_true_iff.mp hlast
  obtain ⟨⟨waiter, log, rest⟩, hi, hp⟩ := (Option.any_eq_true _ _).mp hparty
  exact ⟨moves, s, waiter, log, rest, hrun, issuedAs_of_issuedMoves hissued rfl, hi, hp⟩

/-- A queue of texts, whose tasks are not retried. -/
def queue : WorkerQueue String String String where
  name := "q:mail"
  schemaId := "mail"
  maxRetries := 3
  retrySchedule := none
  errorTag := fun _ => none
  encodeFailure := some
  decodeFailure
    | .string failure => some failure
    | _ => none
  decodes := fun _ => true
  encodeSuccess := encodeSuccess
  encodeProgress := some some

/-- A handler that writes progress and returns. -/
def handler : TaskHandler String String String := fun _ =>
  .ask "half" fun
    | .ok _ => .done (.ok "sent")
    | .error error => .done (.error (.progress error))

/-- A round whose heartbeat comes before the progress. -/
def round (leaseToken : String) : Round String String String where
  handler := handler
  options := ⟨none, none, none, none⟩
  leaseToken := leaseToken
  schedule := [false, true]
  failedAt := 0

/-- The offer of a task with a history. -/
def offered {ι : Type} : Turn ι Env Query :=
  .other (.at 1) (.call (.createTask { CreateArgs.default "q:mail" "a" with
    schemaId := some "mail"
    historyEnabled := true }))

/-- The round has processed a task. -/
def hasProcessed : Process Query Answer (Except ProcessError Bool) → Bool
  | .done (.ok processed) => processed
  | _ => false

theorem eq_of_hasProcessed {rest : Process Query Answer (Except ProcessError Bool)} (h : hasProcessed rest = true) :
    rest = .done (.ok true) := by
  unfold hasProcessed at h
  split at h
  · rw [h]
  · cases h

/-- The lease that an exchange of a round granted. -/
def leaseOf (leaseToken : String) : Query × Answer → Option (String × String × TaskRecord)
  | (.call (.takeTask name token (some _)), .reply (.leased token' id (some stored))) =>
    if name = queue.name ∧ token = leaseToken then some (token', id, stored) else none
  | _ => none

theorem leased_of_leaseOf {round : Round String String String} {log : List (Query × Answer)}
    {lease : String × String × TaskRecord} (h : log.findSome? (leaseOf round.leaseToken) = some lease) :
    round.Leased queue log lease.1 lease.2.1 lease.2.2 := by
  obtain ⟨exchange, hmem, hlease⟩ := List.exists_of_findSome?_eq_some h
  unfold leaseOf at hlease
  split at hlease
  · next name token lockTimeout token' id stored =>
    obtain ⟨⟨rfl, rfl⟩, heq⟩ := Option.ite_none_right_eq_some.mp hlease
    obtain rfl := Option.some.inj heq
    exact ⟨lockTimeout, hmem⟩
  · cases hlease

/-- The success that an exchange of a round reported for a lease. -/
def successOf (lease : String × String × TaskRecord) : Query × Answer → Option String
  | (.call (.writeSuccess name token id encoded), .reply .nil) =>
    if name = queue.name ∧ token = lease.1 ∧ id = lease.2.1 then some encoded else none
  | _ => none

theorem written_of_successOf {log : List (Query × Answer)} {lease : String × String × TaskRecord} {encoded : String}
    (h : log.findSome? (successOf lease) = some encoded) :
    (Query.call (.writeSuccess queue.name lease.1 lease.2.1 encoded), Answer.reply .nil) ∈ log := by
  obtain ⟨exchange, hmem, hsuccess⟩ := List.exists_of_findSome?_eq_some h
  unfold successOf at hsuccess
  split at hsuccess
  · obtain ⟨⟨rfl, rfl, rfl⟩, heq⟩ := Option.ite_none_right_eq_some.mp hsuccess
    obtain rfl := Option.some.inj heq
    exact hmem
  · cases hsuccess

end Mail

end EffectMQ
