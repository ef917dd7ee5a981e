import EffectMQ.TaskEngine.Cursor

/-!
# Reading a history

The client side of `readHistory`: the cursor it accepts, the operation it sends, and what it makes of the reply. The
text of a cursor carries an identity and a position; a text that does not is any other string.
-/

namespace EffectMQ

open Redis

/-- The largest time of a JavaScript date. -/
def maxDate : ℕ := 8640000000000000

/-- A history cursor: the encoded identity and position, or a string that is none. -/
inductive HistoryCursor
  | position (identity : TaskIdentity) (sequence : ℕ) (id : StreamId)
  | other (value : String)
deriving DecidableEq, Repr

inductive HistoryError
  | historyUnavailable (identity : TaskIdentity)
  | historyDisabled (identity : TaskIdentity)
  | schemaIdentityMismatch (expected encountered : String)
  | unsupportedProtocolVersion (encountered : ℕ)
  | historyCursorExpired (requested : Option HistoryCursor) (earliestCursor : HistoryCursor)
  | invalidHistoryCursor (reason : String)
  | corruptHistory (cause : String)
  | invalidReply (operation : String)
deriving DecidableEq, Repr

structure HistoryPage where
  entries : List (StreamId × HistoryEntry)
  cursor : HistoryCursor
  hasMore : Bool
  truncated : Bool
deriving DecidableEq, Repr

/-- `validRedisId`. -/
def validRedisId (id : StreamId) : Bool := id.ms < componentLimit ∧ id.seq < componentLimit

def parseCursor (identity : TaskIdentity) : HistoryCursor → Except HistoryError (ℕ × StreamId)
  | .position encoded sequence id =>
    if encoded = identity ∧ sequence ≤ maxSafeInteger ∧ validRedisId id = true then .ok (sequence, id)
    else .error (.invalidHistoryCursor "Mismatched or invalid cursor fields")
  | .other _ => .error (.invalidHistoryCursor "Expected a history cursor")

/-- The checks of a stored entry. -/
def decodeRecord (identity : TaskIdentity) (schemaId : String) (entry : StreamId × HistoryEntry) :
    Except HistoryError (StreamId × HistoryEntry) :=
  if entry.2.schemaId ≠ schemaId then .error (.schemaIdentityMismatch schemaId entry.2.schemaId)
  else if entry.2.taskId ≠ identity.id ∨ entry.2.generation ≠ identity.generation ∨ entry.2.sequence < 1 ∨
      maxDate < entry.2.timestamp ∨ validRedisId entry.1 = false then
    .error (.corruptHistory "Invalid history entry identity or counters")
  else .ok entry

/-- The entries of a page, each of which must follow the one before; with them the last position. -/
def decodeEntries (identity : TaskIdentity) (schemaId : String) (sequence : ℕ) (lastId : StreamId) :
    List (StreamId × HistoryEntry) → Except HistoryError (List (StreamId × HistoryEntry) × ℕ × StreamId)
  | [] => .ok ([], sequence, lastId)
  | rawEntry :: rest =>
    match decodeRecord identity schemaId rawEntry with
    | .error e => .error e
    | .ok decoded =>
      if decoded.2.sequence ≠ sequence + 1 then .error (.corruptHistory "Noncontiguous history")
      else
        (decodeEntries identity schemaId decoded.2.sequence decoded.1 rest).map fun page => (decoded :: page.1, page.2)

/-- The faults that `historyReply` recognizes, and the page. -/
def historyReply (identity : TaskIdentity) (schemaId : String) (requested : Option HistoryCursor) :
    Reply → Except HistoryError (ℕ × ℕ × StreamId × List (StreamId × HistoryEntry))
  | .unavailable => .error (.historyUnavailable identity)
  | .disabled => .error (.historyDisabled identity)
  | .schema encountered => .error (.schemaIdentityMismatch schemaId encountered)
  | .version encountered => .error (.unsupportedProtocolVersion encountered)
  | .expired trimmed trimmedId => .error (.historyCursorExpired requested (.position identity trimmed trimmedId))
  | .invalid => .error (.invalidHistoryCursor "Cursor position does not match this history")
  | .page trimmed _ sequence position entries => .ok (trimmed, sequence, position, entries)
  | _ => .error (.invalidReply "history")

/-- `readHistory` up to its request: the checked page size and position. -/
def historyRequest (identity : TaskIdentity) (schemaId : String) (after : Option HistoryCursor) (limit : Option ℚ) :
    Except HistoryError Op :=
  let limit := limit.getD 100
  if isPositiveSafeInteger (some limit) = false ∨ 1000 < limit then
    .error (.invalidHistoryCursor "Page size must be an integer from 1 to 1000")
  else
    match after with
    | none =>
      .ok (.readHistory identity.queue identity.id identity.generation schemaId none none (some limit))
    | some after => (parseCursor identity after).map fun position =>
      .readHistory identity.queue identity.id identity.generation schemaId (some position.1) (some position.2)
        (some limit)

/-- `readHistory` from its reply on. -/
def historyResult (identity : TaskIdentity) (schemaId : String) (after : Option HistoryCursor) (limit : Option ℚ)
    (reply : Reply) : Except HistoryError HistoryPage :=
  let limit := natural (some (limit.getD 100))
  match historyReply identity schemaId after reply with
  | .error e => .error e
  | .ok (trimmed, sequence, position, rawEntries) =>
    if limit + 1 < rawEntries.length ∨ maxSafeInteger < sequence ∨ sequence < trimmed ∨ maxSafeInteger < trimmed then
      .error (.invalidReply "history.page")
    else
      (decodeEntries identity schemaId sequence position (rawEntries.take limit)).map fun decoded =>
        { entries := decoded.1
          cursor := match decoded.1, after with
            | [], some after => after
            | _, _ => .position identity decoded.2.1 decoded.2.2
          hasMore := limit < rawEntries.length
          truncated := 0 < trimmed }

/-- `readHistory`: the checked request, and what the client makes of the reply, unless the script aborts. -/
def readPage (env : Env) (s : Store) (x : TaskIdentity) (schemaId : String) (after : Option HistoryCursor)
    (limit : ℕ) : Option (Except HistoryError HistoryPage) :=
  match historyRequest x schemaId after (some limit) with
  | .error e => some (.error e)
  | .ok op =>
    match exec env op s with
    | .replied reply _ => some (historyResult x schemaId after (some limit) reply)
    | .raised _ _ => none

end EffectMQ
