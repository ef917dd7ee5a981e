import EffectMQ.TaskEngine.Operations

/-!
# Event cursors

The client side of an event stream: how it parses and compares stream ids, and how it decides from three ids that
the engine reports whether a stream can be opened at a cursor.
-/

namespace EffectMQ

open Redis

/-- The largest component of a Redis stream id, plus one. -/
def componentLimit : ℕ := 2 ^ 64

/-- The text that Redis prints for an id. -/
def streamIdText (x : StreamId) : String := x.ms.repr ++ "-" ++ x.seq.repr

/-- A component of a stream id: `\d+`, of at most 20 digits and below `2^64`. -/
def parseComponent (digits : List Char) : Option ℕ :=
  if digits ≠ [] ∧ digits.all Char.isDigit = true ∧ digits.length ≤ 20 then
    some (Nat.ofDigitChars 10 digits 0) |>.filter (· < componentLimit)
  else none

def parseStreamId (value : String) : Option StreamId :=
  match value.toList.splitOn '-' with
  | [time] => (parseComponent time).map fun t => ⟨t, 0⟩
  | [time, sequence] => (parseComponent time).bind fun t => (parseComponent sequence).map fun n => ⟨t, n⟩
  | _ => none

def compareStreamIds (left right : StreamId) : ℤ :=
  let timeDifference : ℤ := left.ms - right.ms
  if timeDifference ≠ 0 then if timeDifference < 0 then -1 else 1
  else
    let sequenceDifference : ℤ := left.seq - right.seq
    if sequenceDifference = 0 then 0 else if sequenceDifference < 0 then -1 else 1

/-- How the opening of a stream ends. -/
inductive StreamOpening
  | readFrom (cursor : String)
  | cursorExpired (requested earliest : String)
  | invalidCursor (cursor : String)
  | invalidReply
deriving DecidableEq, Repr

/-- The cursor check of a stream, on the three ids that the engine reported. -/
def openStream (first earliest latest : String) (cursor : Option String) : StreamOpening :=
  match parseStreamId first, parseStreamId earliest, parseStreamId latest with
  | some firstId, some earliestId, some latestId =>
    let requestedId := match cursor with
      | none => some latestId
      | some cursor => if cursor = "$" then none else parseStreamId cursor
    let cursor := cursor.getD latest
    if cursor ≠ "$" ∧ requestedId = none then .invalidCursor cursor
    else
      let streamWasTrimmed := first ≠ "0-0" ∧ 0 < compareStreamIds earliestId firstId
      let requestedFromStart := requestedId = some ⟨0, 0⟩
      let requestedTrimmedEvent := requestedFromStart ∨
        requestedId.any (fun requestedId => 0 ≤ compareStreamIds requestedId firstId ∧
          compareStreamIds requestedId earliestId < 0) = true
      if streamWasTrimmed ∧ requestedTrimmedEvent then .cursorExpired cursor earliest
      else .readFrom cursor
  | _, _, _ => .invalidReply

/-- A stream of a queue is opened: the engine reports its ids, and the client decides. -/
def openEvents (s : Store) (queue : String) (cursor : Option String) : StreamOpening :=
  match eventCursors s queue with
  | .eventCursors first earliest latest =>
    openStream (streamIdText first) (streamIdText earliest) (streamIdText latest) cursor
  | _ => .invalidReply

/-- What a read after an id finds. -/
def entriesAfter (entries : List (StreamId × Event)) (position : StreamId) : List (StreamId × Event) :=
  entries.filter fun entry => StreamId.Lt position entry.1

/-! ### Parsing and comparing -/

/-- Both components fit into 64 bits. -/
def InRange (x : StreamId) : Prop := x.ms < componentLimit ∧ x.seq < componentLimit

theorem parseComponent_toDigits {n : ℕ} (h : n < componentLimit) : parseComponent (Nat.toDigits 10 n) = some n := by
  have hlength : (Nat.toDigits 10 n).length ≤ 20 := by
    rw [Nat.length_toDigits_le_iff (by norm_num) (by norm_num)]
    unfold componentLimit at h
    omega
  have hdigits : (Nat.toDigits 10 n).all Char.isDigit = true :=
    List.all_eq_true.mpr fun c hc => Nat.isDigit_of_mem_toDigits (by norm_num) (by norm_num) hc
  rw [parseComponent, if_pos ⟨Nat.toDigits_ne_nil, hdigits, hlength⟩, Nat.ofDigitChars_ten_toDigits]
  simp [h]

theorem dash_notMem_toDigits (n : ℕ) : '-' ∉ Nat.toDigits 10 n := fun h =>
  absurd (Nat.isDigit_of_mem_toDigits (by norm_num) (by norm_num) h) (by decide)

theorem splitOn_streamIdText (x : StreamId) :
    (streamIdText x).toList.splitOn '-' = [Nat.toDigits 10 x.ms, Nat.toDigits 10 x.seq] := by
  rw [streamIdText, String.toList_append, String.toList_append, Nat.toList_repr, Nat.toList_repr,
    show "-".toList = ['-'] from rfl, List.append_assoc, List.singleton_append]
  rw [List.splitOn_append_cons_self_of_not_mem, List.splitOn_eq_singleton]
  · exact dash_notMem_toDigits x.seq
  · exact dash_notMem_toDigits x.ms

/-- Redis prints ids that parse back. -/
theorem parseStreamId_text {x : StreamId} (h : InRange x) : parseStreamId (streamIdText x) = some x := by
  rw [parseStreamId, splitOn_streamIdText]
  simp only [parseComponent_toDigits h.1, parseComponent_toDigits h.2]
  rfl

theorem compareStreamIds_pos {x y : StreamId} : 0 < compareStreamIds x y ↔ StreamId.Lt y x := by
  unfold compareStreamIds StreamId.Lt
  dsimp only
  split_ifs <;> omega

theorem compareStreamIds_neg {x y : StreamId} : compareStreamIds x y < 0 ↔ StreamId.Lt x y := by
  unfold compareStreamIds StreamId.Lt
  dsimp only
  split_ifs <;> omega

end EffectMQ
