import EffectMQ.Lifecycle.Events
import EffectMQ.Lifecycle.Scenario
import EffectMQ.TaskEngine.Cursor

/-!
# Opening a stream at a cursor

The client compares a cursor with the first id a queue ever published and with the oldest one that is left. That
tells a missed event from none, except for a cursor below the first id that is not `0-0`.
-/

namespace EffectMQ

open Redis Transition

/-- A stream opened at a cursor delivers every event after it, or fails with the oldest id that is left. -/
structure OpensWhole (s : Store) (queue cursor : String) (position : StreamId) : Prop where
  expired : ∀ entry ∈ (s.events queue).published.take (s.events queue).trimmed, StreamId.Lt position entry.1 →
    ∃ earliest ∈ (s.events queue).retained.head?,
      openEvents s queue (some cursor) = .cursorExpired cursor (streamIdText earliest.1)
  opened : ∀ start, openEvents s queue (some cursor) = .readFrom start → start = cursor ∧
    entriesAfter (s.events queue).retained position = entriesAfter (s.events queue).published position

section

variable {queue cursor : String} {position : StreamId}

theorem inRange_zero : InRange StreamId.zero := ⟨by decide, by decide⟩

theorem streamIdText_zero : streamIdText StreamId.zero = "0-0" := by decide

theorem streamIdText_eq_zero {x : StreamId} (h : InRange x) : streamIdText x = "0-0" ↔ x = StreamId.zero := by
  constructor
  · intro htext
    have hparse := parseStreamId_text h
    rw [htext, ← streamIdText_zero, parseStreamId_text inRange_zero] at hparse
    exact (Option.some.inj hparse).symm
  · rintro rfl
    exact streamIdText_zero

/-- The decision of the client on the ids that the engine reported. -/
theorem openStream_eq {first earliest latest : StreamId} (hfirst : InRange first) (hearliest : InRange earliest)
    (hlatest : InRange latest) (hcursor : parseStreamId cursor = some position) :
    openStream (streamIdText first) (streamIdText earliest) (streamIdText latest) (some cursor) =
      if (first ≠ StreamId.zero ∧ StreamId.Lt first earliest) ∧
        (position = StreamId.zero ∨ ¬ StreamId.Lt position first ∧ StreamId.Lt position earliest)
      then .cursorExpired cursor (streamIdText earliest) else .readFrom cursor := by
  have hne : cursor ≠ "$" := by
    rintro rfl
    exact absurd ((by decide : parseStreamId "$" = none).symm.trans hcursor) (by simp)
  have hnot : 0 ≤ compareStreamIds position first ↔ ¬ StreamId.Lt position first := by
    rw [← compareStreamIds_neg, not_lt]
  simp only [openStream, parseStreamId_text hfirst, parseStreamId_text hearliest, parseStreamId_text hlatest, hcursor,
    hne, ↓reduceIte, Option.getD_some, ne_eq, not_false_eq_true, reduceCtorEq, and_false, compareStreamIds_pos,
    streamIdText_eq_zero hfirst, Option.some.injEq, Option.any_some, decide_eq_true_eq, hnot, compareStreamIds_neg]
  rfl

variable {s : Store}

/-- The decision on a queue whose streams are in order. -/
theorem openEvents_eq (hordered : (s.events queue).Ordered)
    (hids : ∀ entry ∈ (s.events queue).published, InRange entry.1) (hcursor : parseStreamId cursor = some position) :
    openEvents s queue (some cursor) =
      if ∃ first ∈ (s.events queue).published.head?, ∃ earliest ∈ (s.events queue).retained.head?,
        StreamId.Lt first.1 earliest.1 ∧
          (position = StreamId.zero ∨ ¬ StreamId.Lt position first.1 ∧ StreamId.Lt position earliest.1)
      then .cursorExpired cursor (streamIdText (((s.events queue).retained.head?.map Prod.fst).getD StreamId.zero))
      else .readFrom cursor := by
  have hsub : ∀ entry ∈ (s.events queue).retained, InRange entry.1 := fun entry hentry =>
    hids entry (List.mem_of_mem_drop hentry)
  have hhead : ∀ l : List (StreamId × Event), (∀ entry ∈ l, InRange entry.1) →
      InRange ((l.head?.map Prod.fst).getD StreamId.zero) := by
    intro l hl
    cases l with
    | nil => exact inRange_zero
    | cons entry rest => exact hl entry List.mem_cons_self
  have hlast : InRange (lastId (s.events queue).retained) := by
    unfold lastId
    cases h : (s.events queue).retained.getLast? with
    | none => exact inRange_zero
    | some entry => exact hsub entry (List.mem_of_getLast? h)
  rw [openEvents, eventCursors]
  dsimp only
  rw [openStream_eq (hhead _ hids) (hhead _ hsub) hlast hcursor]
  congr 1
  rw [eq_iff_iff]
  cases hpublished : (s.events queue).published with
  | nil => simp
  | cons first rest =>
    have hpositive := hordered.positive first (by rw [hpublished]; exact List.mem_cons_self)
    have hne : first.1 ≠ StreamId.zero := by
      intro heq
      rw [heq] at hpositive
      exact absurd hpositive (by decide)
    cases hretained : (s.events queue).retained with
    | nil =>
      have hnot : ¬ StreamId.Lt first.1 StreamId.zero := fun hlt => absurd (hpositive.trans hlt) (by decide)
      simp [hnot]
    | cons earliest rest' => simp [hne]

/-- What was trimmed comes before what is left. -/
theorem lt_earliest {stream : Stream Event} (hordered : stream.Ordered) {entry earliest : StreamId × Event}
    (hentry : entry ∈ stream.published.take stream.trimmed) (hearliest : earliest ∈ stream.retained.head?) :
    StreamId.Lt entry.1 earliest.1 := by
  have hpairwise := hordered.increasing
  rw [← List.take_append_drop stream.trimmed stream.published] at hpairwise
  exact (List.pairwise_append.mp hpairwise).2.2 entry hentry earliest (List.mem_of_head? hearliest)

theorem exists_earliest {stream : Stream Event} (hordered : stream.Ordered) (htrimmed : stream.trimmed ≠ 0) :
    ∃ first ∈ stream.published.head?, first ∈ stream.published.take stream.trimmed ∧
      ∃ earliest, earliest ∈ stream.retained.head? := by
  have hlt := hordered.newest.resolve_left htrimmed
  have hretained : stream.retained ≠ [] := by
    intro hnil
    have hlength := congrArg List.length hnil
    simp only [Stream.retained, List.length_drop, List.length_nil] at hlength
    omega
  cases hpublished : stream.published with
  | nil =>
    rw [hpublished] at hlt
    exact absurd hlt (Nat.not_lt_zero _)
  | cons first rest =>
    obtain ⟨n, hn⟩ := Nat.exists_eq_succ_of_ne_zero htrimmed
    refine ⟨first, rfl, by rw [hn]; exact List.mem_cons_self, stream.retained.head hretained, ?_⟩
    exact List.head?_eq_some_head hretained

/-- A read after a position that no trimmed entry follows finds every entry after it. -/
theorem entriesAfter_retained {stream : Stream Event}
    (h : ∀ entry ∈ stream.published.take stream.trimmed, ¬ StreamId.Lt position entry.1) :
    entriesAfter stream.retained position = entriesAfter stream.published position := by
  have hnone : entriesAfter (stream.published.take stream.trimmed) position = [] :=
    List.filter_eq_nil_iff.mpr fun entry hentry => by simpa using h entry hentry
  calc entriesAfter stream.retained position
      = entriesAfter (stream.published.take stream.trimmed) position ++ entriesAfter stream.retained position := by
        rw [hnone, List.nil_append]
    _ = entriesAfter stream.published position := by
        rw [entriesAfter, entriesAfter, ← List.filter_append, Stream.retained, List.take_append_drop]
        rfl

end

/-- In every state of a run, a stream opened at a cursor delivers every event after it or fails with the oldest id
that is left, unless something was trimmed and the cursor is another one than `0-0` below the first id ever. -/
theorem run_streamCursor {calls : List Call} {e : Engine} (h : engine.Run calls e) (queue cursor : String)
    {position : StreamId} (hcursor : parseStreamId cursor = some position)
    (hids : ∀ entry ∈ (e.store.events queue).published, InRange entry.1) :
    OpensWhole e.store queue cursor position ↔
      (position = StreamId.zero ∨ (e.store.events queue).trimmed = 0 ∨
        ∀ first ∈ (e.store.events queue).published.head?, ¬ StreamId.Lt position first.1) := by
  have hordered := (run_published h).ordered queue
  have hopen := openEvents_eq hordered hids hcursor
  constructor
  · intro hwhole
    by_contra hcontra
    simp only [not_or, not_forall, not_not] at hcontra
    obtain ⟨hzero, htrimmed, first, hfirst, hlt⟩ := hcontra
    obtain ⟨first', hfirst', htaken, earliest, hearliest⟩ := exists_earliest hordered htrimmed
    obtain rfl := Option.some.inj (hfirst.symm.trans hfirst')
    obtain ⟨_, _, hexpired⟩ := hwhole.expired first htaken hlt
    -- the cursor is below the first id, so the client sees nothing missing
    rw [if_neg] at hopen
    · exact absurd (hopen.symm.trans hexpired) (by simp)
    · rintro ⟨first', hfirst', _, _, _, hcheck⟩
      obtain rfl := Option.some.inj (hfirst.symm.trans hfirst')
      exact hcheck.elim hzero fun hcheck => hcheck.1 hlt
  · intro hcondition
    by_cases hmissed : ∃ entry ∈ (e.store.events queue).published.take (e.store.events queue).trimmed,
        StreamId.Lt position entry.1
    · obtain ⟨entry, hentry, hlt⟩ := hmissed
      have htrimmed : (e.store.events queue).trimmed ≠ 0 := by
        intro hzero
        rw [hzero] at hentry
        exact absurd hentry (by simp)
      obtain ⟨first, hfirst, htaken, earliest, hearliest⟩ := exists_earliest hordered htrimmed
      have hbetween : position = StreamId.zero ∨ ¬ StreamId.Lt position first.1 ∧ StreamId.Lt position earliest.1 :=
        hcondition.imp_right fun hcondition =>
          ⟨hcondition.resolve_left htrimmed first hfirst, hlt.trans (lt_earliest hordered hentry hearliest)⟩
      rw [if_pos ⟨first, hfirst, earliest, hearliest, lt_earliest hordered htaken hearliest, hbetween⟩] at hopen
      refine ⟨fun _ _ _ => ⟨earliest, hearliest, ?_⟩, fun start hstart => absurd (hopen.symm.trans hstart) (by simp)⟩
      rw [hopen, Option.mem_def.mp hearliest]
      rfl
    · have hnone : ∀ entry ∈ (e.store.events queue).published.take (e.store.events queue).trimmed,
          ¬ StreamId.Lt position entry.1 := fun entry hentry hlt => hmissed ⟨entry, hentry, hlt⟩
      refine ⟨fun entry hentry hlt => absurd hlt (hnone entry hentry), fun start hstart => ⟨?_, entriesAfter_retained hnone⟩⟩
      rw [hopen] at hstart
      split at hstart
      · exact absurd hstart (by simp)
      · exact (StreamOpening.readFrom.inj hstart).symm

/-- Every surplus entry goes with each append. -/
def Env.trimming (clock : ℕ) : Env := { Env.at clock with trimByLength := fun _ ids => ids.length }

/-- The first event of a queue is gone, and a stream opened at the very first position says so. -/
theorem run_streamCursor_origin : ∃ calls e, engine.Run calls e ∧ (e.store.events "mail").trimmed = 1 ∧
    OpensWhole e.store "mail" "0-0" StreamId.zero := by
  obtain ⟨calls, e, h, hplayed⟩ := @play_run
    [(.trimming 5, .createTask { CreateArgs.default "mail" "a" with maxEventEntries := some 1 })]
    (fun _ e => decide ((e.store.events "mail").trimmed = 1 ∧
      (e.store.events "mail").published.map Prod.fst = [⟨5, 0⟩, ⟨5, 1⟩])) (by decide +kernel)
  obtain ⟨htrimmed, hpublished⟩ := of_decide_eq_true hplayed
  have hids : ∀ entry ∈ (e.store.events "mail").published, InRange entry.1 := by
    intro entry hentry
    have hmem := List.mem_map_of_mem (f := Prod.fst) hentry
    rw [hpublished] at hmem
    simp only [List.mem_cons, List.not_mem_nil, or_false] at hmem
    rcases hmem with heq | heq <;> rw [heq] <;> exact ⟨by decide, by decide⟩
  exact ⟨calls, e, h, htrimmed, (run_streamCursor h "mail" "0-0" (by decide) hids).mpr (Or.inl rfl)⟩

/-- The first event of a queue is gone, and a stream opened below it starts with the second. -/
theorem not_opensWhole_of_below : ∃ calls e, engine.Run calls e ∧ parseStreamId "1-0" = some ⟨1, 0⟩ ∧
    (∃ entry ∈ (e.store.events "mail").published.take (e.store.events "mail").trimmed, StreamId.Lt ⟨1, 0⟩ entry.1) ∧
    openEvents e.store "mail" (some "1-0") = .readFrom "1-0" ∧ ¬ OpensWhole e.store "mail" "1-0" ⟨1, 0⟩ := by
  obtain ⟨calls, e, h, hplayed⟩ := @play_run
    [(.trimming 5, .createTask { CreateArgs.default "mail" "a" with maxEventEntries := some 1 })]
    (fun _ e => decide (openEvents e.store "mail" (some "1-0") = .readFrom "1-0") &&
      ((e.store.events "mail").published.take (e.store.events "mail").trimmed).any fun entry =>
        decide (StreamId.Lt ⟨1, 0⟩ entry.1)) (by decide +kernel)
  rw [Bool.and_eq_true, List.any_eq_true] at hplayed
  obtain ⟨hopen, entry, hentry, hlt⟩ := hplayed
  have hopen := of_decide_eq_true hopen
  have hlt := of_decide_eq_true hlt
  refine ⟨calls, e, h, by decide, ⟨entry, hentry, hlt⟩, hopen, fun hwhole => ?_⟩
  obtain ⟨_, _, hexpired⟩ := hwhole.expired entry hentry hlt
  exact absurd (hopen.symm.trans hexpired) (by simp)

end EffectMQ
