import EffectMQ.Lifecycle.Chronicle
import EffectMQ.Lifecycle.Raise
import EffectMQ.TaskEngine.HistoryReader

/-!
# One page of a history

What the script and the client make of a position in the chronicle of a generation: the page that follows it, or the
news that the trim has passed it. No check of the client fails on what a run stores.
-/

namespace EffectMQ

open Redis Transition

/-- The id of the last of the first `n` entries. -/
def positionAt (all : List (StreamId × HistoryEntry)) (n : ℕ) : StreamId := lastId (all.take n)

section

variable {env : Env} {x : TaskIdentity} {schemaId : String} {clock n limit : ℕ} {r : TaskRecord} {s s' : Store}
  {reply : Reply} {all : List (StreamId × HistoryEntry)}

/-! ### The order of the entries -/

theorem positionAt_succ {i : ℕ} {entry : StreamId × HistoryEntry} (hentry : all[i]? = some entry) :
    positionAt all (i + 1) = entry.1 := by
  obtain ⟨hi, rfl⟩ := List.getElem?_eq_some_iff.mp hentry
  rw [positionAt, List.take_succ_eq_append_getElem hi, lastId, List.getLast?_concat]
  rfl

theorem positionAt_append (hn : n ≤ all.length) (added : List (StreamId × HistoryEntry)) :
    positionAt (all ++ added) n = positionAt all n := by
  rw [positionAt, List.take_append_of_le_length hn, positionAt]

/-- The entries after a position are those that come later. -/
theorem AppendOrder.lt_positionAt (h : AppendOrder x.id x.generation schemaId clock all) {i : ℕ}
    {entry : StreamId × HistoryEntry} (hentry : all[i]? = some entry) (hn : n ≤ all.length) :
    StreamId.Lt (positionAt all n) entry.1 ↔ n ≤ i := by
  have hirrefl : ∀ y : StreamId, ¬ StreamId.Lt y y := fun y => by
    unfold StreamId.Lt
    omega
  cases n with
  | zero =>
    have hpositive := (h.entries i entry hentry).positive
    exact ⟨fun _ => Nat.zero_le _, fun _ => hpositive⟩
  | succ m =>
    have hm : all[m]? = some all[m] := List.getElem?_eq_getElem hn
    rw [positionAt_succ hm]
    obtain ⟨hi, rfl⟩ := List.getElem?_eq_some_iff.mp hentry
    have hpairwise := List.pairwise_iff_getElem.mp h.increasing
    constructor
    · intro hlt
      by_contra hle
      rcases Nat.lt_or_eq_of_le (Nat.le_of_lt_succ (not_le.mp hle)) with hlt' | heq
      · exact hirrefl _ (hlt.trans (hpairwise i m hi hn hlt'))
      · subst heq
        exact hirrefl _ hlt
    · exact fun hle => hpairwise m i hn hi hle

theorem AppendOrder.filter_after (h : AppendOrder x.id x.generation schemaId clock all) {k : ℕ} (hkn : k ≤ n)
    (hn : n ≤ all.length) :
    ((all.drop k).filter fun entry => StreamId.Lt (positionAt all n) entry.1) = all.drop n := by
  have hsplit : all.drop k = (all.drop k).take (n - k) ++ all.drop n := by
    conv_lhs => rw [← List.take_append_drop (n - k) (all.drop k)]
    rw [List.drop_drop, Nat.add_sub_cancel' hkn]
  rw [hsplit, List.filter_append]
  have hbefore : (((all.drop k).take (n - k)).filter fun entry => StreamId.Lt (positionAt all n) entry.1) = [] := by
    refine List.filter_eq_nil_iff.mpr fun entry hentry => ?_
    obtain ⟨i, hi, rfl⟩ := List.mem_iff_getElem.mp hentry
    simp only [List.length_take, List.length_drop] at hi
    rw [List.getElem_take, List.getElem_drop]
    simp only [decide_eq_true_eq]
    rw [h.lt_positionAt (List.getElem?_eq_getElem (by omega)) hn]
    omega
  have hafter : ((all.drop n).filter fun entry => StreamId.Lt (positionAt all n) entry.1) = all.drop n := by
    refine List.filter_eq_self.mpr fun entry hentry => ?_
    obtain ⟨i, hi, rfl⟩ := List.mem_iff_getElem.mp hentry
    simp only [List.length_drop] at hi
    rw [List.getElem_drop, decide_eq_true_eq, h.lt_positionAt (List.getElem?_eq_getElem (by omega)) hn]
    omega
  rw [hbefore, hafter, List.nil_append]

/-! ### One call -/

/-- The script answers with a page, unless it aborts because the history is full. -/
theorem exec_readHistory (env : Env) (hr : s.current x = some r) (hversion : r.protocolVersion = 1)
    (henabled : r.history.enabled = true) (sequence : Option ℕ) (position : Option StreamId) {count : ℚ}
    (hcount : isPositiveSafeInteger (some count) = true ∧ count ≤ 1000) :
    exec env (.readHistory x.queue x.id x.generation r.schemaId sequence position (some count)) s =
      match historyFault s x.queue x.id with
      | some message => .raised message s
      | none => .replied (historyPage s x r.history sequence position (natural (some count))) s := by
  obtain ⟨hrecord, hgeneration⟩ := current_eq_some_iff.mp hr
  have hidentity : historyIdentity s x.queue x.id x.generation r.schemaId = none := by
    simp [historyIdentity, hrecord, hgeneration, hversion, henabled]
  have hlimit : ¬ (1000 : ℚ) < (some count).getD 0 := not_lt.mpr hcount.2
  simp only [exec, Op.run, readHistory, hidentity, hcount.1, Bool.true_eq_false, hlimit, or_self, ↓reduceIte,
    assertHistory_store, hrecord]
  unfold assertHistory
  cases historyFault s x.queue x.id with
  | none => rfl
  | some message => rfl

/-- A stored history has no other fault than a full one. -/
theorem historyFault_eq_none (hsound : s.HistorySound) (hr : s.current x = some r)
    (hroom : r.history.sequence < maxSafeInteger) : historyFault s x.queue x.id = none := by
  obtain ⟨hrecord, hgeneration⟩ := current_eq_some_iff.mp hr
  unfold historyFault
  rw [hrecord]
  dsimp only
  split
  · rfl
  · next henabled =>
    obtain ⟨hmax, htrimmed, hlength, _⟩ := hsound.counted _ r hrecord (by simpa using henabled)
    rw [if_neg (not_le.mpr hroom), if_neg (by omega), if_neg (not_not.mpr hlength)]

theorem historyFault_of_full (hr : s.current x = some r) (henabled : r.history.enabled = true)
    (hfull : maxSafeInteger ≤ r.history.sequence) :
    historyFault s x.queue x.id = some "CORRUPT_HISTORY invalid sequence" := by
  simp [historyFault, (current_eq_some_iff.mp hr).1, henabled, hfull]

/-- The page after a position of the chronicle, or the news that the trim has overtaken it. -/
theorem Chronicle.historyPage_eq (h : Chronicle x.id x.generation schemaId clock (s.archived x r) all)
    (hn : n ≤ all.length) :
    historyPage s x r.history (some n) (some (positionAt all n)) limit =
      if n < r.history.trimmed then .expired r.history.trimmed r.history.trimmedId
      else .page r.history.trimmed r.history.trimmedId n (positionAt all n) ((all.drop n).take (limit + 1)) := by
  have hcount : all.length = r.history.sequence := h.count
  have hstream : s.history x = all.drop r.history.trimmed := h.stream
  have hboundary : r.history.trimmedId = positionAt all r.history.trimmed := h.boundary
  unfold historyPage
  simp only [Option.getD_some]
  rw [if_neg (by omega)]
  by_cases hlt : n < r.history.trimmed
  · rw [if_pos hlt, if_pos hlt]
  · rw [if_neg hlt, if_neg hlt]
    rw [if_neg, if_neg]
    · rw [hstream, h.filter_after (not_lt.mp hlt) hn]
    · -- an entry after the trim point is still there
      rintro ⟨hne, hany⟩
      obtain ⟨m, rfl⟩ := Nat.exists_eq_succ_of_ne_zero (show n ≠ 0 by omega)
      have hentry : all[m]? = some all[m] := List.getElem?_eq_getElem hn
      have hmem : all[m] ∈ s.history x := by
        rw [hstream, List.mem_iff_getElem]
        refine ⟨m - r.history.trimmed, by simp only [List.length_drop]; omega, ?_⟩
        rw [List.getElem_drop]
        congr 1
        omega
      have hnot := List.any_eq_false.mp hany all[m] hmem
      rw [positionAt_succ hentry] at hnot
      exact hnot (decide_eq_true ⟨rfl, (h.entries m _ hentry).sequence⟩)
    · rintro ⟨rfl, hne⟩
      exact hne hboundary.symm

/-- Without a cursor the page starts at the trim point. -/
theorem Chronicle.historyPage_first (h : Chronicle x.id x.generation schemaId clock (s.archived x r) all) :
    historyPage s x r.history none none limit =
      historyPage s x r.history (some r.history.trimmed) (some (positionAt all r.history.trimmed)) limit := by
  have hboundary : r.history.trimmedId = positionAt all r.history.trimmed := h.boundary
  rw [← hboundary]
  rfl

theorem AppendOrder.decodeRecord (h : AppendOrder x.id x.generation schemaId clock all) (hclock : clock ≤ maxDate)
    (hlength : all.length < maxSafeInteger) {i : ℕ} {entry : StreamId × HistoryEntry} (hentry : all[i]? = some entry) :
    decodeRecord x schemaId entry = .ok entry := by
  have hchronicled := h.entries i entry hentry
  have hi : i < all.length := (List.getElem?_eq_some_iff.mp hentry).1
  have hid : validRedisId entry.1 = true := by
    have hms := hchronicled.ms
    have hseq := hchronicled.seq
    unfold validRedisId componentLimit
    unfold maxDate at hclock
    unfold maxSafeInteger at hlength
    rw [decide_eq_true_eq]
    omega
  have hsequence := hchronicled.sequence
  have htimestamp := hchronicled.timestamp.trans hclock
  rw [EffectMQ.decodeRecord, if_neg (not_not.mpr hchronicled.schemaId), if_neg]
  simp only [hchronicled.taskId, hchronicled.generation, ne_eq, not_true_eq_false, hid, Bool.true_eq_false, false_or,
    or_false, not_or, not_lt]
  omega

/-- The entries of a page decode, and end at the position of the last of them. -/
theorem AppendOrder.decodeEntries (h : AppendOrder x.id x.generation schemaId clock all) (hclock : clock ≤ maxDate)
    (hlength : all.length < maxSafeInteger) (limit n : ℕ) :
    decodeEntries x schemaId n (positionAt all n) ((all.drop n).take limit) =
      .ok ((all.drop n).take limit, n + ((all.drop n).take limit).length,
        positionAt all (n + ((all.drop n).take limit).length)) := by
  induction limit generalizing n with
  | zero => simp [EffectMQ.decodeEntries]
  | succ limit ih =>
    by_cases hn : n < all.length
    · have hentry : all[n]? = some all[n] := List.getElem?_eq_getElem hn
      have hstep := ih (n + 1)
      rw [positionAt_succ hentry] at hstep
      rw [List.drop_eq_getElem_cons hn, List.take_succ_cons, EffectMQ.decodeEntries, h.decodeRecord hclock hlength hentry]
      dsimp only
      rw [if_neg (not_not.mpr (h.entries n _ hentry).sequence), (h.entries n _ hentry).sequence, hstep]
      simp only [Except.map, List.length_cons]
      rw [Nat.add_assoc, Nat.add_comm 1]
    · rw [List.drop_eq_nil_of_le (not_lt.mp hn), List.take_nil, EffectMQ.decodeEntries]
      rfl

/-- The cursor after the first `n` entries. -/
def cursorAt (x : TaskIdentity) (all : List (StreamId × HistoryEntry)) (n : ℕ) : HistoryCursor :=
  .position x n (positionAt all n)

/-- The page that starts after the first `n` entries. -/
def pageAt (x : TaskIdentity) (all : List (StreamId × HistoryEntry)) (n limit trimmed : ℕ) : HistoryPage where
  entries := (all.drop n).take limit
  cursor := cursorAt x all (n + ((all.drop n).take limit).length)
  hasMore := n + limit < all.length
  truncated := 0 < trimmed

theorem AppendOrder.validRedisId (h : AppendOrder x.id x.generation schemaId clock all) (hclock : clock ≤ maxDate)
    (hmax : n < maxSafeInteger) (hn : n ≤ all.length) : validRedisId (positionAt all n) = true := by
  have hbounds := fun i entry hentry => And.intro (h.entries i entry hentry).ms (h.entries i entry hentry).seq
  unfold EffectMQ.validRedisId componentLimit
  unfold maxDate at hclock
  unfold maxSafeInteger at hmax
  rw [decide_eq_true_eq]
  cases n with
  | zero => simp [positionAt, lastId, StreamId.zero]
  | succ m =>
    have hentry : all[m]? = some all[m] := List.getElem?_eq_getElem hn
    rw [positionAt_succ hentry]
    have := hbounds m _ hentry
    omega

/-- A page size of the client. -/
structure PageSize (limit : ℕ) : Prop where
  pos : 1 ≤ limit
  le : limit ≤ 1000

theorem PageSize.safe (h : PageSize limit) :
    isPositiveSafeInteger (some (limit : ℚ)) = true ∧ ((limit : ℚ) ≤ 1000) ∧ natural (some (limit : ℚ)) = limit := by
  have hle : ((limit : ℕ) : ℚ) ≤ 1000 := by exact_mod_cast h.le
  have hmax : ((limit : ℕ) : ℚ) ≤ (maxSafeInteger : ℚ) := by
    have : limit ≤ maxSafeInteger := h.le.trans (by decide)
    exact_mod_cast this
  refine ⟨decide_eq_true ⟨Rat.den_natCast _, ?_, hmax⟩, hle, ?_⟩
  · rw [Rat.num_natCast]
    exact_mod_cast h.pos
  · simp [natural]

/-- A returned cursor passes the checks of the client. -/
theorem AppendOrder.request_eq (h : AppendOrder x.id x.generation schemaId clock all) (hclock : clock ≤ maxDate)
    (hmax : n < maxSafeInteger) (hn : n ≤ all.length) (hlimit : PageSize limit) :
    historyRequest x schemaId (some (cursorAt x all n)) (some limit) =
      .ok (.readHistory x.queue x.id x.generation schemaId (some n) (some (positionAt all n)) (some limit)) := by
  obtain ⟨hsafe, _, _⟩ := hlimit.safe
  simp [historyRequest, cursorAt, parseCursor, hsafe, hlimit.le, hmax.le, h.validRedisId hclock hmax hn, Except.map]

theorem Chronicle.result_eq (h : Chronicle x.id x.generation schemaId clock (s.archived x r) all)
    (hclock : clock ≤ maxDate) (hfull : r.history.sequence < maxSafeInteger) (hn : n ≤ all.length)
    (hlimit : PageSize limit) {after : Option HistoryCursor} (hafter : ∀ c ∈ after, c = cursorAt x all n) :
    historyResult x schemaId after (some limit)
        (historyPage s x r.history (some n) (some (positionAt all n)) limit) =
      if n < r.history.trimmed then .error (.historyCursorExpired after (cursorAt x all r.history.trimmed))
      else .ok (pageAt x all n limit r.history.trimmed) := by
  have hcount : all.length = r.history.sequence := h.count
  have htrimmed : r.history.trimmed = 0 ∨ r.history.trimmed < r.history.sequence := h.trimmed
  have hboundary : r.history.trimmedId = positionAt all r.history.trimmed := h.boundary
  obtain ⟨_, _, hnatural⟩ := hlimit.safe
  rw [h.historyPage_eq hn]
  unfold historyResult
  by_cases hlt : n < r.history.trimmed
  · rw [if_pos hlt, if_pos hlt]
    simp only [historyReply, hboundary]
    rfl
  · rw [if_neg hlt, if_neg hlt]
    simp only [historyReply, Option.getD_some, hnatural]
    rw [if_neg, List.take_take, Nat.min_eq_left (Nat.le_succ limit),
      h.decodeEntries hclock (hcount ▸ hfull) limit n]
    · simp only [Except.map, pageAt, Except.ok.injEq, HistoryPage.mk.injEq, true_and, and_true]
      refine ⟨?_, ?_⟩
      · cases hentries : (all.drop n).take limit with
        | cons entry rest => rfl
        | nil =>
          cases after with
          | none => rfl
          | some c => exact hafter c rfl
      · simp only [List.length_take, List.length_drop, decide_eq_decide]
        omega
    · simp only [List.length_take]
      omega

/-! ### A call of the client -/

/-- A call whose request passes reaches the history of the record, which is full or answers. -/
theorem readPage_eq (env : Env) (hr : s.current x = some r) (hversion : r.protocolVersion = 1)
    (henabled : r.history.enabled = true) (hsound : s.HistorySound) (hlimit : PageSize limit)
    {after : Option HistoryCursor} {sequence : Option ℕ} {position : Option StreamId}
    (hrequest : historyRequest x r.schemaId after (some limit) =
      .ok (.readHistory x.queue x.id x.generation r.schemaId sequence position (some limit))) :
    readPage env s x r.schemaId after limit =
      if r.history.sequence < maxSafeInteger then
        some (historyResult x r.schemaId after (some limit) (historyPage s x r.history sequence position limit))
      else none := by
  obtain ⟨hsafe, hle, hnatural⟩ := hlimit.safe
  rw [readPage, hrequest]
  dsimp only
  rw [exec_readHistory env hr hversion henabled _ _ ⟨hsafe, hle⟩, hnatural]
  by_cases hroom : r.history.sequence < maxSafeInteger
  · rw [if_pos hroom, historyFault_eq_none hsound hr hroom]
  · rw [if_neg hroom, historyFault_of_full hr henabled (not_lt.mp hroom)]

/-- A call at a returned cursor. -/
theorem Chronicle.readPage_eq (h : Chronicle x.id x.generation r.schemaId clock (s.archived x r) all)
    (hr : s.current x = some r) (hversion : r.protocolVersion = 1) (hclock : clock ≤ maxDate)
    (hsound : s.HistorySound) (env : Env) (hmax : n < maxSafeInteger) (hn : n ≤ all.length) (hlimit : PageSize limit) :
    readPage env s x r.schemaId (some (cursorAt x all n)) limit =
      if r.history.sequence < maxSafeInteger then
        some (if n < r.history.trimmed then
          .error (.historyCursorExpired (some (cursorAt x all n)) (cursorAt x all r.history.trimmed))
        else .ok (pageAt x all n limit r.history.trimmed))
      else none := by
  rw [EffectMQ.readPage_eq env hr hversion h.enabled hsound hlimit (h.request_eq hclock hmax hn hlimit)]
  split
  · next hroom => rw [h.result_eq hclock hroom hn hlimit fun c hc => (Option.some.inj hc).symm]
  · rfl

/-- The first call. -/
theorem Chronicle.readPage_first (h : Chronicle x.id x.generation r.schemaId clock (s.archived x r) all)
    (hr : s.current x = some r) (hversion : r.protocolVersion = 1) (hclock : clock ≤ maxDate)
    (hsound : s.HistorySound) (env : Env) (hlimit : PageSize limit) :
    readPage env s x r.schemaId none limit =
      if r.history.sequence < maxSafeInteger then some (.ok (pageAt x all r.history.trimmed limit r.history.trimmed))
      else none := by
  have hcount : all.length = r.history.sequence := h.count
  have htrimmed : r.history.trimmed = 0 ∨ r.history.trimmed < r.history.sequence := h.trimmed
  obtain ⟨hsafe, hle, _⟩ := hlimit.safe
  have hrequest : historyRequest x r.schemaId none (some (limit : ℚ)) =
      .ok (.readHistory x.queue x.id x.generation r.schemaId none none (some limit)) := by
    rw [historyRequest, Option.getD_some, if_neg (by simp [hsafe, not_lt.mpr hle])]
  rw [EffectMQ.readPage_eq env hr hversion h.enabled hsound hlimit hrequest]
  split
  · next hroom =>
    rw [h.historyPage_first, h.result_eq hclock hroom (by omega) hlimit (by simp), if_neg (lt_irrefl _)]
  · rfl

theorem op_of_request {after : Option HistoryCursor} {op : Op} (h : historyRequest x schemaId after (some limit) = .ok op) :
    ∃ sequence position, op = .readHistory x.queue x.id x.generation schemaId sequence position (some limit) := by
  unfold historyRequest at h
  dsimp only at h
  split at h
  · exact absurd h (by simp)
  · cases after with
    | none => exact ⟨none, none, (Except.ok.inj h).symm⟩
    | some cursor =>
      dsimp only at h
      cases hparse : parseCursor x cursor with
      | error e =>
        rw [hparse] at h
        exact absurd h (by simp [Except.map])
      | ok position =>
        rw [hparse] at h
        exact ⟨some position.1, some position.2, (Except.ok.inj h).symm⟩

/-- The script finds the generation as the client expects it, or answers with a fault. -/
theorem historyIdentity_cases (s : Store) (x : TaskIdentity) (schemaId : String) (after : Option HistoryCursor) :
    (∃ r, s.current x = some r ∧ r.schemaId = schemaId ∧ r.history.enabled = true) ∨
      ∃ fault, historyIdentity s x.queue x.id x.generation schemaId = some fault ∧
        ∀ result, historyReply x schemaId after fault ≠ .ok result := by
  unfold historyIdentity
  cases hr : s.task (x.queue, x.id) with
  | none => exact Or.inr ⟨_, rfl, fun _ => by simp [historyReply]⟩
  | some r =>
    dsimp only
    by_cases hgeneration : r.generation = x.generation
    · rw [if_neg (not_not.mpr hgeneration)]
      by_cases hschemaId : r.schemaId = schemaId
      · rw [if_neg (not_not.mpr hschemaId)]
        by_cases hversion : r.protocolVersion = 1
        · rw [if_neg (not_not.mpr hversion)]
          by_cases henabled : r.history.enabled = false
          · exact Or.inr ⟨_, if_pos henabled, fun _ => by simp [historyReply]⟩
          · exact Or.inl ⟨r, current_eq_some_iff.mpr ⟨hr, hgeneration⟩, hschemaId, by simpa using henabled⟩
        · exact Or.inr ⟨_, if_pos hversion, fun _ => by simp [historyReply]⟩
      · exact Or.inr ⟨_, if_pos hschemaId, fun _ => by simp [historyReply]⟩
    · exact Or.inr ⟨_, if_pos hgeneration, fun _ => by simp [historyReply]⟩

/-- A page comes from a stored record with the schema of the client and an enabled history. -/
theorem current_of_page {after : Option HistoryCursor} {page : HistoryPage}
    (h : readPage env s x schemaId after limit = some (.ok page)) :
    ∃ r, s.current x = some r ∧ r.schemaId = schemaId ∧ r.history.enabled = true := by
  unfold readPage at h
  cases hrequest : historyRequest x schemaId after (some limit) with
  | error e =>
    rw [hrequest] at h
    exact absurd h (by simp)
  | ok op =>
    obtain ⟨sequence, position, rfl⟩ := op_of_request hrequest
    rw [hrequest] at h
    dsimp only at h
    split at h
    · next reply s' hexec =>
      rcases historyIdentity_cases s x schemaId after with hcurrent | ⟨fault, hfault, herror⟩
      · exact hcurrent
      · obtain ⟨hreply, _⟩ := exec_replied hexec
        obtain rfl : fault = reply := by
          rw [← hreply]
          simp only [Op.run, readHistory, World.begin, hfault]
        unfold historyResult at h
        dsimp only at h
        split at h
        · exact absurd h (by simp)
        · next hok => exact absurd hok (herror _)
    · exact absurd h (by simp)

end

end EffectMQ
