import EffectMQ.TaskHistory.Codec

/-!
# History cursors

A cursor reads back as the position it was made from, under its own identity only. Whatever text reads back carries a
position in range, and is the canonical text of its bytes.
-/

namespace EffectMQ

open TaskHistory Redis

section

variable {part : List Char} {id : String} {n : ℕ}

/-! ### Stream ids -/

/-- The largest component, as digits. -/
theorem toDigits_largest : "18446744073709551615".toList = Nat.toDigits 10 18446744073709551615 := by decide

theorem validPart_toDigits : validPart (Nat.toDigits 10 n) = true ↔ n < componentLimit := by
  have hdigits : ∀ n, ∀ c ∈ Nat.toDigits 10 n, c.isDigit = true := fun n c hc =>
    Nat.isDigit_of_mem_toDigits (by norm_num) (by norm_num) hc
  have hlength : ∀ k, 0 < k → ((Nat.toDigits 10 n).length ≤ k ↔ n < 10 ^ k) := fun k hk =>
    Nat.length_toDigits_le_iff (by norm_num) hk
  have h19 := hlength 19 (by norm_num)
  have h20 := hlength 20 (by norm_num)
  have hlargest : (Nat.toDigits 10 18446744073709551615).length = 20 := by decide
  simp only [validPart, Bool.or_eq_true, Bool.and_eq_true, decide_eq_true_eq, componentLimit]
  by_cases h : (Nat.toDigits 10 n).length = 20
  · rw [← String.not_lt, String.lt_iff_toList_lt, toDigits_largest, String.toList_ofList,
      Decimal.lt_iff_value (hlargest.trans h.symm) (hdigits _) (hdigits _), Decimal.value_toDigits, Decimal.value_toDigits]
    simp only [h, true_and]
    omega
  · simp only [h, false_and, or_false]
    constructor
    · intro hlt
      have := h19.mp (by omega)
      omega
    · intro hlt
      have := h20.mpr (by omega)
      omega

/-- The ids that are accepted are those that Redis writes. -/
theorem validRedisId_iff : TaskHistory.validRedisId id = true ↔
    ∃ x, InRange x ∧ id = streamIdText x := by
  constructor
  · intro h
    unfold TaskHistory.validRedisId at h
    split at h
    · next time sequence hsplit =>
      simp only [Bool.and_eq_true, List.all_cons, List.all_nil, Bool.and_true] at h
      obtain ⟨⟨htime, hsequence⟩, hvalidTime, hvalidSequence⟩ := h
      rw [← Decimal.toDigits_value htime, validPart_toDigits] at hvalidTime
      rw [← Decimal.toDigits_value hsequence, validPart_toDigits] at hvalidSequence
      refine ⟨⟨Decimal.value time, Decimal.value sequence⟩, ⟨hvalidTime, hvalidSequence⟩, ?_⟩
      have hjoin : ['-'].intercalate (id.toList.splitOn '-') = id.toList := List.intercalate_splitOn '-'
      rw [hsplit] at hjoin
      rw [← String.toList_inj, streamIdText, String.toList_append, String.toList_append, Nat.toList_repr, Nat.toList_repr,
        Decimal.toDigits_value htime, Decimal.toDigits_value hsequence, ← hjoin]
      simp [List.intercalate]
    · exact absurd h (by simp)
  · rintro ⟨x, ⟨hms, hseq⟩, rfl⟩
    unfold TaskHistory.validRedisId
    rw [splitOn_streamIdText]
    simp only [Decimal.isDecimal_toDigits, List.all_cons, validPart_toDigits.mpr hms, validPart_toDigits.mpr hseq, List.all_nil,
      Bool.and_self]

end

section

variable {codec : CursorCodec} {i j : Identity} {p : Position} {s id : String} {n : ℕ} {x : JsNumber}

/-! ### Sequences -/

/-- The check of a sequence accepts the natural numbers up to the largest safe integer. -/
theorem sequence_iff : x.isSafeInteger = true ∧ x.value?.any (fun n : ℚ => n < 0) = false ↔
    ∃ n : ℕ, n ≤ maxSafeInteger ∧ x.value? = some (n : ℚ) := by
  unfold JsNumber.isSafeInteger
  cases hvalue : x.value? with
  | none => simp
  | some q =>
    simp only [Option.any_some, decide_eq_true_eq, decide_eq_false_iff_not, not_lt, Option.some.injEq]
    constructor
    · rintro ⟨⟨hden, hle⟩, hnonneg⟩
      have hint : ((q.num.toNat : ℕ) : ℚ) = q := by
        rw [← Int.cast_natCast, Int.toNat_of_nonneg (Rat.num_nonneg.mpr hnonneg)]
        exact Rat.den_eq_one_iff q |>.mp hden
      refine ⟨q.num.toNat, ?_, hint.symm⟩
      rw [abs_of_nonneg hnonneg, ← hint] at hle
      exact_mod_cast hle
    · rintro ⟨n, hle, rfl⟩
      refine ⟨⟨Rat.den_natCast n, ?_⟩, Nat.cast_nonneg n⟩
      rw [abs_of_nonneg (Nat.cast_nonneg n)]
      exact_mod_cast hle

/-! ### Reading a cursor back -/

/-- No bytes of a JSON text are encoded as the empty text. -/
theorem CursorCodec.Lawful.encode_ne (hcodec : codec.Lawful) (value : Json) :
    codec.encode (codec.fromText (codec.stringify value)) ≠ "" := by
  intro h
  apply hcodec.stringify_ne value
  rw [← hcodec.toText_fromText (codec.stringify value), ← hcodec.decode_encode (codec.fromText (codec.stringify value)), h,
    hcodec.toText_empty]

/-- The text after the marker decides. -/
theorem parseCursor_append (codec : CursorCodec) (i : Identity) (text : String) :
    TaskHistory.parseCursor codec i (cursorPrefixText ++ text) =
      if text = "" ∨ text.toList.all isBase64Url = false then .error "Error: Invalid cursor encoding"
      else if codec.encode (codec.decode text) ≠ text then .error "Error: Noncanonical cursor"
      else (codec.parse (codec.toText (codec.decode text))).bind (checkFields i) := by
  have hdrop : (cursorPrefixText ++ text).toList.drop cursorPrefixText.length = text.toList := by
    rw [String.toList_append, ← String.length_toList, List.drop_left]
  have hmarked : cursorPrefixText.toList.isPrefixOf (cursorPrefixText ++ text).toList = true := by
    rw [String.toList_append, List.isPrefixOf_iff_prefix]
    exact List.prefix_append _ _
  rw [TaskHistory.parseCursor, hmarked, hdrop, String.ofList_toList]
  rfl

/-- A text that reads back begins with the marker. -/
theorem exists_append_of_parseCursor (h : TaskHistory.parseCursor codec i s = .ok p) : ∃ text, s = cursorPrefixText ++ text := by
  unfold TaskHistory.parseCursor at h
  split at h
  · cases h
  next hmarked =>
    rw [Bool.not_eq_false, List.isPrefixOf_iff_prefix] at hmarked
    obtain ⟨rest, hrest⟩ := hmarked
    refine ⟨String.ofList rest, ?_⟩
    rw [← String.toList_inj, String.toList_append, String.toList_ofList, hrest]

theorem identity_eq_iff : i = j ↔ i.queue = j.queue ∧ i.taskId = j.taskId ∧ i.generation = j.generation := by
  cases i
  cases j
  simp

/-- What is made of the fields of a cursor depends on the identity that they name. -/
theorem parseCursor_cursor (hcodec : codec.Lawful) (hn : n ≤ maxSafeInteger) (hid : TaskHistory.validRedisId id = true) :
    TaskHistory.parseCursor codec j (cursor codec i ⟨.finite n, id⟩) =
      if i = j then .ok ⟨.finite n, id⟩ else .error "Error: Mismatched or invalid cursor fields" := by
  have hfields := hcodec.parse_stringify [.string i.queue, .string i.taskId, .number (.finite i.generation),
    .number (.finite n), .string id] (by
      have hsafe : ∀ k : ℕ, k ≤ maxSafeInteger → ∃ m : ℤ, |m| ≤ (maxSafeInteger : ℤ) ∧
          Json.number (.finite (k : ℚ)) = .number (.finite m) := fun k hk => ⟨k, by
        rw [Nat.abs_cast]
        exact_mod_cast hk, by rw [Int.cast_natCast]⟩
      simp only [List.forall_mem_cons]
      exact ⟨Or.inl ⟨_, rfl⟩, Or.inl ⟨_, rfl⟩, Or.inr (hsafe _ i.safe), Or.inr (hsafe _ hn), Or.inl ⟨_, rfl⟩, by simp⟩)
  have hsequence := sequence_iff.mpr ⟨n, hn, (rfl : (JsNumber.finite n).value? = some (n : ℚ))⟩
  rw [cursor, parseCursor_append, if_neg, if_neg, hcodec.decode_encode, hcodec.toText_fromText, hfields]
  · have hgeneration : (JsNumber.finite i.generation).value? = some (j.generation : ℚ) ↔ i.generation = j.generation := by
      simp [JsNumber.value?]
    simp only [Except.bind, checkFields, hgeneration, hsequence, hid, and_true, identity_eq_iff]
  · rw [hcodec.decode_encode]
    exact fun h => h rfl
  · rintro (h | h)
    · exact hcodec.encode_ne _ h
    · rw [List.all_eq_true.mpr (hcodec.letters _)] at h
      cases h

/-- The text of a cursor is accepted where the cursor itself is. -/
theorem parseCursor_ofTask (hcodec : codec.Lawful) {y z : TaskIdentity} (hy : y.generation ≤ maxSafeInteger)
    (hz : z.generation ≤ maxSafeInteger) (hn : n ≤ maxSafeInteger) {x : StreamId} (hx : InRange x) :
    TaskHistory.parseCursor codec (.ofTask z hz) (cursor codec (.ofTask y hy) ⟨.finite n, streamIdText x⟩) =
        .ok ⟨.finite n, streamIdText x⟩ ↔
      EffectMQ.parseCursor z (.position y n x) = .ok (n, x) := by
  have heq : Identity.ofTask y hy = Identity.ofTask z hz ↔ y = z := by
    cases y
    cases z
    simp [Identity.ofTask]
  have hvalid : EffectMQ.validRedisId x = true := decide_eq_true hx
  rw [parseCursor_cursor hcodec hn (validRedisId_iff.mpr ⟨x, hx, rfl⟩), EffectMQ.parseCursor, hvalid]
  by_cases h : y = z
  · simp [h, hn]
  · simp [heq, h]

/-- What reads back is a position in range, and the canonical text of its bytes. -/
theorem parseCursor_sound (h : TaskHistory.parseCursor codec i s = .ok p) :
    (∃ n : ℕ, n ≤ maxSafeInteger ∧ p.sequence.value? = some (n : ℚ)) ∧ (∃ x, InRange x ∧ p.id = streamIdText x) ∧
      ∃ text, s = cursorPrefixText ++ text ∧ codec.encode (codec.decode text) = text := by
  obtain ⟨text, rfl⟩ := exists_append_of_parseCursor h
  rw [parseCursor_append] at h
  split_ifs at h with hencoding hcanonical
  cases hparse : codec.parse (codec.toText (codec.decode text)) with
  | error cause =>
    rw [hparse] at h
    cases h
  | ok value =>
    rw [hparse] at h
    change checkFields i value = .ok p at h
    unfold checkFields at h
    split at h
    · split_ifs at h with hfields
      obtain ⟨_, _, _, hsafe, hnonneg, hid⟩ := hfields
      cases h
      exact ⟨sequence_iff.mp ⟨hsafe, hnonneg⟩, validRedisId_iff.mp hid, text, rfl, not_not.mp hcanonical⟩
    · cases h

end

/-- A cursor reads back as its position under the identity it was made for and under no other. Whatever text reads back, its
sequence is a safe natural number, its id is one that Redis writes, and it is the text of its bytes. -/
theorem historyCursors (codec : CursorCodec) (hcodec : codec.Lawful) :
    (∀ (i : Identity) (n : ℕ) (id : String), n ≤ maxSafeInteger → TaskHistory.validRedisId id = true →
      TaskHistory.parseCursor codec i (cursor codec i ⟨.finite n, id⟩) = .ok ⟨.finite n, id⟩) ∧
    (∀ (i j : Identity) (n : ℕ) (id : String), n ≤ maxSafeInteger → TaskHistory.validRedisId id = true → i ≠ j →
      ∃ reason, TaskHistory.parseCursor codec j (cursor codec i ⟨.finite n, id⟩) = .error reason) ∧
    (∀ (i : Identity) (s : String) (p : Position), TaskHistory.parseCursor codec i s = .ok p →
      (∃ n : ℕ, n ≤ maxSafeInteger ∧ p.sequence.value? = some (n : ℚ)) ∧ (∃ x, InRange x ∧ p.id = streamIdText x) ∧
        ∃ text, s = cursorPrefixText ++ text ∧ codec.encode (codec.decode text) = text) ∧
    ∀ id, TaskHistory.validRedisId id = true ↔ ∃ x, InRange x ∧ id = streamIdText x := by
  refine ⟨fun i n id hn hid => ?_, fun i j n id hn hid hne => ?_, fun i s p h => parseCursor_sound h, fun id => validRedisId_iff⟩
  · rw [parseCursor_cursor hcodec hn hid, if_pos rfl]
  · exact ⟨_, (parseCursor_cursor hcodec hn hid).trans (if_neg hne)⟩

/-- The cursor at the beginning of a history, and the same cursor under the next generation. -/
theorem historyCursors_jobs :
    let first : Identity := ⟨"jobs", "task-1", 1, by decide⟩
    let second : Identity := ⟨"jobs", "task-1", 2, by decide⟩
    cursor .platform first ⟨.finite (0 : ℕ), "0-0"⟩ = "effectmq:history:v1:WyJqb2JzIiwidGFzay0xIiwxLDAsIjAtMCJd" ∧
    TaskHistory.parseCursor .platform first (cursor .platform first ⟨.finite (0 : ℕ), "0-0"⟩) = .ok ⟨.finite (0 : ℕ), "0-0"⟩ ∧
      ∃ reason, TaskHistory.parseCursor .platform second (cursor .platform first ⟨.finite (0 : ℕ), "0-0"⟩) = .error reason :=
  have h := historyCursors .platform CursorCodec.platform_lawful
  ⟨by decide +kernel, h.1 _ 0 "0-0" (by decide) (by decide), h.2.1 _ _ 0 "0-0" (by decide) (by decide) (by decide)⟩

end EffectMQ
