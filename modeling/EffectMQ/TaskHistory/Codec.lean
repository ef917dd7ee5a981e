import EffectMQ.TaskHistory.Cursor
import EffectMQ.Text.Base64

/-!
# A codec for cursors

JSON texts of flat arrays of strings and integers, UTF-8 and base64url, which together keep the laws that cursors rely on.
-/

namespace EffectMQ

namespace Json

def quote : Char := Char.ofNat 34

def backslash : Char := Char.ofNat 92

/-- Quotes and backslashes are escaped by themselves, control characters in hexadecimal. -/
def escape (c : Char) : List Char :=
  if c = quote then [backslash, quote]
  else if c = backslash then [backslash, backslash]
  else if c.toNat < 32 then [backslash, 'u', '0', '0', (c.toNat / 16).digitChar, (c.toNat % 16).digitChar]
  else [c]

def hexValue (c : Char) : ℕ := if c.isDigit then c.toNat - 48 else c.toNat - 87

/-- The text up to the closing quote, and what follows it. -/
def readString : List Char → Option (List Char × List Char)
  | [] => none
  | c :: rest =>
    if c = quote then some ([], rest)
    else if c = backslash then
      match rest with
      | 'u' :: w :: x :: y :: z :: rest =>
        (readString rest).map fun read =>
          (Char.ofNat (hexValue w * 4096 + hexValue x * 256 + hexValue y * 16 + hexValue z) :: read.1, read.2)
      | escaped :: rest => (readString rest).map fun read => (escaped :: read.1, read.2)
      | [] => none
    else (readString rest).map fun read => (c :: read.1, read.2)

theorem hexValue_digitChar {n : ℕ} (h : n < 16) : hexValue n.digitChar = n := by
  interval_cases n <;> rfl

theorem readString_escape (c : Char) (rest : List Char) :
    readString (escape c ++ rest) = (readString rest).map fun read => (c :: read.1, read.2) := by
  unfold escape
  split_ifs with hquote hbackslash hcontrol
  · subst hquote
    rfl
  · subst hbackslash
    rfl
  · have hchar : Char.ofNat (hexValue '0' * 4096 + hexValue '0' * 256 + c.toNat / 16 * 16 + c.toNat % 16) = c := by
      have hzero : hexValue '0' = 0 := rfl
      have hsum : hexValue '0' * 4096 + hexValue '0' * 256 + c.toNat / 16 * 16 + c.toNat % 16 = c.toNat := by omega
      rw [hsum, Char.ofNat_toNat]
    have hread : ∀ y z, readString (backslash :: 'u' :: '0' :: '0' :: y :: z :: rest) = (readString rest).map fun read =>
        (Char.ofNat (hexValue '0' * 4096 + hexValue '0' * 256 + hexValue y * 16 + hexValue z) :: read.1, read.2) :=
      fun y z => rfl
    rw [List.cons_append, List.cons_append, List.cons_append, List.cons_append, List.cons_append, List.cons_append,
      List.nil_append, hread, hexValue_digitChar (by omega), hexValue_digitChar (by omega), hchar]
  · rw [List.singleton_append]
    conv_lhs => unfold readString
    rw [if_neg hquote, if_neg hbackslash]

theorem readString_escaped (text rest : List Char) :
    readString (text.flatMap escape ++ quote :: rest) = some (text, rest) := by
  induction text with
  | nil =>
    rw [List.flatMap_nil, List.nil_append]
    unfold readString
    exact if_pos rfl
  | cons c text ih => rw [List.flatMap_cons, List.append_assoc, readString_escape, ih, Option.map_some]

/-- The text of a field. Only strings and integers are printed in full. -/
def fieldText : Json → List Char
  | .string text => quote :: (text.toList.flatMap escape ++ [quote])
  | .number (.finite value) =>
    if value < 0 then '-' :: Nat.toDigits 10 value.num.natAbs else Nat.toDigits 10 value.num.natAbs
  | _ => "null".toList

def readNumber (text : List Char) : ℕ × List Char := (Decimal.value (text.takeWhile Char.isDigit), text.dropWhile Char.isDigit)

def readField : List Char → Option (Json × List Char)
  | [] => none
  | c :: rest =>
    if c = quote then (readString rest).map fun read => (.string (String.ofList read.1), read.2)
    else if c = '-' then some (.number (.finite (-((readNumber rest).1 : ℤ) : ℤ)), (readNumber rest).2)
    else if c.isDigit then some (.number (.finite ((readNumber (c :: rest)).1 : ℤ)), (readNumber (c :: rest)).2)
    else none

/-- The fields of an array and the closing bracket. -/
def fieldsText : List Json → List Char
  | [] => [']']
  | [field] => fieldText field ++ [']']
  | field :: next :: fields => fieldText field ++ ',' :: fieldsText (next :: fields)

def readFields : ℕ → List Char → Option (List Json)
  | 0, _ => none
  | fuel + 1, text =>
    (readField text).bind fun
      | (field, [']']) => some [field]
      | (field, ',' :: rest) => (readFields fuel rest).map (field :: ·)
      | _ => none

def stringify : Json → String
  | .array fields => String.ofList ('[' :: fieldsText fields)
  | value => String.ofList (fieldText value)

def parse (text : String) : Except String Json :=
  match text.toList with
  | ['[', ']'] => .ok (.array [])
  | '[' :: rest =>
    match readFields rest.length rest with
    | some fields => .ok (.array fields)
    | none => .error "SyntaxError"
  | _ => .error "SyntaxError"

/-- A string or a safe integer. -/
def Flat (field : Json) : Prop :=
  (∃ text, field = .string text) ∨ ∃ n : ℤ, |n| ≤ (maxSafeInteger : ℤ) ∧ field = .number (.finite n)

variable {field : Json} {fields : List Json} {c : Char} {rest : List Char} {n : ℕ}

theorem readNumber_toDigits (hc : c.isDigit = false) : readNumber (Nat.toDigits 10 n ++ c :: rest) = (n, c :: rest) := by
  have hdigits : ∀ d ∈ Nat.toDigits 10 n, d.isDigit = true := fun d hd =>
    Nat.isDigit_of_mem_toDigits (by norm_num) (by norm_num) hd
  rw [readNumber, List.takeWhile_append_of_pos hdigits, List.dropWhile_append_of_pos hdigits]
  simp [hc, Decimal.value_toDigits]

theorem readField_fieldText (h : field.Flat) (hc : c.isDigit = false) :
    readField (fieldText field ++ c :: rest) = some (field, c :: rest) := by
  obtain ⟨text, rfl⟩ | ⟨n, _, rfl⟩ := h
  · rw [fieldText, List.cons_append, readField, if_pos rfl, List.append_assoc, List.singleton_append, readString_escaped,
      Option.map_some, String.ofList_toList]
  · rw [fieldText]
    split_ifs with hneg
    · have hminus : '-' ≠ quote := by decide
      have hn : -(n.natAbs : ℤ) = n := by
        have : n < 0 := by exact_mod_cast hneg
        omega
      rw [List.cons_append, readField, if_neg hminus, if_pos rfl, Rat.num_intCast, readNumber_toDigits hc, hn]
    · have hn : (n.natAbs : ℤ) = n := by
        have : ¬ n < 0 := by exact_mod_cast hneg
        omega
      rw [Rat.num_intCast]
      obtain ⟨d, digits, hdigits⟩ := List.exists_cons_of_ne_nil (Nat.toDigits_ne_nil (b := 10) (n := n.natAbs))
      have hd : d.isDigit = true :=
        Nat.isDigit_of_mem_toDigits (n := n.natAbs) (by norm_num) (by norm_num) (hdigits ▸ List.mem_cons_self)
      have hread : readNumber (Nat.toDigits 10 n.natAbs ++ c :: rest) = (n.natAbs, c :: rest) := readNumber_toDigits hc
      rw [hdigits, List.cons_append] at hread ⊢
      have hquote : d ≠ quote := by
        rintro rfl
        cases hd
      have hminus : d ≠ '-' := by
        rintro rfl
        cases hd
      rw [readField, if_neg hquote, if_neg hminus, if_pos hd, hread, hn]

theorem readFields_fieldsText (hflat : ∀ field ∈ fields, field.Flat) (hne : fields ≠ []) (hn : fields.length ≤ n) :
    readFields n (fieldsText fields) = some fields := by
  induction fields using fieldsText.induct generalizing n with
  | case1 => exact absurd rfl hne
  | case2 field =>
    obtain ⟨m, rfl⟩ : ∃ m, n = m + 1 := ⟨n - 1, by simp only [List.length_singleton] at hn; omega⟩
    rw [fieldsText, readFields, readField_fieldText (hflat field List.mem_cons_self) rfl]
    rfl
  | case3 field next fields ih =>
    obtain ⟨m, rfl⟩ : ∃ m, n = m + 1 := ⟨n - 1, by simp only [List.length_cons] at hn; omega⟩
    rw [fieldsText, readFields, readField_fieldText (hflat field List.mem_cons_self) rfl]
    change (readFields m (fieldsText (next :: fields))).map (field :: ·) = _
    rw [ih (fun f hf => hflat f (List.mem_cons_of_mem field hf)) (List.cons_ne_nil _ _) (by simpa using hn), Option.map_some]

theorem length_fieldsText : fields.length ≤ (fieldsText fields).length := by
  induction fields using fieldsText.induct with
  | case1 => simp
  | case2 field => simp [fieldsText]
  | case3 field next fields ih =>
    simp only [fieldsText, List.length_append, List.length_cons] at ih ⊢
    omega

theorem parse_stringify (h : ∀ field ∈ fields, field.Flat) : parse (stringify (.array fields)) = .ok (.array fields) := by
  rw [stringify, parse, String.toList_ofList]
  by_cases hne : fields = []
  · subst hne
    rfl
  · have hread := readFields_fieldsText h hne length_fieldsText
    split
    · next heq =>
      rw [List.cons.inj heq |>.2] at hread
      cases hread
    · next heq =>
      rw [← (List.cons.inj heq).2, hread]
    · next hnot => exact absurd rfl (hnot _)

theorem stringify_ne (value : Json) : stringify value ≠ "" := by
  have hfield : fieldText value ≠ [] := by
    unfold fieldText
    split
    · exact List.cons_ne_nil _ _
    · split_ifs
      · exact List.cons_ne_nil _ _
      · exact Nat.toDigits_ne_nil
    · decide
  unfold stringify
  split
  · simp
  · simpa using hfield

end Json

/-- JSON, UTF-8 and base64url. -/
def CursorCodec.platform : CursorCodec where
  Bytes := List UInt8
  stringify := Json.stringify
  parse := Json.parse
  fromText text := text.toUTF8.data.toList
  toText bytes := (String.fromUTF8? ⟨bytes.toArray⟩).getD ""
  encode bytes := String.ofList (Base64.encode .url false bytes)
  decode text := Base64.decode .url text.toList

theorem CursorCodec.platform_lawful : CursorCodec.platform.Lawful where
  parse_stringify fields h := Json.parse_stringify h
  stringify_ne := Json.stringify_ne
  toText_fromText text := by
    change (String.fromUTF8? ⟨text.toUTF8.data.toList.toArray⟩).getD "" = text
    rw [Array.toArray_toList]
    have hvalid : String.fromUTF8? text.toUTF8 = some text := dif_pos text.isValidUTF8
    exact congrArg (fun read : Option String => read.getD "") hvalid
  decode_encode bytes := by
    change Base64.decode .url (String.ofList (Base64.encode .url false bytes)).toList = bytes
    rw [String.toList_ofList]
    exact Base64.decode_encode .url false bytes
  toText_empty := by
    change (String.fromUTF8? ⟨[].toArray⟩).getD "" = ""
    rw [String.fromUTF8?]
    split <;> rfl
  letters bytes c hc := by
    change c ∈ (String.ofList (Base64.encode .url false bytes)).toList at hc
    rw [String.toList_ofList] at hc
    have hletters : Base64.Alphabet.url.letters.all isBase64Url = true := by decide +kernel
    rcases Base64.mem_encode hc with h | ⟨h, _⟩
    · exact List.all_eq_true.mp hletters c h
    · cases h

end EffectMQ
