import Mathlib

/-!
# Base64

Three bytes are four letters, each worth six bits; one or two bytes at the end are two or three letters, which padding may
follow. What is encoded is decoded.
-/

namespace Base64

/-- Sixty-four letters, none of which is the padding. -/
structure Alphabet where
  letters : List Char
  length_letters : letters.length = 64
  nodup : letters.Nodup
  pad_notMem : '=' ∉ letters

variable {A : Alphabet} {l : List UInt8} {n k : ℕ}

namespace Alphabet

def letter (A : Alphabet) (n : ℕ) : Char := A.letters.getD n 'A'

def value (A : Alphabet) (c : Char) : ℕ := A.letters.idxOf c

theorem letter_eq (h : n < 64) : A.letter n = A.letters.get ⟨n, A.length_letters ▸ h⟩ := by
  exact List.getD_eq_getElem _ _ (A.length_letters ▸ h)

theorem letter_mem (h : n < 64) : A.letter n ∈ A.letters := by
  rw [letter_eq h]
  exact List.get_mem _ _

theorem value_letter (h : n < 64) : A.value (A.letter n) = n := by
  rw [value, letter_eq h]
  exact A.nodup.idxOf_getElem n (A.length_letters ▸ h)

end Alphabet

/-- The six-bit groups of bytes. -/
def sextets : List UInt8 → List ℕ
  | a :: b :: c :: rest =>
    a.toNat / 4 :: (a.toNat % 4 * 16 + b.toNat / 16) :: (b.toNat % 16 * 4 + c.toNat / 64) :: c.toNat % 64 :: sextets rest
  | [a, b] => [a.toNat / 4, a.toNat % 4 * 16 + b.toNat / 16, b.toNat % 16 * 4]
  | [a] => [a.toNat / 4, a.toNat % 4 * 16]
  | [] => []

/-- The bytes of six-bit groups. -/
def bytes : List ℕ → List UInt8
  | w :: x :: y :: z :: rest =>
    .ofNat (w * 4 + x / 16) :: .ofNat (x % 16 * 16 + y / 4) :: .ofNat (y % 4 * 64 + z) :: bytes rest
  | [w, x, y] => [.ofNat (w * 4 + x / 16), .ofNat (x % 16 * 16 + y / 4)]
  | [w, x] => [.ofNat (w * 4 + x / 16)]
  | _ => []

theorem ofNat_eq {b : UInt8} (h : n = b.toNat) : UInt8.ofNat n = b := by
  rw [h, UInt8.ofNat_toNat]

theorem bytes_sextets (l : List UInt8) : bytes (sextets l) = l := by
  induction l using sextets.induct with
  | case1 a b c rest ih =>
    have ha := a.toNat_lt
    have hb := b.toNat_lt
    have hc := c.toNat_lt
    rw [sextets, bytes, ih, ofNat_eq (b := a) (by omega), ofNat_eq (b := b) (by omega), ofNat_eq (b := c) (by omega)]
  | case2 a b =>
    have ha := a.toNat_lt
    have hb := b.toNat_lt
    rw [sextets, bytes, ofNat_eq (b := a) (by omega), ofNat_eq (b := b) (by omega)]
  | case3 a =>
    have ha := a.toNat_lt
    rw [sextets, bytes, ofNat_eq (b := a) (by omega)]
  | case4 => rfl

theorem lt_of_mem_sextets (h : n ∈ sextets l) : n < 64 := by
  induction l using sextets.induct with
  | case1 a b c rest ih =>
    have ha := a.toNat_lt
    have hb := b.toNat_lt
    have hc := c.toNat_lt
    simp only [sextets, List.mem_cons] at h
    rcases h with h | h | h | h | h
    · omega
    · omega
    · omega
    · omega
    · exact ih h
  | case2 a b =>
    have ha := a.toNat_lt
    have hb := b.toNat_lt
    simp only [sextets, List.mem_cons, List.not_mem_nil, or_false] at h
    omega
  | case3 a =>
    have ha := a.toNat_lt
    simp only [sextets, List.mem_cons, List.not_mem_nil, or_false] at h
    omega
  | case4 => cases h

/-- Letters for bytes, followed by padding where it is asked for. -/
def encode (A : Alphabet) (padded : Bool) (l : List UInt8) : List Char :=
  let letters := (sextets l).map A.letter
  letters ++ if padded then List.replicate ((4 - letters.length % 4) % 4) '=' else []

/-- The bytes of the letters before anything else. -/
def decode (A : Alphabet) (text : List Char) : List UInt8 :=
  bytes ((text.takeWhile fun c => c ∈ A.letters).map A.value)

theorem mem_of_mem_letters {c : Char} (h : c ∈ (sextets l).map A.letter) : c ∈ A.letters := by
  obtain ⟨n, hn, rfl⟩ := List.mem_map.mp h
  exact A.letter_mem (lt_of_mem_sextets hn)

theorem decode_encode (A : Alphabet) (padded : Bool) (l : List UInt8) : decode A (encode A padded l) = l := by
  have htake : (encode A padded l).takeWhile (fun c => c ∈ A.letters) = (sextets l).map A.letter := by
    rw [encode, List.takeWhile_append_of_pos fun c hc => decide_eq_true (mem_of_mem_letters hc)]
    cases padded with
    | false => simp
    | true =>
      simp only [if_true]
      cases (4 - ((sextets l).map A.letter).length % 4) % 4 with
      | zero => simp
      | succ k => simp [List.replicate_succ, A.pad_notMem]
  have hvalues : ((sextets l).map A.letter).map A.value = sextets l := by
    rw [List.map_map]
    conv_rhs => rw [← List.map_id (sextets l)]
    apply List.map_congr_left
    intro n hn
    exact A.value_letter (lt_of_mem_sextets hn)
  rw [decode, htake, hvalues, bytes_sextets]

theorem mem_encode {padded : Bool} {c : Char} (h : c ∈ encode A padded l) : c ∈ A.letters ∨ padded = true ∧ c = '=' := by
  rcases List.mem_append.mp h with h | h
  · exact Or.inl (mem_of_mem_letters h)
  · cases padded with
    | false => cases h
    | true => exact Or.inr ⟨rfl, List.eq_of_mem_replicate h⟩

/-- The alphabet of URLs. -/
def Alphabet.url : Alphabet where
  letters := "ABCDEFGHIJKLMNOPQRSTUVWXYZabcdefghijklmnopqrstuvwxyz0123456789-_".toList
  length_letters := by decide
  nodup := by decide
  pad_notMem := by decide

/-- The alphabet of other texts. -/
def Alphabet.standard : Alphabet where
  letters := "ABCDEFGHIJKLMNOPQRSTUVWXYZabcdefghijklmnopqrstuvwxyz0123456789+/".toList
  length_letters := by decide
  nodup := by decide
  pad_notMem := by decide

/-- Groups of four letters, of which the last may end in padding. -/
def isPadded (A : Alphabet) : List Char → Bool
  | [] => true
  | a :: b :: c :: d :: rest =>
    if d ∈ A.letters then a ∈ A.letters && b ∈ A.letters && c ∈ A.letters && isPadded A rest
    else rest = [] && a ∈ A.letters && b ∈ A.letters && (c ∈ A.letters || c = '=') && d = '='
  | _ => false

/-- Three bytes at the front are four letters at the front. -/
theorem encode_cons (A : Alphabet) (a b c : UInt8) (l : List UInt8) : ∃ w x y z, (w ∈ A.letters ∧ x ∈ A.letters ∧ y ∈ A.letters ∧
    z ∈ A.letters) ∧ encode A true (a :: b :: c :: l) = w :: x :: y :: z :: encode A true l := by
  have hletters : ∀ n ∈ sextets (a :: b :: c :: l), A.letter n ∈ A.letters := fun n hn => A.letter_mem (lt_of_mem_sextets hn)
  simp only [sextets, List.mem_cons, forall_eq_or_imp] at hletters
  obtain ⟨hw, hx, hy, hz, _⟩ := hletters
  refine ⟨_, _, _, _, ⟨hw, hx, hy, hz⟩, ?_⟩
  rw [encode, sextets, encode]
  simp only [List.map_cons, List.length_cons, List.cons_append, if_true]
  congr 7
  omega

theorem isPadded_encode (A : Alphabet) (l : List UInt8) : isPadded A (encode A true l) = true := by
  induction l using sextets.induct with
  | case1 a b c rest ih =>
    obtain ⟨w, x, y, z, ⟨hw, hx, hy, hz⟩, heq⟩ := encode_cons A a b c rest
    rw [heq, isPadded, if_pos hz]
    simp [hw, hx, hy, ih]
  | case2 a b =>
    have hletters : ∀ n ∈ sextets [a, b], A.letter n ∈ A.letters := fun n hn => A.letter_mem (lt_of_mem_sextets hn)
    simp only [sextets, List.mem_cons, List.not_mem_nil, or_false, forall_eq_or_imp, forall_eq] at hletters
    simp [encode, sextets, isPadded, A.pad_notMem, hletters]
  | case3 a =>
    have hletters : ∀ n ∈ sextets [a], A.letter n ∈ A.letters := fun n hn => A.letter_mem (lt_of_mem_sextets hn)
    simp only [sextets, List.mem_cons, List.not_mem_nil, or_false, forall_eq_or_imp, forall_eq] at hletters
    simp [encode, sextets, isPadded, A.pad_notMem, hletters, List.replicate_succ]
  | case4 => simp [encode, sextets, isPadded]

theorem length_encode (A : Alphabet) (l : List UInt8) : (encode A true l).length % 4 = 0 := by
  induction l using sextets.induct with
  | case1 a b c rest ih =>
    obtain ⟨w, x, y, z, _, heq⟩ := encode_cons A a b c rest
    rw [heq]
    simp only [List.length_cons]
    omega
  | case2 | case3 | case4 => simp [encode, sextets]

theorem encode_ne_nil (h : l ≠ []) : encode A true l ≠ [] := by
  intro heq
  apply h
  rw [← decode_encode A true l, heq]
  rfl

end Base64
